import BoundedLoop.Compile
import BoundedLoop.Proofs.LeftmostProblem
import BoundedLoop.Proofs.Lexing.Recased

/-!
# The case of letters

Keywords, `YES` and `NO` may be written in upper and lower case: to change letters there changes no token
(`Token.scan_recased`), and so nothing that is compiled. Names and labels are kept as they are written, and
no name is a reserved word in other letters.

Main statement: `Token.scan_letterCase`.
-/

namespace BoundedLoop

namespace Token

section Variants

variable {may : Nat → Prop} {used used' ls ls' : List Lexeme} {t : Token} {ts : List Token}

/-- The variants of lexemes make the same token; of a name they must be exact. -/
theorem MadeFrom.recased (h : MadeFrom used t) (hvariants : List.Forall₂ (Lexeme.Variant may) used' used)
    (hname : t.kind = .identifier → ∀ i, t.span.Covers i → ¬may i) : MadeFrom used' t := by
  have hsingle : ∀ {l : Lexeme}, used = [l] → ∃ l', used' = [l'] ∧ Lexeme.Variant may l' l := by
    rintro l rfl
    obtain ⟨l', rest, hl', hrest, rfl⟩ := List.forall₂_cons_right_iff.1 hvariants
    rw [List.forall₂_nil_right_iff.1 hrest]
    exact ⟨l', rfl, hl'⟩
  have hexact : ∀ {l : Lexeme}, used = [l] → l.reading ≠ .ok .word → used' = [l] := by
    intro l hused hword
    obtain ⟨l', rfl, hl'⟩ := hsingle hused
    rw [hl'.eq_of_ne_word hword]
  cases h with
  | symbol h =>
    rw [hexact rfl (by simp [h])]
    exact .symbol h
  | number h =>
    rw [hexact rfl (by simp [h])]
    exact .number h
  | label h =>
    rw [hexact rfl (by simp [h])]
    exact .label h
  | name h hword =>
    obtain ⟨l', rfl, hl'⟩ := hsingle rfl
    rw [hl'.eq_of_not_may (hname rfl)]
    exact .name h hword
  | keyword h hword =>
    obtain ⟨l', rfl, hl'⟩ := hsingle rfl
    rw [← hl'.reservedToken]
    rw [← hl'.reading] at h
    rw [← hl'.lower] at hword
    exact .keyword h hword
  | boolean h hword =>
    obtain ⟨l', rfl, hl'⟩ := hsingle rfl
    rw [← hl'.reservedToken]
    rw [← hl'.reading] at h
    rw [← hl'.lower] at hword
    exact .boolean h hword
  | pair h hword hnext =>
    obtain ⟨l', rest, hl', hrest, rfl⟩ := List.forall₂_cons_right_iff.1 hvariants
    obtain ⟨next', rest, hnext', hnil, rfl⟩ := List.forall₂_cons_right_iff.1 hrest
    rw [List.forall₂_nil_right_iff.1 hnil, ← hl'.pairToken hnext']
    rw [← hl'.reading] at h
    rw [← hl'.lower] at hword
    rw [← hnext'.completion?] at hnext
    exact .pair h hword hnext

theorem Grouped.recased (h : Grouped ls ts) (hvariants : List.Forall₂ (Lexeme.Variant may) ls' ls)
    (hname : ∀ t ∈ ts, t.kind = .identifier → ∀ i, t.span.Covers i → ¬may i) : Grouped ls' ts := by
  induction h generalizing ls' with
  | nil =>
    rw [List.forall₂_nil_right_iff.1 hvariants]
    exact .nil
  | @cons used ls t ts hmade _ ih =>
    obtain ⟨hname', hname⟩ := List.forall_mem_cons.1 hname
    rw [← List.take_append_drop used.length ls']
    exact .cons (hmade.recased (List.forall₂_take_append _ _ _ hvariants) hname')
      (ih (List.forall₂_drop_append _ _ _ hvariants) hname)

end Variants

/-! ### Tokens and the texts they keep -/

section Source

variable {source source' : String} {ls : List Lexeme} {t : Token} {tokens ts : List Token}

theorem MadeFrom.exists_reading {used : List Lexeme} (h : MadeFrom used t) {l : Lexeme} (hl : l ∈ used) :
    ∃ s, l.reading = .ok s ∧ ∀ content, s = .quoted content → t = l.token .label (some (.label content)) := by
  cases h with
  | symbol h | number h | label h | name h | keyword h | boolean h =>
    obtain rfl := List.mem_singleton.1 hl
    exact ⟨_, h, by simp⟩
  | pair h _ hnext =>
    rcases List.mem_pair.1 hl with rfl | rfl
    · exact ⟨_, h, by simp⟩
    · exact ⟨_, (completion?_eq_some_iff.1 hnext).1, by simp⟩

theorem MadeFrom.exists_of_identifier {used : List Lexeme} (h : MadeFrom used t)
    (ht : t.kind = .identifier) : ∃ l, used = [l] ∧ Word.ofLower l.lower = .name ∧
      t = l.token .identifier (some (.name l.text)) := by
  cases h with
  | name _ hword => exact ⟨_, rfl, hword, rfl⟩
  | _ => cases ht

theorem MadeFrom.exists_of_label {used : List Lexeme} (h : MadeFrom used t) (ht : t.kind = .label) :
    ∃ l content, used = [l] ∧ l.reading = .ok (.quoted content) ∧
      t = l.token .label (some (.label content)) := by
  cases h with
  | label h => exact ⟨_, _, rfl, h, rfl⟩
  | _ => cases ht

/-- No byte belongs to two tokens. -/
theorem eq_of_covers (hordered : ts.Pairwise fun t t' => t.span.stop ≤ t'.span.start) {t' : Token}
    (ht : t ∈ ts) (ht' : t' ∈ ts) {i : Nat} (hi : t.span.Covers i) (hi' : t'.span.Covers i) : t = t' := by
  by_contra hne
  have hsymm : Std.Symm fun t t' : Token => t.span.stop ≤ t'.span.start ∨ t'.span.stop ≤ t.span.start :=
    ⟨fun _ _ => Or.symm⟩
  have hpairs : ts.Pairwise fun t t' => t.span.stop ≤ t'.span.start ∨ t'.span.stop ≤ t.span.start :=
    hordered.imp Or.inl
  have hapart := hpairs.forall ht ht' hne
  unfold Span.Covers at hi hi'
  omega

/-- The byte `i` belongs to a token that is neither a name nor a label. -/
def ApartFromNames (tokens : List Token) (i : Nat) : Prop :=
  ∃ t ∈ tokens, t.kind ≠ .identifier ∧ t.kind ≠ .label ∧ t.span.Covers i

instance (tokens : List Token) : DecidablePred (ApartFromNames tokens) := fun i =>
  inferInstanceAs (Decidable (∃ t ∈ tokens, t.kind ≠ .identifier ∧ t.kind ≠ .label ∧
    t.span.start ≤ i ∧ i < t.span.stop))

theorem scan_recased (h : scan source = .ok tokens)
    (hsame : Text.Recased (ApartFromNames tokens) 0 source.toList source'.toList) :
    scan source' = .ok tokens := by
  obtain ⟨ts, rfl, hts⟩ := exists_grouped h
  generalize hlast : endOf (Text.Place.after {} source.toList) = last at *
  have hordered : (ts ++ [last]).Pairwise fun t t' => t.span.stop ≤ t'.span.start := by
    rw [← hlast]
    exact hts.tiles.ordered
  -- names and labels are not changed, since no other token is where they are
  have hkept : ∀ t ∈ ts, t.kind = .identifier ∨ t.kind = .label →
      ∀ i, t.span.Covers i → ¬ApartFromNames (ts ++ [last]) i := by
    rintro t ht hkind i hi ⟨t', ht', hname, hlabel, hi'⟩
    obtain rfl := eq_of_covers hordered (List.mem_append_left _ ht) ht' hi hi'
    exact hkind.elim hname hlabel
  have hok : ∀ l ∈ Lexeme.all source, ∃ s, l.reading = .ok s := by
    intro l hl
    obtain ⟨used, t, -, hmade, hl, -⟩ := hts.exists_made hl
    obtain ⟨s, hs, -⟩ := hmade.exists_reading hl
    exact ⟨s, hs⟩
  have hquoted : ∀ l ∈ Lexeme.all source, ∀ content, l.reading = .ok (.quoted content) →
      ∀ i, l.site.span.Covers i → ¬ApartFromNames (ts ++ [last]) i := by
    intro l hl content hcontent
    obtain ⟨used, t, -, hmade, hl, ht⟩ := hts.exists_made hl
    obtain ⟨s, hs, hlabel⟩ := hmade.exists_reading hl
    obtain rfl := hlabel content (Except.ok.inj (hs.symm.trans hcontent))
    exact hkept _ ht (.inr rfl)
  obtain ⟨ls', htiled, hvariants⟩ := (Lexeme.tiled_allFrom {} source.toList).recased hsame hok hquoted
  have hts' := hts.recased hvariants fun t ht hkind => hkept t ht (.inl hkind)
  rw [scan, htiled.allFrom_eq, hsame.sameLetters.after_eq, hlast]
  exact hts'.ofLexemes_eq last

theorem exists_madeFrom_of_scan (h : scan source = .ok tokens) (ht : t ∈ tokens) (hkind : t.kind ≠ .eof) :
    ∃ used, used <:+: Lexeme.all source ∧ MadeFrom used t := by
  obtain ⟨ts, rfl, hts⟩ := exists_grouped h
  rcases List.mem_append.1 ht with ht | ht
  · exact hts.exists_of_mem ht
  · rw [List.mem_singleton.1 ht] at hkind
    exact absurd rfl hkind

end Source

/-- Keywords, `YES` and `NO` may be in any case; names and labels are kept as they are written. -/
theorem scan_letterCase {source : String} {tokens : List Token} (h : scan source = .ok tokens) :
    (∀ source', Text.Recased (ApartFromNames tokens) 0 source.toList source'.toList →
      scan source' = .ok tokens ∧ compile source' = compile source) ∧
    (∀ t ∈ tokens, t.kind = .identifier → ∃ name, t.name? = some name ∧
      Text.StandsAt source t.span name.toList ∧
      name.toLower ∉ ["if", "then", "else", "loop", "times", "not", "and", "or", "output", "yes", "no",
        "define", "end", "quit", "abort"]) ∧
    ∀ t ∈ tokens, t.kind = .label → ∃ content, t.label? = some content ∧
      Text.StandsAt source t.span ('"' :: (content.toList ++ ['"'])) := by
  refine ⟨fun source' hsame => ?_, fun t ht hkind => ?_, fun t ht hkind => ?_⟩
  · have hscan := scan_recased h hsame
    refine ⟨hscan, ?_⟩
    unfold compile
    rw [hscan, h]
  · obtain ⟨used, hused, hmade⟩ := exists_madeFrom_of_scan h ht (by simp [hkind])
    obtain ⟨l, rfl, hword, rfl⟩ := hmade.exists_of_identifier hkind
    refine ⟨l.text, rfl, ?_, ?_⟩
    · rw [Lexeme.text, String.toList_ofList]
      exact Lexeme.standsAt_of_mem_all (hused.subset List.mem_cons_self)
    · rw [l.toLower_text]
      exact Word.not_mem_reserved hword
  · obtain ⟨used, hused, hmade⟩ := exists_madeFrom_of_scan h ht (by simp [hkind])
    obtain ⟨l, content, rfl, hreading, rfl⟩ := hmade.exists_of_label hkind
    have hl := hused.subset List.mem_cons_self
    have hchars : l.chars = '"' :: (content.toList ++ ['"']) := (Lexeme.sound_of_mem_all hl _ hreading).2
    refine ⟨content, rfl, ?_⟩
    rw [← hchars]
    exact Lexeme.standsAt_of_mem_all hl

/-- The second half of a keyword is a name by itself, and a label may hold a whole keyword. -/
def mixedText : String :=
  "Define procedure \"End If\" [Procedure, ifs?]\nif Yes then"

def mixedText' : String :=
  "DEFINE PrOcEdUrE \"End If\" [Procedure, ifs?]\nIF yeS tHEn"

theorem scan_letterCase_mixedText : ∃ tokens, scan mixedText = .ok tokens ∧
    Text.Recased (ApartFromNames tokens) 0 mixedText.toList mixedText'.toList ∧
    scan mixedText' = .ok tokens ∧ compile mixedText' = compile mixedText ∧
    (∃ t ∈ tokens, t.name? = some "Procedure" ∧ Text.StandsAt mixedText t.span "Procedure".toList) ∧
    ∃ t ∈ tokens, t.label? = some "End If" ∧ Text.StandsAt mixedText t.span "\"End If\"".toList := by
  have hfacts : (scan mixedText).toOption.map (fun tokens =>
      decide (Text.Recased (ApartFromNames tokens) 0 mixedText.toList mixedText'.toList ∧
        (∃ t ∈ tokens, t.kind = .identifier ∧ t.name? = some "Procedure") ∧
        ∃ t ∈ tokens, t.kind = .label ∧ t.label? = some "End If")) = some true := by decide +kernel
  cases hscan : scan mixedText with
  | error e =>
    rw [hscan] at hfacts
    cases hfacts
  | ok tokens =>
    rw [hscan] at hfacts
    obtain ⟨hsame, ⟨t, ht, hkind, hname⟩, t', ht', hkind', hlabel⟩ :=
      of_decide_eq_true (Option.some.inj hfacts)
    obtain ⟨halike, hnames, hlabels⟩ := scan_letterCase hscan
    obtain ⟨hscan', hcompile⟩ := halike mixedText' hsame
    refine ⟨tokens, rfl, hsame, hscan', hcompile, ⟨t, ht, hname, ?_⟩, t', ht', hlabel, ?_⟩
    · obtain ⟨name, hname', hstands, -⟩ := hnames t ht hkind
      cases hname.symm.trans hname'
      exact hstands
    · obtain ⟨content, hlabel', hstands⟩ := hlabels t' ht' hkind'
      cases hlabel.symm.trans hlabel'
      exact hstands

end Token

end BoundedLoop
