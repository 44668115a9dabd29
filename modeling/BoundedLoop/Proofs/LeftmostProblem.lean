import BoundedLoop.Proofs.Lexing.Places
import BoundedLoop.Proofs.Lexing.Words
import BoundedLoop.Proofs.LongestMatch

/-!
# The leftmost problem, or all tokens

A lexeme cannot be scanned if it has a flaw of its own, or if it is the first half of a keyword and what
follows is not the second half (`Lexeme.Fails`). A scan reports the leftmost such lexeme of the text. If
there is none, it gives tokens that tile the text as the lexemes do, in the order of their places, each
quoting the text that it spans (`Token.Tiles`).

Main statement: `Token.scan_outcome`.
-/

namespace BoundedLoop

theorem Except.map_eq_error_iff {ε α β : Type} {f : α → β} {r : Except ε α} {e : ε} :
    f <$> r = .error e ↔ r = .error e := by
  cases r with
  | ok a => simp [Functor.map, Except.map]
  | error e => simp [Functor.map, Except.map]

/-- The keywords that are written as two words. -/
def Keyword.isPair : Keyword → Bool
  | defineProcedure | endProcedure | quitProcedure | endIf | abortLoop | endLoop => true
  | _ => false

theorem Keyword.not_isPair_of_ofLower {w : String} {k : Keyword} (h : Word.ofLower w = .keyword k) :
    k.isPair = false := by
  have hall : ∀ e ∈ Word.reserved, e.2 = .keyword k → k.isPair = false := by
    cases k <;> decide
  exact hall _ (Word.mem_reserved_of_ofLower h (by simp)) rfl

theorem Keyword.isPair_of_complete? {stem : Stem} {w : String} {k : Keyword}
    (h : stem.complete? w = some k) : k.isPair = true := by
  cases stem <;> simp only [Stem.complete?] at h <;> split_ifs at h <;> cases h <;> rfl

/-! ### Problems -/

/-- What is wrong with a lexeme that is followed by `next`. -/
inductive Lexeme.Fails (l : Lexeme) (next : Option Lexeme) : ScanProblem → Prop where
  | flaw {f : Lexeme.Flaw} (h : l.reading = .error f) : Fails l next (.flaw f)
  | incomplete {stem : Stem} (h : l.reading = .ok .word) (hstem : l.upper = stem.name)
      (hnext : ∀ n ∈ next, ¬n.Completes stem) : Fails l next (.incompleteKeyword stem)

/-- The error is what is wrong with one of the lexemes. -/
def ScanError.Among (e : ScanError) (ls : List Lexeme) : Prop :=
  ∃ (before : List Lexeme) (l : Lexeme) (behind : List Lexeme),
    ls = before ++ l :: behind ∧ l.Fails behind.head? e.problem ∧ e.toSite = l.site

/-- The error is what is wrong with a lexeme behind others that make tokens. -/
def ScanError.Stops (e : ScanError) (ls : List Lexeme) : Prop :=
  ∃ (before : List Lexeme) (l : Lexeme) (behind : List Lexeme) (ts : List Token),
    ls = before ++ l :: behind ∧ Token.Grouped before ts ∧ l.Fails behind.head? e.problem ∧
      e.toSite = l.site

namespace Lexeme.Fails

variable {l : Lexeme} {next : Option Lexeme} {p p' : ScanProblem}

theorem unique (h : l.Fails next p) (h' : l.Fails next p') : p' = p := by
  cases h with
  | flaw h =>
    cases h' with
    | flaw h' =>
      cases h.symm.trans h'
      rfl
    | incomplete h' => cases h.symm.trans h'
  | incomplete h hstem =>
    cases h' with
    | flaw h' => cases h.symm.trans h'
    | incomplete h' hstem' => rw [Stem.name_injective (hstem.symm.trans hstem')]

end Lexeme.Fails

namespace Token

variable {last t : Token} {ls before behind : List Lexeme} {tokens ts : List Token} {e : ScanError}

theorem completes_of_completion? {stem : Stem} {next : Lexeme} {k : Keyword}
    (h : completion? stem next = some k) : next.Completes stem := by
  by_contra hcompletes
  rw [completion?_eq_none_iff.2 hcompletes] at h
  cases h

theorem MadeFrom.not_fails {used : List Lexeme} (h : MadeFrom used t) {l : Lexeme} {p : ScanProblem}
    (hused : used = before ++ l :: behind) (rest : List Lexeme) : ¬l.Fails (behind ++ rest).head? p := by
  intro hfails
  have hl : l ∈ used := hused ▸ List.mem_append_right _ List.mem_cons_self
  cases h with
  | symbol h | number h | label h =>
    obtain rfl := List.mem_singleton.1 hl
    cases hfails <;> cases h.symm.trans ‹_›
  | name h hword | keyword h hword | boolean h hword =>
    obtain rfl := List.mem_singleton.1 hl
    cases hfails with
    | flaw h' => cases h.symm.trans h'
    | incomplete _ hstem => cases hword.symm.trans (Lexeme.ofLower_lower_eq_stem_iff.2 hstem)
  | @pair l' next stem k h hword hnext =>
    have hcompletes := completes_of_completion? hnext
    cases before with
    | nil =>
      cases hused
      cases hfails with
      | flaw h' => cases h.symm.trans h'
      | incomplete _ hstem hnone =>
        cases hword.symm.trans (Lexeme.ofLower_lower_eq_stem_iff.2 hstem)
        exact hnone next rfl hcompletes
    | cons x before =>
      have hl : l ∈ [next] := (List.cons.inj hused).2 ▸ List.mem_append_right _ List.mem_cons_self
      obtain rfl := List.mem_singleton.1 hl
      cases hfails with
      | flaw h' => cases hcompletes.1.symm.trans h'
      | incomplete _ hstem => exact stem.name_not_mem_completions _ (hstem ▸ hcompletes.2)

/-- Nothing is wrong with lexemes that make tokens, whatever follows them. -/
theorem Grouped.not_fails (h : Grouped ls ts) {l : Lexeme} {p : ScanProblem}
    (hls : ls = before ++ l :: behind) (rest : List Lexeme) : ¬l.Fails (behind ++ rest).head? p := by
  induction h generalizing before with
  | nil => simp at hls
  | @cons used ls t ts hmade _ ih =>
    rcases List.append_eq_append_iff.1 hls with ⟨before', rfl, hls'⟩ | ⟨used', hused, hbehind⟩
    · exact ih hls'
    · cases used' with
      | nil =>
        have hfirst : ls = [] ++ l :: behind := hbehind.symm
        exact ih hfirst
      | cons l' used' =>
        rw [List.cons_append] at hbehind
        obtain ⟨rfl, rfl⟩ := List.cons.inj hbehind
        rw [List.append_assoc]
        exact hmade.not_fails hused _

theorem MadeFrom.stops_append {used : List Lexeme} (hmade : MadeFrom used t) (h : e.Stops ls) :
    e.Stops (used ++ ls) := by
  obtain ⟨before, l, behind, ts, rfl, hts, hfails, hsite⟩ := h
  exact ⟨used ++ before, l, behind, t :: ts, by rw [List.append_assoc], .cons hmade hts, hfails, hsite⟩

/-- A scan stops at a lexeme that fails, behind lexemes that make tokens. -/
theorem stops_of_error (h : ofLexemes last ls = .error e) : e.Stops ls := by
  have hrest : ∀ {t : Token} {ls : List Lexeme}, (ofLexemes last ls = .error e → e.Stops ls) →
      (t :: ·) <$> ofLexemes last ls = .error e → e.Stops ls := fun ih h => ih (Except.map_eq_error_iff.1 h)
  fun_induction ofLexemes last ls with
  | case1 => cases h
  | case2 l rest f hreading =>
    cases h
    exact ⟨[], l, rest, [], rfl, .nil, .flaw hreading, rfl⟩
  | case3 l rest s hreading ih => exact (MadeFrom.symbol hreading).stops_append (hrest ih h)
  | case4 l rest n hreading ih => exact (MadeFrom.number hreading).stops_append (hrest ih h)
  | case5 l rest content hreading ih => exact (MadeFrom.label hreading).stops_append (hrest ih h)
  | case6 l rest hreading hword ih => exact (MadeFrom.name hreading hword).stops_append (hrest ih h)
  | case7 l rest hreading k hword ih => exact (MadeFrom.keyword hreading hword).stops_append (hrest ih h)
  | case8 l rest hreading b hword ih => exact (MadeFrom.boolean hreading hword).stops_append (hrest ih h)
  | case9 l hreading stem hword =>
    cases h
    exact ⟨[], l, [], [], rfl, .nil,
      .incomplete hreading (Lexeme.ofLower_lower_eq_stem_iff.1 hword) (by simp), rfl⟩
  | case10 l hreading stem hword next rest hnone =>
    cases h
    refine ⟨[], l, next :: rest, [], rfl, .nil,
      .incomplete hreading (Lexeme.ofLower_lower_eq_stem_iff.1 hword) ?_, rfl⟩
    rintro n ⟨⟩
    exact completion?_eq_none_iff.1 hnone
  | case11 l hreading stem hword next rest k hnext ih =>
    exact (MadeFrom.pair hreading hword hnext).stops_append (hrest ih h)

/-- The problem that a scan reports comes before all others. -/
theorem leftmost_of_error (h : ofLexemes last ls = .error e)
    (hordered : ls.Pairwise fun l l' => l.site.span.start < l'.site.span.start) :
    e.Among ls ∧ ∀ e' : ScanError, e'.Among ls → e' = e ∨ e.span.start < e'.span.start := by
  obtain ⟨before, l, behind, ts, rfl, hts, hfails, hsite⟩ := stops_of_error h
  refine ⟨⟨before, l, behind, rfl, hfails, hsite⟩, ?_⟩
  have hsame : ∀ {e' : ScanError}, l.Fails behind.head? e'.problem → e'.toSite = l.site → e' = e := by
    rintro ⟨site', problem'⟩ hfails' rfl
    obtain ⟨site, problem⟩ := e
    obtain rfl : site = l.site := hsite
    exact congrArg (ScanError.mk l.site) (hfails.unique hfails')
  rintro e' ⟨before', l', behind', hls, hfails', hsite'⟩
  rcases List.append_eq_append_iff.1 hls with ⟨more, rfl, hmore⟩ | ⟨more, rfl, hmore⟩
  · cases more with
    | nil =>
      obtain ⟨rfl, rfl⟩ := List.cons.inj hmore
      exact .inl (hsame hfails' hsite')
    | cons x more =>
      obtain ⟨rfl, rfl⟩ := List.cons.inj hmore
      right
      rw [hsite, hsite']
      have hlater := (List.pairwise_append.1 hordered).2.1
      exact (List.pairwise_cons.1 hlater).1 l' (List.mem_append_right _ List.mem_cons_self)
  · cases more with
    | nil =>
      obtain ⟨rfl, rfl⟩ := List.cons.inj hmore
      exact .inl (hsame hfails' hsite')
    | cons x more =>
      obtain ⟨rfl, rfl⟩ := List.cons.inj hmore
      exact absurd hfails' (hts.not_fails rfl (l :: behind))

theorem not_among_of_ok (h : ofLexemes last ls = .ok tokens) : ¬e.Among ls := by
  rintro ⟨before, l, behind, hls, hfails, -⟩
  obtain ⟨ts, -, hts⟩ := exists_grouped h
  rw [← List.append_nil behind] at hfails
  exact hts.not_fails hls [] hfails

/-! ### Tokens in their text -/

/-- Keywords, `YES` and `NO`: what is the same in upper and lower case. -/
def IsReserved (t : Token) : Prop :=
  (∃ k, t.kind = .keyword k) ∨ ∃ b, t.literal = some (.value (.boolean b))

def IsPair (t : Token) : Prop :=
  ∃ k, t.kind = .keyword k ∧ k.isPair = true

/-- How a token quotes the text that it spans. -/
structure Quotes (source : String) (t : Token) : Prop where
  exactly : ¬t.IsReserved → Text.StandsAt source t.span t.lexeme.toList
  upper : t.IsReserved → ¬t.IsPair → ∃ text, Text.StandsAt source t.span text ∧
    t.lexeme = String.ofList (text.map Char.toUpper)
  /-- A keyword of two words reaches from the first to the end of the second, which are neighbours. -/
  pair : t.IsPair → ∃ stem first gap second, [first, second] <:+: Lexeme.all source ∧
    first.reading = .ok .word ∧ first.upper = stem.name ∧ second.Completes stem ∧
    t.span = ⟨first.site.span.start, second.site.span.stop⟩ ∧
    Text.StandsAt source t.span (first.chars ++ gap ++ second.chars) ∧
    gap ≠ [] ∧ (∀ c ∈ gap, Lexeme.isSeparator c = true) ∧ t.lexeme = first.upper ++ " " ++ second.upper

/-- The tokens of a text, the last of which is its end. -/
structure Tiles (source : String) (tokens : List Token) : Prop where
  finish : ∃ (body : List Token) (last : Token), tokens = body ++ [last] ∧ last.kind = .eof ∧
    last.span = ⟨source.utf8ByteSize, source.utf8ByteSize⟩ ∧
    ∀ t ∈ body, t.kind ≠ .eof ∧ t.span.start < t.span.stop
  ordered : tokens.Pairwise fun t t' => t.span.stop ≤ t'.span.start
  separators : Text.SeparatorsOutside source (tokens.map (·.span))
  quotes : ∀ t ∈ tokens, t.Quotes source
  position : ∀ t ∈ tokens, (t.line, t.column) = Text.position source t.span.start
  ascending : tokens.Pairwise fun t t' => t.line < t'.line ∨ t.line = t'.line ∧ t.column < t'.column

/-- A token begins with its first lexeme and ends with its last. -/
theorem MadeFrom.exists_ends {used : List Lexeme} (h : MadeFrom used t) :
    ∃ first ∈ used, ∃ final ∈ used, t.span = ⟨first.site.span.start, final.site.span.stop⟩ ∧
      t.line = first.place.line ∧ t.column = first.place.column := by
  cases h with
  | @pair l next => exact ⟨l, List.mem_cons_self, next, by simp, rfl, rfl, rfl⟩
  | _ => exact ⟨_, List.mem_cons_self, _, List.mem_cons_self, rfl, rfl, rfl⟩

theorem MadeFrom.covers {used : List Lexeme} (h : MadeFrom used t) {l : Lexeme} (hl : l ∈ used)
    (hspans : ∀ l ∈ used, l.site.span.start < l.site.span.stop)
    (hordered : used.Pairwise fun l l' => l.site.span.stop ≤ l'.site.span.start) :
    t.span.start ≤ l.site.span.start ∧ l.site.span.stop ≤ t.span.stop := by
  cases h with
  | @pair first next =>
    have hbetween := List.pairwise_pair.1 hordered
    have hfirst := hspans first (by simp)
    have hnext := hspans next (by simp)
    show first.site.span.start ≤ l.site.span.start ∧ l.site.span.stop ≤ next.site.span.stop
    rcases List.mem_pair.1 hl with rfl | rfl <;> omega
  | _ =>
    obtain rfl := List.mem_singleton.1 hl
    exact ⟨Nat.le_refl _, Nat.le_refl _⟩

theorem Grouped.ordered (h : Grouped ls ts)
    (hls : ls.Pairwise fun l l' => l.site.span.stop ≤ l'.site.span.start) :
    ts.Pairwise fun t t' => t.span.stop ≤ t'.span.start := by
  induction h with
  | nil => exact .nil
  | @cons used ls t ts hmade hs ih =>
    obtain ⟨-, hls, hbetween⟩ := List.pairwise_append.1 hls
    refine List.pairwise_cons.2 ⟨?_, ih hls⟩
    intro t' ht'
    obtain ⟨used', hused', hmade'⟩ := hs.exists_of_mem ht'
    obtain ⟨_, -, final, hfinal, hspan, -⟩ := hmade.exists_ends
    obtain ⟨first, hfirst, _, -, hspan', -⟩ := hmade'.exists_ends
    rw [hspan, hspan']
    exact hbetween final hfinal first (hused'.subset hfirst)

theorem Grouped.exists_covering (h : Grouped ls ts) {l : Lexeme} (hl : l ∈ ls)
    (hspans : ∀ l ∈ ls, l.site.span.start < l.site.span.stop)
    (hordered : ls.Pairwise fun l l' => l.site.span.stop ≤ l'.site.span.start) :
    ∃ t ∈ ts, t.span.start ≤ l.site.span.start ∧ l.site.span.stop ≤ t.span.stop := by
  obtain ⟨used, t, hused, hmade, hl, ht⟩ := h.exists_made hl
  exact ⟨t, ht, hmade.covers hl (fun l hl => hspans l (hused.subset hl)) (hordered.sublist hused.sublist)⟩

section Source

variable {source : String}

theorem Grouped.start_lt_stop (h : Grouped (Lexeme.all source) ts) (ht : t ∈ ts) :
    t.span.start < t.span.stop := by
  obtain ⟨used, hused, hmade⟩ := h.exists_of_mem ht
  have hspans : ∀ l ∈ used, l.site.span.start < l.site.span.stop := fun l hl =>
    Lexeme.start_lt_stop_of_mem_all (hused.subset hl)
  obtain ⟨first, hfirst, -⟩ := hmade.exists_ends
  obtain ⟨hstart, hstop⟩ := hmade.covers hfirst hspans ((Lexeme.ordered_all source).sublist hused.sublist)
  exact Nat.lt_of_le_of_lt hstart (Nat.lt_of_lt_of_le (hspans first hfirst) hstop)

/-- A token begins where a lexeme begins, and ends within the text. -/
theorem Grouped.exists_ahead (h : Grouped (Lexeme.all source) ts) (ht : t ∈ ts) :
    (∃ ahead, Text.Ahead source t.span.start ahead) ∧ t.span.stop ≤ source.utf8ByteSize ∧
      (t.line, t.column) = Text.position source t.span.start := by
  obtain ⟨used, hused, hmade⟩ := h.exists_of_mem ht
  obtain ⟨first, hfirst, final, hfinal, hspan, hline, hcolumn⟩ := hmade.exists_ends
  obtain ⟨_, hahead, -⟩ := Lexeme.exists_ahead_of_mem_all (hused.subset hfirst)
  rw [hspan, hline, hcolumn]
  exact ⟨⟨_, hahead⟩, (Lexeme.standsAt_of_mem_all (hused.subset hfinal)).stop_le,
    Lexeme.position_of_mem_all (hused.subset hfirst)⟩

theorem quotes_of_exactly (h : Text.StandsAt source t.span t.lexeme.toList) (ht : ¬t.IsReserved) :
    t.Quotes source := by
  refine ⟨fun _ => h, fun hreserved => absurd hreserved ht, ?_⟩
  rintro ⟨k, hk, -⟩
  exact absurd (.inl ⟨k, hk⟩) ht

theorem quotes_of_upper {text : List Char} (h : Text.StandsAt source t.span text)
    (hlexeme : t.lexeme = String.ofList (text.map Char.toUpper)) (ht : t.IsReserved) (hpair : ¬t.IsPair) :
    t.Quotes source :=
  ⟨fun hreserved => absurd ht hreserved, fun _ _ => ⟨text, h, hlexeme⟩, fun h => absurd h hpair⟩

/-- Two words that are neighbours are kept apart by separators. -/
theorem exists_gap {first second : Lexeme} (hall : [first, second] <:+: Lexeme.all source)
    (hfirst : first.reading = .ok .word) (hsecond : second.reading = .ok .word) (hmark : '?' ∉ first.chars) :
    ∃ gap, Text.StandsAt source ⟨first.site.span.start, second.site.span.stop⟩
        (first.chars ++ gap ++ second.chars) ∧
      gap ≠ [] ∧ ∀ c ∈ gap, Lexeme.isSeparator c = true := by
  obtain ⟨before, behind, hall⟩ := hall
  have htiled := Lexeme.tiled_allFrom {} source.toList
  rw [show Lexeme.allFrom {} source.toList = Lexeme.all source from rfl, ← hall, List.append_assoc] at htiled
  obtain ⟨before', rest, hsource, hrest⟩ := htiled.drop
  cases hrest with
  | @cons _ gap' rest l _ hgap' hplace hread hs =>
    cases hs with
    | @cons _ gap rest' next _ hgap hplace' hread' _ =>
      refine ⟨gap, ⟨rest', ⟨before' ++ gap', ?_, ?_⟩, ?_⟩, ?_, hgap⟩
      · rw [hsource]
        simp only [List.append_assoc]
      · show first.place.offset = _
        rw [hplace, ← Text.Place.after_append, Text.Place.offset_after]
        exact Nat.zero_add _
      · show (second.place.after second.chars).offset = first.place.offset + _
        rw [hplace', ← Text.Place.after_append, ← Text.Place.after_append, Text.Place.offset_after,
          List.append_assoc]
      · -- without a gap the first word would go on
        rintro rfl
        rw [hfirst] at hread
        rw [hsecond] at hread'
        cases hread with
        | shape hlongest =>
          cases hread' with
          | shape hlongest' =>
            obtain ⟨d, more, hchars⟩ := hlongest'.matched.exists_cons
            have hletter : Lexeme.Pattern.Letter d := (hchars ▸ hlongest'.matched).begins
            rw [hchars] at hlongest
            exact hlongest.not_wordChar_behind hmark (.inl hletter)

theorem Grouped.quotes (h : Grouped (Lexeme.all source) ts) (ht : t ∈ ts) : t.Quotes source := by
  obtain ⟨used, hused, hmade⟩ := h.exists_of_mem ht
  have hstands : ∀ {l : Lexeme}, l ∈ used → Text.StandsAt source l.site.span l.chars := fun hl =>
    Lexeme.standsAt_of_mem_all (hused.subset hl)
  have hexactly : ∀ {l : Lexeme} {kind : Kind} {literal : Option Literal}, l ∈ used →
      ¬(l.token kind literal).IsReserved → (l.token kind literal).Quotes source := by
    intro l kind literal hl
    refine quotes_of_exactly ?_
    show Text.StandsAt source l.site.span (String.ofList l.chars).toList
    rw [String.toList_ofList]
    exact hstands hl
  cases hmade with
  | symbol | number | label | name =>
    exact hexactly List.mem_cons_self (by simp [IsReserved, Lexeme.token])
  | keyword _ hword =>
    refine quotes_of_upper (hstands List.mem_cons_self) rfl (.inl ⟨_, rfl⟩) ?_
    rintro ⟨k, hk, hpair⟩
    cases hk
    exact Bool.false_ne_true ((Keyword.not_isPair_of_ofLower hword).symm.trans hpair)
  | boolean =>
    refine quotes_of_upper (hstands List.mem_cons_self) rfl (.inr ⟨_, rfl⟩) ?_
    rintro ⟨k, hk, -⟩
    cases hk
  | @pair l next stem k hreading hword hnext =>
    obtain ⟨hreading', hcomplete⟩ := completion?_eq_some_iff.1 hnext
    have hstem := Lexeme.ofLower_lower_eq_stem_iff.1 hword
    have hmark : '?' ∉ l.chars := by
      intro hmem
      have hmem : '?' ∈ stem.name.toList := by
        rw [← hstem, Lexeme.upper, String.toList_ofList]
        exact List.mem_map.2 ⟨'?', hmem, rfl⟩
      cases stem <;> exact absurd hmem (by decide)
    obtain ⟨gap, hgap⟩ := exists_gap hused hreading hreading' hmark
    have hpair : (l.pairToken stem next k).IsPair := ⟨k, rfl, Keyword.isPair_of_complete? hcomplete⟩
    refine ⟨fun hnot => absurd (.inl ⟨k, rfl⟩) hnot, fun _ hnot => absurd hpair hnot, fun _ => ?_⟩
    refine ⟨stem, l, gap, next, hused, hreading, hstem, completes_of_completion? hnext, rfl,
      hgap.1, hgap.2.1, hgap.2.2, ?_⟩
    rw [hstem]
    rfl

/-- The tokens of a text tile it. -/
theorem Grouped.tiles (h : Grouped (Lexeme.all source) ts) :
    Tiles source (ts ++ [endOf (Text.Place.after {} source.toList)]) := by
  have hsize : (Text.Place.after {} source.toList).offset = source.utf8ByteSize := by
    rw [Text.Place.offset_after, Text.utf8ByteSize_eq]
    exact Nat.zero_add _
  generalize hlast : endOf (Text.Place.after {} source.toList) = last
  have hspan : last.span = ⟨source.utf8ByteSize, source.utf8ByteSize⟩ := by
    rw [← hlast, ← hsize]
    rfl
  have hend : Text.Ahead source last.span.start [] := by
    rw [hspan]
    exact ⟨source.toList, (List.append_nil _).symm, Text.utf8ByteSize_eq source⟩
  have hposition : (last.line, last.column) = Text.position source last.span.start := by
    rw [hspan, ← hsize, ← hlast, Text.position_after (List.append_nil _).symm]
    rfl
  have hahead : ∀ t ∈ ts ++ [last], (∃ ahead, Text.Ahead source t.span.start ahead) ∧
      (t.line, t.column) = Text.position source t.span.start := by
    refine List.forall_mem_append.2 ⟨fun t ht => ?_, List.forall_mem_singleton.2 ⟨⟨[], hend⟩, hposition⟩⟩
    exact ⟨(h.exists_ahead ht).1, (h.exists_ahead ht).2.2⟩
  have hordered : (ts ++ [last]).Pairwise fun t t' => t.span.stop ≤ t'.span.start := by
    refine List.pairwise_append.2 ⟨h.ordered (Lexeme.ordered_all source), List.pairwise_singleton _ _, ?_⟩
    intro t ht t' ht'
    rw [List.mem_singleton.1 ht', hspan]
    exact (h.exists_ahead ht).2.1
  have hstarts : (ts ++ [last]).Pairwise fun t t' => t.span.start < t'.span.start := by
    obtain ⟨hts, -, hend⟩ := List.pairwise_append.1 hordered
    refine List.pairwise_append.2 ⟨hts.imp_of_mem ?_, List.pairwise_singleton _ _, ?_⟩
    · exact fun ht _ hle => Nat.lt_of_lt_of_le (h.start_lt_stop ht) hle
    · exact fun t ht t' ht' => Nat.lt_of_lt_of_le (h.start_lt_stop ht) (hend t ht t' ht')
  refine ⟨⟨ts, last, rfl, by rw [← hlast]; rfl, hspan, ?_⟩, hordered, ?_, ?_, fun t ht => (hahead t ht).2, ?_⟩
  · intro t ht
    obtain ⟨_, -, hmade⟩ := h.exists_of_mem ht
    exact ⟨hmade.kind_ne_eof, h.start_lt_stop ht⟩
  · intro i b hb hout
    refine Lexeme.separatorsOutside_all source i b hb ?_
    rintro span hmem ⟨hstart, hstop⟩
    obtain ⟨l, hl, rfl⟩ := List.mem_map.1 hmem
    obtain ⟨t, ht, hstart', hstop'⟩ := h.exists_covering hl
      (fun _ => Lexeme.start_lt_stop_of_mem_all) (Lexeme.ordered_all source)
    refine hout t.span (List.mem_map_of_mem (List.mem_append_left _ ht)) ?_
    exact ⟨Nat.le_trans hstart' hstart, Nat.lt_of_lt_of_le hstop hstop'⟩
  · refine List.forall_mem_append.2 ⟨fun t ht => h.quotes ht, List.forall_mem_singleton.2 ?_⟩
    refine quotes_of_exactly ⟨[], ?_, ?_⟩ ?_
    · rw [← hlast] at hend ⊢
      exact hend
    · rw [hspan, ← hlast]
      rfl
    · rw [← hlast]
      simp [IsReserved, endOf]
  · refine hstarts.imp_of_mem fun {t t'} ht ht' hlt => ?_
    obtain ⟨⟨_, hahead₁⟩, hposition₁⟩ := hahead t ht
    obtain ⟨⟨_, hahead₂⟩, hposition₂⟩ := hahead t' ht'
    have hbefore := hahead₁.before_of_lt hahead₂ hlt
    rwa [← hposition₁, ← hposition₂] at hbefore

end Source

/-- A scan reports the leftmost problem; if there is none, its tokens tile the text. -/
theorem scan_outcome (source : String) :
    ((∃ e, scan source = .error e) ↔ ∃ e : ScanError, e.Among (Lexeme.all source)) ∧
    (∀ e, scan source = .error e → e.Among (Lexeme.all source) ∧
      (∀ e' : ScanError, e'.Among (Lexeme.all source) → e' = e ∨ e.span.start < e'.span.start) ∧
      (e.line, e.column) = Text.position source e.span.start) ∧
    ∀ tokens, scan source = .ok tokens → Tiles source tokens := by
  have hstarts : (Lexeme.all source).Pairwise fun l l' => l.site.span.start < l'.site.span.start :=
    (Lexeme.ordered_all source).imp_of_mem fun hl _ hle =>
      Nat.lt_of_lt_of_le (Lexeme.start_lt_stop_of_mem_all hl) hle
  refine ⟨⟨?_, ?_⟩, ?_, ?_⟩
  · rintro ⟨e, he⟩
    exact ⟨e, (leftmost_of_error he hstarts).1⟩
  · rintro ⟨e, he⟩
    cases hscan : scan source with
    | ok tokens => exact absurd he (not_among_of_ok hscan)
    | error e' => exact ⟨e', rfl⟩
  · intro e he
    obtain ⟨hamong, hleftmost⟩ := leftmost_of_error he hstarts
    refine ⟨hamong, hleftmost, ?_⟩
    obtain ⟨before, l, behind, hall, -, hsite⟩ := hamong
    rw [hsite]
    refine Lexeme.position_of_mem_all (l := l) ?_
    show l ∈ Lexeme.allFrom {} source.toList
    rw [hall]
    exact List.mem_append_right _ List.mem_cons_self
  · intro tokens htokens
    obtain ⟨ts, rfl, hts⟩ := exists_grouped htokens
    exact hts.tiles

end Token

end BoundedLoop
