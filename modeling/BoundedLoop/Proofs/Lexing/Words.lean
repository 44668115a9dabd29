import BoundedLoop.Proofs.Lexing.Patterns
import BoundedLoop.Token.Scan
import Mathlib

/-!
# Words in upper and lower case

The case of its letters does not change what a text matches (`Lexeme.Pattern.Matches.sameLetters`), nor,
if it is a word, which reserved word it is: what is reserved is looked up in lower case. So the upper-case
text of a lexeme tells whether it is a stem (`Word.ofLower_eq_stem_iff`) and whether it completes one
(`Token.completion?_eq_none_iff`).
-/

namespace BoundedLoop

namespace Text

/-- Texts that are the same but for the case of their letters. -/
def SameLetters (t t' : List Char) : Prop :=
  t'.map Char.toLower = t.map Char.toLower

namespace SameLetters

variable {t t' : List Char}

theorem symm (h : SameLetters t t') : SameLetters t' t :=
  Eq.symm h

theorem length (h : SameLetters t t') : t'.length = t.length := by
  simpa using congrArg List.length h

theorem upper (t : List Char) : SameLetters t (t.map Char.toUpper) := by
  unfold SameLetters
  simp

theorem iff_upper : SameLetters t t' ↔ t'.map Char.toUpper = t.map Char.toUpper := by
  constructor
  · intro h
    simpa [Function.comp_def] using congrArg (List.map Char.toUpper) h
  · intro h
    unfold SameLetters
    simpa [Function.comp_def] using congrArg (List.map Char.toLower) h

theorem take (h : SameLetters t t') (n : Nat) : SameLetters (t.take n) (t'.take n) := by
  unfold SameLetters
  rw [List.map_take, List.map_take, h]

end SameLetters

theorem isAlpha_eq_of_toLower_eq {c c' : Char} (h : c'.toLower = c.toLower) : c'.isAlpha = c.isAlpha := by
  rw [← Char.isAlpha_toLower_eq_isAlpha, h, Char.isAlpha_toLower_eq_isAlpha]

theorem eq_of_toLower_eq {c c' : Char} (hc : c.isAlpha = false) (h : c'.toLower = c.toLower) : c' = c := by
  have hc' : c'.isAlpha = false := (isAlpha_eq_of_toLower_eq h).trans hc
  have hupper : ∀ {d : Char}, d.isAlpha = false → ¬d.isUpper = true := by
    intro d hd hup
    rw [Char.isAlpha, hup, Bool.true_or] at hd
    cases hd
  rwa [Char.toLower_eq_of_not_isUpper (hupper hc), Char.toLower_eq_of_not_isUpper (hupper hc')] at h

/-- A text without letters is not the same as any other. -/
theorem SameLetters.eq_of_not_alpha {t t' : List Char} (ht : ∀ c ∈ t, c.isAlpha = false)
    (h : SameLetters t t') : t' = t := by
  induction t generalizing t' with
  | nil => exact List.map_eq_nil_iff.1 h
  | cons c t ih =>
    obtain ⟨c', t'', rfl, hc', ht'⟩ := List.map_eq_cons_iff.1 h
    obtain ⟨hc, ht⟩ := List.forall_mem_cons.1 ht
    rw [eq_of_toLower_eq hc hc', ih ht ht']

theorem utf8Size_of_isAlpha {c : Char} (h : c.isAlpha = true) : c.utf8Size = 1 := by
  rw [Char.utf8Size_eq_one_iff]
  simp only [Char.isAlpha, Char.isUpper, Char.isLower, Bool.or_eq_true, Bool.and_eq_true,
    decide_eq_true_eq, UInt32.le_iff_toNat_le] at *
  simp at *
  omega

/-- The two cases of a letter take the same room. -/
theorem Place.advance_of_toLower_eq (p : Place) {c c' : Char} (h : c'.toLower = c.toLower) :
    p.advance c' = p.advance c := by
  by_cases hc : c.isAlpha = true
  · have hc' : c'.isAlpha = true := (isAlpha_eq_of_toLower_eq h).trans hc
    have hline : ∀ {d : Char}, d.isAlpha = true → d ≠ '\n' := by
      rintro d hd rfl
      cases hd
    unfold advance
    dsimp only
    rw [if_neg (hline hc), if_neg (hline hc'), utf8Size_of_isAlpha hc, utf8Size_of_isAlpha hc']
  · rw [eq_of_toLower_eq (Bool.eq_false_iff.2 hc) h]

theorem SameLetters.after_eq {cs cs' : List Char} (h : SameLetters cs cs') (p : Place) :
    p.after cs' = p.after cs := by
  induction cs generalizing cs' p with
  | nil => rw [List.map_eq_nil_iff.1 h]
  | cons c cs ih =>
    obtain ⟨c', cs'', rfl, hc', hcs'⟩ := List.map_eq_cons_iff.1 h
    rw [Place.after_cons, Place.after_cons, p.advance_of_toLower_eq hc', ih hcs']

theorem SameLetters.append {t t' u u' : List Char} (h : SameLetters t t') (h' : SameLetters u u') :
    SameLetters (t ++ u) (t' ++ u') := by
  unfold SameLetters
  rw [List.map_append, List.map_append, h, h']

/-- The front of a text, in the other. -/
theorem SameLetters.of_prefix {t u v : List Char} (h : SameLetters u v) (ht : t <+: u) :
    SameLetters t (v.take t.length) := by
  have htake := h.take t.length
  rwa [← List.prefix_iff_eq_take.1 ht] at htake

end Text

namespace Lexeme.Pattern

theorem Digit.not_alpha {c : Char} (h : Digit c) : c.isAlpha = false := by
  rw [Bool.eq_false_iff]
  intro halpha
  refine Letter.not_digit (startsWord_iff.1 ?_) h
  rw [startsWord, halpha, Bool.true_or]

theorem Letter.of_toLower_eq {c c' : Char} (hc : Letter c) (h : c'.toLower = c.toLower) : Letter c' := by
  by_cases halpha : c.isAlpha = true
  · rw [← startsWord_iff, startsWord, Text.isAlpha_eq_of_toLower_eq h, halpha, Bool.true_or]
  · rwa [Text.eq_of_toLower_eq (Bool.eq_false_iff.2 halpha) h]

theorem Digit.of_toLower_eq {c c' : Char} (hc : Digit c) (h : c'.toLower = c.toLower) : Digit c' := by
  rwa [Text.eq_of_toLower_eq hc.not_alpha h]

/-- Only words and quoted texts have letters. -/
theorem Matches.not_alpha {p : Pattern} {t : List Char} (h : p.Matches t) (hword : p ≠ .word)
    (hquoted : p ≠ .quoted) : ∀ c ∈ t, c.isAlpha = false := by
  cases p with
  | symbol s =>
    obtain rfl : t = s.chars := h
    cases s <;> simp [Symbol.chars]
  | digits => exact fun c hc => (h.2 c hc).not_alpha
  | word => exact absurd rfl hword
  | quoted => exact absurd rfl hquoted

/-- A pattern does not look at the case of letters. -/
theorem Matches.sameLetters {p : Pattern} {t t' : List Char} (h : p.Matches t)
    (hsame : Text.SameLetters t t') : p.Matches t' := by
  cases p with
  | symbol s => rwa [hsame.eq_of_not_alpha (h.not_alpha (by simp) (by simp))]
  | digits => rwa [hsame.eq_of_not_alpha (h.not_alpha (by simp) (by simp))]
  | word =>
    obtain ⟨c, cs, mark, rfl, hc, hcs, hmark⟩ := h
    obtain ⟨c', t', rfl, hc', ht'⟩ := List.map_eq_cons_iff.1 hsame
    rw [List.map_append] at ht'
    obtain ⟨cs', mark', rfl, hcs', hmark'⟩ := List.map_eq_append_iff.1 ht'
    have hmark' : mark' = mark := by
      refine Text.SameLetters.eq_of_not_alpha ?_ hmark'
      rcases hmark with rfl | rfl <;> simp
    refine ⟨c', cs', mark, by rw [hmark'], hc.of_toLower_eq hc', ?_, hmark⟩
    intro d' hd'
    have hmem : d'.toLower ∈ cs.map Char.toLower := hcs' ▸ List.mem_map_of_mem hd'
    obtain ⟨d, hd, hlower⟩ := List.mem_map.1 hmem
    exact (hcs d hd).imp (·.of_toLower_eq hlower.symm) (·.of_toLower_eq hlower.symm)
  | quoted =>
    obtain ⟨content, rfl, hcontent⟩ := h
    obtain ⟨c', t', rfl, hc', ht'⟩ := List.map_eq_cons_iff.1 hsame
    rw [List.map_append] at ht'
    obtain ⟨content', quote, rfl, hcontent', hquote⟩ := List.map_eq_append_iff.1 ht'
    obtain rfl : c' = '"' := Text.eq_of_toLower_eq rfl hc'
    obtain rfl : quote = ['"'] := Text.SameLetters.eq_of_not_alpha (by simp) hquote
    refine ⟨content', rfl, fun hmem => hcontent ?_⟩
    have hmem : '"'.toLower ∈ content.map Char.toLower := hcontent' ▸ List.mem_map_of_mem hmem
    obtain ⟨d, hd, hlower⟩ := List.mem_map.1 hmem
    rwa [← Text.eq_of_toLower_eq (c := '"') rfl hlower]

end Lexeme.Pattern

/-! ### Reserved words -/

theorem Lexeme.lower_eq_iff {l : Lexeme} {w : String} :
    l.lower = String.ofList (w.toList.map Char.toLower) ↔
      l.upper = String.ofList (w.toList.map Char.toUpper) := by
  rw [lower, upper, String.ofList_inj, String.ofList_inj]
  exact Text.SameLetters.iff_upper

theorem Word.mem_reserved_of_ofLower {w : String} {m : Word} (h : ofLower w = m) (hm : m ≠ name) :
    (w, m) ∈ reserved := by
  unfold ofLower at h
  cases hfound : reserved.lookup w with
  | none =>
    rw [hfound] at h
    exact absurd h.symm hm
  | some m' =>
    rw [hfound] at h
    obtain ⟨before, behind, hreserved, -⟩ := List.lookup_eq_some_iff.1 hfound
    rw [hreserved, ← show m' = m from h]
    exact List.mem_append_right _ List.mem_cons_self

/-- What is not reserved is none of the reserved words. -/
theorem Word.not_mem_reserved {w : String} (h : ofLower w = .name) : w ∉ reserved.map Prod.fst := by
  intro hw
  have hall : ∀ w ∈ reserved.map Prod.fst, ofLower w ≠ .name := by decide +kernel
  exact hall w hw h

theorem Lexeme.toLower_text (l : Lexeme) : l.text.toLower = l.lower := by
  rw [← String.toList_inj]
  simp [String.toLower, text, lower]

theorem Word.ofLower_eq_stem_iff {w : String} {stem : Stem} :
    ofLower w = .stem stem ↔ w = String.ofList (stem.name.toList.map Char.toLower) := by
  constructor
  · intro h
    have hmem := mem_reserved_of_ofLower h (by simp)
    have hall : ∀ e ∈ reserved, e.2 = .stem stem →
        e.1 = String.ofList (stem.name.toList.map Char.toLower) := by
      cases stem <;> decide +kernel
    exact hall _ hmem rfl
  · rintro rfl
    cases stem <;> rfl

theorem Lexeme.ofLower_lower_eq_stem_iff {l : Lexeme} {stem : Stem} :
    Word.ofLower l.lower = .stem stem ↔ l.upper = stem.name := by
  have hname : String.ofList (stem.name.toList.map Char.toUpper) = stem.name := by
    cases stem <;> rfl
  rw [Word.ofLower_eq_stem_iff, lower_eq_iff, hname]

namespace Stem

theorem name_injective : Function.Injective name := by
  intro stem stem' h
  cases stem <;> cases stem' <;> simp_all [name]

/-- The words that complete a stem. -/
def completions : Stem → List String
  | define => ["PROCEDURE"]
  | finish => ["IF", "LOOP", "PROCEDURE"]
  | quit => ["PROCEDURE"]
  | abort => ["LOOP"]

/-- No stem completes another. -/
theorem name_not_mem_completions (stem stem' : Stem) : stem'.name ∉ stem.completions := by
  cases stem <;> cases stem' <;> simp [name, completions]

theorem complete?_eq_none_iff {stem : Stem} {l : Lexeme} :
    stem.complete? l.lower = none ↔ l.upper ∉ stem.completions := by
  have hif : l.lower = "if" ↔ l.upper = "IF" := Lexeme.lower_eq_iff (w := "IF")
  have hloop : l.lower = "loop" ↔ l.upper = "LOOP" := Lexeme.lower_eq_iff (w := "LOOP")
  have hprocedure : l.lower = "procedure" ↔ l.upper = "PROCEDURE" :=
    Lexeme.lower_eq_iff (w := "PROCEDURE")
  cases stem <;> simp only [complete?, completions, hif, hloop, hprocedure, List.mem_cons,
    List.not_mem_nil, or_false] <;> split_ifs <;> simp_all

end Stem

/-- The lexeme is a word that completes the stem, in upper or lower case. -/
def Lexeme.Completes (l : Lexeme) (stem : Stem) : Prop :=
  l.reading = .ok .word ∧ l.upper ∈ stem.completions

theorem Token.completion?_eq_some_iff {stem : Stem} {next : Lexeme} {k : Keyword} :
    completion? stem next = some k ↔ next.reading = .ok .word ∧ stem.complete? next.lower = some k := by
  unfold completion?
  split
  · rename_i hreading
    simp [hreading]
  · rename_i hreading
    exact iff_of_false (by simp) fun h => hreading h.1

theorem Token.completion?_eq_none_iff {stem : Stem} {next : Lexeme} :
    completion? stem next = none ↔ ¬next.Completes stem := by
  unfold completion? Lexeme.Completes
  split
  · rename_i hreading
    simp [hreading, Stem.complete?_eq_none_iff]
  · rename_i hreading
    exact iff_of_true rfl fun h => hreading h.1

end BoundedLoop
