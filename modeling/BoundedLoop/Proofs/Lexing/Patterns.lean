import BoundedLoop.Lexeme
import Mathlib.Data.List.Infix
import Mathlib.Data.List.TakeWhile
import Mathlib.Tactic.Tauto

/-!
# The patterns of lexemes

What a lexeme can look like is said by patterns: the symbols, rows of digits, words and quoted texts.
`ReadOff` is what reading ahead in a text should come to: the longest front that some pattern matches, or
a flaw where no pattern matches any. It leaves no choice (`ReadOff.unique`), and it is what cutting off
a lexeme does (`readOff_cut`, `cut_eq_of_readOff`).
-/

namespace BoundedLoop

/-- How a symbol is written. -/
def Symbol.chars : Symbol → List Char
  | plus => ['+']
  | star => ['*']
  | equal => ['=']
  | less => ['<']
  | lessEqual => ['<', '=']
  | greater => ['>']
  | greaterEqual => ['>', '=']
  | leftArrow => ['<', '-']
  | leftParen => ['(']
  | rightParen => [')']
  | leftBracket => ['[']
  | rightBracket => [']']
  | comma => [',']

theorem Symbol.chars_injective : Function.Injective chars := by
  intro s s' h
  cases s <;> cases s' <;> simp_all [chars]

theorem Symbol.chars_cases (s : Symbol) :
    s.chars.length = 1 ∨ s.chars ∈ [['<', '='], ['<', '-'], ['>', '=']] := by
  cases s <;> decide

theorem Symbol.length_chars_le (s : Symbol) : s.chars.length ≤ 2 := by
  cases s <;> decide

namespace Lexeme

inductive Pattern where
  | symbol (s : Symbol)
  | digits
  | word
  | quoted
deriving DecidableEq

namespace Pattern

def Digit (c : Char) : Prop :=
  '0' ≤ c ∧ c ≤ '9'

/-- A letter of the alphabet, or the underscore. -/
def Letter (c : Char) : Prop :=
  ('a' ≤ c ∧ c ≤ 'z') ∨ ('A' ≤ c ∧ c ≤ 'Z') ∨ c = '_'

instance : DecidablePred Digit := fun c => inferInstanceAs (Decidable ('0' ≤ c ∧ c ≤ '9'))

instance : DecidablePred Letter := fun c =>
  inferInstanceAs (Decidable (('a' ≤ c ∧ c ≤ 'z') ∨ ('A' ≤ c ∧ c ≤ 'Z') ∨ c = '_'))

/-- The texts that a pattern matches. A word may end in one question mark; between quotes there may be
anything but a quote. -/
def Matches : Pattern → List Char → Prop
  | symbol s, t => t = s.chars
  | digits, t => t ≠ [] ∧ ∀ c ∈ t, Digit c
  | word, t => ∃ c cs mark, t = c :: (cs ++ mark) ∧ Letter c ∧ (∀ d ∈ cs, Letter d ∨ Digit d) ∧
      (mark = [] ∨ mark = ['?'])
  | quoted, t => ∃ content, t = '"' :: (content ++ ['"']) ∧ '"' ∉ content

theorem isDigit_iff {c : Char} : c.isDigit = true ↔ Digit c := by
  simp [Char.isDigit, Digit, Char.le_def]

theorem startsWord_iff {c : Char} : startsWord c = true ↔ Letter c := by
  have hupper : c.isUpper = true ↔ 'A' ≤ c ∧ c ≤ 'Z' := decide_eq_true_iff
  have hlower : c.isLower = true ↔ 'a' ≤ c ∧ c ≤ 'z' := by
    show (decide ('a' ≤ c) && decide (c ≤ 'z')) = true ↔ _
    rw [Bool.and_eq_true, decide_eq_true_eq, decide_eq_true_eq]
  have halpha : c.isAlpha = (c.isUpper || c.isLower) := rfl
  rw [startsWord, halpha, Bool.or_eq_true, Bool.or_eq_true, hupper, hlower, beq_iff_eq]
  unfold Letter
  tauto

theorem continuesWord_iff {c : Char} : continuesWord c = true ↔ Letter c ∨ Digit c := by
  rw [← startsWord_iff, ← isDigit_iff]
  simp only [continuesWord, startsWord, Char.isAlphanum, Bool.or_eq_true]
  tauto

theorem Letter.not_digit {c : Char} (h : Letter c) : ¬Digit c := by
  simp only [Letter, Digit, Char.le_def, UInt32.le_iff_toNat_le, Char.ext_iff,
    ← UInt32.toNat_inj] at *
  simp at *
  omega

theorem isSeparator_iff {c : Char} : isSeparator c = true ↔ c ∈ [' ', '\t', '\r', '\n', '\x0c'] := by
  simp [isSeparator, or_assoc]

theorem not_separator_of_wordChar {c : Char} (h : Letter c ∨ Digit c) : isSeparator c = false := by
  have hnone : ∀ c ∈ [' ', '\t', '\r', '\n', '\x0c'], ¬(Letter c ∨ Digit c) := by
    simp [Letter, Digit, Char.le_def]
  rw [Bool.eq_false_iff, ne_eq, isSeparator_iff]
  exact fun hc => hnone c hc h

/-! ### First characters

The first character of a text tells the only pattern that may match it, up to the symbol. -/

theorem exists_symbol_chars (s : Symbol) : ∃ c cs, s.chars = c :: cs ∧ ¬Digit c ∧ ¬Letter c ∧
    c ≠ '"' ∧ isSeparator c = false := by
  cases s <;> exact ⟨_, _, rfl, by decide⟩

theorem Matches.exists_cons {p : Pattern} {t : List Char} (h : p.Matches t) : ∃ c cs, t = c :: cs := by
  cases p with
  | symbol s =>
    obtain ⟨c, cs, hs, -⟩ := exists_symbol_chars s
    exact ⟨c, cs, h.trans hs⟩
  | digits => exact List.exists_cons_of_ne_nil h.1
  | word =>
    obtain ⟨c, cs, mark, rfl, -⟩ := h
    exact ⟨c, cs ++ mark, rfl⟩
  | quoted =>
    obtain ⟨content, rfl, -⟩ := h
    exact ⟨'"', content ++ ['"'], rfl⟩

/-- What a text begins with when a pattern matches it. -/
def Begins : Pattern → Char → Prop
  | symbol s, c => s.chars.head? = some c
  | digits, c => Digit c
  | word, c => Letter c
  | quoted, c => c = '"'

theorem Matches.begins {p : Pattern} {c : Char} {cs : List Char} (h : p.Matches (c :: cs)) :
    p.Begins c := by
  cases p with
  | symbol s =>
    show s.chars.head? = some c
    rw [← show c :: cs = s.chars from h]
    rfl
  | digits => exact h.2 c List.mem_cons_self
  | word =>
    obtain ⟨d, ds, mark, ht, hd, -⟩ := h
    cases ht
    exact hd
  | quoted =>
    obtain ⟨content, ht, -⟩ := h
    cases ht
    rfl

theorem Begins.of_symbol {s : Symbol} {c : Char} (h : (symbol s).Begins c) :
    ¬Digit c ∧ ¬Letter c ∧ c ≠ '"' ∧ isSeparator c = false := by
  obtain ⟨d, ds, hs, hd⟩ := exists_symbol_chars s
  have hhead : s.chars.head? = some c := h
  rw [hs] at hhead
  cases hhead
  exact hd

theorem Begins.not_separator {p : Pattern} {c : Char} (h : p.Begins c) : isSeparator c = false := by
  cases p with
  | symbol s => exact h.of_symbol.2.2.2
  | digits => exact not_separator_of_wordChar (.inr h)
  | word => exact not_separator_of_wordChar (.inl h)
  | quoted =>
    obtain rfl : c = '"' := h
    rfl

/-- Only symbols share their first characters. -/
theorem Begins.unique {p q : Pattern} {c : Char} (hp : p.Begins c) (hq : q.Begins c)
    (hsymbol : ∀ s, p ≠ symbol s) : q = p := by
  cases p with
  | symbol s => exact absurd rfl (hsymbol s)
  | digits =>
    have hc : Digit c := hp
    cases q with
    | symbol s => exact absurd hc hq.of_symbol.1
    | digits => rfl
    | word => exact absurd hc (Letter.not_digit hq)
    | quoted =>
      obtain rfl : c = '"' := hq
      exact absurd hc (by decide)
  | word =>
    have hc : Letter c := hp
    cases q with
    | symbol s => exact absurd hc hq.of_symbol.2.1
    | digits => exact absurd hq hc.not_digit
    | word => rfl
    | quoted =>
      obtain rfl : c = '"' := hq
      exact absurd hc (by decide)
  | quoted =>
    obtain rfl : c = '"' := hp
    cases q with
    | symbol s => exact absurd rfl hq.of_symbol.2.2.1
    | digits => exact absurd (show Digit '"' from hq) (by decide)
    | word => exact absurd (show Letter '"' from hq) (by decide)
    | quoted => rfl

/-- No text is matched by two patterns. -/
theorem Matches.unique {p q : Pattern} {t : List Char} (hp : p.Matches t) (hq : q.Matches t) : q = p := by
  obtain ⟨c, cs, rfl⟩ := hp.exists_cons
  by_cases hsymbol : ∃ s, p = symbol s
  · obtain ⟨s, rfl⟩ := hsymbol
    cases q with
    | symbol s' => exact congrArg symbol (Symbol.chars_injective (hq.symm.trans hp))
    | _ => exact (hq.begins.unique hp.begins (by simp)).symm
  · exact hp.begins.unique hq.begins (by simpa using hsymbol)

end Pattern

/-! ### Reading ahead -/

/-- `t` is the longest front of `ahead` that any pattern matches, and `p` matches it. -/
structure Longest (p : Pattern) (t ahead : List Char) : Prop where
  front : t <+: ahead
  matched : p.Matches t
  longest : ∀ q u, u <+: ahead → Pattern.Matches q u → u.length ≤ t.length

theorem Longest.unique {p q : Pattern} {t u ahead : List Char} (ht : Longest p t ahead)
    (hu : Longest q u ahead) : u = t ∧ q = p := by
  have hlength : u.length = t.length :=
    Nat.le_antisymm (ht.longest q u hu.front hu.matched) (hu.longest p t ht.front ht.matched)
  obtain rfl : u = t :=
    (List.prefix_of_prefix_length_le hu.front ht.front hlength.le).eq_of_length hlength
  exact ⟨rfl, ht.matched.unique hu.matched⟩

/-- A word without a question mark goes on as long as there are letters and digits. -/
theorem Longest.not_wordChar_behind {t rest : List Char} {d : Char} (h : Longest .word t (t ++ d :: rest))
    (hmark : '?' ∉ t) : ¬(Pattern.Letter d ∨ Pattern.Digit d) := by
  intro hd
  obtain ⟨c, cs, mark, rfl, hc, hcs, hmark' | hmark'⟩ := h.matched
  · subst hmark'
    have hlonger : Pattern.word.Matches (c :: ((cs ++ [d]) ++ [])) := by
      refine ⟨c, cs ++ [d], [], rfl, hc, ?_, .inl rfl⟩
      exact List.forall_mem_append.2 ⟨hcs, List.forall_mem_singleton.2 hd⟩
    have hlength := h.longest .word _ ⟨rest, by simp⟩ hlonger
    simp only [List.length_cons, List.length_append, List.length_nil] at hlength
    omega
  · subst hmark'
    exact hmark (by simp)

namespace Shape

/-- The pattern of the texts that have this shape. -/
def pattern : Shape → Pattern
  | symbol s => .symbol s
  | number _ => .digits
  | word => .word
  | quoted _ => .quoted

/-- The shape holds what the text says: a number its value, a quoted text what is between the quotes. -/
def Holds : Shape → List Char → Prop
  | number n, t => n.toInt = Text.decimal t
  | quoted content, t => t = '"' :: (content.toList ++ ['"'])
  | _, _ => True

theorem Holds.unique {s s' : Shape} {t : List Char} (hpattern : s'.pattern = s.pattern) (h : s.Holds t)
    (h' : s'.Holds t) : s' = s := by
  cases s with
  | symbol s =>
    cases s' <;> cases hpattern
    rfl
  | number n =>
    cases s' <;> cases hpattern
    exact congrArg number (Int64.toInt_inj.1 (h'.trans h.symm))
  | word =>
    cases s' <;> cases hpattern
    rfl
  | quoted content =>
    cases s' <;> cases hpattern
    have heq := h'.symm.trans h
    rw [List.cons_inj_right, List.append_left_inj] at heq
    exact congrArg quoted (String.toList_inj.1 heq)

theorem Holds.not_tooBig {s : Shape} {t : List Char} (hpattern : s.pattern = .digits) (h : s.Holds t) :
    ¬Int64.maxValue.toInt < Text.decimal t := by
  cases s <;> cases hpattern
  rename_i n
  rw [← show n.toInt = Text.decimal t from h]
  exact Int.not_lt.2 n.toInt_le

end Shape

/-- No pattern matches a front of `ahead`. -/
def Unmatched (ahead : List Char) : Prop :=
  ∀ p t, t <+: ahead → ¬Pattern.Matches p t

/-- What is read off the front of `ahead`, and the characters it takes. Nothing is read off a
separator. -/
inductive ReadOff (ahead : List Char) : Except Flaw Shape → List Char → Prop where
  | shape {s : Shape} {t : List Char} (h : Longest s.pattern t ahead) (hs : s.Holds t) :
      ReadOff ahead (.ok s) t
  | tooBig {t : List Char} (h : Longest .digits t ahead)
      (hbig : Int64.maxValue.toInt < Text.decimal t) : ReadOff ahead (.error .numberTooBig) t
  | stray {c : Char} {rest : List Char} (hahead : ahead = c :: rest) (hsep : isSeparator c = false)
      (hquote : c ≠ '"') (hnone : Unmatched ahead) : ReadOff ahead (.error .invalid) [c]
  | unclosed {rest : List Char} (hahead : ahead = '"' :: rest) (hnone : Unmatched ahead) :
      ReadOff ahead (.error .invalid) ahead

theorem Longest.not_unmatched {p : Pattern} {t ahead : List Char} (h : Longest p t ahead) :
    ¬Unmatched ahead :=
  fun hnone => hnone p t h.front h.matched

namespace ReadOff

variable {ahead t t' : List Char} {r r' : Except Flaw Shape}

theorem unique (h : ReadOff ahead r t) (h' : ReadOff ahead r' t') : r' = r ∧ t' = t := by
  cases h with
  | shape hlongest hs =>
    cases h' with
    | shape hlongest' hs' =>
      obtain ⟨rfl, hpattern⟩ := hlongest.unique hlongest'
      exact ⟨congrArg _ (hs.unique hpattern hs'), rfl⟩
    | tooBig hlongest' hbig =>
      obtain ⟨rfl, hpattern⟩ := hlongest.unique hlongest'
      exact absurd hbig (hs.not_tooBig hpattern.symm)
    | stray _ _ _ hnone => exact absurd hnone hlongest.not_unmatched
    | unclosed _ hnone => exact absurd hnone hlongest.not_unmatched
  | tooBig hlongest hbig =>
    cases h' with
    | shape hlongest' hs' =>
      obtain ⟨rfl, hpattern⟩ := hlongest.unique hlongest'
      exact absurd hbig (hs'.not_tooBig hpattern)
    | tooBig hlongest' => exact ⟨rfl, (hlongest.unique hlongest').1⟩
    | stray _ _ _ hnone => exact absurd hnone hlongest.not_unmatched
    | unclosed _ hnone => exact absurd hnone hlongest.not_unmatched
  | stray hahead _ hquote hnone =>
    cases h' with
    | shape hlongest' => exact absurd hnone hlongest'.not_unmatched
    | tooBig hlongest' => exact absurd hnone hlongest'.not_unmatched
    | stray hahead' =>
      cases hahead.symm.trans hahead'
      exact ⟨rfl, rfl⟩
    | unclosed hahead' =>
      cases hahead.symm.trans hahead'
      exact absurd rfl hquote
  | unclosed hahead hnone =>
    cases h' with
    | shape hlongest' => exact absurd hnone hlongest'.not_unmatched
    | tooBig hlongest' => exact absurd hnone hlongest'.not_unmatched
    | stray hahead' _ hquote =>
      cases hahead.symm.trans hahead'
      exact absurd rfl hquote
    | unclosed => exact ⟨rfl, rfl⟩

theorem front (h : ReadOff ahead r t) : t <+: ahead := by
  cases h with
  | shape hlongest => exact hlongest.front
  | tooBig hlongest => exact hlongest.front
  | stray hahead =>
    rw [hahead]
    exact ⟨_, rfl⟩
  | unclosed => exact List.prefix_rfl

theorem exists_cons (h : ReadOff ahead r t) : ∃ c more, t = c :: more ∧ isSeparator c = false := by
  have hmatched : ∀ {p : Pattern}, p.Matches t → ∃ c more, t = c :: more ∧ isSeparator c = false := by
    intro p hp
    obtain ⟨c, more, rfl⟩ := hp.exists_cons
    exact ⟨c, more, rfl, hp.begins.not_separator⟩
  cases h with
  | shape hlongest => exact hmatched hlongest.matched
  | tooBig hlongest => exact hmatched hlongest.matched
  | stray _ hsep => exact ⟨_, [], rfl, hsep⟩
  | unclosed hahead => exact ⟨'"', _, hahead, rfl⟩

end ReadOff

/-! ### Cutting -/

/-- A symbol is read off where no longer symbol can be. -/
theorem readOff_symbol {s : Symbol} (rest : List Char)
    (h : ∀ s' : Symbol, s'.chars <+: s.chars ++ rest → s'.chars.length ≤ s.chars.length) :
    ReadOff (s.chars ++ rest) (.ok (.symbol s)) s.chars := by
  refine .shape ⟨List.prefix_append _ _, rfl, ?_⟩ trivial
  intro q u hu hq
  obtain ⟨c, cs, hs, hdigit, hletter, hquote, -⟩ := Pattern.exists_symbol_chars s
  obtain ⟨d, ds, rfl⟩ := hq.exists_cons
  have hd : d = c := by
    rw [hs, List.cons_append] at hu
    exact (List.cons_prefix_cons.1 hu).1
  have hbegins := hq.begins
  subst hd
  cases q with
  | symbol s' =>
    have hu' : d :: ds = s'.chars := hq
    rw [hu'] at hu ⊢
    exact h s' hu
  | digits => exact absurd hbegins hdigit
  | word => exact absurd hbegins hletter
  | quoted => exact absurd hbegins hquote

theorem readOff_pair {s : Symbol} {c d : Char} (hs : s.chars = [c, d]) (rest : List Char) :
    ReadOff (c :: d :: rest) (.ok (.symbol s)) [c, d] := by
  have h := readOff_symbol (s := s) rest fun s' _ => by
    rw [hs]
    exact s'.length_chars_le
  rwa [hs] at h

theorem readOff_single {s : Symbol} {c : Char} {rest : List Char} (hs : s.chars = [c])
    (hequal : c = '<' ∨ c = '>' → ∀ r, rest ≠ '=' :: r) (hdash : c = '<' → ∀ r, rest ≠ '-' :: r) :
    ReadOff (c :: rest) (.ok (.symbol s)) [c] := by
  have h := readOff_symbol (s := s) rest fun s' hs' => by
    rw [hs] at hs' ⊢
    rcases Symbol.chars_cases s' with hone | hpair
    · exact hone.le
    · simp only [List.mem_cons, List.not_mem_nil, or_false] at hpair
      obtain ⟨r, hr⟩ := hs'
      rcases hpair with hpair | hpair | hpair <;> rw [hpair] at hr <;> cases hr
      · exact absurd rfl (hequal (.inl rfl) r)
      · exact absurd rfl (hdash rfl r)
      · exact absurd rfl (hequal (.inr rfl) r)
  rwa [hs] at h

theorem prefix_takeWhile {p : Char → Bool} {t cs : List Char} (h : t <+: cs) (ht : ∀ c ∈ t, p c = true) :
    t <+: cs.takeWhile p := by
  obtain ⟨rest, rfl⟩ := h
  rw [List.takeWhile_append_of_pos ht]
  exact List.prefix_append _ _

theorem readOff_cutNumber {c : Char} (hc : Pattern.Digit c) (cs : List Char) :
    ReadOff (c :: cs) (cutNumber c cs).reading (c :: (cutNumber c cs).more) := by
  have hall : c :: cs.takeWhile Char.isDigit = (c :: cs).takeWhile Char.isDigit := by
    rw [List.takeWhile_cons, if_pos (Pattern.isDigit_iff.2 hc)]
  have hlongest : Longest .digits (c :: cs.takeWhile Char.isDigit) (c :: cs) := by
    refine ⟨?_, ⟨List.cons_ne_nil _ _, ?_⟩, ?_⟩
    · rw [hall]
      exact List.takeWhile_prefix _
    · intro d hd
      rw [hall] at hd
      exact Pattern.isDigit_iff.1 (List.mem_takeWhile_imp hd)
    · intro q u hu hq
      obtain ⟨d, ds, rfl⟩ := hq.exists_cons
      obtain rfl := (List.cons_prefix_cons.1 hu).1
      obtain rfl : q = .digits := Pattern.Begins.unique (p := .digits) hc hq.begins (by simp)
      rw [hall]
      exact (prefix_takeWhile hu fun d hd => Pattern.isDigit_iff.2 (hq.2 d hd)).length_le
  unfold cutNumber
  dsimp only
  split
  · rename_i n hn
    exact .shape (s := .number n) hlongest (exact64?_eq_some_iff.1 hn)
  · rename_i hn
    refine .tooBig hlongest ?_
    have hmin : Int64.minValue.toInt ≤ (Text.decimal (c :: cs.takeWhile Char.isDigit) : Int) :=
      Int.le_trans (by decide) (Int.natCast_nonneg _)
    unfold exact64? at hn
    rw [ite_eq_right_iff] at hn
    by_contra hmax
    cases hn ⟨hmin, Int.not_lt.1 hmax⟩

theorem readOff_cutWord {c : Char} (hc : Pattern.Letter c) (cs : List Char) :
    ReadOff (c :: cs) (cutWord cs).reading (c :: (cutWord cs).more) := by
  have hwhole := List.takeWhile_append_dropWhile (p := continuesWord) (l := cs)
  have hbody : ∀ d ∈ cs.takeWhile continuesWord, Pattern.Letter d ∨ Pattern.Digit d :=
    fun d hd => Pattern.continuesWord_iff.1 (List.mem_takeWhile_imp hd)
  -- a longer front would have to end in a question mark right behind the characters of the word
  have hfronts : ∀ q u, u <+: c :: cs → Pattern.Matches q u → ∃ ds mark, u = c :: (ds ++ mark) ∧
      ds <+: cs.takeWhile continuesWord ∧ ds ++ mark <+: cs ∧ (mark = [] ∨ mark = ['?']) := by
    intro q u hu hq
    obtain ⟨d, ds, rfl⟩ := hq.exists_cons
    obtain ⟨rfl, hds⟩ := List.cons_prefix_cons.1 hu
    obtain rfl : q = .word := Pattern.Begins.unique (p := .word) hc hq.begins (by simp)
    obtain ⟨d, ds, mark, hu, -, hds', hmark⟩ := hq
    cases hu
    refine ⟨ds, mark, rfl, prefix_takeWhile ((List.prefix_append _ _).trans hds) ?_, hds, hmark⟩
    exact fun d hd => Pattern.continuesWord_iff.2 (hds' d hd)
  unfold cutWord
  dsimp only
  split
  · rename_i rest hrest
    refine .shape (s := .word) ⟨?_, ⟨c, _, ['?'], rfl, hc, hbody, .inr rfl⟩, ?_⟩ trivial
    · refine List.cons_prefix_cons.2 ⟨rfl, rest, ?_⟩
      rw [List.append_assoc, List.singleton_append, ← hrest, hwhole]
    · intro q u hu hq
      obtain ⟨ds, mark, rfl, hds, -, hmark⟩ := hfronts q u hu hq
      have hlength := hds.length_le
      have hmark : mark.length ≤ 1 := by rcases hmark with rfl | rfl <;> simp
      simp only [List.length_cons, List.length_append, List.length_nil]
      omega
  · rename_i hrest
    refine .shape (s := .word) ⟨?_, ⟨c, _, [], by rw [List.append_nil], hc, hbody, .inl rfl⟩, ?_⟩ trivial
    · exact List.cons_prefix_cons.2 ⟨rfl, List.takeWhile_prefix _⟩
    · intro q u hu hq
      obtain ⟨ds, mark, rfl, hds, hfront, hmark⟩ := hfronts q u hu hq
      rcases hmark with rfl | rfl
      · rw [List.append_nil]
        exact Nat.succ_le_succ hds.length_le
      · have hne : ds ≠ cs.takeWhile continuesWord := by
          rintro rfl
          obtain ⟨rest, hrest'⟩ := hfront
          rw [List.append_assoc, List.singleton_append] at hrest'
          exact hrest rest (List.append_cancel_left (hwhole.trans hrest'.symm))
        have hlength : ds.length < (cs.takeWhile continuesWord).length :=
          Nat.lt_of_le_of_ne hds.length_le fun heq => hne (hds.eq_of_length heq)
        simp only [List.length_cons, List.length_append, List.length_nil]
        omega

theorem readOff_cutQuoted (cs : List Char) :
    ReadOff ('"' :: cs) (cutQuoted cs).reading ('"' :: (cutQuoted cs).more) := by
  have hwhole := List.takeWhile_append_dropWhile (p := (· != '"')) (l := cs)
  have hcontent : '"' ∉ cs.takeWhile (· != '"') := by
    intro hmem
    simpa using List.mem_takeWhile_imp hmem
  have hfronts : ∀ q u, u <+: '"' :: cs → Pattern.Matches q u → ∃ content, u = '"' :: (content ++ ['"']) ∧
      content <+: cs.takeWhile (· != '"') ∧ content ++ ['"'] <+: cs := by
    intro q u hu hq
    obtain ⟨d, ds, rfl⟩ := hq.exists_cons
    obtain ⟨rfl, hds⟩ := List.cons_prefix_cons.1 hu
    obtain rfl : q = .quoted := Pattern.Begins.unique (p := .quoted) rfl hq.begins (by simp)
    obtain ⟨content, hu, hquote⟩ := hq
    cases hu
    refine ⟨content, rfl, prefix_takeWhile ((List.prefix_append _ _).trans hds) ?_, hds⟩
    intro d hd
    simpa using ne_of_mem_of_not_mem hd hquote
  unfold cutQuoted
  dsimp only
  split
  · rename_i quote rest hrest
    obtain rfl : quote = '"' := by
      have hhead := List.head?_dropWhile_not (· != '"') cs
      rw [hrest] at hhead
      simpa using hhead
    refine .shape (s := .quoted _) ⟨?_, ⟨_, rfl, hcontent⟩, ?_⟩ ?_
    · refine List.cons_prefix_cons.2 ⟨rfl, rest, ?_⟩
      rw [List.append_assoc, List.singleton_append, ← hrest, hwhole]
    · intro q u hu hq
      obtain ⟨content, rfl, hprefix, -⟩ := hfronts q u hu hq
      have hlength := hprefix.length_le
      simp only [List.length_cons, List.length_append, List.length_nil]
      omega
    · show _ = '"' :: ((String.ofList _).toList ++ ['"'])
      rw [String.toList_ofList]
  · rename_i hrest
    refine .unclosed rfl ?_
    intro q u hu hq
    obtain ⟨content, -, -, hfront⟩ := hfronts q u hu hq
    rw [hrest, List.append_nil] at hwhole
    rw [hwhole] at hcontent
    exact hcontent (hfront.subset (List.mem_append_right _ (List.mem_singleton_self _)))

/-- Cutting reads off what is ahead. -/
theorem readOff_cut {c : Char} (hc : isSeparator c = false) (cs : List Char) :
    ReadOff (c :: cs) (cut c cs).reading (c :: (cut c cs).more) := by
  unfold cut
  split
  case h_1 => exact readOff_pair (s := .lessEqual) rfl _
  case h_2 => exact readOff_pair (s := .leftArrow) rfl _
  case h_3 => exact readOff_pair (s := .greaterEqual) rfl _
  case h_7 hequal hdash => exact readOff_single (s := .less) rfl (fun _ => hequal) fun _ => hdash
  case h_8 hequal => exact readOff_single (s := .greater) rfl (fun _ => hequal) (by simp)
  case h_14 => exact readOff_cutQuoted _
  case h_15 =>
    by_cases hdigit : c.isDigit = true
    · rw [if_pos hdigit]
      exact readOff_cutNumber (Pattern.isDigit_iff.1 hdigit) cs
    · by_cases hword : startsWord c = true
      · rw [if_neg hdigit, if_pos hword]
        exact readOff_cutWord (Pattern.startsWord_iff.1 hword) cs
      · rw [if_neg hdigit, if_neg hword]
        refine .stray rfl hc ‹_› ?_
        intro q u hu hq
        obtain ⟨d, ds, rfl⟩ := hq.exists_cons
        obtain rfl := (List.cons_prefix_cons.1 hu).1
        have hbegins := hq.begins
        cases q with
        | symbol s =>
          have hhead : s.chars.head? = some d := hbegins
          cases s <;> cases hhead <;> contradiction
        | digits => exact hdigit (Pattern.isDigit_iff.2 hbegins)
        | word => exact hword (Pattern.startsWord_iff.2 hbegins)
        | quoted => contradiction
  all_goals exact readOff_single rfl (by simp) (by simp)

theorem cut_eq_of_readOff {c : Char} {more rest : List Char} {r : Except Flaw Shape}
    (h : ReadOff (c :: (more ++ rest)) r (c :: more)) : cut c (more ++ rest) = ⟨r, more, rest⟩ := by
  obtain ⟨d, ds, hd, hsep⟩ := h.exists_cons
  cases hd
  obtain ⟨hreading, hmore⟩ := h.unique (readOff_cut hsep _)
  obtain ⟨-, hmore⟩ := List.cons.inj hmore
  have hrest := cut_append c (more ++ rest)
  rw [hmore, List.append_cancel_left_eq] at hrest
  generalize cut c (more ++ rest) = found at hreading hmore hrest
  cases found
  simp_all

end Lexeme

end BoundedLoop
