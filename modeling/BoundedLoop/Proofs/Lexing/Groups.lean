import BoundedLoop.Proofs.Acceptance

/-!
# Tokens as groups of lexemes

A token is made of one lexeme, or of the two words of a keyword (`Token.MadeFrom`). A scan that succeeds
takes all lexemes apart into such groups (`Token.ofLexemes_eq_ok_iff`).
-/

namespace BoundedLoop.Token

/-- The lexemes that make a token, and how. -/
inductive MadeFrom : List Lexeme → Token → Prop where
  | symbol {l : Lexeme} {s : Symbol} (h : l.reading = .ok (.symbol s)) :
      MadeFrom [l] (l.token (.symbol s) none)
  | number {l : Lexeme} {n : Int64} (h : l.reading = .ok (.number n)) :
      MadeFrom [l] (l.token .constant (some (.value (.number n))))
  | label {l : Lexeme} {content : String} (h : l.reading = .ok (.quoted content)) :
      MadeFrom [l] (l.token .label (some (.label content)))
  | name {l : Lexeme} (h : l.reading = .ok .word) (hword : Word.ofLower l.lower = .name) :
      MadeFrom [l] (l.token .identifier (some (.name l.text)))
  | keyword {l : Lexeme} {k : Keyword} (h : l.reading = .ok .word)
      (hword : Word.ofLower l.lower = .keyword k) : MadeFrom [l] (l.reservedToken (.keyword k) none)
  | boolean {l : Lexeme} {b : Bool} (h : l.reading = .ok .word)
      (hword : Word.ofLower l.lower = .boolean b) :
      MadeFrom [l] (l.reservedToken .constant (some (.value (.boolean b))))
  | pair {l next : Lexeme} {stem : Stem} {k : Keyword} (h : l.reading = .ok .word)
      (hword : Word.ofLower l.lower = .stem stem) (hnext : completion? stem next = some k) :
      MadeFrom [l, next] (l.pairToken stem next k)

/-- Lexemes that make tokens, group by group. The end of a text is not among the tokens. -/
inductive Grouped : List Lexeme → List Token → Prop where
  | nil : Grouped [] []
  | cons {used ls : List Lexeme} {t : Token} {ts : List Token} (h : MadeFrom used t)
      (hs : Grouped ls ts) : Grouped (used ++ ls) (t :: ts)

variable {last t : Token} {used ls : List Lexeme} {tokens ts : List Token}

theorem MadeFrom.ofLexemes_append (h : MadeFrom used t) (last : Token) (rest : List Lexeme) :
    ofLexemes last (used ++ rest) = (t :: ·) <$> ofLexemes last rest := by
  cases h with
  | symbol h | number h | label h => simp only [List.singleton_append, ofLexemes, h]
  | name h hword | keyword h hword | boolean h hword =>
    simp only [List.singleton_append, ofLexemes, h, hword]
  | pair h hword hnext => simp only [List.cons_append, List.nil_append, ofLexemes, h, hword, hnext]

theorem MadeFrom.kind_ne_eof (h : MadeFrom used t) : t.kind ≠ .eof := by
  cases h <;> simp [Lexeme.token, Lexeme.reservedToken, Lexeme.pairToken]

theorem exists_grouped (h : ofLexemes last ls = .ok tokens) :
    ∃ ts, tokens = ts ++ [last] ∧ Grouped ls ts := by
  have step : ∀ {used ls : List Lexeme} {t : Token} {tokens : List Token}, MadeFrom used t →
      (∀ {tokens}, ofLexemes last ls = .ok tokens → ∃ ts, tokens = ts ++ [last] ∧ Grouped ls ts) →
      (t :: ·) <$> ofLexemes last ls = .ok tokens →
      ∃ ts, tokens = ts ++ [last] ∧ Grouped (used ++ ls) ts := by
    intro used ls t tokens hmade ih h
    obtain ⟨tokens', htokens, rfl⟩ := Except.map_eq_ok_iff.1 h
    obtain ⟨ts, rfl, hts⟩ := ih htokens
    exact ⟨t :: ts, rfl, .cons hmade hts⟩
  fun_induction ofLexemes last ls generalizing tokens with
  | case1 =>
    cases h
    exact ⟨[], rfl, .nil⟩
  | case3 l rest s hreading ih => exact step (.symbol hreading) ih h
  | case4 l rest n hreading ih => exact step (.number hreading) ih h
  | case5 l rest content hreading ih => exact step (.label hreading) ih h
  | case6 l rest hreading hword ih => exact step (.name hreading hword) ih h
  | case7 l rest hreading k hword ih => exact step (.keyword hreading hword) ih h
  | case8 l rest hreading b hword ih => exact step (.boolean hreading hword) ih h
  | case11 l hreading stem hword next rest k hnext ih => exact step (.pair hreading hword hnext) ih h
  | _ => cases h

theorem Grouped.ofLexemes_eq (h : Grouped ls ts) (last : Token) :
    ofLexemes last ls = .ok (ts ++ [last]) := by
  induction h with
  | nil => rfl
  | cons hmade _ ih =>
    rw [hmade.ofLexemes_append, ih]
    rfl

/-- Scanning takes all lexemes apart into groups. -/
theorem ofLexemes_eq_ok_iff :
    ofLexemes last ls = .ok tokens ↔ ∃ ts, tokens = ts ++ [last] ∧ Grouped ls ts := by
  constructor
  · exact exists_grouped
  · rintro ⟨ts, rfl, hts⟩
    exact hts.ofLexemes_eq last

/-- A token is made of lexemes that are neighbours. -/
theorem Grouped.exists_of_mem (h : Grouped ls ts) (ht : t ∈ ts) :
    ∃ used, used <:+: ls ∧ MadeFrom used t := by
  induction h with
  | nil => cases ht
  | @cons used ls t' ts hmade _ ih =>
    rcases List.mem_cons.1 ht with rfl | ht
    · exact ⟨used, (List.prefix_append _ _).isInfix, hmade⟩
    · obtain ⟨used', hused', hmade'⟩ := ih ht
      exact ⟨used', hused'.trans (List.suffix_append _ _).isInfix, hmade'⟩

/-- Each lexeme goes into a token. -/
theorem Grouped.exists_made (h : Grouped ls ts) {l : Lexeme} (hl : l ∈ ls) :
    ∃ used t, used <:+: ls ∧ MadeFrom used t ∧ l ∈ used ∧ t ∈ ts := by
  induction h with
  | nil => cases hl
  | @cons used ls t ts hmade _ ih =>
    rcases List.mem_append.1 hl with hl | hl
    · exact ⟨used, t, (List.prefix_append _ _).isInfix, hmade, hl, List.mem_cons_self⟩
    · obtain ⟨used', t', hused', hmade', hl, ht'⟩ := ih hl
      refine ⟨used', t', ?_, hmade', hl, List.mem_cons_of_mem _ ht'⟩
      exact hused'.trans (List.suffix_append _ _).isInfix

end BoundedLoop.Token
