import BoundedLoop.Proofs.Respacing
import BoundedLoop.Proofs.Semantics.NonNegative
import BoundedLoop.Proofs.Static.Operands

/-!
# Numbers in texts

A text can only spell numbers that are not negative (`Token.constants_of_scan`). A row of digits is one
constant (`Token.scan_of_digits`) or too big as a whole (`Token.scan_of_tooBig`), so every number that a text
can spell is scanned back from how it is shown (`Token.scansAs_text`).
-/

namespace BoundedLoop

namespace Lexeme

theorem Longest.whole {p : Pattern} {t : List Char} (h : p.Matches t) : Longest p t t :=
  ⟨List.prefix_rfl, h, fun _ _ hu _ => hu.length_le⟩

/-- A text that is read off as a whole is one lexeme. -/
theorem ReadOff.allFrom_eq {r : Except Flaw Shape} {cs : List Char} (h : ReadOff cs r cs)
    (p : Text.Place) : allFrom p cs = [⟨r, cs, p⟩] := by
  have htiled : Tiled p ([] ++ (cs ++ [])) [⟨r, cs, p⟩] := by
    refine .cons (l := ⟨r, cs, p⟩) (List.forall_mem_nil _) rfl ?_ (.done (List.forall_mem_nil _))
    rwa [List.append_nil]
  rw [List.nil_append, List.append_nil] at htiled
  exact htiled.allFrom_eq

end Lexeme

theorem Lexeme.Pattern.matches_toDigits (n : Nat) : digits.Matches (Nat.toDigits 10 n) :=
  ⟨Nat.toDigits_ne_nil, fun _ hc =>
    isDigit_iff.1 (Nat.isDigit_of_mem_toDigits (by decide) (Nat.le_refl 10) hc)⟩

theorem Value.text_of_nonNegative {n : Int64} (h : 0 ≤ n.toInt) :
    (number n).text.toList = Nat.toDigits 10 n.toInt.toNat := by
  have htext : (number n).text = toString ((n.toInt.toNat : Nat) : Int) := by
    rw [Int.toNat_of_nonneg h]
    rfl
  rw [htext]
  exact Nat.toList_repr

/-- A number that is not negative is shown in digits that spell it. -/
theorem Value.digits_text {n : Int64} (h : 0 ≤ n.toInt) :
    Lexeme.Pattern.digits.Matches (number n).text.toList ∧ n.toInt = Text.decimal (number n).text.toList := by
  rw [text_of_nonNegative h, Text.decimal_toDigits, Int.toNat_of_nonneg h]
  exact ⟨Lexeme.Pattern.matches_toDigits _, rfl⟩

namespace Token

/-- The text is a constant of this value, and nothing else. -/
def ScansAs (source : String) (v : Value) : Prop :=
  ∃ t finish, scan source = .ok [t, finish] ∧
    (t.kind = .constant ∧ t.lexeme = source ∧ t.literal = some (.value v)) ∧ finish.kind = .eof

/-- Digits that spell a number of 64 bits are one constant. -/
theorem scan_of_digits {source : String} {n : Int64} (h : Lexeme.Pattern.digits.Matches source.toList)
    (hn : n.toInt = Text.decimal source.toList) : scan source =
      .ok [Lexeme.token ⟨.ok (.number n), source.toList, {}⟩ .constant (some (.value (.number n))),
        endOf (Text.Place.after {} source.toList)] := by
  have hread : Lexeme.ReadOff source.toList (.ok (.number n)) source.toList := .shape (.whole h) hn
  rw [scan, hread.allFrom_eq]
  rfl

/-- Digits that spell a larger number are an error, all of them. -/
theorem scan_of_tooBig {source : String} (h : Lexeme.Pattern.digits.Matches source.toList)
    (hbig : Int64.maxValue.toInt < Text.decimal source.toList) :
    scan source = .error ⟨Text.Place.site {} source.toList, .flaw .numberTooBig⟩ := by
  have hread : Lexeme.ReadOff source.toList (.error .numberTooBig) source.toList := .tooBig (.whole h) hbig
  rw [scan, hread.allFrom_eq]
  rfl

theorem scansAs_of_digits {source : String} {n : Int64} (h : Lexeme.Pattern.digits.Matches source.toList)
    (hn : n.toInt = Text.decimal source.toList) : ScansAs source (.number n) :=
  ⟨_, _, scan_of_digits h hn, ⟨rfl, String.ofList_toList, rfl⟩, rfl⟩

/-- What is shown of a number that is not negative is a constant of the same value. -/
theorem scansAs_text {n : Int64} (h : 0 ≤ n.toInt) : ScansAs (Value.number n).text (.number n) :=
  scansAs_of_digits (Value.digits_text h).1 (Value.digits_text h).2

/-- No constant of a text is negative. -/
theorem constants_of_scan {source : String} {tokens : List Token} (h : scan source = .ok tokens) :
    Constants Value.NonNegative tokens := by
  obtain ⟨ts, rfl, hts⟩ := ofLexemes_eq_ok_iff.1 h
  intro t ht v hv
  rcases List.mem_append.1 ht with ht | ht
  · obtain ⟨used, hused, hmade⟩ := hts.exists_of_mem ht
    cases hmade with
    | @number l n hread =>
      have hl : l ∈ Lexeme.all source := hused.subset List.mem_cons_self
      have hvalue : n.toInt = Text.decimal l.chars := (Lexeme.sound_of_mem_all hl _ hread).2
      cases hv
      show 0 ≤ n.toInt
      rw [hvalue]
      exact Int.natCast_nonneg _
    | boolean =>
      cases hv
      trivial
    | _ => cases hv
  · rw [List.mem_singleton.1 ht] at hv
    cases hv

end Token

end BoundedLoop
