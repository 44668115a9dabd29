import BoundedLoop.Proofs.Correctness
import BoundedLoop.Proofs.Lexing.Numbers
import BoundedLoop.Proofs.LineLookup
import Mathlib.Data.Nat.Digits.Defs

/-!
# Number literals

A row of digits spells a number by their weights (`Text.spelled`). It is scanned as one constant of exactly this
number, or is too big as a whole; zeros in front have no weight, so any number of them may be there.

A constant goes into the code as eight bytes, which spell it in base 256. So a program that outputs a number
(`Program.outputOf`) is compiled to code that pushes it, and running the code gives it back
(`Program.run_outputOf`).

Main statement: `literals_exact`.
-/

namespace BoundedLoop

/-! ### Weights -/

/-- Reading digits from the left gives each of them its weight. -/
theorem foldl_eq_ofDigits {α : Type} (base : Nat) (value : α → Nat) (digits : List α) :
    digits.foldl (fun n d => n * base + value d) 0 = Nat.ofDigits base (digits.reverse.map value) := by
  induction digits using List.reverseRecOn with
  | nil => rfl
  | append_singleton digits d ih =>
    rw [List.foldl_append, ih, List.reverse_append, List.reverse_singleton, List.singleton_append, List.map_cons,
      Nat.ofDigits_cons, Nat.mul_comm, Nat.add_comm]
    rfl

/-- The number that digits spell: the last one counts once, and each of the others ten times as much as the one
behind it. -/
def Text.spelled (digits : List Char) : Nat :=
  Nat.ofDigits 10 (digits.reverse.map digitValue)

theorem Text.decimal_eq_spelled (digits : List Char) : decimal digits = spelled digits :=
  foldl_eq_ofDigits 10 digitValue digits

theorem BigEndian.ofDigits_encode (width n : Nat) :
    Nat.ofDigits 256 ((encode width n).reverse.map UInt8.toNat) = n % Nat.pow 256 width := by
  rw [← foldl_eq_ofDigits]
  exact decode_encode width n

/-- A number that is not negative is written as eight bytes behind its tag, which spell it in base 256. -/
theorem Instruction.exists_payload {n : Int64} (h : 0 ≤ n.toInt) : ∃ payload,
    valueBytes (.number n) = 0 :: payload ∧ payload.length = 8 ∧
      Nat.ofDigits 256 (payload.reverse.map UInt8.toNat) = n.toInt.toNat := by
  refine ⟨_, rfl, BigEndian.length_encode _ _, ?_⟩
  have hfits : n.toUInt64.toNat < Nat.pow 256 8 := n.toUInt64.toNat_lt
  rw [BigEndian.ofDigits_encode, Nat.mod_eq_of_lt hfits]
  exact Int64.toNat_toUInt64_of_le (Int64.le_iff_toInt_le.2 h)

theorem exists_toInt_eq {x : Nat} (h : (x : Int) ≤ Int64.maxValue.toInt) : ∃ n : Int64, n.toInt = x := by
  have hmax : Int64.maxValue.toInt = 2 ^ 63 - 1 := by decide
  exact ⟨Int64.ofInt x, Int64.toInt_ofInt_of_le (by omega) (by omega)⟩

/-! ### Digits as a text -/

theorem Lexeme.Pattern.matches_digits_iff {source : String} :
    digits.Matches source.toList ↔ source ≠ "" ∧ ∀ c ∈ source.toList, '0' ≤ c ∧ c ≤ '9' := by
  rw [ne_eq, ← String.toList_eq_nil_iff]
  rfl

/-- The end of a text on one line. -/
theorem Text.Place.after_of_not_mem {source : String} (h : '\n' ∉ source.toList) :
    after {} source.toList = ⟨source.utf8ByteSize, 1, source.length + 1⟩ := by
  have hoffset : (after {} source.toList).offset = source.utf8ByteSize := by
    rw [offset_after, utf8ByteSize_eq]
    exact Nat.zero_add _
  have hline : (after {} source.toList).line = 1 := by
    rw [line_after, List.count_eq_zero.2 h]
  have hcolumn : (after {} source.toList).column = source.length + 1 := by
    rw [column_after_of_not_mem h, String.length_toList]
    exact Nat.add_comm _ _
  calc after {} source.toList = ⟨(after {} source.toList).offset, (after {} source.toList).line,
        (after {} source.toList).column⟩ := rfl
    _ = _ := by rw [hoffset, hline, hcolumn]

namespace Token

/-- Digits that spell a number of 64 bits are one constant, in front of the end. -/
theorem scan_of_spelled {source : String} {n : Int64} (h : Lexeme.Pattern.digits.Matches source.toList)
    (hn : n.toInt = Text.spelled source.toList) : scan source = .ok [
      { span := ⟨0, source.utf8ByteSize⟩, line := 1, column := 1, kind := .constant, lexeme := source,
        literal := some (.value (.number n)) },
      { span := ⟨source.utf8ByteSize, source.utf8ByteSize⟩, line := 1, column := source.length + 1,
        kind := .eof, lexeme := "" }] := by
  have hend := Text.Place.after_of_not_mem (h.lineFeed_not_mem (by simp))
  rw [← Text.decimal_eq_spelled] at hn
  rw [scan_of_digits h hn, hend, Lexeme.token, Lexeme.text, String.ofList_toList, Lexeme.site,
    Text.Place.site, hend]
  rfl

theorem scan_of_spelled_tooBig {source : String} (h : Lexeme.Pattern.digits.Matches source.toList)
    (hbig : Int64.maxValue.toInt < Text.spelled source.toList) :
    scan source = .error ⟨⟨⟨0, source.utf8ByteSize⟩, 1, 1⟩, .flaw .numberTooBig⟩ := by
  rw [← Text.decimal_eq_spelled] at hbig
  rw [scan_of_tooBig h hbig, Text.Place.site, Text.Place.after_of_not_mem (h.lineFeed_not_mem (by simp))]

/-- The tokens of a program that outputs a number. -/
theorem scan_output {literal : String} {n : Int64} (h : Lexeme.Pattern.digits.Matches literal.toList)
    (hn : n.toInt = Text.decimal literal.toList) : ∃ target arrow constant finish,
      scan ("OUTPUT <- " ++ literal) = .ok [target, arrow, constant, finish] ∧
      target.kind = .keyword .output ∧ arrow.kind = .symbol .leftArrow ∧
      (constant.kind = .constant ∧ constant.value? = some (.number n)) ∧ finish.kind = .eof := by
  have hblank : ∀ c ∈ [' '], Lexeme.isSeparator c = true := List.forall_mem_singleton.2 rfl
  have hword : Lexeme.Pattern.word.Matches "OUTPUT".toList :=
    ⟨'O', ['U', 'T', 'P', 'U', 'T'], [], rfl, by decide, by simp [Lexeme.Pattern.Letter], .inl rfl⟩
  have hnumber : ∀ p : Text.Place, Lexeme.Tiled p ([' '] ++ (literal.toList ++ []))
      [⟨.ok (.number n), literal.toList, p.after [' ']⟩] := fun p =>
    .cons_of_separator (s := .number n) h hn hblank (by simp) (.done (List.forall_mem_nil _))
  have harrow : ∀ p : Text.Place, Lexeme.Tiled p ([' '] ++ (['<', '-'] ++ ([' '] ++ (literal.toList ++ []))))
      (⟨.ok (.symbol .leftArrow), ['<', '-'], p.after [' ']⟩ :: [_]) := fun p =>
    .cons_of_separator (s := .symbol .leftArrow) rfl trivial hblank (by simp [Lexeme.isSeparator]) (hnumber _)
  have htiled := Lexeme.Tiled.cons_of_separator (p := {}) (s := .word) hword trivial (List.forall_mem_nil _)
    (by simp [Lexeme.isSeparator]) (harrow _)
  have htext : ("OUTPUT <- " ++ literal).toList =
      [] ++ ("OUTPUT".toList ++ ([' '] ++ (['<', '-'] ++ ([' '] ++ (literal.toList ++ []))))) := by
    rw [String.toList_append, List.append_nil]
    rfl
  rw [scan, htext, htiled.allFrom_eq]
  exact ⟨_, _, _, _, rfl, rfl, rfl, ⟨rfl, rfl⟩, rfl⟩

end Token

/-! ### Programs that output a constant -/

namespace Program

/-- The program that outputs the constant `v`. -/
def outputOf (target arrow constant : Token) (v : Value) : Program :=
  [.assign target Token.outputName arrow (.constant constant v)]

section Output

variable {target arrow constant : Token} {v : Value}

theorem code_outputOf : (outputOf target arrow constant v).code =
    [.op (.push v) constant.line, .op (.store 0) target.line, .op .pop target.line] := rfl

theorem fits_outputOf : (outputOf target arrow constant v).code.Fits := by
  simp [code_outputOf]

/-- The constant stands between the opcode that pushes it and the code that assigns it to `OUTPUT`. -/
theorem bytes_outputOf : (outputOf target arrow constant v).chunk.bytes =
    [6] ++ Instruction.valueBytes v ++ [10, 0, 7] := by
  rw [bytes_chunk, code_outputOf]
  rfl

theorem size_outputOf : (outputOf target arrow constant v).chunk.size = 13 := by
  rw [Chunk.size_eq_length_bytes, bytes_outputOf]
  cases v <;> simp [Instruction.valueBytes]

theorem accepted_outputOf (htarget : target.kind = .keyword .output) (harrow : arrow.kind = .symbol .leftArrow)
    (hconstant : constant.kind = .constant ∧ constant.value? = some v) :
    (outputOf target arrow constant v).Accepted
      (Function.update (fun _ => none) Token.outputName (some v.ty)) where
  grammatical := ⟨⟨⟨.inr htarget, if_pos htarget⟩, harrow, hconstant⟩, trivial⟩
  check := rfl
  room := by
    show Layout.initial.length ≤ Chunk.maxSlots
    decide
  fits := fits_outputOf

/-- The constant is pushed, stored and popped, and is the output in the end. -/
theorem run_outputOf : Machine.run (outputOf target arrow constant v).chunk
    (.ofChunk (outputOf target arrow constant v).chunk) = some (.output v, ⟨13, [], #[some v]⟩) := by
  have hcode : (outputOf target arrow constant v).chunk.Holds 0 (outputOf target arrow constant v).code :=
    holds_code fits_outputOf
  rw [code_outputOf] at hcode
  have hpush : Machine.Steps _ (.ofChunk (outputOf target arrow constant v).chunk) ⟨10, [v], #[none]⟩ :=
    Machine.steps_push hcode
  have hstore : Machine.Steps _ ⟨10, [v], #[none]⟩ ⟨12, [v], #[some v]⟩ :=
    Machine.steps_store (by decide) hcode.tail
  have hsteps := (hpush.trans hstore).trans (Machine.steps_pop hcode.tail.tail)
  obtain ⟨n, hn⟩ := hsteps.advance_result (by simp [Machine.isFinished, size_outputOf])
  have hstop : Stop.output v ≠ .outOfFuel := by simp
  exact Machine.run_eq_of_advance hn hstop

end Output

end Program

/-- Digits behind the arrow are compiled to code that outputs the number they spell. -/
theorem compile_output {literal : String} {n : Int64} (h : Lexeme.Pattern.digits.Matches literal.toList)
    (hn : n.toInt = Text.decimal literal.toList) : ∃ target arrow constant,
      compile ("OUTPUT <- " ++ literal) = .ok (Program.outputOf target arrow constant (.number n)).chunk := by
  obtain ⟨target, arrow, constant, finish, hscan, htarget, harrow, hconstant, hfinish⟩ := Token.scan_output h hn
  have hp := Program.accepted_outputOf htarget harrow hconstant
  refine ⟨target, arrow, constant, compile_eq_ok_iff.2 ⟨_, hscan, ?_⟩⟩
  exact (compileTokens_eq_ok_iff_of_scan hscan).2 ⟨_, _, hp, ⟨hp.grammatical, finish, hfinish, rfl⟩, rfl⟩

/-- A row of digits is one constant of exactly the number that the digits spell, or too big as a whole, whatever
its length and however many zeros it begins with. So a program can output every number that is not negative by
what is shown of it. The code pushes the number, stores it in the slot of `OUTPUT` and pops it; it has the number
as eight bytes behind a tag, which spell it in base 256, and running the code gives it back. -/
theorem literals_exact :
    (∀ source : String, source ≠ "" → (∀ c ∈ source.toList, '0' ≤ c ∧ c ≤ '9') →
      (Text.spelled source.toList ≤ Int64.maxValue.toInt →
        ∃ n : Int64, n.toInt = Text.spelled source.toList ∧ Token.scan source = .ok [
          { span := ⟨0, source.utf8ByteSize⟩, line := 1, column := 1, kind := .constant, lexeme := source,
            literal := some (.value (.number n)) },
          { span := ⟨source.utf8ByteSize, source.utf8ByteSize⟩, line := 1, column := source.length + 1,
            kind := .eof, lexeme := "" }]) ∧
      (Int64.maxValue.toInt < Text.spelled source.toList →
        Token.scan source = .error ⟨⟨⟨0, source.utf8ByteSize⟩, 1, 1⟩, .flaw .numberTooBig⟩)) ∧
    ∀ n : Int64, 0 ≤ n.toInt → ∃ (chunk : Chunk) (payload : List UInt8),
      compile ("OUTPUT <- " ++ (Value.number n).text) = .ok chunk ∧
      chunk.bytes = [6, 0] ++ payload ++ [10, 0, 7] ∧ payload.length = 8 ∧
      Nat.ofDigits 256 (payload.reverse.map UInt8.toNat) = n.toInt.toNat ∧
      chunk.decode 0 = .ok (.push (.number n)) ∧
      Machine.run chunk (.ofChunk chunk) = some (.output (.number n), ⟨13, [], #[some (.number n)]⟩) := by
  refine ⟨fun source hne hdigits => ⟨fun hle => ?_, fun hbig => ?_⟩, fun n hn => ?_⟩
  · obtain ⟨n, hn⟩ := exists_toInt_eq hle
    exact ⟨n, hn, Token.scan_of_spelled (Lexeme.Pattern.matches_digits_iff.2 ⟨hne, hdigits⟩) hn⟩
  · exact Token.scan_of_spelled_tooBig (Lexeme.Pattern.matches_digits_iff.2 ⟨hne, hdigits⟩) hbig
  · obtain ⟨hdigits, hvalue⟩ := Value.digits_text hn
    obtain ⟨target, arrow, constant, hcompile⟩ := compile_output hdigits hvalue
    obtain ⟨payload, hbytes, hlength, hpayload⟩ := Instruction.exists_payload hn
    refine ⟨_, payload, hcompile, ?_, hlength, hpayload, ?_, Program.run_outputOf⟩
    · rw [Program.bytes_outputOf, hbytes]
      rfl
    · exact (Program.holds_code Program.fits_outputOf).decode

/-- The largest number, behind zeros and by itself, and the next one. -/
theorem literals_exact_largest :
    (∃ n : Int64, n.toInt = 9223372036854775807 ∧ Token.scan "0009223372036854775807" = .ok [
      { span := ⟨0, 22⟩, line := 1, column := 1, kind := .constant, lexeme := "0009223372036854775807",
        literal := some (.value (.number n)) },
      { span := ⟨22, 22⟩, line := 1, column := 23, kind := .eof, lexeme := "" }]) ∧
    Token.scan "0009223372036854775808" = .error ⟨⟨⟨0, 22⟩, 1, 1⟩, .flaw .numberTooBig⟩ ∧
    ∃ chunk, compile "OUTPUT <- 9223372036854775807" = .ok chunk ∧
      chunk.decode 0 = .ok (.push (.number 9223372036854775807)) ∧
      Machine.run chunk (.ofChunk chunk) =
        some (.output (.number 9223372036854775807), ⟨13, [], #[some (.number 9223372036854775807)]⟩) := by
  have hlargest : Text.spelled "0009223372036854775807".toList = 9223372036854775807 := by decide +kernel
  have hnext : Text.spelled "0009223372036854775808".toList = 9223372036854775808 := by decide +kernel
  obtain ⟨hrows, hnumbers⟩ := literals_exact
  refine ⟨?_, ?_, ?_⟩
  · obtain ⟨n, hn, hscan⟩ := (hrows "0009223372036854775807" (by decide) (by simp)).1 (by rw [hlargest]; decide)
    rw [hlargest] at hn
    exact ⟨n, hn, hscan⟩
  · exact (hrows "0009223372036854775808" (by decide) (by simp)).2 (by rw [hnext]; decide)
  · obtain ⟨chunk, -, hcompile, -, -, -, hdecode, hrun⟩ := hnumbers 9223372036854775807 (by decide)
    exact ⟨chunk, hcompile, hdecode, hrun⟩

end BoundedLoop
