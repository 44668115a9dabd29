import BoundedLoop.Bytecode.Listing
import BoundedLoop.Text.Decimal
import Mathlib

/-!
# Columns of a listing

What stands in the columns of a listing, character by character: digits behind zeros or blanks, a sign and
digits, words. A text is cut in one way only where the first character stands that no column before it has
(`Text.append_cons_inj`), so what is written in columns can be told apart again.
-/

namespace BoundedLoop

namespace Text

/-- Where the first character stands that has not `p`, a text is cut in one way only. -/
theorem append_cons_inj (p : Char → Bool) {a a' b b' : List Char} {x x' : Char} (ha : ∀ c ∈ a, p c = true)
    (ha' : ∀ c ∈ a', p c = true) (hx : p x = false) (hx' : p x' = false)
    (h : a ++ x :: b = a' ++ x' :: b') : a = a' ∧ x = x' ∧ b = b' := by
  have hfront : ∀ {a b : List Char} {x : Char}, (∀ c ∈ a, p c = true) → p x = false →
      (a ++ x :: b).takeWhile p = a := by
    intro a b x ha hx
    rw [List.takeWhile_append_of_pos ha, List.takeWhile_cons_of_neg (by rw [hx]; exact Bool.false_ne_true),
      List.append_nil]
  obtain rfl : a = a' := by
    rw [← hfront (b := b) ha hx, h, hfront ha' hx']
  exact ⟨rfl, List.cons.inj (List.append_cancel_left h)⟩

/-! ### Characters -/

theorem isDigit_of_mem_toDigits {n : Nat} : ∀ c ∈ Nat.toDigits 10 n, c.isDigit = true :=
  fun _ => Nat.isDigit_of_mem_toDigits (by decide) (Nat.le_refl 10)

/-- Neither the end of a line nor the tip of an arrow is among the characters. -/
def Plain (cs : List Char) : Prop := ∀ c ∈ cs, c ≠ '\n' ∧ c ≠ '>'

instance : DecidablePred Plain := List.decidableBAll fun c => c ≠ '\n' ∧ c ≠ '>'

theorem plain_append {a b : List Char} : Plain (a ++ b) ↔ Plain a ∧ Plain b := List.forall_mem_append

theorem plain_cons {c : Char} {cs : List Char} : Plain (c :: cs) ↔ (c ≠ '\n' ∧ c ≠ '>') ∧ Plain cs :=
  List.forall_mem_cons

theorem plain_of_digits {cs : List Char} (h : ∀ c ∈ cs, c.isDigit = true) : Plain cs := by
  intro c hc
  have hdigit := h c hc
  constructor <;> rintro rfl <;> cases hdigit

theorem plain_blanks (n : Nat) : Plain (List.replicate n ' ') := by
  intro c hc
  rw [List.eq_of_mem_replicate hc]
  decide

/-! ### Numbers -/

theorem toList_toString_nat (n : Nat) : (toString n).toList = Nat.toDigits 10 n := Nat.toList_repr

theorem toDigits_injective {m n : Nat} (h : Nat.toDigits 10 m = Nat.toDigits 10 n) : m = n := by
  rw [← decimal_toDigits m, h, decimal_toDigits]

/-- Digits that end where something else begins say which number they are. -/
theorem toDigits_append_inj {m n : Nat} {x x' : Char} {b b' : List Char} (hx : x.isDigit = false)
    (hx' : x'.isDigit = false) (h : Nat.toDigits 10 m ++ x :: b = Nat.toDigits 10 n ++ x' :: b') :
    m = n ∧ b = b' := by
  obtain ⟨hdigits, -, hb⟩ :=
    append_cons_inj Char.isDigit isDigit_of_mem_toDigits isDigit_of_mem_toDigits hx hx' h
  exact ⟨toDigits_injective hdigits, hb⟩

theorem exists_toDigits (n : Nat) : ∃ d ds, Nat.toDigits 10 n = d :: ds ∧ d.isDigit = true := by
  obtain ⟨d, ds, h⟩ := List.exists_cons_of_ne_nil (Nat.toDigits_ne_nil (n := n) (b := 10))
  exact ⟨d, ds, h, isDigit_of_mem_toDigits d (h ▸ List.mem_cons_self)⟩

theorem blanks_append_inj {k k' : Nat} {x x' : Char} {b b' : List Char} (hx : x ≠ ' ') (hx' : x' ≠ ' ')
    (h : List.replicate k ' ' ++ x :: b = List.replicate k' ' ' ++ x' :: b') : x = x' ∧ b = b' := by
  have hblank : ∀ n, ∀ c ∈ List.replicate n ' ', (c == ' ') = true := fun n c hc => by
    rw [List.eq_of_mem_replicate hc]
    rfl
  exact (append_cons_inj (· == ' ') (hblank k) (hblank k') (beq_false_of_ne hx) (beq_false_of_ne hx') h).2

theorem toList_padLeft (fill : Char) (width : Nat) (s : String) :
    (padLeft fill width s).toList = List.replicate (width - s.length) fill ++ s.toList := by
  rw [padLeft, String.toList_append, String.toList_ofList]

theorem toList_zeroPadded (width n : Nat) :
    ∃ k, (zeroPadded width n).toList = List.replicate k '0' ++ Nat.toDigits 10 n := by
  refine ⟨width - (toString n).length, ?_⟩
  rw [zeroPadded, if_neg (Int.not_lt.2 (Int.natCast_nonneg n)), toList_padLeft, Int.natAbs_natCast,
    toList_toString_nat]

theorem isDigit_of_mem_zeroPadded {width n : Nat} : ∀ c ∈ (zeroPadded width n).toList, c.isDigit = true := by
  obtain ⟨k, hk⟩ := toList_zeroPadded width n
  rw [hk]
  refine List.forall_mem_append.2 ⟨fun c hc => ?_, isDigit_of_mem_toDigits⟩
  rw [List.eq_of_mem_replicate hc]
  rfl

theorem decimal_zeroPadded (width n : Nat) : decimal (zeroPadded width n).toList = n := by
  obtain ⟨k, hk⟩ := toList_zeroPadded width n
  rw [hk, decimal_zeros_append, decimal_toDigits]

theorem plain_zeroPadded (width : Nat) (n : Int) : Plain (zeroPadded width n).toList := by
  cases n with
  | ofNat n => exact plain_of_digits isDigit_of_mem_zeroPadded
  | negSucc n =>
    have hzeros : Plain (List.replicate (width - 1 - (toString (n + 1)).length) '0') :=
      plain_of_digits fun c hc => by rw [List.eq_of_mem_replicate hc]; rfl
    rw [zeroPadded, if_pos (Int.negSucc_lt_zero n), String.toList_append, toList_padLeft,
      toList_toString_nat]
    exact plain_append.2
      ⟨by decide, plain_append.2 ⟨hzeros, plain_of_digits isDigit_of_mem_toDigits⟩⟩

theorem toList_signed (n : Int) :
    (signed n).toList = (if n < 0 then '-' else '+') :: Nat.toDigits 10 n.natAbs := by
  rw [signed, String.toList_append, toList_toString_nat]
  split <;> rfl

/-- A number with its sign, followed by a blank, says which number it is. -/
theorem signed_append_inj {m n : Int} {b b' : List Char}
    (h : (signed m).toList ++ ' ' :: b = (signed n).toList ++ ' ' :: b') : m = n := by
  rw [toList_signed, toList_signed, List.cons_append, List.cons_append, List.cons.injEq] at h
  obtain ⟨hsign, hdigits⟩ := h
  have hnatAbs := (toDigits_append_inj rfl rfl hdigits).1
  split at hsign <;> split at hsign <;> first | omega | cases hsign

theorem plain_signed (n : Int) : Plain (signed n).toList := by
  rw [toList_signed]
  refine plain_cons.2 ⟨?_, plain_of_digits isDigit_of_mem_toDigits⟩
  split <;> decide

end Text

open Text

/-! ### Values -/

namespace Value

theorem toList_text_number (n : Int64) : (number n).text.toList =
    (if n.toInt < 0 then ['-'] else []) ++ Nat.toDigits 10 n.toInt.natAbs := by
  show (Int.repr n.toInt).toList = _
  cases n.toInt with
  | ofNat n =>
    have hn : ¬Int.ofNat n < 0 := Int.not_lt.2 (Int.natCast_nonneg n)
    rw [if_neg hn]
    exact Nat.toList_repr
  | negSucc n =>
    rw [if_pos (Int.negSucc_lt_zero n)]
    exact (String.toList_append ..).trans (congrArg ('-' :: ·) Nat.toList_repr)

theorem plain_text (v : Value) : Plain v.text.toList := by
  cases v with
  | number n =>
    rw [toList_text_number]
    refine plain_append.2 ⟨?_, plain_of_digits isDigit_of_mem_toDigits⟩
    split <;> decide
  | boolean b => cases b <;> decide

theorem text_number_ne_boolean (n : Int64) (b : Bool) : (number n).text ≠ (boolean b).text := by
  intro h
  have hmem : ∀ c ∈ (boolean b).text.toList, c = '-' ∨ c.isDigit = true := by
    intro c hc
    rw [← h, toList_text_number] at hc
    rcases List.mem_append.1 hc with hc | hc
    · split at hc
      · exact .inl (List.mem_singleton.1 hc)
      · cases hc
    · exact .inr (isDigit_of_mem_toDigits c hc)
  cases b with
  | true => exact absurd (hmem 'Y' List.mem_cons_self) (by decide)
  | false => exact absurd (hmem 'N' List.mem_cons_self) (by decide)

/-- Values that are shown alike are the same. -/
theorem text_injective : Function.Injective text := by
  intro v w h
  cases v with
  | number n =>
    cases w with
    | number m => exact congrArg number (Int64.toInt_inj.1 (Int.repr_injective h))
    | boolean b => exact absurd h (text_number_ne_boolean n b)
  | boolean b =>
    cases w with
    | number n => exact absurd h.symm (text_number_ne_boolean n b)
    | boolean b' => cases b <;> cases b' <;> simp [text] at h ⊢

end Value

/-! ### Instructions -/

theorem Opcode.mem_all (op : Opcode) : op ∈ all := by
  cases op <;> decide

theorem Opcode.name_injective : Function.Injective name := fun op op' h =>
  List.inj_on_of_nodup_map (by decide) op.mem_all op'.mem_all h

theorem Opcode.plain_name (op : Opcode) : Plain op.name.toList := by
  cases op <;> decide

theorem Opcode.isWord_name (op : Opcode) : ∀ c ∈ op.name.toList, (c != ' ') = true := by
  rw [← List.all_eq_true]
  cases op <;> rfl

namespace Instruction

/-- What is shown of an instruction behind the name of its opcode. -/
def operandText (i : Instruction) (offset : Nat) : List Char :=
  match i with
  | push v => ' ' :: v.text.toList
  | jump d | jumpIfFalse d => ' ' :: ((signed d.toInt).toList ++ ' ' :: '-' :: '>' :: ' ' ::
      (zeroPadded 4 (((offset + 3 : Nat) : Int) + d.toInt)).toList)
  | store slot | load slot => ' ' :: Nat.toDigits 10 slot.toNat
  | _ => []

theorem toList_text (i : Instruction) (offset : Nat) :
    (i.text offset).toList = i.opcode.name.toList ++ i.operandText offset := by
  cases i with
  | push v => simp [text, operandText, String.toList_append]
  | jump d | jumpIfFalse d =>
    simp [text, operandText, String.toList_append, size, opcode, Opcode.operandSize]
  | store slot | load slot =>
    simp only [text, operandText, String.toList_append, toList_toString_nat, List.append_assoc]
    rfl
  | _ => simp [text, operandText]

theorem takeWhile_text (i : Instruction) (offset : Nat) :
    (i.text offset).toList.takeWhile (· != ' ') = i.opcode.name.toList := by
  have hoperand : (i.operandText offset).takeWhile (· != ' ') = [] := by
    cases i <;> rfl
  rw [toList_text, List.takeWhile_append_of_pos i.opcode.isWord_name, hoperand, List.append_nil]

/-- Instructions at one offset that are shown alike are the same. -/
theorem text_injective {i i' : Instruction} {offset : Nat} (h : i.text offset = i'.text offset) : i = i' := by
  have hop : i.opcode = i'.opcode := by
    refine Opcode.name_injective (String.toList_inj.1 ?_)
    rw [← takeWhile_text i offset, h, takeWhile_text]
  have hoperand : i.operandText offset = i'.operandText offset := by
    have hlist := congrArg String.toList h
    rw [toList_text, toList_text, hop] at hlist
    exact List.append_cancel_left hlist
  cases i with
  | push v =>
    cases i' <;> cases hop
    exact congrArg push (Value.text_injective (String.toList_inj.1 (List.cons.inj hoperand).2))
  | jump d | jumpIfFalse d =>
    cases i' <;> cases hop
    rw [Int16.toInt_inj.1 (signed_append_inj (List.cons.inj hoperand).2)]
  | store slot | load slot =>
    cases i' <;> cases hop
    rw [UInt8.toNat_inj.1 (toDigits_injective (List.cons.inj hoperand).2)]
  | _ => cases i' <;> first | rfl | cases hop

end Instruction

/-! ### Lines -/

namespace Chunk

/-- Behind blanks, the column of source lines holds a bar or the line. -/
theorem toList_lineColumn (above : Option Nat) (line : Nat) : ∃ k x xs,
    (lineColumn above line).toList = List.replicate k ' ' ++ x :: (xs ++ [' ']) ∧
      (above = some line ∧ x = '|' ∧ xs = [] ∨ x :: xs = Nat.toDigits 10 line ∧ x.isDigit = true) := by
  unfold lineColumn
  split
  · rename_i habove
    exact ⟨3, '|', [], rfl, .inl ⟨habove, rfl, rfl⟩⟩
  · obtain ⟨d, ds, hds, hd⟩ := exists_toDigits line
    refine ⟨4 - (toString line).length, d, ds, ?_, .inr ⟨hds.symm, hd⟩⟩
    rw [String.toList_append, toList_padLeft, toList_toString_nat, hds, List.append_assoc]
    rfl

theorem plain_lineColumn (above : Option Nat) (line : Nat) : Plain (lineColumn above line).toList := by
  obtain ⟨k, x, xs, h, hcolumn⟩ := toList_lineColumn above line
  have hmiddle : Plain (x :: xs) := by
    rcases hcolumn with ⟨-, rfl, rfl⟩ | ⟨hdigits, -⟩
    · decide
    · rw [hdigits]
      exact plain_of_digits isDigit_of_mem_toDigits
  rw [h]
  exact plain_append.2 ⟨plain_blanks k, plain_append.2 ⟨hmiddle, by decide⟩⟩

/-- Below one line, the column says which line it is, and where it ends. -/
theorem lineColumn_append_inj {above : Option Nat} {line line' : Nat} {b b' : List Char}
    (h : (lineColumn above line).toList ++ b = (lineColumn above line').toList ++ b') :
    line = line' ∧ b = b' := by
  obtain ⟨k, x, xs, hlist, hcolumn⟩ := toList_lineColumn above line
  obtain ⟨k', x', xs', hlist', hcolumn'⟩ := toList_lineColumn above line'
  have hblank : ∀ {x : Char}, x = '|' ∨ x.isDigit = true → x ≠ ' ' := by
    rintro x hx rfl
    rcases hx with hx | hx <;> cases hx
  simp only [hlist, hlist', List.append_assoc, List.cons_append, List.nil_append] at h
  obtain ⟨rfl, hrest⟩ := blanks_append_inj (hblank (hcolumn.imp (·.2.1) (·.2)))
    (hblank (hcolumn'.imp (·.2.1) (·.2))) h
  rcases hcolumn with ⟨hline, rfl, rfl⟩ | ⟨hdigits, hx⟩
  · rcases hcolumn' with ⟨hline', -, rfl⟩ | ⟨-, hx⟩
    · exact ⟨Option.some.inj (hline.symm.trans hline'), (List.cons.inj hrest).2⟩
    · cases hx
  · rcases hcolumn' with ⟨-, rfl, -⟩ | ⟨hdigits', -⟩
    · cases hx
    · have hboth : Nat.toDigits 10 line ++ ' ' :: b = Nat.toDigits 10 line' ++ ' ' :: b' := by
        rw [← hdigits, ← hdigits', List.cons_append, List.cons_append]
        exact congrArg (x :: ·) hrest
      exact toDigits_append_inj rfl rfl hboth

end Chunk

end BoundedLoop
