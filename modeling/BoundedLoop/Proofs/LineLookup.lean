import BoundedLoop.Proofs.Lexing.Places
import Mathlib.Data.Prod.Lex
import Mathlib.Order.Monotone.Defs

/-!
# Lines and columns

Looking up an offset counts: the line feeds below it are the lines that are over, and the characters
behind the last of them are the columns (`Text.exists_line_of_isValid`). An offset inside a character or
behind the end has a line, but no column of its own (`Text.position_of_not_isValid`).

The line feeds are counted among the bytes of the text. No other character has a byte like theirs
(`Text.lineFeed_mem_encode_iff`), so they can be counted among the characters as well.

Main statement: `Text.position_counts`.
-/

namespace BoundedLoop.Text

/-! ### Line feeds among the bytes -/

/-- The number of line feeds among the bytes of a text below `offset`. -/
def lineFeeds (source : String) (offset : Nat) : Nat :=
  (source.toByteArray.data.toList.take offset).count 0x0a

theorem toByteArray_eq_flatMap (source : String) :
    source.toByteArray.data.toList = source.toList.flatMap String.utf8EncodeChar := by
  conv_lhs => rw [← String.ofList_toList (s := source), String.toByteArray_ofList]
  exact List.toList_data_toByteArray

/-- A character beyond ASCII has large bytes only. -/
theorem of_mem_encode {c : Char} {b : UInt8} (h : b ∈ String.utf8EncodeChar c) :
    128 ≤ b.toNat ∨ c.toNat = b.toNat := by
  have hlarge : ∀ {n : Nat}, 128 ≤ n → n < 256 → 128 ≤ (UInt8.ofNat n).toNat := by
    intro n hle hlt
    rwa [UInt8.toNat_ofNat', Nat.mod_eq_of_lt hlt]
  unfold String.utf8EncodeChar at h
  dsimp only at h
  split_ifs at h with hascii
  · right
    rw [List.mem_singleton.1 h, UInt8.toNat_ofNat', Nat.mod_eq_of_lt (by omega)]
    rfl
  all_goals
    left
    simp only [List.mem_cons, List.not_mem_nil, or_false] at h
  · rcases h with rfl | rfl <;> exact hlarge (by omega) (by omega)
  · rcases h with rfl | rfl | rfl <;> exact hlarge (by omega) (by omega)
  · rcases h with rfl | rfl | rfl | rfl <;> exact hlarge (by omega) (by omega)

theorem lineFeed_mem_encode_iff {c : Char} : 0x0a ∈ String.utf8EncodeChar c ↔ c = '\n' := by
  constructor
  · intro h
    rcases of_mem_encode h with hlarge | hc
    · exact absurd hlarge (by decide)
    · exact Char.toNat_inj.1 hc
  · rintro rfl
    decide

theorem count_encode (c : Char) : (String.utf8EncodeChar c).count 0x0a = if c = '\n' then 1 else 0 := by
  split
  · subst c
    decide
  · rename_i hc
    exact List.count_eq_zero.2 fun h => hc (lineFeed_mem_encode_iff.1 h)

/-- Line feeds can be counted among bytes or among characters. -/
theorem count_flatMap_encode (cs : List Char) :
    (cs.flatMap String.utf8EncodeChar).count 0x0a = cs.count '\n' := by
  induction cs with
  | nil => rfl
  | cons c cs ih =>
    rw [List.flatMap_cons, List.count_append, ih, count_encode, List.count_cons, Nat.add_comm]
    simp only [beq_iff_eq]

/-- Inside a character there is no line feed. -/
theorem count_take_encode {c : Char} {n : Nat} (h : n < c.utf8Size) :
    ((String.utf8EncodeChar c).take n).count 0x0a = 0 := by
  refine List.count_eq_zero.2 fun hmem => ?_
  obtain rfl := lineFeed_mem_encode_iff.1 (List.mem_of_mem_take hmem)
  obtain rfl : n = 0 := Nat.lt_one_iff.1 h
  exact List.not_mem_nil hmem

/-! ### Places -/

namespace Place

theorem line_after (p : Place) (cs : List Char) : (p.after cs).line = p.line + cs.count '\n' := by
  induction cs generalizing p with
  | nil => rfl
  | cons c cs ih =>
    have hadvance : (p.advance c).line = p.line + if c = '\n' then 1 else 0 := by
      unfold advance
      split <;> rfl
    rw [after_cons, ih, hadvance, List.count_cons, Nat.add_assoc, Nat.add_comm (cs.count _)]
    simp only [beq_iff_eq]

theorem column_after_of_not_mem {cs : List Char} (h : '\n' ∉ cs) (p : Place) :
    (p.after cs).column = p.column + cs.length := by
  induction cs generalizing p with
  | nil => rfl
  | cons c cs ih =>
    obtain ⟨hc, hcs⟩ := not_or.1 (mt List.mem_cons.2 h)
    have hadvance : (p.advance c).column = p.column + 1 := by
      unfold advance
      rw [if_neg (Ne.symm hc)]
    rw [after_cons, ih hcs, hadvance, List.length_cons, Nat.add_assoc, Nat.add_comm 1]

/-- A line feed leads to the first column. -/
theorem column_after_lineFeed (p : Place) (cs : List Char) : (p.after (cs ++ ['\n'])).column = 1 := by
  rw [after_append]
  rfl

end Place

/-- Characters are whole lines and the beginning of one more. -/
theorem exists_lines (cs : List Char) : ∃ lines line, cs = lines ++ line ∧ '\n' ∉ line ∧
    (lines = [] ∨ ∃ before, lines = before ++ ['\n']) := by
  induction cs using List.reverseRecOn with
  | nil => exact ⟨[], [], rfl, List.not_mem_nil, .inl rfl⟩
  | append_singleton cs c ih =>
    by_cases hc : c = '\n'
    · subst hc
      exact ⟨cs ++ ['\n'], [], (List.append_nil _).symm, List.not_mem_nil, .inr ⟨cs, rfl⟩⟩
    · obtain ⟨lines, line, rfl, hline, hlines⟩ := ih
      refine ⟨lines, line ++ [c], List.append_assoc .., ?_, hlines⟩
      rw [List.mem_append, List.mem_singleton]
      exact fun h => h.elim hline fun h => hc h.symm

theorem isValid_iff {source : String} {offset : Nat} :
    (⟨offset⟩ : String.Pos.Raw).IsValid source ↔ ∃ ahead, Ahead source offset ahead := by
  constructor
  · intro h
    obtain ⟨before, ahead, hsource, hoffset⟩ := String.Pos.Raw.isValid_iff_exists_append.1 h
    refine ⟨ahead.toList, before.toList, ?_, ?_⟩
    · rw [hsource, String.toList_append]
    · rw [← utf8ByteSize_eq]
      exact congrArg String.Pos.Raw.byteIdx hoffset
  · rintro ⟨ahead, h⟩
    exact h.isValid

/-! ### Looking up -/

section Lookup

variable {source : String} {offset offset' : Nat}

/-- No line feed is counted of a character that the offset is in. -/
theorem lineFeeds_of_cutAt {before ahead : List Char} (hsource : source.toList = before ++ ahead)
    (h : CutAt 0 offset before ahead) : lineFeeds source offset = before.count '\n' := by
  obtain ⟨hle, hnext⟩ := h
  rw [Nat.zero_add] at hle hnext
  have hbefore : (before.flatMap String.utf8EncodeChar).take offset =
      before.flatMap String.utf8EncodeChar := by
    rw [List.take_of_length_le]
    rwa [length_flatMap_encode]
  have hahead : ((ahead.flatMap String.utf8EncodeChar).take (offset - bytes before)).count 0x0a = 0 := by
    rcases ahead with _ | ⟨c, ahead⟩
    · rw [List.flatMap_nil, List.take_nil, List.count_nil]
    · have hlt := hnext c rfl
      have hlength := String.length_utf8EncodeChar c
      rw [List.flatMap_cons, List.take_append_of_le_length (by omega), count_take_encode (by omega)]
  rw [lineFeeds, toByteArray_eq_flatMap, hsource, List.flatMap_append, List.take_append, hbefore,
    length_flatMap_encode, List.count_append, hahead, count_flatMap_encode, Nat.add_zero]

/-- The line of the beginning of a character is counted by line feeds, its column by the characters
behind the last of them. -/
theorem exists_line_of_isValid (h : (⟨offset⟩ : String.Pos.Raw).IsValid source) :
    ∃ lines line ahead, source.toList = lines ++ line ++ ahead ∧ bytes (lines ++ line) = offset ∧
      (lines = [] ∨ ∃ before, lines = before ++ ['\n']) ∧ '\n' ∉ line ∧
      position source offset = (1 + lineFeeds source offset, 1 + line.length) := by
  obtain ⟨ahead, before, hsource, rfl⟩ := isValid_iff.1 h
  have hcut : CutAt 0 (bytes before) before ahead := .of_eq (Nat.zero_add _) ahead
  obtain ⟨lines, line, rfl, hline, hlines⟩ := exists_lines before
  refine ⟨lines, line, ahead, hsource, rfl, hlines, hline, ?_⟩
  have hcolumn : (Place.after {} lines).column = 1 := by
    rcases hlines with rfl | ⟨before, rfl⟩
    · rfl
    · exact Place.column_after_lineFeed {} before
  rw [position_of_cutAt hsource hcut, if_pos rfl, lineFeeds_of_cutAt hsource hcut,
    Place.line_after, Place.after_append, Place.column_after_of_not_mem hline, hcolumn]

theorem position_of_not_isValid (h : ¬(⟨offset⟩ : String.Pos.Raw).IsValid source) :
    position source offset = (1 + lineFeeds source offset, 1) := by
  obtain ⟨before, ahead, hsource, hcut⟩ := exists_cutAt (Nat.zero_le offset) source.toList
  have hne : bytes before ≠ offset := fun heq => h (isValid_iff.2 ⟨ahead, before, hsource, heq.symm⟩)
  rw [position_of_cutAt hsource hcut, if_neg hne, lineFeeds_of_cutAt hsource hcut, Place.line_after]

theorem position_lt_of_lt (h : (⟨offset⟩ : String.Pos.Raw).IsValid source)
    (h' : (⟨offset'⟩ : String.Pos.Raw).IsValid source) (hlt : offset < offset') :
    toLex (position source offset) < toLex (position source offset') := by
  obtain ⟨_, hahead⟩ := isValid_iff.1 h
  obtain ⟨_, hahead'⟩ := isValid_iff.1 h'
  exact Prod.Lex.toLex_lt_toLex.2 (hahead.before_of_lt hahead' hlt)

end Lookup

/-- The line and the column that are looked up for an offset. Between two characters, the line is one
more than the line feeds below the offset, and the column one more than the characters behind the last
of them, or behind the start of the text; later offsets are at later lines or columns, and no two at the
same. Anywhere else, inside a character or behind the end of the text, the line is counted in the same
way, and the column is the first. -/
theorem position_counts (source : String) :
    (∀ offset, (⟨offset⟩ : String.Pos.Raw).IsValid source →
      ∃ lines line ahead, source.toList = lines ++ line ++ ahead ∧ bytes (lines ++ line) = offset ∧
        (lines = [] ∨ ∃ before, lines = before ++ ['\n']) ∧ '\n' ∉ line ∧
        position source offset = (1 + lineFeeds source offset, 1 + line.length)) ∧
    StrictMonoOn (fun offset => toLex (position source offset))
      {offset | (⟨offset⟩ : String.Pos.Raw).IsValid source} ∧
    Set.InjOn (position source) {offset | (⟨offset⟩ : String.Pos.Raw).IsValid source} ∧
    ∀ offset, ¬(⟨offset⟩ : String.Pos.Raw).IsValid source →
      position source offset = (1 + lineFeeds source offset, 1) := by
  have hmono : StrictMonoOn (fun offset => toLex (position source offset))
      {offset | (⟨offset⟩ : String.Pos.Raw).IsValid source} := fun _ h _ h' hlt => position_lt_of_lt h h' hlt
  refine ⟨fun _ => exists_line_of_isValid, hmono, ?_, fun _ => position_of_not_isValid⟩
  intro offset h offset' h' heq
  exact hmono.injOn h h' (congrArg toLex heq)

/-- Behind the line feed, behind `é`, inside `é`, and behind the end of the text. -/
example : [2, 4, 3, 9].map (position "a\né") = [(2, 1), (2, 2), (2, 1), (2, 1)] := by decide +kernel

end BoundedLoop.Text
