import BoundedLoop.Proofs.Lexing.Patterns
import BoundedLoop.Proofs.Scanning

/-!
# Texts as tilings

`Lexeme.Tiled` takes a text apart into separators and lexemes, each of them read off what is ahead of it
(`ReadOff`). A text has one such tiling, and that is how it is cut (`Lexeme.allFrom_eq_iff`). So the
lexemes of a text lie one behind the other, and the bytes between them are separators
(`Lexeme.Tiled.ordered`, `Lexeme.Tiled.outside`).
-/

namespace BoundedLoop

/-! ### Characters and bytes -/

/-- The byte `i` is one of the span. -/
def Span.Covers (s : Span) (i : Nat) : Prop :=
  s.start ≤ i ∧ i < s.stop

namespace Text

theorem bytes_append (cs ds : List Char) : bytes (cs ++ ds) = bytes cs + bytes ds := by
  induction cs with
  | nil => exact (Nat.zero_add _).symm
  | cons c cs ih => rw [List.cons_append, bytes, bytes, ih, Nat.add_assoc]

theorem bytes_pos {cs : List Char} (h : cs ≠ []) : 0 < bytes cs := by
  cases cs with
  | nil => exact absurd rfl h
  | cons c cs => exact Nat.add_pos_left c.utf8Size_pos _

theorem length_flatMap_encode (cs : List Char) :
    (cs.flatMap String.utf8EncodeChar).length = bytes cs := by
  induction cs with
  | nil => rfl
  | cons c cs ih =>
    rw [List.flatMap_cons, List.length_append, ih, String.length_utf8EncodeChar, bytes]

theorem toByteArray_getElem? (source : String) (i : Nat) :
    source.toByteArray[i]? = (source.toList.flatMap String.utf8EncodeChar)[i]? := by
  conv_lhs => rw [← String.ofList_toList (s := source), String.toByteArray_ofList]
  unfold List.utf8Encode
  simp [getElem?_def]

/-- The characters `ahead` begin at the byte `offset` and reach to the end of the text. -/
def Ahead (source : String) (offset : Nat) (ahead : List Char) : Prop :=
  ∃ before, source.toList = before ++ ahead ∧ offset = bytes before

/-- The bytes `span` of a text are the characters `t`. -/
def StandsAt (source : String) (span : Span) (t : List Char) : Prop :=
  ∃ behind, Ahead source span.start (t ++ behind) ∧ span.stop = span.start + bytes t

/-- All bytes of a text that are in none of the spans are separators: blank, tab, carriage return, line
feed or form feed. -/
def SeparatorsOutside (source : String) (spans : List Span) : Prop :=
  ∀ i b, source.toByteArray[i]? = some b → (∀ s ∈ spans, ¬s.Covers i) →
    b ∈ ([0x20, 0x09, 0x0d, 0x0a, 0x0c] : List UInt8)

theorem Ahead.unique {source : String} {offset : Nat} {ahead ahead' : List Char}
    (h : Ahead source offset ahead) (h' : Ahead source offset ahead') : ahead' = ahead := by
  obtain ⟨before, hsource, rfl⟩ := h
  obtain ⟨before', hsource', hbytes⟩ := h'
  have htake : before' = before := by
    rw [← takeBytes_append before ahead, ← hsource, hsource', hbytes, takeBytes_append]
  rw [htake, hsource] at hsource'
  exact (List.append_cancel_left hsource').symm

theorem Ahead.isValid {source : String} {offset : Nat} {ahead : List Char} (h : Ahead source offset ahead) :
    (⟨offset⟩ : String.Pos.Raw).IsValid source := by
  obtain ⟨before, hsource, rfl⟩ := h
  refine String.Pos.Raw.isValid_iff_exists_append.2 ⟨.ofList before, .ofList ahead, ?_, ?_⟩
  · rw [← String.ofList_append, ← hsource, String.ofList_toList]
  · rw [String.Pos.Raw.ext_iff, String.byteIdx_rawEndPos, utf8ByteSize_ofList]

theorem utf8ByteSize_eq (source : String) : source.utf8ByteSize = bytes source.toList := by
  rw [← utf8ByteSize_ofList, String.ofList_toList]

theorem StandsAt.stop_le {source : String} {span : Span} {t : List Char} (h : StandsAt source span t) :
    span.stop ≤ source.utf8ByteSize := by
  obtain ⟨behind, ⟨before, hsource, hstart⟩, hstop⟩ := h
  rw [utf8ByteSize_eq, hsource, bytes_append, bytes_append, hstop, hstart]
  omega

theorem StandsAt.ahead_stop {source : String} {span : Span} {t : List Char} (h : StandsAt source span t) :
    ∃ behind, Ahead source span.stop behind := by
  obtain ⟨behind, ⟨before, hsource, hstart⟩, hstop⟩ := h
  refine ⟨behind, before ++ t, ?_, ?_⟩
  · rw [hsource, List.append_assoc]
  · rw [hstop, hstart, bytes_append]

end Text

namespace Lexeme

/-- The text `cs`, which begins at the place `p`, is made of separators and of the lexemes `ls`. -/
inductive Tiled : Text.Place → List Char → List Lexeme → Prop where
  | done {p : Text.Place} {gap : List Char} (hgap : ∀ c ∈ gap, isSeparator c = true) : Tiled p gap []
  | cons {p : Text.Place} {gap rest : List Char} {l : Lexeme} {ls : List Lexeme}
      (hgap : ∀ c ∈ gap, isSeparator c = true) (hplace : l.place = p.after gap)
      (h : ReadOff (l.chars ++ rest) l.reading l.chars) (hs : Tiled (l.place.after l.chars) rest ls) :
      Tiled p (gap ++ (l.chars ++ rest)) (l :: ls)

variable {p : Text.Place} {cs : List Char} {ls : List Lexeme}

theorem Tiled.separator {c : Char} (hc : isSeparator c = true) (h : Tiled (p.advance c) cs ls) :
    Tiled p (c :: cs) ls := by
  cases h with
  | done hgap => exact .done (List.forall_mem_cons.2 ⟨hc, hgap⟩)
  | cons hgap hplace hread hs => exact .cons (List.forall_mem_cons.2 ⟨hc, hgap⟩) hplace hread hs

theorem tiled_allFrom (p : Text.Place) (cs : List Char) : Tiled p cs (allFrom p cs) := by
  fun_induction allFrom p cs with
  | case1 p => exact .done (by simp)
  | case2 p c cs hsep ih => exact ih.separator hsep
  | case3 p c cs hsep found ih =>
    have hread := readOff_cut (Bool.eq_false_iff.2 hsep) cs
    have hwhole : c :: cs = (c :: found.more) ++ found.rest := by
      rw [List.cons_append, cut_append]
    rw [hwhole] at hread ⊢
    show Tiled p ([] ++ ((c :: found.more) ++ found.rest)) _
    exact .cons (l := ⟨found.reading, c :: found.more, p⟩) (by simp) rfl hread ih

theorem allFrom_gap {gap : List Char} (hgap : ∀ c ∈ gap, isSeparator c = true) (p : Text.Place)
    (cs : List Char) : allFrom p (gap ++ cs) = allFrom (p.after gap) cs := by
  induction gap generalizing p with
  | nil => rfl
  | cons c gap ih =>
    obtain ⟨hc, hgap⟩ := List.forall_mem_cons.1 hgap
    rw [List.cons_append, allFrom_separator hc, ih hgap, Text.Place.after_cons]

/-- There is only one way to tile a text. -/
theorem Tiled.allFrom_eq (h : Tiled p cs ls) : allFrom p cs = ls := by
  induction h with
  | @done p gap hgap =>
    rw [← List.append_nil gap, allFrom_gap hgap, allFrom]
  | @cons p gap rest l ls hgap hplace hread hs ih =>
    obtain ⟨reading, chars, place⟩ := l
    obtain ⟨c, more, rfl, hsep⟩ := hread.exists_cons
    rw [allFrom_gap hgap, ← show place = p.after gap from hplace, List.cons_append,
      allFrom_cut (Bool.eq_false_iff.1 hsep), cut_eq_of_readOff hread]
    exact congrArg _ ih

theorem allFrom_eq_iff : allFrom p cs = ls ↔ Tiled p cs ls :=
  ⟨fun h => h ▸ tiled_allFrom p cs, Tiled.allFrom_eq⟩

/-! ### Lexemes in their text -/

theorem site_span (l : Lexeme) : l.site.span = ⟨l.place.offset, l.place.offset + Text.bytes l.chars⟩ := by
  rw [← Text.Place.offset_after]
  rfl

namespace Tiled

/-- Behind the first lexemes, the rest of the text is tiled by the rest of them. -/
theorem drop {first : List Lexeme} (h : Tiled p cs (first ++ ls)) :
    ∃ before rest, cs = before ++ rest ∧ Tiled (p.after before) rest ls := by
  induction first generalizing p cs with
  | nil => exact ⟨[], cs, rfl, h⟩
  | cons l first ih =>
    cases h with
    | @cons p gap rest l ls hgap hplace hread hs =>
      obtain ⟨before, rest, rfl, hrest⟩ := ih hs
      refine ⟨gap ++ (l.chars ++ before), rest, ?_, ?_⟩
      · simp only [List.append_assoc]
      · rw [Text.Place.after_append, Text.Place.after_append, ← hplace]
        exact hrest

/-- A lexeme is read off what is ahead of it. -/
theorem exists_of_mem (h : Tiled p cs ls) {l : Lexeme} (hl : l ∈ ls) : ∃ before behind,
    cs = before ++ (l.chars ++ behind) ∧ l.place = p.after before ∧
      ReadOff (l.chars ++ behind) l.reading l.chars := by
  obtain ⟨first, last, rfl⟩ := List.append_of_mem hl
  obtain ⟨before, rest, rfl, hrest⟩ := h.drop
  cases hrest with
  | @cons p gap rest l ls hgap hplace hread hs =>
    refine ⟨before ++ gap, rest, ?_, ?_, hread⟩
    · rw [List.append_assoc]
    · rw [Text.Place.after_append, hplace]

/-- Lexemes lie one behind the other. -/
theorem ordered (h : Tiled p cs ls) :
    ls.Pairwise fun l l' => l.site.span.stop ≤ l'.site.span.start := by
  induction h with
  | done => exact .nil
  | @cons p gap rest l ls hgap hplace hread hs ih =>
    refine List.pairwise_cons.2 ⟨?_, ih⟩
    intro l' hl'
    obtain ⟨before, -, -, hplace', -⟩ := hs.exists_of_mem hl'
    show (l.place.after l.chars).offset ≤ l'.place.offset
    rw [hplace']
    exact Text.Place.offset_le_after _ _

theorem mem_of_separator {c : Char} (hc : isSeparator c = true) {b : UInt8}
    (hb : b ∈ String.utf8EncodeChar c) : b ∈ ([0x20, 0x09, 0x0d, 0x0a, 0x0c] : List UInt8) := by
  have hall : ∀ c ∈ [' ', '\t', '\r', '\n', '\x0c'], ∀ b ∈ String.utf8EncodeChar c,
      b ∈ ([0x20, 0x09, 0x0d, 0x0a, 0x0c] : List UInt8) := by simp [String.utf8EncodeChar]
  exact hall c (Pattern.isSeparator_iff.1 hc) b hb

/-- The bytes that belong to no lexeme are separators. -/
theorem outside (h : Tiled p cs ls) {i : Nat} {b : UInt8}
    (hb : (cs.flatMap String.utf8EncodeChar)[i]? = some b)
    (hout : ∀ l ∈ ls, ¬l.site.span.Covers (p.offset + i)) :
    b ∈ ([0x20, 0x09, 0x0d, 0x0a, 0x0c] : List UInt8) := by
  have hgaps : ∀ {gap : List Char}, (∀ c ∈ gap, isSeparator c = true) → ∀ {i : Nat} {b : UInt8},
      (gap.flatMap String.utf8EncodeChar)[i]? = some b →
        b ∈ ([0x20, 0x09, 0x0d, 0x0a, 0x0c] : List UInt8) := by
    intro gap hgap i b hb
    obtain ⟨c, hc, hbc⟩ := List.mem_flatMap.1 (List.mem_of_getElem? hb)
    exact mem_of_separator (hgap c hc) hbc
  induction h generalizing i with
  | done hgap => exact hgaps hgap hb
  | @cons p gap rest l ls hgap hplace hread hs ih =>
    -- the byte is in the gap, in the lexeme, or behind it
    rw [List.flatMap_append, List.flatMap_append, List.getElem?_append, List.getElem?_append,
      Text.length_flatMap_encode, Text.length_flatMap_encode] at hb
    have hstart : l.place.offset = p.offset + Text.bytes gap := by
      rw [hplace, Text.Place.offset_after]
    have hstop : (l.place.after l.chars).offset = p.offset + Text.bytes gap + Text.bytes l.chars := by
      rw [Text.Place.offset_after, hstart]
    split at hb
    · exact hgaps hgap hb
    · rename_i hbehind
      split at hb
      · rename_i hinside
        refine absurd ?_ (hout l List.mem_cons_self)
        show l.place.offset ≤ p.offset + i ∧ p.offset + i < (l.place.after l.chars).offset
        omega
      · rename_i hrest
        refine ih hb fun l' hl' => ?_
        have hi : (l.place.after l.chars).offset + (i - Text.bytes gap - Text.bytes l.chars) =
            p.offset + i := by
          omega
        rw [hi]
        exact hout l' (List.mem_cons_of_mem _ hl')

end Tiled

/-- The characters of a lexeme are what it is read as. -/
def Sound (l : Lexeme) : Prop :=
  ∀ s, l.reading = .ok s → s.pattern.Matches l.chars ∧ s.Holds l.chars

theorem sound_of_mem_all {source : String} {l : Lexeme} (hl : l ∈ all source) : l.Sound := by
  obtain ⟨reading, chars, place⟩ := l
  obtain ⟨_, _, -, -, hread⟩ := (tiled_allFrom {} source.toList).exists_of_mem hl
  rintro s ⟨⟩
  dsimp only at hread
  cases hread with
  | shape hlongest hs => exact ⟨hlongest.matched, hs⟩

end Lexeme

end BoundedLoop
