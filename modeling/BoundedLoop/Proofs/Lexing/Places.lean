import BoundedLoop.Proofs.Lexing.Tiling

/-!
# The order of places

Reading on moves a place forward: to a later line, or to a later column of the same line
(`Text.Place.before_after`).

An offset is looked up among the starts of the lines, by halving, and its column is the length of a slice.
What is found is told by where the offset cuts the text (`Text.position_of_cutAt`); reading up to it
character by character comes to the same (`Text.position_eq_positionFrom`). So the line and column of the
beginning of a character are those that a place has arrived at (`Text.Ahead.exists_place`), and they are
in the order of the offsets (`Text.Ahead.before_of_lt`).
-/

namespace BoundedLoop.Text

namespace Place

/-- `p` is on an earlier line than `q`, or further to the left. -/
def Before (p q : Place) : Prop :=
  p.line < q.line ∨ p.line = q.line ∧ p.column < q.column

theorem Before.trans {p q r : Place} (h : p.Before q) (h' : q.Before r) : p.Before r := by
  unfold Before at *
  omega

theorem before_advance (p : Place) (c : Char) : p.Before (p.advance c) := by
  unfold advance
  dsimp only
  split
  · exact .inl (Nat.lt_succ_self _)
  · exact .inr ⟨rfl, Nat.lt_succ_self _⟩

theorem before_after (p : Place) (c : Char) (cs : List Char) : p.Before (p.after (c :: cs)) := by
  induction cs generalizing p c with
  | nil => exact p.before_advance c
  | cons d cs ih => exact (p.before_advance c).trans (ih (p.advance c) d)

end Place

/-! ### Reading up to an offset -/

/-- Characters from `base` on are cut behind the last one that ends at `offset` or in front of it. -/
structure CutAt (base offset : Nat) (before ahead : List Char) : Prop where
  le : base + bytes before ≤ offset
  next : ∀ c ∈ ahead.head?, offset < base + bytes before + c.utf8Size

section CutAt

variable {base offset : Nat} {before ahead : List Char}

theorem cutAt_cons {c : Char} :
    CutAt base offset (c :: before) ahead ↔ CutAt (base + c.utf8Size) offset before ahead := by
  have hbytes : base + bytes (c :: before) = base + c.utf8Size + bytes before := by
    rw [bytes, Nat.add_assoc]
  constructor
  · rintro ⟨hle, hnext⟩
    rw [hbytes] at hle hnext
    exact ⟨hle, hnext⟩
  · rintro ⟨hle, hnext⟩
    rw [← hbytes] at hle hnext
    exact ⟨hle, hnext⟩

theorem CutAt.of_eq (h : base + bytes before = offset) (ahead : List Char) :
    CutAt base offset before ahead :=
  ⟨Nat.le_of_eq h, fun c _ => h ▸ Nat.lt_add_of_pos_right c.utf8Size_pos⟩

theorem exists_cutAt (hle : base ≤ offset) (cs : List Char) :
    ∃ before ahead, cs = before ++ ahead ∧ CutAt base offset before ahead := by
  induction cs generalizing base with
  | nil => exact ⟨[], [], rfl, hle, by rintro _ ⟨⟩⟩
  | cons c cs ih =>
    rcases Nat.lt_or_ge offset (base + c.utf8Size) with hlt | hge
    · exact ⟨[], c :: cs, rfl, hle, by rintro _ ⟨⟩; exact hlt⟩
    · obtain ⟨before, ahead, rfl, hcut⟩ := ih hge
      exact ⟨c :: before, ahead, rfl, cutAt_cons.2 hcut⟩

/-- No other cut is at the offset if this one is not. -/
theorem CutAt.bytes_ne (h : CutAt base offset before ahead) (hne : base + bytes before ≠ offset)
    {as bs : List Char} (hsplit : before ++ ahead = as ++ bs) : base + bytes as ≠ offset := by
  obtain ⟨hle, hnext⟩ := h
  rcases List.append_eq_append_iff.1 hsplit with ⟨more, rfl, rfl⟩ | ⟨more, rfl, -⟩
  · rcases more with _ | ⟨c, more⟩
    · rwa [List.append_nil]
    · have hlt := hnext c rfl
      rw [bytes_append, bytes]
      omega
  · rw [bytes_append] at hle hne
    omega

/-- Line and column of `offset` in the text `cs`, which begins at `p`. Inside a character and
behind the end of the text the column is 1. -/
def positionFrom (p : Place) (offset : Nat) : List Char → Nat × Nat
  | [] => (p.line, if p.offset = offset then p.column else 1)
  | c :: cs =>
    if p.offset = offset then (p.line, p.column)
    else if offset < (p.advance c).offset then (p.line, 1)
    else positionFrom (p.advance c) offset cs

theorem positionFrom_of_cutAt {p : Place} (h : CutAt p.offset offset before ahead) :
    positionFrom p offset (before ++ ahead) = ((p.after before).line,
      if p.offset + bytes before = offset then (p.after before).column else 1) := by
  have hadvance (p : Place) (c : Char) : (p.advance c).offset = p.offset + c.utf8Size :=
    p.offset_after [c]
  induction before generalizing p with
  | nil =>
    show positionFrom p offset ahead = (p.line, if p.offset = offset then p.column else 1)
    rcases ahead with _ | ⟨c, ahead⟩
    · rfl
    · have hlt : offset < (p.advance c).offset := (hadvance p c).symm ▸ h.next c rfl
      rw [positionFrom, if_pos hlt]
      split <;> rfl
  | cons c before ih =>
    have hbehind := cutAt_cons.1 h
    have hle := hbehind.le
    have hpos := c.utf8Size_pos
    rw [← hadvance] at hbehind
    rw [List.cons_append, positionFrom, hadvance, if_neg (by omega), if_neg (by omega), ih hbehind,
      hadvance, bytes, Nat.add_assoc]
    rfl

end CutAt

/-! ### Starts of lines -/

section Starts

variable {offset start n : Nat} {c : Char} {cs : List Char}

theorem startsBehind_append (offset : Nat) (cs ds : List Char) :
    startsBehind offset (cs ++ ds) = startsBehind offset cs ++ startsBehind (offset + bytes cs) ds := by
  induction cs generalizing offset with
  | nil => rfl
  | cons c cs ih =>
    simp only [List.cons_append, startsBehind, ih, bytes, Nat.add_assoc]
    split <;> rfl

/-- The first start is behind the first character, and no later one is further to the left. -/
theorem le_of_mem_startsBehind (h : start ∈ startsBehind offset (c :: cs)) :
    offset + c.utf8Size ≤ start := by
  induction cs generalizing offset c with
  | nil =>
    simp only [startsBehind] at h
    split at h
    · rename_i hc
      subst hc
      exact Nat.le_of_eq (List.mem_singleton.1 h).symm
    · cases h
  | cons d cs ih =>
    have hlater : start ∈ startsBehind (offset + c.utf8Size) (d :: cs) →
        offset + c.utf8Size ≤ start := fun hmem => Nat.le_trans (Nat.le_add_right _ _) (ih hmem)
    rw [startsBehind] at h
    split at h
    · rename_i hc
      subst hc
      exact (List.mem_cons.1 h).elim (fun heq => Nat.le_of_eq heq.symm) hlater
    · exact hlater h

theorem le_add_of_mem_startsBehind (h : start ∈ startsBehind offset cs) : start ≤ offset + bytes cs := by
  induction cs generalizing offset with
  | nil => cases h
  | cons c cs ih =>
    have hlater : start ∈ startsBehind (offset + c.utf8Size) cs → start ≤ offset + bytes (c :: cs) := by
      intro hmem
      rw [bytes, ← Nat.add_assoc]
      exact ih hmem
    rw [startsBehind] at h
    split at h
    · rename_i hc
      subst hc
      rcases List.mem_cons.1 h with rfl | hmem
      · rw [bytes, ← Nat.add_assoc]
        exact Nat.le_add_right _ _
      · exact hlater hmem
    · exact hlater h

theorem splitBytes?_append (before behind : List Char) :
    splitBytes? (bytes before) (before ++ behind) = some (before, behind) := by
  induction before with
  | nil => cases behind <;> rfl
  | cons c before ih =>
    obtain ⟨k, hk⟩ : ∃ k, c.utf8Size = k + 1 := Nat.exists_eq_add_one.2 c.utf8Size_pos
    have hbytes : bytes (c :: before) = k + bytes before + 1 := by
      rw [bytes, hk]
      omega
    have hrest : k + bytes before + 1 - c.utf8Size = bytes before := by omega
    rw [hbytes, List.cons_append, splitBytes?, if_pos (by omega), hrest, ih]
    rfl

theorem eq_append_of_splitBytes? {before behind : List Char}
    (h : splitBytes? n cs = some (before, behind)) : cs = before ++ behind ∧ bytes before = n := by
  fun_induction splitBytes? n cs generalizing before behind with
  | case1 cs =>
    cases h
    exact ⟨rfl, rfl⟩
  | case2 n => cases h
  | case3 n c cs hle ih =>
    obtain ⟨⟨before', behind'⟩, hrest, heq⟩ := Option.map_eq_some_iff.1 h
    cases heq
    obtain ⟨rfl, hbytes⟩ := ih hrest
    refine ⟨rfl, ?_⟩
    rw [bytes, hbytes]
    omega
  | case4 n c cs hle => cases h

theorem slice?_append {before behind : List Char} (hle : bytes before ≤ n) :
    slice? (before ++ behind) (bytes before) n =
      (splitBytes? (n - bytes before) behind).map Prod.fst := by
  rw [slice?, if_pos hle, splitBytes?_append]
  show (splitBytes? (n - bytes before) behind).bind _ = _
  cases splitBytes? (n - bytes before) behind <;> rfl

/-- The search finds where the numbers begin at which `p` does not hold. -/
theorem partitionPoint_append {p : Nat → Bool} {xs ys : List Nat} {lo hi : Nat}
    (hxs : ∀ x ∈ xs, p x = true) (hys : ∀ y ∈ ys, p y = false) (hlo : lo ≤ xs.length)
    (hhi : xs.length ≤ hi) (hsize : hi ≤ (xs ++ ys).length) :
    partitionPoint p (xs ++ ys).toArray lo hi = xs.length := by
  have hp : ∀ k, k < (xs ++ ys).length → (p ((xs ++ ys).toArray.getD k 0) = true ↔ k < xs.length) := by
    intro k hk
    rw [Array.getD_eq_getD_getElem?, List.getElem?_toArray, List.getElem?_eq_getElem hk,
      Option.getD_some, List.getElem_append]
    split
    · rename_i hin
      exact iff_of_true (hxs _ (List.getElem_mem hin)) hin
    · rename_i hout
      simp [hys _ (List.getElem_mem _), hout]
  fun_induction partitionPoint p (xs ++ ys).toArray lo hi with
  | case1 lo hi hlt middle hholds ih =>
    exact ih ((hp middle (by omega)).1 hholds) hhi hsize
  | case2 lo hi hlt middle hholds ih =>
    have hle := Nat.not_lt.1 (mt (hp middle (by omega)).2 hholds)
    exact ih hlo hle (by omega)
  | case3 lo hi hge => omega

/-- A text up to some offset ends with a line, which begins at the last start. -/
theorem exists_last_line (before : List Char) : ∃ lines line, before = lines ++ line ∧
    (0 :: startsBehind 0 before).getLast? = some (bytes lines) ∧
    (Place.after {} before).line = (0 :: startsBehind 0 before).length ∧
    (Place.after {} before).column = line.length + 1 := by
  induction before using List.reverseRecOn with
  | nil => exact ⟨[], [], rfl, rfl, rfl, rfl⟩
  | append_singleton before c ih =>
    obtain ⟨lines, line, rfl, hlast, hline, hcolumn⟩ := ih
    have hstarts : startsBehind 0 (lines ++ line ++ [c]) = startsBehind 0 (lines ++ line) ++
        if c = '\n' then [bytes (lines ++ line) + 1] else [] := by
      rw [startsBehind_append, Nat.zero_add]
      rfl
    have hplace : Place.after {} (lines ++ line ++ [c]) = (Place.after {} (lines ++ line)).advance c :=
      Place.after_append {} _ [c]
    rw [hstarts, hplace, Place.advance]
    by_cases hc : c = '\n'
    · subst hc
      refine ⟨lines ++ line ++ ['\n'], [], (List.append_nil _).symm, ?_, ?_, rfl⟩
      · rw [if_pos rfl, ← List.cons_append, List.getLast?_concat, bytes_append _ ['\n']]
        rfl
      · simp [hline]
    · rw [if_neg hc, if_neg hc, List.append_nil]
      refine ⟨lines, line ++ [c], List.append_assoc .., hlast, hline, ?_⟩
      simp [hcolumn]

/-- All lines that start behind the cut start behind the offset. -/
theorem CutAt.lt_start {before ahead : List Char} {base : Nat} (h : CutAt base offset before ahead)
    (hstart : start ∈ startsBehind (base + bytes before) ahead) : offset < start := by
  rcases ahead with _ | ⟨c, ahead⟩
  · cases hstart
  · exact Nat.lt_of_lt_of_le (h.next c rfl) (le_of_mem_startsBehind hstart)

/-- The line and column that are looked up for an offset are those of the cut, but for the column where
the cut is not at the offset. -/
theorem position_of_cutAt {source : String} {before ahead : List Char}
    (hsource : source.toList = before ++ ahead) (h : CutAt 0 offset before ahead) :
    position source offset = ((Place.after {} before).line,
      if bytes before = offset then (Place.after {} before).column else 1) := by
  obtain ⟨lines, line, rfl, hlast, hline, hcolumn⟩ := exists_last_line before
  have hle := h.le
  rw [Nat.zero_add] at hle
  have hstarts : (LineIndex.ofText source).starts =
      ((0 :: startsBehind 0 (lines ++ line)) ++
        startsBehind (0 + bytes (lines ++ line)) ahead).toArray := by
    rw [LineIndex.ofText, hsource, startsBehind_append]
    rfl
  have hsearch : partitionPoint (· ≤ offset) (LineIndex.ofText source).starts 0
      (LineIndex.ofText source).starts.size = (0 :: startsBehind 0 (lines ++ line)).length := by
    rw [hstarts]
    refine partitionPoint_append ?_ ?_ (Nat.zero_le _) ?_ (Nat.le_refl _)
    · intro start hstart
      rcases List.mem_cons.1 hstart with rfl | hstart
      · exact decide_eq_true (Nat.zero_le _)
      · have := le_add_of_mem_startsBehind hstart
        exact decide_eq_true (by omega)
    · intro start hstart
      exact decide_eq_false (Nat.not_le.2 (h.lt_start hstart))
    · simp
  have hstart : (LineIndex.ofText source).starts.getD
      ((0 :: startsBehind 0 (lines ++ line)).length - 1) 0 = bytes lines := by
    rw [List.getLast?_eq_getElem?] at hlast
    rw [hstarts, Array.getD_eq_getD_getElem?, List.getElem?_toArray,
      List.getElem?_append_left (by simp), hlast, Option.getD_some]
  have hslice : slice? source.toList (bytes lines) offset =
      if bytes (lines ++ line) = offset then some line else none := by
    rw [bytes_append] at hle
    rw [hsource, List.append_assoc, slice?_append (by omega)]
    split
    · rename_i heq
      rw [← heq, bytes_append, Nat.add_sub_cancel_left, splitBytes?_append, Option.map_some]
    · rename_i hne
      cases hsplit : splitBytes? (offset - bytes lines) (line ++ ahead) with
      | none => rfl
      | some halves =>
        obtain ⟨heq, hbytes⟩ := eq_append_of_splitBytes? hsplit
        have hsplit' : lines ++ line ++ ahead = (lines ++ halves.1) ++ halves.2 := by
          rw [List.append_assoc, heq, List.append_assoc]
        have hother := h.bytes_ne (by rwa [Nat.zero_add]) hsplit'
        rw [bytes_append, hbytes] at hother
        omega
  rw [position, LineIndex.position, hsearch, hstart]
  show (_, (slice? source.toList (bytes lines) offset).elim 0 List.length + 1) = _
  rw [hslice, hline, hcolumn]
  split <;> rfl

/-- Looking up an offset and reading up to it come to the same. -/
theorem position_eq_positionFrom (source : String) (offset : Nat) :
    position source offset = positionFrom {} offset source.toList := by
  obtain ⟨before, ahead, hsource, hcut⟩ := exists_cutAt (Nat.zero_le offset) source.toList
  have hread : positionFrom {} offset (before ++ ahead) = _ := positionFrom_of_cutAt hcut
  rw [position_of_cutAt hsource hcut, hsource, hread]
  show _ = (_, if 0 + bytes before = offset then _ else 1)
  rw [Nat.zero_add]

end Starts

theorem position_after {source : String} {before ahead : List Char} (h : source.toList = before ++ ahead) :
    position source (Place.after {} before).offset =
      ((Place.after {} before).line, (Place.after {} before).column) := by
  have hoffset : (Place.after {} before).offset = bytes before :=
    (Place.offset_after {} before).trans (Nat.zero_add _)
  rw [hoffset, position_of_cutAt h (.of_eq (Nat.zero_add _) ahead), if_pos rfl]

/-- The place that reading up to an offset arrives at. -/
theorem Ahead.exists_place {source : String} {offset : Nat} {ahead : List Char}
    (h : Ahead source offset ahead) : ∃ before, source.toList = before ++ ahead ∧
      offset = (Place.after {} before).offset ∧
      position source offset = ((Place.after {} before).line, (Place.after {} before).column) := by
  obtain ⟨before, hsource, rfl⟩ := h
  have hoffset : bytes before = (Place.after {} before).offset := by
    rw [Place.offset_after]
    exact (Nat.zero_add _).symm
  refine ⟨before, hsource, hoffset, ?_⟩
  rw [hoffset]
  exact position_after hsource

/-- Later characters are at later places. -/
theorem Ahead.before_of_lt {source : String} {offset offset' : Nat} {ahead ahead' : List Char}
    (h : Ahead source offset ahead) (h' : Ahead source offset' ahead') (hlt : offset < offset') :
    (position source offset).1 < (position source offset').1 ∨
      (position source offset).1 = (position source offset').1 ∧
        (position source offset).2 < (position source offset').2 := by
  obtain ⟨before, hsource, rfl, hposition⟩ := h.exists_place
  obtain ⟨before', hsource', rfl, hposition'⟩ := h'.exists_place
  rw [hposition, hposition']
  have hprefix : before <+: before' := by
    rcases List.append_eq_append_iff.1 (hsource.symm.trans hsource') with ⟨more, rfl, -⟩ | ⟨more, rfl, -⟩
    · exact List.prefix_append _ _
    · have hle := (Place.after {} before').offset_le_after more
      rw [← Place.after_append] at hle
      exact absurd hlt (Nat.not_lt.2 hle)
  obtain ⟨more, rfl⟩ := hprefix
  rw [Place.after_append]
  cases more with
  | nil =>
    rw [List.append_nil] at hlt
    exact absurd hlt (Nat.lt_irrefl _)
  | cons c more => exact (Place.after {} before).before_after c more

end BoundedLoop.Text

theorem BoundedLoop.Lexeme.position_of_mem_all {source : String} {l : Lexeme} (hl : l ∈ all source) :
    (l.place.line, l.place.column) = Text.position source l.site.span.start := by
  obtain ⟨before, behind, hsource, hplace, -⟩ := (tiled_allFrom {} source.toList).exists_of_mem hl
  show _ = Text.position source l.place.offset
  rw [hplace]
  exact (Text.position_after hsource).symm
