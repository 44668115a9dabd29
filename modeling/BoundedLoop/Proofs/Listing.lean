import BoundedLoop.Proofs.Listing.Columns
import BoundedLoop.Proofs.WellFormed

/-!
# Listings are faithful

The listing of compiled code is a headline and one row for each item of the code, and nothing else
(`Program.Accepted.splitOn_listing`). A row says where its item is, which instruction it is and which line
it comes from, the last one together with the row above (`Item.row_inj`). So the rows say what the code is,
and listings that are equal are listings of the same chunk (`listing_faithful`).
-/

namespace BoundedLoop

open Text

/-- The distance of a jump. -/
def Instruction.distance? : Instruction → Option Int16
  | jump d | jumpIfFalse d => some d
  | _ => none

/-! ### What a row says -/

namespace Listing

/-- The number at the start of a row. -/
def offset (row : List Char) : Nat :=
  decimal (row.takeWhile Char.isDigit)

/-- The number that the arrow in a row points at. -/
def target? (row : List Char) : Option Nat :=
  match row.dropWhile (· != '>') with
  | _ :: _ :: digits => some (decimal digits)
  | _ => none

/-- The first number in the headline. -/
def byteCount (headline : List Char) : Nat :=
  decimal ((headline.drop 3).takeWhile Char.isDigit)

/-- The row says where the instruction is, and where it leads to if it is a jump, and only then. -/
structure Shows (row : List Char) (o : Nat) (i : Instruction) : Prop where
  offset : Listing.offset row = o
  target : ∀ d, i.distance? = some d → ∃ t : Nat, target? row = some t ∧ ((o + 3 : Nat) : Int) + d.toInt = t
  noTarget : i.distance? = none → target? row = none

theorem target?_of_plain {row : List Char} (h : Plain row) : target? row = none := by
  have hdrop : row.dropWhile (· != '>') = [] :=
    List.dropWhile_eq_nil_iff.2 fun c hc => bne_iff_ne.2 (h c hc).2
  rw [target?, hdrop]

theorem target?_arrow {front : List Char} (h : Plain front) (digits : List Char) :
    target? (front ++ '>' :: ' ' :: digits) = some (decimal digits) := by
  have hdrop : (front ++ '>' :: ' ' :: digits).dropWhile (· != '>') = '>' :: ' ' :: digits := by
    rw [List.dropWhile_append_of_pos fun c hc => bne_iff_ne.2 (h c hc).2]
    rfl
  rw [target?, hdrop]

end Listing

namespace Instruction

/-- The only arrows are those of jumps. -/
theorem operandText_cases (i : Instruction) (offset : Nat) :
    i.distance? = none ∧ Plain (i.operandText offset) ∨
      ∃ d front, i.distance? = some d ∧ Plain front ∧ i.operandText offset =
        front ++ '>' :: ' ' :: (zeroPadded 4 (((offset + 3 : Nat) : Int) + d.toInt)).toList := by
  cases i with
  | push v => exact .inl ⟨rfl, plain_cons.2 ⟨by decide, v.plain_text⟩⟩
  | jump d | jumpIfFalse d =>
    refine .inr ⟨d, ' ' :: ((signed d.toInt).toList ++ [' ', '-']), rfl, ?_, by simp [operandText]⟩
    exact plain_cons.2 ⟨by decide, plain_append.2 ⟨plain_signed d.toInt, by decide⟩⟩
  | store slot | load slot =>
    exact .inl ⟨rfl, plain_cons.2 ⟨by decide, plain_of_digits isDigit_of_mem_toDigits⟩⟩
  | _ => exact .inl ⟨rfl, List.forall_mem_nil _⟩

end Instruction

namespace Item

variable {above : Option Nat} {o o' : Nat} {i i' : Item}

/-- The row of an item, below a row of line `above`. -/
def row (above : Option Nat) (o : Nat) (i : Item) : List Char :=
  (zeroPadded 4 o).toList ++ ' ' :: ((Chunk.lineColumn above i.line).toList ++ (i.instruction.text o).toList)

/-- A row says all about its item, if the line of the row above is known. -/
theorem row_inj (h : i.row above o = i'.row above o') :
    o = o' ∧ i.instruction = i'.instruction ∧ i.line = i'.line := by
  obtain ⟨hoffset, -, hrest⟩ :=
    append_cons_inj Char.isDigit isDigit_of_mem_zeroPadded isDigit_of_mem_zeroPadded rfl rfl h
  obtain rfl : o = o' := by
    rw [← decimal_zeroPadded 4 o, hoffset, decimal_zeroPadded]
  obtain ⟨hline, htext⟩ := Chunk.lineColumn_append_inj hrest
  exact ⟨rfl, Instruction.text_injective (String.toList_inj.1 htext), hline⟩

theorem offset_row : Listing.offset (i.row above o) = o := by
  rw [Listing.offset, row, List.takeWhile_append_of_pos isDigit_of_mem_zeroPadded,
    List.takeWhile_cons_of_neg (by decide), List.append_nil, decimal_zeroPadded]

/-- A row is plain, but for the arrow of a jump. -/
theorem row_cases (above : Option Nat) (o : Nat) (i : Item) :
    i.instruction.distance? = none ∧ Plain (i.row above o) ∨
      ∃ d front, i.instruction.distance? = some d ∧ Plain front ∧ i.row above o =
        front ++ '>' :: ' ' :: (zeroPadded 4 (((o + 3 : Nat) : Int) + d.toInt)).toList := by
  have hfront : Plain ((zeroPadded 4 o).toList ++
      ' ' :: ((Chunk.lineColumn above i.line).toList ++ i.instruction.opcode.name.toList)) :=
    plain_append.2 ⟨plain_zeroPadded 4 o, plain_cons.2 ⟨by decide,
      plain_append.2 ⟨Chunk.plain_lineColumn above i.line, i.instruction.opcode.plain_name⟩⟩⟩
  have hrow : i.row above o = ((zeroPadded 4 o).toList ++
      ' ' :: ((Chunk.lineColumn above i.line).toList ++ i.instruction.opcode.name.toList)) ++
        i.instruction.operandText o := by
    simp only [row, Instruction.toList_text, List.append_assoc, List.cons_append]
  rcases i.instruction.operandText_cases o with ⟨hnone, hplain⟩ | ⟨d, front, hd, hplain, htext⟩
  · rw [hrow]
    exact .inl ⟨hnone, plain_append.2 ⟨hfront, hplain⟩⟩
  · refine .inr ⟨d, _, hd, plain_append.2 ⟨hfront, hplain⟩, ?_⟩
    rw [hrow, htext]
    exact (List.append_assoc ..).symm

theorem lineFeed_not_mem_row : '\n' ∉ i.row above o := by
  intro hmem
  rcases i.row_cases above o with ⟨-, hplain⟩ | ⟨d, front, -, hplain, hrow⟩
  · exact (hplain _ hmem).1 rfl
  · rw [hrow] at hmem
    have htarget : Plain (' ' :: (zeroPadded 4 (((o + 3 : Nat) : Int) + d.toInt)).toList) :=
      plain_cons.2 ⟨by decide, plain_zeroPadded 4 _⟩
    rcases List.mem_append.1 hmem with hmem | hmem
    · exact (hplain _ hmem).1 rfl
    · rcases List.mem_cons.1 hmem with hmem | hmem
      · cases hmem
      · exact (htarget _ hmem).1 rfl

/-- The row shows the item, if a jump does not lead to a negative offset. -/
theorem shows_row
    (h : ∀ d, i.instruction.distance? = some d → ∃ t : Nat, ((o + 3 : Nat) : Int) + d.toInt = t) :
    Listing.Shows (i.row above o) o i.instruction := by
  rcases i.row_cases above o with ⟨hnone, hplain⟩ | ⟨d, front, hd, hplain, hrow⟩
  · refine ⟨offset_row, fun d hd => ?_, fun _ => Listing.target?_of_plain hplain⟩
    cases hnone.symm.trans hd
  · refine ⟨offset_row, fun d' hd' => ?_, fun hnone => ?_⟩
    · obtain rfl : d = d' := Option.some.inj (hd.symm.trans hd')
      obtain ⟨t, ht⟩ := h d hd
      refine ⟨t, ?_, ht⟩
      rw [hrow, Listing.target?_arrow hplain, ht, decimal_zeroPadded]
    · cases hd.symm.trans hnone

end Item

/-! ### All rows -/

namespace Fragment

/-- The rows of items, the first of them below a row of line `above`. -/
def rows (above : Option Nat) : List (Nat × Item) → List (List Char)
  | [] => []
  | (o, i) :: items => i.row above o :: rows (some i.line) items

variable {above : Option Nat} {items items' : List (Nat × Item)} {row : List Char}

theorem exists_of_mem_rows (h : row ∈ rows above items) :
    ∃ above' o i, (o, i) ∈ items ∧ row = i.row above' o := by
  induction items generalizing above with
  | nil => cases h
  | cons q items ih =>
    rcases List.mem_cons.1 h with hrow | h
    · exact ⟨above, q.1, q.2, List.mem_cons_self, hrow⟩
    · obtain ⟨above', o, i, hi, hrow⟩ := ih h
      exact ⟨above', o, i, List.mem_cons_of_mem q hi, hrow⟩

theorem exists_mem_rows (above : Option Nat) {o : Nat} {i : Item} (h : (o, i) ∈ items) :
    ∃ above', i.row above' o ∈ rows above items := by
  induction items generalizing above with
  | nil => cases h
  | cons q items ih =>
    rcases List.mem_cons.1 h with rfl | h
    · exact ⟨above, List.mem_cons_self⟩
    · obtain ⟨above', hrow⟩ := ih _ h
      exact ⟨above', List.mem_cons_of_mem _ hrow⟩

theorem forall₂_rows {R : List Char → Nat × Item → Prop} (h : ∀ q ∈ items, ∀ above, R (q.2.row above q.1) q) :
    List.Forall₂ R (rows above items) items := by
  induction items generalizing above with
  | nil => exact .nil
  | cons q items ih =>
    exact .cons (h q List.mem_cons_self above) (ih fun q' hq' => h q' (List.mem_cons_of_mem q hq'))

/-- The rows say what the cells of the items are. -/
theorem cells_of_rows (h : rows above items = rows above items') :
    cells (items.map Prod.snd) = cells (items'.map Prod.snd) := by
  induction items generalizing above items' with
  | nil =>
    cases items' with
    | nil => rfl
    | cons q' items' => cases h
  | cons q items ih =>
    cases items' with
    | nil => cases h
    | cons q' items' =>
      obtain ⟨hrow, hrows⟩ := List.cons.inj h
      obtain ⟨-, hinstruction, hline⟩ := Item.row_inj hrow
      rw [hline] at hrows
      simp only [cells, List.map_cons, List.flatMap_cons, Item.cells, hinstruction, hline]
      exact congrArg _ (ih hrows)

theorem map_snd_located (k : Nat) (code : Fragment) : (located k code).map Prod.snd = code := by
  induction code generalizing k with
  | nil => rfl
  | cons i code ih => rw [located, List.map_cons, ih]

end Fragment

namespace Chunk

/-- The headline of a listing, without its end. -/
def headRow (c : Chunk) : List Char :=
  "== ".toList ++ (Nat.toDigits 10 c.size ++ (" bytes, ".toList ++
    (Nat.toDigits 10 c.slotCount ++ " slots ==".toList)))

theorem toList_headline (c : Chunk) : c.headline.toList = c.headRow ++ ['\n'] := by
  simp only [headline, headRow, String.toList_append, toList_toString_nat, List.append_assoc]
  rfl

theorem byteCount_headRow (c : Chunk) : Listing.byteCount c.headRow = c.size := by
  have hdrop : c.headRow.drop 3 = Nat.toDigits 10 c.size ++ ' ' :: ("bytes, ".toList ++
    (Nat.toDigits 10 c.slotCount ++ " slots ==".toList)) := rfl
  rw [Listing.byteCount, hdrop, List.takeWhile_append_of_pos isDigit_of_mem_toDigits,
    List.takeWhile_cons_of_neg (by decide), List.append_nil, decimal_toDigits]

theorem slotCount_of_headRow {c c' : Chunk} (h : c.headRow = c'.headRow) : c.slotCount = c'.slotCount := by
  have hslots := (toDigits_append_inj (by decide) (by decide) (List.append_cancel_left h)).2
  exact (toDigits_append_inj (by decide) (by decide)
    ((List.append_right_inj "bytes, ".toList).1 hslots)).1

theorem plain_headRow (c : Chunk) : Plain c.headRow := by
  refine plain_append.2 ⟨by decide, plain_append.2 ⟨plain_of_digits isDigit_of_mem_toDigits, ?_⟩⟩
  exact plain_append.2 ⟨by decide, plain_append.2 ⟨plain_of_digits isDigit_of_mem_toDigits, by decide⟩⟩

/-- Items that are found in a chunk, and the lines that they come from, are listed row by row. -/
theorem flatMap_rows {c : Chunk} {above : Option Nat} {items : List (Nat × Item)}
    (h : ∀ q ∈ items, c.lineAt? q.1 = some q.2.line) :
    (c.rows above (items.map fun q => (q.1, .ok q.2.instruction))).flatMap String.toList =
      (Fragment.rows above items).flatMap (· ++ ['\n']) := by
  induction items generalizing above with
  | nil => rfl
  | cons q items ih =>
    obtain ⟨hq, hitems⟩ := List.forall_mem_cons.1 h
    have hblank : " ".toList = [' '] := rfl
    have hend : "\n".toList = ['\n'] := rfl
    simp only [List.map_cons, rows, hq, Option.getD_some, Fragment.rows, List.flatMap_cons, ih hitems,
      itemText, Item.row, String.toList_append, hblank, hend, List.append_assoc, List.cons_append,
      List.nil_append]

end Chunk

theorem List.intercalate_append_nil {α : Type} (x : α) (ls : List (List α)) :
    [x].intercalate (ls ++ [[]]) = ls.flatMap (· ++ [x]) := by
  induction ls with
  | nil => rfl
  | cons l ls ih =>
    have hcons : ∃ l' ls', ls ++ [[]] = l' :: ls' :=
      List.exists_cons_of_ne_nil (List.append_ne_nil_of_right_ne_nil ls (List.cons_ne_nil [] []))
    obtain ⟨l', ls', hls⟩ := hcons
    rw [hls] at ih
    rw [List.cons_append, hls, List.intercalate_cons_cons, ih, List.flatMap_cons]

/-! ### Compiled code -/

namespace Program.Accepted

variable {p p' : Program} {types types' : Types}

/-- The lines of a listing are the headline and the rows, and an empty one behind the last of them. -/
theorem splitOn_listing (hp : p.Accepted types) : p.chunk.listing.toList.splitOn '\n' =
    p.chunk.headRow :: Fragment.rows none (p.code.located 0) ++ [[]] := by
  have hlines : ∀ q ∈ p.code.located 0, p.chunk.lineAt? q.1 = some q.2.line := by
    rintro ⟨o, i⟩ hi
    obtain ⟨rest, hrest⟩ := (Program.holds_code hp.fits).of_mem_located hi
    exact hrest.lineAt? (j := 0) (Nat.lt_of_lt_of_le Nat.one_pos (Nat.le_add_right 1 _))
  have hlisting : p.chunk.listing.toList =
      (p.chunk.headRow :: Fragment.rows none (p.code.located 0)).flatMap (· ++ ['\n']) := by
    rw [Chunk.listing, Program.instructions_chunk hp.fits, String.toList_append, String.toList_join,
      Chunk.flatMap_rows hlines, Chunk.toList_headline, List.flatMap_cons]
  rw [hlisting, ← List.intercalate_append_nil, List.splitOn_intercalate]
  · intro row hrow
    rcases List.mem_append.1 hrow with hrow | hrow
    · rcases List.mem_cons.1 hrow with hhead | hrow
      · rw [hhead]
        exact fun hmem => (p.chunk.plain_headRow _ hmem).1 rfl
      · obtain ⟨above, o, i, -, hitem⟩ := Fragment.exists_of_mem_rows hrow
        rw [hitem]
        exact Item.lineFeed_not_mem_row
    · rw [List.mem_singleton.1 hrow]
      exact List.not_mem_nil
  · exact List.cons_ne_nil _ _

/-- Programs with the same listing have the same chunk. -/
theorem chunk_of_listing (hp : p.Accepted types) (hp' : p'.Accepted types')
    (h : p.chunk.listing = p'.chunk.listing) : p.chunk = p'.chunk := by
  have hsplit := hp.splitOn_listing
  rw [h, hp'.splitOn_listing] at hsplit
  obtain ⟨hhead, hrows⟩ := List.cons.inj (List.append_cancel_right hsplit)
  have hcells := Fragment.cells_of_rows hrows
  rw [Fragment.map_snd_located, Fragment.map_snd_located] at hcells
  have hslots : p'.layout.length = p.layout.length := Chunk.slotCount_of_headRow hhead
  rw [Program.chunk, Program.chunk, hcells, hslots]

/-- A jump leads to the end of the code, or to another instruction. -/
theorem exists_target (hp : p.Accepted types) {o : Nat} {i : Item} (hi : (o, i) ∈ p.code.located 0)
    {d : Int16} (hd : i.instruction.distance? = some d) :
    ∃ t : Nat, ((o + 3 : Nat) : Int) + d.toInt = t ∧ t ≠ o ∧
      (t = p.chunk.size ∨ ∃ i', (t, i') ∈ p.code.located 0) := by
  have hmem : (o, .ok i.instruction) ∈ p.chunk.instructions :=
    (Program.mem_instructions_iff hp.fits).2 ⟨i, hi, rfl⟩
  have hplace : ∀ {t : Nat}, (t = p.chunk.size ∨ ∃ i', (t, .ok i') ∈ p.chunk.instructions) →
      t = p.chunk.size ∨ ∃ i', (t, i') ∈ p.code.located 0 := by
    refine Or.imp_right ?_
    rintro ⟨i', hi'⟩
    obtain ⟨item, hitem, -⟩ := (Program.mem_instructions_iff hp.fits).1 hi'
    exact ⟨item, hitem⟩
  generalize i.instruction = j at hd hmem
  cases j with
  | jump d' =>
    cases hd
    obtain ⟨-, t, ht, hplace'⟩ := hp.wellFormed.target o d (.inl hmem)
    refine ⟨t, ht, ?_, hplace hplace'⟩
    -- the only jumps back are those at the ends of loops
    rintro rfl
    have hback : (t, (t : Int)) ∈ p.chunk.backJumps := by
      refine List.mem_filterMap.2 ⟨_, hmem, ?_⟩
      show (if d.toInt < 0 then some (t, ((t + 3 : Nat) : Int) + d.toInt) else none) = _
      rw [if_pos (by omega), ht]
    rw [Program.backJumps_chunk hp.fits] at hback
    have hloop := (Block.backJumps_code p none hp.grammatical nofun nofun).mem_iff.1 hback
    obtain ⟨⟨q, s⟩, -, hcircuit⟩ := List.mem_filterMap.1 hloop
    cases s with
    | loop keyword count times body closer =>
      simp only [Statement.circuit?, Option.some.injEq, Prod.mk.injEq] at hcircuit
      omega
    | _ => cases hcircuit
  | jumpIfFalse d' =>
    cases hd
    obtain ⟨-, t, ht, hplace'⟩ := hp.wellFormed.target o d (.inr hmem)
    have hforward := hp.wellFormed.forward o d hmem
    exact ⟨t, ht, by omega, hplace hplace'⟩
  | _ => cases hd

end Program.Accepted

/-- Listings of compiled code are faithful: chunks whose listings are equal are equal. Split into lines, a
listing is a headline, a row for each instruction that says where it is and where it leads to if it is a
jump, and nothing behind the last end of a line. What a jump points at is the number at the start of
another row, or the number of bytes in the headline. -/
theorem listing_faithful {tokens tokens' : List Token} {chunk chunk' : Chunk}
    (h : compileTokens tokens = .ok chunk) (h' : compileTokens tokens' = .ok chunk') :
    (chunk.listing = chunk'.listing → chunk = chunk') ∧
    ∃ headline rows, chunk.listing.toList.splitOn '\n' = headline :: rows ++ [[]] ∧
      Listing.byteCount headline = chunk.size ∧
      List.Forall₂ (fun row q => ∃ i, q.2 = .ok i ∧ Listing.Shows row q.1 i) rows chunk.instructions ∧
      ∀ row ∈ rows, ∀ t, Listing.target? row = some t →
        t = Listing.byteCount headline ∨ ∃ row' ∈ rows, row' ≠ row ∧ Listing.offset row' = t := by
  obtain ⟨p, types, hp, -, rfl⟩ := compileTokens_eq_ok_iff.1 h
  obtain ⟨p', types', hp', -, rfl⟩ := compileTokens_eq_ok_iff.1 h'
  have hshows : ∀ {o i} above, (o, i) ∈ p.code.located 0 → Listing.Shows (i.row above o) o i.instruction := by
    intro o i above hi
    refine Item.shows_row fun d hd => ?_
    obtain ⟨t, ht, -⟩ := hp.exists_target hi hd
    exact ⟨t, ht⟩
  refine ⟨hp.chunk_of_listing hp', _, _, hp.splitOn_listing, p.chunk.byteCount_headRow, ?_, ?_⟩
  · rw [Program.instructions_chunk hp.fits, List.forall₂_map_right_iff]
    exact Fragment.forall₂_rows fun q hq above => ⟨_, rfl, hshows above hq⟩
  · intro row hrow t ht
    obtain ⟨above, o, i, hi, hitem⟩ := Fragment.exists_of_mem_rows hrow
    rw [hitem] at ht ⊢
    have hjump : i.instruction.distance? ≠ none := fun hnone => by
      cases ((hshows above hi).noTarget hnone).symm.trans ht
    obtain ⟨d, hd⟩ := Option.ne_none_iff_exists'.1 hjump
    obtain ⟨t₁, ht₁, htarget₁⟩ := (hshows above hi).target d hd
    obtain ⟨t₂, htarget₂, hne, hplace⟩ := hp.exists_target hi hd
    obtain rfl : t₁ = t := Option.some.inj (ht₁.symm.trans ht)
    obtain rfl : t₂ = t₁ := by omega
    rcases hplace with rfl | ⟨i', hi'⟩
    · exact .inl p.chunk.byteCount_headRow.symm
    · obtain ⟨above', hrow'⟩ := Fragment.exists_mem_rows none hi'
      refine .inr ⟨_, hrow', ?_, Item.offset_row⟩
      intro heq
      have hoffset := congrArg Listing.offset heq
      rw [Item.offset_row, Item.offset_row] at hoffset
      exact hne hoffset

/-- A text whose code has no jumps. -/
def plainText : String := "OUTPUT <- 1"

/-- Two texts whose listings differ, as their chunks do, and the lines of the first listing. -/
theorem listing_faithful_searchText : ∃ (tokens tokens' : List Token) (chunk chunk' : Chunk),
    compileTokens tokens = .ok chunk ∧ compileTokens tokens' = .ok chunk' ∧
      chunk.listing ≠ chunk'.listing ∧
      ∃ headline rows, chunk.listing.toList.splitOn '\n' = headline :: rows ++ [[]] ∧
        ∀ row ∈ rows, ∀ t, Listing.target? row = some t →
          t = Listing.byteCount headline ∨ ∃ row' ∈ rows, row' ≠ row ∧ Listing.offset row' = t := by
  have hdiffer : (compile searchText).toOption ≠ (compile plainText).toOption := by decide +kernel
  have hplain : (compile plainText).isOk = true := by decide +kernel
  obtain ⟨chunk, hchunk⟩ := compile_searchText
  obtain ⟨chunk', hchunk'⟩ := Except.isOk_iff.1 hplain
  obtain ⟨tokens, -, htokens⟩ := compile_eq_ok_iff.1 hchunk
  obtain ⟨tokens', -, htokens'⟩ := compile_eq_ok_iff.1 hchunk'
  obtain ⟨hsame, headline, rows, hsplit, -, -, htargets⟩ := listing_faithful htokens htokens'
  refine ⟨tokens, tokens', chunk, chunk', htokens, htokens', fun heq => ?_, headline, rows, hsplit, htargets⟩
  rw [hchunk, hchunk', hsame heq] at hdiffer
  exact hdiffer rfl

end BoundedLoop
