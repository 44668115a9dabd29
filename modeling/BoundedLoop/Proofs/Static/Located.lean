import BoundedLoop.Proofs.Correctness

/-!
# Instructions and their offsets

`Fragment.located` lists the instructions of a piece of code, each with the offset at which it
begins. Where a chunk ends with the code, this is what decoding it gives
(`Chunk.Holds.instructionsFrom`), so what is to be said about a compiled chunk can be said about the
list of items that it was written from.

The offsets at which a piece of code can be cut are its boundaries: one in front of each instruction,
and its end (`Fragment.Boundary`).
-/

namespace BoundedLoop

namespace Fragment

/-- The instructions of code that begins at `k`, each with its own offset. -/
def located : Nat → Fragment → List (Nat × Item)
  | _, [] => []
  | k, i :: code => (k, i) :: located (k + i.instruction.size) code

theorem size_cons (i : Item) (code : Fragment) :
    size (i :: code) = i.instruction.size + size code := by
  simp [size, Item.cells]

theorem located_append (a b : Fragment) (k : Nat) :
    located k (a ++ b) = located k a ++ located (k + a.size) b := by
  induction a generalizing k with
  | nil => simp [located]
  | cons i a ih =>
    rw [List.cons_append, located, located, ih, size_cons, ← Nat.add_assoc]
    rfl

theorem mem_located_iff {code : Fragment} {k o : Nat} {i : Item} :
    (o, i) ∈ located k code ↔ ∃ a b, code = a ++ i :: b ∧ o = k + a.size := by
  constructor
  · intro h
    induction code generalizing k with
    | nil => simp [located] at h
    | cons j code ih =>
      rcases List.mem_cons.1 h with h | h
      · cases h
        exact ⟨[], code, rfl, rfl⟩
      · obtain ⟨a, b, rfl, rfl⟩ := ih h
        refine ⟨j :: a, b, rfl, ?_⟩
        rw [size_cons]
        omega
  · rintro ⟨a, b, rfl, rfl⟩
    rw [located_append, located]
    exact List.mem_append_right _ List.mem_cons_self

theorem mem_of_mem_located {code : Fragment} {k o : Nat} {i : Item} (h : (o, i) ∈ located k code) :
    i ∈ code := by
  obtain ⟨a, b, rfl, -⟩ := mem_located_iff.1 h
  exact List.mem_append_right a List.mem_cons_self

/-- The instructions of a piece of code lie inside it. -/
theorem inside_of_mem_located {code : Fragment} {k o : Nat} {i : Item} (h : (o, i) ∈ located k code) :
    k ≤ o ∧ o + i.instruction.size ≤ k + code.size := by
  obtain ⟨a, b, rfl, rfl⟩ := mem_located_iff.1 h
  rw [size_append, size_cons]
  omega

/-- Code that begins at `k` can be cut at `o`: an instruction begins there, or the code ends. -/
def Boundary (k : Nat) (code : Fragment) (o : Nat) : Prop :=
  ∃ a b, code = a ++ b ∧ o = k + a.size

theorem boundary_iff {k o : Nat} {code : Fragment} :
    Boundary k code o ↔ o = k + code.size ∨ ∃ i, (o, i) ∈ located k code := by
  constructor
  · rintro ⟨a, b, rfl, rfl⟩
    cases b with
    | nil => exact .inl (by simp)
    | cons i b => exact .inr ⟨i, mem_located_iff.2 ⟨a, b, rfl, rfl⟩⟩
  · rintro (rfl | ⟨i, hi⟩)
    · exact ⟨code, [], by simp, rfl⟩
    · obtain ⟨a, b, rfl, rfl⟩ := mem_located_iff.1 hi
      exact ⟨a, i :: b, rfl, rfl⟩

theorem boundary_next {k o : Nat} {code : Fragment} {i : Item} (h : (o, i) ∈ located k code) :
    Boundary k code (o + i.instruction.size) := by
  obtain ⟨a, b, rfl, rfl⟩ := mem_located_iff.1 h
  refine ⟨a ++ [i], b, by simp, ?_⟩
  rw [size_append, size_cons, size_nil]
  omega

end Fragment

namespace Chunk.Holds

variable {c : Chunk} {k o : Nat} {code : Fragment} {i : Item}

theorem of_mem_located (h : c.Holds k code) (hi : (o, i) ∈ code.located k) :
    ∃ rest, c.Holds o (i :: rest) := by
  obtain ⟨a, b, rfl, rfl⟩ := Fragment.mem_located_iff.1 hi
  exact ⟨b, h.right⟩

theorem decode_of_mem (h : c.Holds k code) (hi : (o, i) ∈ code.located k) :
    c.decode o = .ok i.instruction := by
  obtain ⟨rest, hrest⟩ := h.of_mem_located hi
  exact hrest.decode

/-- Decoding a chunk whose last code is `code` gives the instructions of `code`. -/
theorem instructionsFrom (h : c.Holds k code) (hend : c.size = k + code.size) :
    c.instructionsFrom k = (code.located k).map fun p => (p.1, .ok p.2.instruction) := by
  induction code generalizing k with
  | nil =>
    have hnot : ¬ k < c.size := by rw [hend]; simp
    rw [Chunk.instructionsFrom, if_neg hnot]
    rfl
  | cons i code ih =>
    have hsize : 0 < i.instruction.size := by simp only [Instruction.size]; omega
    rw [Fragment.size_cons] at hend
    have hlt : k < c.size := by omega
    have htail : c.Holds (k + i.instruction.size) code := by
      have h' := right (a := [i]) h
      rwa [Fragment.size_cons, Fragment.size_nil, Nat.add_zero] at h'
    rw [Chunk.instructionsFrom, if_pos hlt, h.decode]
    show _ :: c.instructionsFrom (k + i.instruction.size) = _
    rw [ih htail (by omega)]
    rfl

/-- All bytes of an instruction come from its line. -/
theorem lineAt? (h : c.Holds k (i :: code)) {j : Nat} (hj : j < i.instruction.size) :
    c.lineAt? (k + j) = some i.line := by
  obtain ⟨-, before, after, hcells, hk⟩ := h
  have hlen : j < i.cells.length := by simpa [Item.cells] using hj
  have hcell : c.cells[k + j]? = i.cells[j]? := by
    rw [← Array.getElem?_toList, hcells, ← hk, List.getElem?_append_right (by omega),
      Nat.add_sub_cancel_left, Fragment.cells_cons, List.append_assoc,
      List.getElem?_append_left hlen]
  rw [Chunk.lineAt?, hcell]
  simp [Item.cells, hj]

end Chunk.Holds

/-- The instructions of the chunk of a program are those of its code. -/
theorem Program.instructions_chunk {p : Program} (hfits : p.code.Fits) :
    p.chunk.instructions = (p.code.located 0).map fun q => (q.1, .ok q.2.instruction) := by
  refine (holds_code hfits).instructionsFrom ?_
  rw [size_chunk, Nat.zero_add]
  exact (Block.size_code p .initial hole 0).symm

end BoundedLoop
