import BoundedLoop.Proofs.Semantics.Execution

/-!
# The increments of counters

The counter of a loop is incremented by an addition behind the body of the loop. `Block.increments`
are the offsets of these additions in the code of a block. They lie in the code
(`Block.increments_bounds`), there is one for each loop (`Block.length_increments`,
`Block.nodup_increments`), and what stands there is an addition of one to a slot without a name
(`Block.countsAt_increments`). A statement may crash at any offset of its code, but not at these
(`Blames`).
-/

namespace BoundedLoop

/-! ### The counters of loops -/

mutual

/-- The offsets of the instructions that increment the counters of the loops in a statement. -/
def Statement.increments (offset : Nat) : Statement → List Nat
  | .assign .. => []
  | .choice arms _ => arms.increments offset
  | .loop _ count _ body _ =>
    (offset + count.size + 25 + Block.size body + 12) ::
      Block.increments (offset + count.size + 25) body
  | .abort _ => []

def Arms.increments (offset : Nat) : Arms → List Nat
  | .last _ condition _ body _ alternative =>
    Block.increments (offset + condition.size + 4) body ++
      Block.increments (offset + condition.size + Block.size body + 8) alternative
  | .elseIf _ condition _ body _ rest =>
    Block.increments (offset + condition.size + 4) body ++
      rest.increments (offset + condition.size + Block.size body + 8)

def Block.increments (offset : Nat) : List Statement → List Nat
  | [] => []
  | s :: ss => s.increments offset ++ Block.increments (offset + s.size) ss

end

mutual

theorem Statement.increments_bounds : ∀ (s : Statement) (k : Nat), ∀ j ∈ s.increments k,
    k ≤ j ∧ j < k + s.size
  | .assign .., k, j, hj => by simp [Statement.increments] at hj
  | .choice arms closer, k, j, hj => arms.increments_bounds k j hj
  | .loop keyword count times body closer, k, j, hj => by
    simp only [Statement.increments, List.mem_cons] at hj
    simp only [Statement.size]
    rcases hj with rfl | hj
    · omega
    · have := Block.increments_bounds body _ j hj
      omega
  | .abort token, k, j, hj => by simp [Statement.increments] at hj

theorem Arms.increments_bounds : ∀ (a : Arms) (k : Nat), ∀ j ∈ a.increments k,
    k ≤ j ∧ j < k + a.size
  | .last keyword condition thenWord body elseWord alternative, k, j, hj => by
    simp only [Arms.increments, List.mem_append] at hj
    simp only [Arms.size]
    rcases hj with hj | hj
    · have := Block.increments_bounds body _ j hj
      omega
    · have := Block.increments_bounds alternative _ j hj
      omega
  | .elseIf keyword condition thenWord body elseWord rest, k, j, hj => by
    simp only [Arms.increments, List.mem_append] at hj
    simp only [Arms.size]
    rcases hj with hj | hj
    · have := Block.increments_bounds body _ j hj
      omega
    · have := rest.increments_bounds _ j hj
      omega

theorem Block.increments_bounds : ∀ (ss : List Statement) (k : Nat), ∀ j ∈ Block.increments k ss,
    k ≤ j ∧ j < k + Block.size ss
  | [], k, j, hj => by simp [Block.increments] at hj
  | s :: ss, k, j, hj => by
    simp only [Block.increments, List.mem_append] at hj
    simp only [Block.size]
    rcases hj with hj | hj
    · have := s.increments_bounds k j hj
      omega
    · have := Block.increments_bounds ss _ j hj
      omega

end

mutual

theorem Statement.length_increments : ∀ (s : Statement) (k : Nat), (s.increments k).length = s.loops
  | .assign .., k => rfl
  | .choice arms closer, k => arms.length_increments k
  | .loop keyword count times body closer, k => by
    simp only [Statement.increments, Statement.loops, List.length_cons,
      Block.length_increments body]
    omega
  | .abort token, k => rfl

theorem Arms.length_increments : ∀ (a : Arms) (k : Nat), (a.increments k).length = a.loops
  | .last keyword condition thenWord body elseWord alternative, k => by
    simp only [Arms.increments, Arms.loops, List.length_append, Block.length_increments body,
      Block.length_increments alternative]
  | .elseIf keyword condition thenWord body elseWord rest, k => by
    simp only [Arms.increments, Arms.loops, List.length_append, Block.length_increments body,
      rest.length_increments]

theorem Block.length_increments : ∀ (ss : List Statement) (k : Nat),
    (Block.increments k ss).length = Block.loops ss
  | [], k => rfl
  | s :: ss, k => by
    simp only [Block.increments, Block.loops, List.length_append, s.length_increments,
      Block.length_increments ss]

end

/-- Increments of one piece of code and of code behind it. -/
theorem nodup_append_of_bounds {a b : List Nat} {mid : Nat} (ha : a.Nodup) (hb : b.Nodup)
    (hlt : ∀ j ∈ a, j < mid) (hle : ∀ j ∈ b, mid ≤ j) : (a ++ b).Nodup := by
  refine List.nodup_append.2 ⟨ha, hb, ?_⟩
  rintro i hi j hj rfl
  have := hlt i hi
  have := hle i hj
  omega

mutual

theorem Statement.nodup_increments : ∀ (s : Statement) (k : Nat), (s.increments k).Nodup
  | .assign .., k => List.nodup_nil
  | .choice arms closer, k => arms.nodup_increments k
  | .loop keyword count times body closer, k => by
    refine List.nodup_cons.2 ⟨fun hj => ?_, Block.nodup_increments body _⟩
    have := Block.increments_bounds body _ _ hj
    omega
  | .abort token, k => List.nodup_nil

theorem Arms.nodup_increments : ∀ (a : Arms) (k : Nat), (a.increments k).Nodup
  | .last keyword condition thenWord body elseWord alternative, k => by
    refine nodup_append_of_bounds (Block.nodup_increments body _)
      (Block.nodup_increments alternative _) (fun j hj => ?_)
      fun j hj => (Block.increments_bounds alternative _ j hj).1
    have := Block.increments_bounds body _ j hj
    omega
  | .elseIf keyword condition thenWord body elseWord rest, k => by
    refine nodup_append_of_bounds (Block.nodup_increments body _) (rest.nodup_increments _)
      (fun j hj => ?_) fun j hj => (rest.increments_bounds _ j hj).1
    have := Block.increments_bounds body _ j hj
    omega

theorem Block.nodup_increments : ∀ (ss : List Statement) (k : Nat), (Block.increments k ss).Nodup
  | [], _ => List.nodup_nil
  | s :: ss, k =>
    nodup_append_of_bounds (s.nodup_increments k) (Block.nodup_increments ss _)
      (fun j hj => (s.increments_bounds k j hj).2)
      fun j hj => (Block.increments_bounds ss _ j hj).1

end

/-! ### What stands there -/

/-- The instruction at `k` adds one to a slot without a name: it takes what was loaded from the slot
and a one, and the sum is stored in the slot. -/
def Chunk.CountsAt (c : Chunk) (l : Layout) (k : Nat) : Prop :=
  ∃ (slot : UInt8) (start : Nat), l[slot.toNat]? = some none ∧ k = start + 12 ∧
    c.decode start = .ok (.load slot) ∧ c.decode (start + 2) = .ok (.push (.number 1)) ∧
    c.decode k = .ok .add ∧ c.decode (k + 1) = .ok (.store slot)

section Code

variable {chunk : Chunk} {F : Layout}

theorem Statement.countsAt_loopStep {l : Layout} {k line : Nat} (hF : F.length ≤ Chunk.maxSlots)
    (hl : l.addLoop <+: F) (hold : chunk.Holds k (Statement.loopStep l line)) :
    chunk.CountsAt F (k + 12) := by
  have hslot : l.counterSlot.toNat = l.length + 1 :=
    Layout.toNat_counterSlot (Nat.le_trans hl.length_le hF)
  refine ⟨l.counterSlot, k, ?_, rfl, hold.decode, hold.tail.decode, hold.tail.tail.decode,
    hold.tail.tail.tail.decode⟩
  rw [hslot]
  exact Layout.getElem?_counter hl

mutual

theorem Statement.countsAt_increments (hF : F.length ≤ Chunk.maxSlots) : ∀ (s : Statement)
    {l : Layout} {leave : Nat → Int} {k : Nat}, s.layout l <+: F →
    chunk.Holds k (s.code l leave k) → ∀ j ∈ s.increments k, chunk.CountsAt F j
  | .assign .., l, leave, k, hl, hold, j, hj => by simp [Statement.increments] at hj
  | .choice arms closer, l, leave, k, hl, hold, j, hj => arms.countsAt_increments hF hl hold j hj
  | .loop keyword count times body closer, l, leave, k, hl, hold, j, hj => by
    have hbody := hold.left.right
    have hfoot := hold.right
    simp only [Fragment.size_append, count.size_code, Statement.size_loopHead, Block.size_code body,
      ← Nat.add_assoc] at hbody hfoot
    rcases List.mem_cons.1 hj with rfl | hj
    · have hl₁ := (Block.prefix_layout body l.addLoop).trans hl
      exact Statement.countsAt_loopStep hF hl₁ hfoot.left
    · exact Block.countsAt_increments hF body hl hbody j hj
  | .abort token, l, leave, k, hl, hold, j, hj => by simp [Statement.increments] at hj

theorem Arms.countsAt_increments (hF : F.length ≤ Chunk.maxSlots) : ∀ (a : Arms) {l : Layout}
    {leave done : Nat → Int} {k : Nat}, a.layout l <+: F → chunk.Holds k (a.code l leave done k) →
    ∀ j ∈ a.increments k, chunk.CountsAt F j
  | .last _ condition _ body _ alternative, l, leave, done, k, hl, hold, j, hj => by
    have hbody := hold.left.left.right.tail_jump.tail
    have hcode := hold.right
    have hl₁ := (Block.prefix_layout alternative (Block.layout l body)).trans hl
    simp only [Arms.size_armCode, condition.size_code, Block.size_code body, ← Nat.add_assoc]
      at hbody hcode
    rcases List.mem_append.1 hj with hj | hj
    · exact Block.countsAt_increments hF body hl₁ hbody j hj
    · exact Block.countsAt_increments hF alternative hl hcode j hj
  | .elseIf _ condition _ body _ rest, l, leave, done, k, hl, hold, j, hj => by
    have hbody := hold.left.left.right.tail_jump.tail
    have hcode := hold.right
    have hl₁ := (rest.prefix_layout (Block.layout l body)).trans hl
    simp only [Arms.size_armCode, condition.size_code, Block.size_code body, ← Nat.add_assoc]
      at hbody hcode
    rcases List.mem_append.1 hj with hj | hj
    · exact Block.countsAt_increments hF body hl₁ hbody j hj
    · exact rest.countsAt_increments hF hl hcode j hj

theorem Block.countsAt_increments (hF : F.length ≤ Chunk.maxSlots) : ∀ (ss : List Statement)
    {l : Layout} {leave : Nat → Int} {k : Nat}, Block.layout l ss <+: F →
    chunk.Holds k (Block.code l leave k ss) → ∀ j ∈ Block.increments k ss, chunk.CountsAt F j
  | [], l, leave, k, hl, hold, j, hj => by simp [Block.increments] at hj
  | s :: ss, l, leave, k, hl, hold, j, hj => by
    have hcode := hold.right
    have hl₁ := (Block.prefix_layout ss (s.layout l)).trans hl
    rw [s.size_code] at hcode
    rcases List.mem_append.1 hj with hj | hj
    · exact s.countsAt_increments hF hl₁ hold.left j hj
    · exact Block.countsAt_increments hF ss hl hcode j hj

end

end Code

/-- All `size` offsets from `k` on may be blamed for a crash, but for the increments. -/
def Blames (blamed : Nat → Prop) (k size : Nat) (increments : List Nat) : Prop :=
  ∀ o, k ≤ o → o < k + size → o ∉ increments → blamed o

theorem Blames.sub {blamed : Nat → Prop} {k size k' size' : Nat} {js js' : List Nat}
    (h : Blames blamed k size js) (hk : k ≤ k') (hsize : k' + size' ≤ k + size)
    (hjs : ∀ j ∈ js, j < k' + size' → k' ≤ j → j ∈ js') : Blames blamed k' size' js' := by
  intro o h₁ h₂ ho
  exact h o (by omega) (by omega) fun hj => ho (hjs o hj h₂ h₁)

end BoundedLoop
