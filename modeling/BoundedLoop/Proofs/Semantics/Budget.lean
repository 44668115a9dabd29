import BoundedLoop.Proofs.Semantics.Execution

/-!
# Steps and budgets

Steps of a machine are counted by `Machine.advance`: enough budget takes a machine through them
(`Machine.Steps.advance`). A machine that stops does so with any larger budget, and then in the same
way; so it does not matter in which portions the budget is given (`Machine.advance_unique`,
`Machine.run_eq_of_advance`).
-/

namespace BoundedLoop

namespace Machine

variable {chunk : Chunk} {m m' m'' : Machine} {n left : Nat} {stop : Stop}

/-- At the end of the code there is nothing to execute. -/
theorem execute_of_isFinished (h : m.isFinished chunk = true) :
    m.execute chunk = .error (.of chunk m.ip (.decode (.outOfBounds m.ip chunk.size))) m := by
  have hle : chunk.size ≤ m.ip := by simpa [isFinished] using h
  have hbyte : chunk.byteAt? m.ip = none := by
    rw [Chunk.byteAt?, Array.getElem?_eq_none hle]
    rfl
  simp only [execute, Chunk.decode, hbyte]

theorem not_isFinished_of_execute (h : m.execute chunk = .ok () m') :
    ¬ m.isFinished chunk = true := by
  intro hfin
  rw [execute_of_isFinished hfin] at h
  cases h

theorem advance_succ (h : m.execute chunk = .ok () m') (n : Nat) :
    advance chunk (n + 1) m = advance chunk n m' := by
  rw [advance, if_neg (not_isFinished_of_execute h), h]

theorem advance_of_isFinished (h : m.isFinished chunk = true) (n : Nat) :
    advance chunk n m = (m.result chunk, n, m) := by
  cases n <;> rw [advance, if_pos h]

theorem Steps.advance (h : Steps chunk m m') :
    ∃ n, ∀ k, advance chunk (n + k) m = advance chunk k m' := by
  induction h with
  | refl => exact ⟨0, fun k => by rw [Nat.zero_add]⟩
  | tail _ hstep ih =>
    obtain ⟨n, hn⟩ := ih
    refine ⟨n + 1, fun k => ?_⟩
    rw [Nat.add_assoc, hn, Nat.add_comm 1 k, advance_succ hstep]

/-- Whatever a run that does not fault has done, it has done by steps. -/
theorem steps_of_advance (h : advance chunk n m = (stop, left, m')) (hstop : ∀ f, stop ≠ .fault f) :
    Steps chunk m m' := by
  induction n generalizing m with
  | zero =>
    rw [advance] at h
    split at h <;> cases h <;> exact Steps.refl _
  | succ n ih =>
    rw [advance] at h
    split at h
    · cases h
      exact Steps.refl _
    · split at h
      · rename_i hstep
        exact Relation.ReflTransGen.head hstep (ih h)
      · cases h
        exact absurd rfl (hstop _)

/-- A machine that stops by itself does so with more budget as well. -/
theorem advance_mono (h : advance chunk n m = (stop, left, m')) (hstop : stop ≠ .outOfFuel)
    (k : Nat) : advance chunk (n + k) m = (stop, left + k, m') := by
  induction n generalizing m with
  | zero =>
    rw [advance] at h
    split at h
    · rename_i hfin
      cases h
      rw [advance_of_isFinished hfin]
    · cases h
      exact absurd rfl hstop
  | succ n ih =>
    rw [advance] at h
    split at h
    · rename_i hfin
      cases h
      rw [advance_of_isFinished hfin]
    · rename_i hfin
      rw [Nat.add_right_comm, advance, if_neg hfin]
      cases hstep : m.execute chunk with
      | ok _ m₁ =>
        rw [hstep] at h
        exact ih h
      | error f m₁ =>
        rw [hstep] at h
        cases h
        exact congrArg (fun left => (Stop.fault f, left, m')) (Nat.add_right_comm n k 1)

theorem advance_unique {n' left' : Nat} {stop' : Stop} (h : advance chunk n m = (stop, left, m'))
    (h' : advance chunk n' m = (stop', left', m'')) (hstop : stop ≠ .outOfFuel)
    (hstop' : stop' ≠ .outOfFuel) : stop = stop' ∧ m' = m'' := by
  have h₁ := advance_mono h hstop n'
  have h₂ := advance_mono h' hstop' n
  rw [Nat.add_comm n' n, h₁] at h₂
  simp only [Prod.mk.injEq] at h₂
  exact ⟨h₂.1, h₂.2.2⟩

/-- A machine at the end of the code stops there. -/
theorem Steps.advance_result (h : Steps chunk m m') (hfin : m'.isFinished chunk = true) :
    ∃ n, Machine.advance chunk n m = (m'.result chunk, 0, m') := by
  obtain ⟨n, hn⟩ := h.advance
  refine ⟨n + 0, ?_⟩
  rw [hn, advance_of_isFinished hfin]

theorem Crashes.advance {f : Fault} (h : Crashes chunk m f) (hcause : ∀ e, f.cause ≠ .decode e) :
    ∃ n m', Machine.advance chunk n m = (.fault f, 1, m') := by
  obtain ⟨m₁, m₂, hsteps, hfault⟩ := h
  obtain ⟨n, hn⟩ := hsteps.advance
  have hfin : ¬ m₁.isFinished chunk = true := by
    intro hfin
    rw [execute_of_isFinished hfin] at hfault
    cases hfault
    exact hcause _ rfl
  refine ⟨n + 1, m₂, ?_⟩
  rw [hn, Machine.advance, if_neg hfin, hfault]

/-! ### Runs without a limit -/

theorem slice_of_advance (h : advance chunk 65536 m = (stop, left, m')) :
    slice chunk m = (stop, m') := by
  have hbudget : sliceFuel.budget = 65536 := rfl
  simp only [slice, step, hbudget, h]

/-- A run without a limit ends where one with enough budget does. -/
theorem run_eq_of_advance (h : advance chunk n m = (stop, left, m')) (hstop : stop ≠ .outOfFuel) :
    run chunk m = some (stop, m') := by
  induction n using Nat.strongRecOn generalizing m with
  | ind n ih =>
    rcases hslice : advance chunk 65536 m with ⟨stop₁, left₁, m₁⟩
    rw [run, slice_of_advance hslice]
    by_cases hfuel : stop₁ = .outOfFuel
    · subst hfuel
      -- the slice was too short, so it was shorter than the whole run
      have hlt : 65536 < n := by
        by_contra hle
        have hmore := advance_mono h hstop (65536 - n)
        rw [Nat.add_sub_of_le (Nat.le_of_not_lt hle), hslice] at hmore
        cases hmore
        exact hstop rfl
      have hrest := (advance_add hslice (n - 65536)).2
      rw [Nat.add_sub_of_le (Nat.le_of_lt hlt), h] at hrest
      exact ih (n - 65536) (by omega) hrest.symm
    · obtain ⟨rfl, rfl⟩ := advance_unique h hslice hstop hfuel
      cases stop with
      | outOfFuel => exact absurd rfl hstop
      | output v => rfl
      | fault f => rfl

/-! ### Runs in portions -/

/-- The machines that come from the start of a chunk by steps on any fuel, as long as nothing
faults. -/
inductive Reached (chunk : Chunk) : Machine → Prop where
  | start : Reached chunk (.ofChunk chunk)
  | step {m m' : Machine} {fuel fuel' : Fuel} {stop : Stop} (hm : Reached chunk m)
      (hstep : m.step chunk fuel = (stop, fuel', m')) (hstop : ∀ f, stop ≠ .fault f) :
      Reached chunk m'

theorem advance_of_step {fuel fuel' : Fuel} (h : m.step chunk fuel = (stop, fuel', m')) :
    ∃ left, advance chunk fuel.budget m = (stop, left, m') := by
  simp only [step, Prod.mk.injEq] at h
  obtain ⟨h₁, -, h₂⟩ := h
  exact ⟨(advance chunk fuel.budget m).2.1, by rw [← h₁, ← h₂]⟩

theorem Reached.steps (h : Reached chunk m) : Steps chunk (.ofChunk chunk) m := by
  induction h with
  | start => exact Steps.refl _
  | step _ hstep hstop ih =>
    obtain ⟨left, hadvance⟩ := advance_of_step hstep
    exact ih.trans (steps_of_advance hadvance hstop)

/-- However the fuel is given out, a machine faults as it does in one go. -/
theorem Reached.fault_eq {fuel fuel' : Fuel} {f : Fault} (h : Reached chunk m)
    (hstep : m.step chunk fuel = (.fault f, fuel', m'))
    (hrun : advance chunk n (.ofChunk chunk) = (stop, left, m'')) (hstop : stop ≠ .outOfFuel) :
    stop = .fault f := by
  obtain ⟨k, hk⟩ := h.steps.advance
  obtain ⟨left', hadvance⟩ := advance_of_step hstep
  rw [← hk] at hadvance
  exact (advance_unique hrun hadvance hstop nofun).1

end Machine

end BoundedLoop
