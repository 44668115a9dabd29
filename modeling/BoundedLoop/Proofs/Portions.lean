import BoundedLoop.Proofs.Semantics.Budget
import Mathlib.Algebra.Order.Ring.Int

/-!
# Fuel in portions

A machine cannot tell in which portions its fuel is given out. To step on one fuel after the other, as
long as they run out, is to step once on their sum (`fuel_portions_unobservable`): the machine stops in
the same way and in the same state, and has used the same amount. Portions of one instruction each are
the finest ones, so a run without a limit ends just where enough of them do.

All of it rests on `Machine.stepInTurn_eq_advance`: only the sum of the budgets counts. That holds for
any bytes and from any state, because it follows from how budgets add up and not from what the code
does.
-/

namespace BoundedLoop

/-- What is taken out of a fuel, up to its budget, is what the fuel loses. -/
theorem Fuel.sub_consume {fuel : Fuel} {left : Nat} (h : left ≤ fuel.budget) :
    fuel.remaining.toInt - (fuel.consume (Int32.ofIntClamp (fuel.budget - left))).remaining.toInt =
      fuel.budget - left := by
  have hmin : Int32.minValue.toInt = -2 ^ 31 := Int32.toInt_minValue
  have hmax : Int32.maxValue.toInt = 2 ^ 31 - 1 := Int32.toInt_maxValue
  have hlow := fuel.remaining.le_toInt
  have hhigh := fuel.remaining.toInt_le
  unfold budget at h ⊢
  simp only [consume]
  -- neither subtraction reaches an end of the word's range
  rw [Int32.toInt_ofIntClamp (x := fuel.remaining.toInt.toNat - left) (by omega) (by omega),
    Int32.toInt_ofIntClamp (by omega) (by omega)]
  omega

namespace Machine

/-- Runs on the given fuel, and gives also how much of it was used. -/
def spend (chunk : Chunk) (fuel : Fuel) (m : Machine) : Stop × Int × Machine :=
  let (stop, left, m') := m.step chunk fuel
  (stop, fuel.remaining.toInt - left.remaining.toInt, m')

/-- Runs on `fuel`, and then on each of the `fuels` in turn for as long as they run out. What was used
is added up. -/
def stepInTurn (chunk : Chunk) : Fuel → List Fuel → Machine → Stop × Int × Machine
  | fuel, [], m => m.spend chunk fuel
  | fuel, next :: fuels, m =>
    match m.spend chunk fuel with
    | (.outOfFuel, used, m') =>
      let (stop, more, m'') := stepInTurn chunk next fuels m'
      (stop, used + more, m'')
    | ended => ended

variable {chunk : Chunk} {m m' : Machine} {n left : Nat} {stop : Stop}

/-! ### Only the sum counts -/

theorem left_le_of_advance (h : advance chunk n m = (stop, left, m')) : left ≤ n := by
  induction n generalizing m with
  | zero =>
    rw [advance] at h
    split at h <;> cases h <;> exact Nat.le_refl 0
  | succ n ih =>
    rw [advance] at h
    split at h
    · cases h
      exact Nat.le_refl _
    · split at h
      · exact Nat.le_succ_of_le (ih h)
      · cases h
        exact Nat.le_refl _

theorem spend_of_advance {fuel : Fuel} (h : advance chunk fuel.budget m = (stop, left, m')) :
    m.spend chunk fuel = (stop, (fuel.budget - left : Int), m') := by
  have hleft : left ≤ fuel.budget := left_le_of_advance h
  simp only [spend, step, h, Fuel.sub_consume hleft]

/-- Fuels that are used in turn are as good as the sum of their budgets. -/
theorem stepInTurn_eq_advance : ∀ (fuels : List Fuel) (fuel : Fuel) {total left : Nat}
    {m m' : Machine} {stop : Stop}, ((fuel :: fuels).map Fuel.budget).sum = total →
    advance chunk total m = (stop, left, m') →
    m.stepInTurn chunk fuel fuels = (stop, (total - left : Int), m') := by
  intro fuels
  induction fuels with
  | nil =>
    intro fuel total left m m' stop htotal h
    rw [List.map_singleton, List.sum_singleton] at htotal
    subst htotal
    exact spend_of_advance h
  | cons next fuels ih =>
    intro fuel total left m m' stop htotal h
    rw [List.map_cons, List.sum_cons] at htotal
    generalize hrest : ((next :: fuels).map Fuel.budget).sum = rest at htotal
    subst htotal
    rcases hfirst : advance chunk fuel.budget m with ⟨stop₁, left₁, m₁⟩
    rw [stepInTurn, spend_of_advance hfirst]
    by_cases hfuel : stop₁ = .outOfFuel
    · subst hfuel
      obtain ⟨rfl, hadd⟩ := advance_add hfirst rest
      rw [h] at hadd
      simp only [ih next hrest hadd.symm, Prod.mk.injEq, true_and, and_true]
      omega
    · -- the first fuel is enough, so the others would have changed nothing
      have hmono := advance_mono hfirst hfuel rest
      rw [h] at hmono
      cases hmono
      cases stop with
      | outOfFuel => exact absurd rfl hfuel
      | output v =>
        simp only [Prod.mk.injEq, true_and, and_true]
        omega
      | fault f =>
        simp only [Prod.mk.injEq, true_and, and_true]
        omega

theorem stepInTurn_eq_spend (m : Machine) {total fuel : Fuel} {fuels : List Fuel}
    (h : ((fuel :: fuels).map Fuel.budget).sum = total.budget) :
    m.stepInTurn chunk fuel fuels = m.spend chunk total := by
  rcases hrun : advance chunk total.budget m with ⟨stop, left, m'⟩
  rw [stepInTurn_eq_advance fuels fuel h hrun, spend_of_advance hrun]

/-! ### Runs without a limit -/

theorem exists_advance_of_run {r : Stop × Machine} (h : m.run chunk = some r) :
    ∃ n left, advance chunk n m = (r.1, left, r.2) ∧ r.1 ≠ .outOfFuel := by
  refine run.partial_correctness chunk
    (fun m r => ∃ n left, advance chunk n m = (r.1, left, r.2) ∧ r.1 ≠ .outOfFuel) ?_ m r h
  intro run ih m r h
  rcases hslice : advance chunk 65536 m with ⟨stop, left, m₁⟩
  rw [slice_of_advance hslice] at h
  cases stop with
  | outOfFuel =>
    obtain ⟨n, left', hrest, hstop⟩ := ih m₁ r h
    exact ⟨65536 + n, left', by rw [(advance_add hslice n).2, hrest], hstop⟩
  | output v =>
    cases h
    exact ⟨65536, left, hslice, nofun⟩
  | fault f =>
    cases h
    exact ⟨65536, left, hslice, nofun⟩

/-- A run without a limit has a result just if some budget is enough for it. -/
theorem run_eq_some_iff :
    m.run chunk = some (stop, m') ↔
      ∃ n left, advance chunk n m = (stop, left, m') ∧ stop ≠ .outOfFuel := by
  constructor
  · intro h
    exact exists_advance_of_run h
  · rintro ⟨n, left, h, hstop⟩
    exact run_eq_of_advance h hstop

/-- A slice that was used up is filled again to its full size. -/
theorem refill_of_outOfFuel {spent : Fuel}
    (h : m.step chunk sliceFuel = (.outOfFuel, spent, m')) :
    spent.refill 65536 65536 = sliceFuel := by
  rcases hslice : advance chunk sliceFuel.budget m with ⟨stop, left, m₁⟩
  simp only [step, hslice, Prod.mk.injEq] at h
  obtain ⟨rfl, rfl, rfl⟩ := h
  obtain ⟨rfl, -⟩ := advance_add hslice 0
  decide

/-! ### One instruction at a time -/

/-- A fuel for one instruction. -/
def unitFuel : Fuel := ⟨1⟩

/-- The machine comes to rest without executing another instruction: its code is at an end, or the
next instruction faults. -/
inductive Rests (chunk : Chunk) : Machine → Stop → Machine → Prop where
  | finished {m : Machine} (h : m.isFinished chunk = true) : Rests chunk m (m.result chunk) m
  | faults {m m' : Machine} {f : Fault} (hfin : ¬ m.isFinished chunk = true)
      (h : m.execute chunk = .error f m') : Rests chunk m (.fault f) m'

theorem result_ne_outOfFuel (m : Machine) : m.result chunk ≠ .outOfFuel := by
  unfold result
  split <;> nofun

theorem Rests.advance (h : Rests chunk m stop m') :
    ∃ left, Machine.advance chunk 1 m = (stop, left, m') ∧ stop ≠ .outOfFuel := by
  cases h with
  | finished h => exact ⟨1, advance_of_isFinished h 1, result_ne_outOfFuel m⟩
  | faults hfin h =>
    refine ⟨1, ?_, nofun⟩
    rw [Machine.advance, if_neg hfin, h]

theorem exists_rests_of_advance (h : advance chunk n m = (stop, left, m'))
    (hstop : stop ≠ .outOfFuel) : ∃ m₁, Steps chunk m m₁ ∧ Rests chunk m₁ stop m' := by
  induction n generalizing m with
  | zero =>
    rw [advance] at h
    split at h
    · rename_i hfin
      cases h
      exact ⟨_, Steps.refl _, .finished hfin⟩
    · cases h
      exact absurd rfl hstop
  | succ n ih =>
    rw [advance] at h
    split at h
    · rename_i hfin
      cases h
      exact ⟨_, Steps.refl _, .finished hfin⟩
    · rename_i hfin
      split at h
      · rename_i hstep
        obtain ⟨m₁, hsteps, hrests⟩ := ih h
        exact ⟨m₁, Relation.ReflTransGen.head hstep hsteps, hrests⟩
      · rename_i hfault
        cases h
        exact ⟨m, Steps.refl m, .faults hfin hfault⟩

/-- A budget is enough just if the machine comes to rest after some instructions. -/
theorem exists_advance_iff_rests :
    (∃ n left, advance chunk n m = (stop, left, m') ∧ stop ≠ .outOfFuel) ↔
      ∃ m₁, Steps chunk m m₁ ∧ Rests chunk m₁ stop m' := by
  constructor
  · rintro ⟨n, left, h, hstop⟩
    exact exists_rests_of_advance h hstop
  · rintro ⟨m₁, hsteps, hrests⟩
    obtain ⟨n, hn⟩ := hsteps.advance
    obtain ⟨left, hlast, hstop⟩ := hrests.advance
    exact ⟨n + 1, left, by rw [hn, hlast], hstop⟩

theorem sum_replicate_unitFuel (n : Nat) :
    ((unitFuel :: List.replicate n unitFuel).map Fuel.budget).sum = n + 1 := by
  have hunit : unitFuel.budget = 1 := rfl
  simp [hunit, Nat.add_comm]

/-- A budget is enough just if so many portions of one instruction each are. -/
theorem exists_advance_iff_stepInTurn :
    (∃ n left, advance chunk n m = (stop, left, m') ∧ stop ≠ .outOfFuel) ↔
      ∃ n used, m.stepInTurn chunk unitFuel (List.replicate n unitFuel) = (stop, used, m') ∧
        stop ≠ .outOfFuel := by
  constructor
  · rintro ⟨n, left, h, hstop⟩
    exact ⟨n, _, stepInTurn_eq_advance _ _ (sum_replicate_unitFuel n) (advance_mono h hstop 1), hstop⟩
  · rintro ⟨n, used, h, hstop⟩
    rcases hrun : advance chunk (n + 1) m with ⟨stop₁, left, m₁⟩
    rw [stepInTurn_eq_advance _ _ (sum_replicate_unitFuel n) hrun] at h
    cases h
    exact ⟨n + 1, left, hrun, hstop⟩

end Machine

open Machine

theorem Fuel.sum_budget {fuels : List Fuel} (h : ∀ f ∈ fuels, 0 ≤ f.remaining) :
    (((fuels.map Fuel.budget).sum : Nat) : Int) = (fuels.map (·.remaining.toInt)).sum := by
  induction fuels with
  | nil => rfl
  | cons f fuels ih =>
    have hf : 0 ≤ f.remaining.toInt := Int32.le_iff_toInt_le.1 (h f List.mem_cons_self)
    have hrest := ih fun g hg => h g (List.mem_cons_of_mem f hg)
    simp only [List.map_cons, List.sum_cons, budget] at hrest ⊢
    omega

/-- The portions in which fuel is given out cannot be observed: stepping on one fuel after the other
until something else happens than that they run out is stepping on their sum. So a run without a limit,
which gives out slices of one size again and again, has a result just if some number of portions of one
instruction each lead to it, and just if the machine comes to rest after some instructions. -/
theorem fuel_portions_unobservable (chunk : Chunk) (m : Machine) :
    (∀ (fuel : Fuel) (fuels : List Fuel) (sum : Int),
      (∀ f ∈ fuel :: fuels, 0 ≤ f.remaining) →
      ((fuel :: fuels).map (·.remaining.toInt)).sum = sum → sum ≤ Int32.maxValue.toInt →
      m.stepInTurn chunk fuel fuels = m.spend chunk ⟨Int32.ofInt sum⟩) ∧
    (∀ spent m', m.step chunk sliceFuel = (.outOfFuel, spent, m') →
      spent.refill 65536 65536 = sliceFuel) ∧
    (∀ stop m', m.run chunk = some (stop, m') ↔
      ∃ n used, m.stepInTurn chunk unitFuel (List.replicate n unitFuel) = (stop, used, m') ∧
        stop ≠ .outOfFuel) ∧
    ∀ stop m', m.run chunk = some (stop, m') ↔
      ∃ m₁, Steps chunk m m₁ ∧ Rests chunk m₁ stop m' := by
  refine ⟨?_, fun spent m' h => refill_of_outOfFuel h, fun stop m' => ?_, fun stop m' => ?_⟩
  · intro fuel fuels sum hnonneg hsum hmax
    refine stepInTurn_eq_spend m ?_
    have hbudget := Fuel.sum_budget hnonneg
    rw [hsum] at hbudget
    rw [Int32.toInt_maxValue] at hmax
    simp only [Fuel.budget, Int32.toInt_ofInt_of_le (n := sum) (by omega) (by omega)] at hbudget ⊢
    omega
  · exact run_eq_some_iff.trans exists_advance_iff_stepInTurn
  · exact run_eq_some_iff.trans exists_advance_iff_rests

/-- Code that stores a value and then goes on with a byte that is no instruction. -/
def strayByte : Chunk :=
  ((({} : Chunk).takeSlot.emit (.push (.boolean true)) 1).emit (.store 0) 1).write 255 2

/-- The second and the third portion end right in front of the stray byte, the fourth one would have
been enough for more. -/
theorem fuel_portions_unobservable_strayByte :
    (Machine.ofChunk strayByte).stepInTurn strayByte ⟨1⟩ [⟨1⟩, ⟨0⟩, ⟨7⟩] =
      (Machine.ofChunk strayByte).spend strayByte ⟨9⟩ ∧
    (Machine.ofChunk strayByte).spend strayByte ⟨9⟩ =
      (.fault ⟨.decode (.invalidOpcode 255), 12, some 2⟩, 2,
        ⟨12, [.boolean true], #[some (.boolean true)]⟩) ∧
    (Machine.ofChunk strayByte).run strayByte =
      some (.fault ⟨.decode (.invalidOpcode 255), 12, some 2⟩,
        ⟨12, [.boolean true], #[some (.boolean true)]⟩) := by
  obtain ⟨hportions, -, hrun, -⟩ := fuel_portions_unobservable strayByte (.ofChunk strayByte)
  refine ⟨hportions ⟨1⟩ [⟨1⟩, ⟨0⟩, ⟨7⟩] 9 (by decide) (by decide) (by decide), ?_, ?_⟩
  · decide +kernel
  · exact (hrun _ _).2 ⟨2, 2, by decide +kernel, nofun⟩

end BoundedLoop
