import BoundedLoop.Proofs.Portions

/-!
# Counting instructions

`Machine.after?` is the machine after a given number of instructions, if none of them faults and the
code does not end before. So the machines on the way of a run are numbered, and `Machine.StopsAfter`
says how many instructions a run executes before it stops.

`Machine.step_eq` says what a step on some fuel does first: the end of the code comes before the fuel,
and only an instruction that succeeds costs some.
-/

namespace BoundedLoop

/-! ### Fuel -/

namespace Fuel

variable {fuel : Fuel}

theorem isPositive_iff : fuel.isPositive = true ↔ 0 < fuel.budget := by
  have hzero : (0 : Int32).toInt = 0 := Int32.toInt_zero
  unfold isPositive budget
  rw [decide_eq_true_iff, Int32.lt_iff_toInt_lt, hzero]
  omega

/-- What is left after using up some of the budget. -/
theorem remaining_consume {left : Nat} (h : left ≤ fuel.budget) :
    (fuel.consume (Int32.ofIntClamp (fuel.budget - left))).remaining.toInt =
      fuel.remaining.toInt - (fuel.budget - left : Nat) := by
  have hused := sub_consume h
  omega

theorem consume_nothing (fuel : Fuel) :
    fuel.consume (Int32.ofIntClamp (fuel.budget - fuel.budget)) = fuel := by
  have hleft := remaining_consume (Nat.le_refl fuel.budget)
  rw [Nat.sub_self, Int.natCast_zero, Int.sub_zero] at hleft
  exact congrArg Fuel.mk (Int32.toInt.inj hleft)

theorem remaining_consume_one (h : 0 < fuel.budget) :
    (fuel.consume 1).remaining.toInt = fuel.remaining.toInt - 1 := by
  have hleft := @remaining_consume fuel _ (Nat.sub_le fuel.budget 1)
  have hone : (fuel.budget : Int) - ((fuel.budget - 1 : Nat) : Int) = 1 := by omega
  have hone' : fuel.budget - (fuel.budget - 1) = 1 := by omega
  rw [hone, hone'] at hleft
  exact hleft

theorem budget_consume_one (h : 0 < fuel.budget) : (fuel.consume 1).budget = fuel.budget - 1 := by
  have hleft := remaining_consume_one h
  unfold budget at h ⊢
  omega

/-- The first instruction and the others cost what all of them cost. -/
theorem consume_one_consume {left : Nat} (h : 0 < fuel.budget) (hleft : left ≤ fuel.budget - 1) :
    (fuel.consume 1).consume (Int32.ofIntClamp ((fuel.consume 1).budget - left)) =
      fuel.consume (Int32.ofIntClamp (fuel.budget - left)) := by
  have hall := remaining_consume (Nat.le_trans hleft (Nat.sub_le fuel.budget 1))
  have hrest := @remaining_consume (fuel.consume 1) left (budget_consume_one h ▸ hleft)
  rw [remaining_consume_one h, budget_consume_one h] at hrest
  rw [budget_consume_one h]
  refine congrArg Fuel.mk (Int32.toInt.inj ?_)
  have hsame : (fuel.consume (Int32.ofIntClamp (fuel.budget - left))).remaining.toInt =
      fuel.remaining.toInt - 1 - ((fuel.budget - 1 - left : Nat) : Int) := by omega
  exact hrest.trans hsame.symm

end Fuel

namespace Machine

variable {chunk : Chunk} {m m' m'' : Machine} {n k : Nat} {stop : Stop}

/-! ### What a step does first -/

theorem step_of_advance {fuel : Fuel} {left : Nat}
    (h : advance chunk fuel.budget m = (stop, left, m')) :
    m.step chunk fuel = (stop, fuel.consume (Int32.ofIntClamp (fuel.budget - left)), m') := by
  simp only [step, h]

/-- How a step on `fuel` goes on, given what its first instruction does: with one unit less if it
succeeds, and no further if it faults. -/
def stepOn (chunk : Chunk) (fuel : Fuel) : EStateM.Result Fault Machine Unit → Stop × Fuel × Machine
  | .ok _ m => m.step chunk (fuel.consume 1)
  | .error f m => (.fault f, fuel, m)

/-- A machine at the end of its code stops, one without fuel does nothing, and any other begins with
one instruction. -/
theorem step_eq (chunk : Chunk) (fuel : Fuel) (m : Machine) :
    m.step chunk fuel =
      if m.isFinished chunk then (m.result chunk, fuel, m)
      else if fuel.isPositive then stepOn chunk fuel (m.execute chunk)
      else (.outOfFuel, fuel, m) := by
  by_cases hfin : m.isFinished chunk = true
  · rw [if_pos hfin, step_of_advance (advance_of_isFinished hfin fuel.budget), fuel.consume_nothing]
  rw [if_neg hfin]
  by_cases hfuel : fuel.isPositive = true
  · rw [if_pos hfuel]
    have hpos := Fuel.isPositive_iff.1 hfuel
    obtain ⟨b, hb⟩ : ∃ b, fuel.budget = b + 1 := ⟨fuel.budget - 1, by omega⟩
    cases hexecute : m.execute chunk with
    | ok a m' =>
      rcases hrest : advance chunk (fuel.consume 1).budget m' with ⟨stop, left, m''⟩
      have hleft := left_le_of_advance hrest
      rw [Fuel.budget_consume_one hpos] at hleft
      have hadvance : advance chunk fuel.budget m = (stop, left, m'') := by
        rw [Fuel.budget_consume_one hpos, hb, Nat.add_sub_cancel] at hrest
        rw [hb, advance_succ hexecute, hrest]
      rw [step_of_advance hadvance, stepOn, step_of_advance hrest,
        Fuel.consume_one_consume hpos hleft]
    | error f m' =>
      have hadvance : advance chunk fuel.budget m = (.fault f, fuel.budget, m') := by
        rw [hb, advance, if_neg hfin, hexecute]
      rw [step_of_advance hadvance, fuel.consume_nothing, stepOn]
  · rw [if_neg hfuel]
    have hzero : fuel.budget = 0 := by
      rw [Fuel.isPositive_iff] at hfuel
      omega
    have hadvance : advance chunk fuel.budget m = (.outOfFuel, fuel.budget, m) := by
      rw [hzero, advance, if_neg hfin]
    rw [step_of_advance hadvance, fuel.consume_nothing]

/-! ### The machines on the way -/

/-- The machine after `n` instructions. There is none if one of them faults, or if the code ends
before. -/
def after? (chunk : Chunk) : Nat → Machine → Option Machine
  | 0, m => some m
  | n + 1, m =>
    match m.execute chunk with
    | .ok _ m' => after? chunk n m'
    | .error _ _ => none

theorem after?_succ_of_ok (h : m.execute chunk = .ok () m') (n : Nat) :
    m.after? chunk (n + 1) = m'.after? chunk n := by
  rw [after?, h]

theorem after?_succ_of_error {f : Fault} (h : m.execute chunk = .error f m') (n : Nat) :
    m.after? chunk (n + 1) = none := by
  rw [after?, h]

theorem exists_of_after?_succ (h : m.after? chunk (n + 1) = some m') :
    ∃ m₁, m.execute chunk = .ok () m₁ ∧ m₁.after? chunk n = some m' := by
  cases hexecute : m.execute chunk with
  | ok _ m₁ => exact ⟨m₁, rfl, by rwa [after?_succ_of_ok hexecute] at h⟩
  | error f m₁ =>
    rw [after?_succ_of_error hexecute] at h
    cases h

theorem after?_add (chunk : Chunk) (n k : Nat) (m : Machine) :
    m.after? chunk (n + k) = (m.after? chunk n).bind (·.after? chunk k) := by
  induction n generalizing m with
  | zero => rw [Nat.zero_add]; rfl
  | succ n ih =>
    rw [Nat.add_right_comm]
    cases hexecute : m.execute chunk with
    | ok _ m₁ => rw [after?_succ_of_ok hexecute, after?_succ_of_ok hexecute, ih]
    | error f m₁ => rw [after?_succ_of_error hexecute, after?_succ_of_error hexecute]; rfl

/-- One more instruction at the end. -/
theorem after?_succ (h : m.after? chunk n = some m') (hexecute : m'.execute chunk = .ok () m'') :
    m.after? chunk (n + 1) = some m'' := by
  rw [after?_add, h, Option.bind_some, after?_succ_of_ok hexecute]
  rfl

/-- Steps are some number of instructions. -/
theorem steps_iff_after? : Steps chunk m m' ↔ ∃ n, m.after? chunk n = some m' := by
  constructor
  · intro h
    induction h with
    | refl => exact ⟨0, rfl⟩
    | tail _ hstep ih =>
      obtain ⟨n, hn⟩ := ih
      exact ⟨n + 1, after?_succ hn hstep⟩
  · rintro ⟨n, hn⟩
    induction n generalizing m with
    | zero =>
      cases hn
      exact Steps.refl _
    | succ n ih =>
      obtain ⟨m₁, hexecute, hn⟩ := exists_of_after?_succ hn
      exact Relation.ReflTransGen.head hexecute (ih hn)

/-- A machine that executes another instruction is not at the end of its code. -/
theorem not_isFinished_of_after? (h : m.after? chunk n = some m') (hk : k < n) {m₁ : Machine}
    (h₁ : m.after? chunk k = some m₁) : ¬ m₁.isFinished chunk = true := by
  obtain ⟨d, rfl⟩ : ∃ d, n = k + (d + 1) := ⟨n - k - 1, by omega⟩
  rw [after?_add, h₁, Option.bind_some] at h
  obtain ⟨m₂, hexecute, -⟩ := exists_of_after?_succ h
  exact not_isFinished_of_execute hexecute

/-- From `m` on, `k` instructions are executed before the machine comes to rest, at `last`. -/
structure StopsAfter (chunk : Chunk) (m : Machine) (k : Nat) (last : Machine) (stop : Stop)
    (m' : Machine) : Prop where
  after : m.after? chunk k = some last
  rests : Rests chunk last stop m'

theorem Rests.not_execute (h : Rests chunk m stop m') (m₁ : Machine) :
    m.execute chunk ≠ .ok () m₁ := by
  intro hexecute
  cases h with
  | finished hfin => exact not_isFinished_of_execute hexecute hfin
  | faults _ hfault =>
    rw [hexecute] at hfault
    cases hfault

theorem Rests.of_isFinished (h : Rests chunk m stop m') (hfin : m.isFinished chunk = true) :
    stop = m.result chunk ∧ m' = m := by
  cases h with
  | finished _ => exact ⟨rfl, rfl⟩
  | faults hnot _ => exact absurd hfin hnot

/-- A machine that is not at the end of its code rests because of a fault. -/
theorem Rests.exists_fault (h : Rests chunk m stop m') (hfin : ¬ m.isFinished chunk = true) :
    ∃ f, stop = .fault f ∧ m.execute chunk = .error f m' := by
  cases h with
  | finished hend => exact absurd hend hfin
  | faults _ hfault => exact ⟨_, rfl, hfault⟩

theorem run_eq_some_iff_stopsAfter :
    m.run chunk = some (stop, m') ↔ ∃ k last, StopsAfter chunk m k last stop m' := by
  rw [run_eq_some_iff, exists_advance_iff_rests]
  constructor
  · rintro ⟨last, hsteps, hrests⟩
    obtain ⟨k, hk⟩ := steps_iff_after?.1 hsteps
    exact ⟨k, last, hk, hrests⟩
  · rintro ⟨k, last, hk, hrests⟩
    exact ⟨last, steps_iff_after?.2 ⟨k, hk⟩, hrests⟩

/-- The instructions that are executed are those in front of number `k`. -/
theorem StopsAfter.isSome_after?_iff {last : Machine} (h : StopsAfter chunk m k last stop m') (n : Nat) :
    (m.after? chunk n).isSome = true ↔ n ≤ k := by
  constructor
  · intro hsome
    by_contra hlt
    obtain ⟨d, rfl⟩ : ∃ d, n = k + (d + 1) := ⟨n - k - 1, by omega⟩
    rw [after?_add, h.after, Option.bind_some] at hsome
    obtain ⟨m₁, hm₁⟩ := Option.isSome_iff_exists.1 hsome
    obtain ⟨m₂, hexecute, -⟩ := exists_of_after?_succ hm₁
    exact h.rests.not_execute m₂ hexecute
  · intro hle
    have hafter := h.after
    rw [← Nat.add_sub_of_le hle, after?_add] at hafter
    obtain ⟨m₁, hm₁, -⟩ := Option.bind_eq_some_iff.1 hafter
    rw [hm₁]
    rfl

end Machine

end BoundedLoop
