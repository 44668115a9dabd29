import BoundedLoop.Proofs.Simulation.Expression

/-!
# The code of a loop repeats its body

A statement keeps the stack, and the slots without a name that are taken in front of it (`Behind`).
So the count and the counter of a loop are safe from the loop's body, and the body is run as often as
the counter is below the count (`simulates_iterate`).
-/

namespace BoundedLoop

open Machine

/-! ### Loops -/

/-- The machine behind a statement that was begun with `stack` and `slots`. It stands at `next`, or
at the `exit` of the innermost loop. Slots without a name among the first `reserved` ones are as
before. -/
structure Behind (F : Layout) (reserved next : Nat) (exit : Option Nat) (stack : List Value)
    (slots : Array (Option Value)) (r : Flow × Store) (m : Machine) : Prop where
  ip : match r.1 with
    | .next => m.ip = next
    | .abort => exit = some m.ip
  stack : m.stack = stack
  laid : F.Laid r.2 m.slots
  kept : ∀ j < reserved, F[j]? = some none → m.slots[j]? = slots[j]?

section Loops

variable {chunk : Chunk} {F l : Layout} {blamed : Nat → Prop} {σ : Store}
  {slots : Array (Option Value)} {k line : Nat} {stack : List Value}

/-- The slots of a loop, once its count `n` and its counter `c` are stored. -/
structure Layout.Counts (l : Layout) (slots : Array (Option Value)) (n c : Int64) : Prop where
  bound : slots[l.length]? = some (some (.number n))
  counter : slots[l.length + 1]? = some (some (.number c))

theorem Statement.steps_loopInit (hl : l.addLoop.length ≤ Chunk.maxSlots)
    (hlt : l.length + 1 < slots.size) (n : Int64)
    (hold : chunk.Holds k (Statement.loopInit l line)) :
    Steps chunk ⟨k, .number n :: stack, slots⟩
      ⟨k + 16, stack, (slots.setIfInBounds l.length (some (.number n))).setIfInBounds (l.length + 1)
        (some (.number 0))⟩ := by
  have hbound := Layout.toNat_boundSlot hl
  have hcounter := Layout.toNat_counterSlot hl
  rw [← hcounter, ← hbound]
  refine (steps_store (by omega) hold).trans ?_
  refine (steps_pop hold.tail).trans ?_
  refine (steps_push hold.tail.tail).trans ?_
  refine (steps_store (by simp; omega) hold.tail.tail.tail).trans ?_
  exact steps_pop hold.tail.tail.tail.tail

theorem Statement.steps_loopTest (hl : l.addLoop.length ≤ Chunk.maxSlots) {n c : Int64}
    (hcount : l.Counts slots n c) (hold : chunk.Holds k (Statement.loopTest l line)) :
    Steps chunk ⟨k, stack, slots⟩ ⟨k + 5, .boolean (c < n) :: stack, slots⟩ := by
  have hbound := hcount.bound
  have hcounter := hcount.counter
  rw [← Layout.toNat_boundSlot hl] at hbound
  rw [← Layout.toNat_counterSlot hl] at hcounter
  refine (steps_load hcounter hold).trans ?_
  refine (steps_load hbound hold.tail).trans ?_
  exact steps_less hold.tail.tail

/-- The counter can be incremented because it is less than a number. -/
theorem exact64?_succ {n c : Int64} (h : c < n) :
    ∃ c' : Int64, exact64? (c.toInt + (1 : Int64).toInt) = some c' ∧ c'.toInt = c.toInt + 1 := by
  have hone : (1 : Int64).toInt = 1 := by decide
  have hlt : c.toInt < n.toInt := Int64.lt_iff_toInt_lt.1 h
  have hmax := n.toInt_lt
  have hmin := c.le_toInt
  have hx : (Int64.ofInt (c.toInt + 1)).toInt = c.toInt + 1 :=
    Int64.toInt_ofInt_of_le (by omega) (by omega)
  exact ⟨Int64.ofInt (c.toInt + 1), exact64?_eq_some_iff.2 (by rw [hx, hone]), hx⟩

theorem Statement.steps_loopStep (hl : l.addLoop.length ≤ Chunk.maxSlots) {n c c' : Int64}
    (hcount : l.Counts slots n c) (hsucc : exact64? (c.toInt + (1 : Int64).toInt) = some c')
    (hold : chunk.Holds k (Statement.loopStep l line)) :
    Steps chunk ⟨k, stack, slots⟩
      ⟨k + 16, stack, slots.setIfInBounds (l.length + 1) (some (.number c'))⟩ := by
  have hcounter := hcount.counter
  have hlt : l.length + 1 < slots.size := (Array.getElem?_eq_some_iff.1 hcounter).1
  have hslot := Layout.toNat_counterSlot hl
  rw [← hslot] at hcounter ⊢
  refine (steps_load hcounter hold).trans ?_
  refine (steps_push hold.tail).trans ?_
  refine (steps_add hsucc hold.tail.tail).trans ?_
  refine (steps_store (by omega) hold.tail.tail.tail).trans ?_
  exact steps_pop hold.tail.tail.tail.tail

/-- The machine at the test of a loop runs the body as often as the counter is below the count.
The induction is on how often that is. -/
theorem simulates_iterate (hF : F.length ≤ Chunk.maxSlots) (hl : l.addLoop <+: F) {size line' : Nat}
    {body : Store → Except Failure (Flow × Store)}
    (htest : chunk.Holds k
      (Statement.loopTest l line ++ [.jump .ifFalse (size + 20) line, .op .pop line]))
    (hfoot : chunk.Holds (k + 9 + size) (Statement.loopFoot l line' (-(size + 28))))
    (hbody : ∀ σ slots, F.Laid σ slots →
      Simulates chunk F blamed
        (Behind F (l.length + 2) (k + 9 + size) (some (k + 29 + size)) stack slots)
        ⟨k + 9, stack, slots⟩ (body σ)) :
    ∀ (times : Nat) {n c : Int64} {σ : Store} {slots : Array (Option Value)}, F.Laid σ slots →
      l.Counts slots n c → (n.toInt - c.toInt).toNat = times →
      Simulates chunk F blamed
        (fun σ' m => Behind F l.length (k + 29 + size) none stack slots (.next, σ') m)
        ⟨k, stack, slots⟩ (iterate body times σ) := by
  have hroom : l.addLoop.length ≤ Chunk.maxSlots := Nat.le_trans hl.length_le hF
  have hjump := htest.right
  have hback := hfoot.right
  have hend := hback.size_le
  simp only [Statement.size_loopTest, Statement.size_loopStep, Fragment.size_cons_jump,
    Fragment.size_cons_op, Fragment.size_nil, Instruction.size_pop] at hjump hback hend
  have htests : ∀ {n c : Int64} {slots : Array (Option Value)}, l.Counts slots n c →
      Steps chunk ⟨k, stack, slots⟩ ⟨k + 5, .boolean (c < n) :: stack, slots⟩ := fun hcount =>
    Statement.steps_loopTest hroom hcount htest.left
  intro times
  induction times with
  | zero =>
    intro n c σ slots hσ hcount htimes
    have hlt : ¬ c < n := by
      rw [Int64.lt_iff_toInt_lt]
      omega
    have htarget : k + 9 + size + 16 + 3 ≤ chunk.size := by omega
    have htested := htests hcount
    rw [decide_eq_false hlt] at htested
    refine .steps htested ?_
    refine .steps (steps_jumpIfFalse_of_false _ hjump (by push_cast; omega) htarget) ?_
    refine .steps (steps_pop hback.tail_jump) (.ok ⟨?_, rfl, hσ, fun _ _ _ => rfl⟩)
    show k + 9 + size + 16 + 3 + 1 = k + 29 + size
    omega
  | succ times ih =>
    intro n c σ slots hσ hcount htimes
    have hlt : c < n := by
      rw [Int64.lt_iff_toInt_lt]
      omega
    obtain ⟨c', hsucc, hc'⟩ := exact64?_succ hlt
    have htested := htests hcount
    rw [decide_eq_true hlt] at htested
    refine .steps htested ?_
    refine .steps (steps_jumpIfFalse_of_true hjump) ?_
    refine .steps (steps_pop hjump.tail_jump) ?_
    refine (hbody σ slots hσ).bind ?_
    rintro ⟨flow, σ'⟩ ⟨ip, _, slots'⟩ ⟨hip, rfl, hσ', hkept⟩
    have hkept' : ∀ j < l.length, F[j]? = some none → slots'[j]? = slots[j]? := fun j hj hnone =>
      hkept j (by omega) hnone
    cases flow with
    | abort =>
      cases hip
      exact .ok ⟨rfl, rfl, hσ', hkept'⟩
    | next =>
      simp only at hip
      subst hip
      -- the body has kept the count and the counter
      have hcount' : l.Counts slots' n c := by
        refine ⟨?_, ?_⟩
        · rw [hkept _ (by omega) (Layout.getElem?_bound hl), hcount.bound]
        · rw [hkept _ (by omega) (Layout.getElem?_counter hl), hcount.counter]
      refine .steps (Statement.steps_loopStep hroom hcount' hsucc hfoot.left) ?_
      refine .steps (steps_jump k hback (by push_cast; omega) (by omega)) ?_
      have hnext : l.Counts (slots'.setIfInBounds (l.length + 1) (some (.number c'))) n c' := by
        have hsize := hσ'.lt_size (Layout.getElem?_counter hl)
        refine ⟨?_, by simp [hsize]⟩
        rw [Array.getElem?_setIfInBounds_ne (by omega), hcount'.bound]
      refine Simulates.mono (ih (hσ'.hide (Layout.getElem?_counter hl) _) hnext (by omega)) ?_
      refine fun σ'' m hm => ⟨hm.ip, hm.stack, hm.laid, fun j hj hnone => ?_⟩
      rw [hm.kept j hj hnone, Array.getElem?_setIfInBounds_ne (by omega), hkept' j hj hnone]

end Loops

end BoundedLoop
