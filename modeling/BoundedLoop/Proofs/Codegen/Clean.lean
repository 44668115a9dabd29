import BoundedLoop.Compile
import BoundedLoop.Proofs.Codegen.Code
import BoundedLoop.Proofs.Syntax.Reading

/-!
# Compiling without problems

A compilation records problems and goes on. `CompileM.clean` is what it comes to if no problem is
found at all. No diagnostic is ever taken back (`Keeps`), so what is clean as a whole is clean step
by step (`clean_bind`), and trying a statement is then no more than compiling it (`clean_attempt`).

Reading a token, in a clean computation, is what the reader of trees does, and writing code appends
a fragment.
-/

namespace BoundedLoop.CompileM

variable {α β : Type}

/-- The draft that a computation leaves behind, whether it fails or not. -/
def leaves (m : CompileM α) (d : Draft) : Draft :=
  match m d with
  | .ok _ d' => d'
  | .error _ d' => d'

/-- A computation that takes no diagnostic back. -/
class Keeps (m : CompileM α) : Prop where
  keeps : ∀ d, d.diagnostics.toList <+: (m.leaves d).diagnostics.toList

/-- The result of a computation that neither fails nor records a diagnostic. -/
def clean (m : CompileM α) (d : Draft) : Option (α × Draft) :=
  match m d with
  | .ok a d' => if d'.diagnostics = d.diagnostics then some (a, d') else none
  | .error _ _ => none

/-! ### Diagnostics stay -/

theorem leaves_bind (m : CompileM α) (f : α → CompileM β) (d : Draft) :
    (m >>= f).leaves d =
      match m d with
      | .ok a d' => (f a).leaves d'
      | .error _ d' => d' := by
  show (match EStateM.bind m f d with | .ok _ d' => d' | .error _ d' => d') = _
  unfold EStateM.bind
  cases m d <;> rfl

instance keeps_pure (a : α) : Keeps (pure a) := ⟨fun _ => List.prefix_rfl⟩

instance keeps_bind (m : CompileM α) (f : α → CompileM β) [hm : Keeps m] [hf : ∀ a, Keeps (f a)] :
    Keeps (m >>= f) := by
  constructor
  intro d
  have h := hm.keeps d
  rw [leaves_bind]
  unfold leaves at h
  cases hrun : m d with
  | ok a d' =>
    rw [hrun] at h
    exact h.trans ((hf a).keeps d')
  | error e d' =>
    rw [hrun] at h
    exact h

instance keeps_get : Keeps (get : CompileM Draft) := ⟨fun _ => List.prefix_rfl⟩

instance keeps_fail (site : Site) (problem : Problem) : Keeps (fail site problem : CompileM α) :=
  ⟨fun _ => List.prefix_rfl⟩

instance keeps_ite (c : Prop) [Decidable c] (a b : CompileM α) [Keeps a] [Keeps b] :
    Keeps (if c then a else b) := by
  split <;> infer_instance

instance keeps_forM (f : β → CompileM PUnit) [∀ b, Keeps (f b)] : ∀ l : List β, Keeps (l.forM f)
  | [] => keeps_pure _
  | b :: l => by
    have := keeps_forM f l
    exact keeps_bind (f b) fun _ => l.forM f

theorem keeps_modify {f : Draft → Draft} (h : ∀ d, (f d).diagnostics = d.diagnostics) :
    Keeps (modify f : CompileM PUnit) :=
  ⟨fun d => by
    show d.diagnostics.toList <+: (f d).diagnostics.toList
    simp [h]⟩

theorem keeps_record (d : Draft) (found : Diagnostic) :
    d.diagnostics.toList <+: (d.record found).diagnostics.toList := by
  unfold Draft.record
  split
  · exact List.prefix_rfl
  · simp

theorem attempt_apply (s : CompileM Unit) (d : Draft) :
    attempt s d =
      match s d with
      | .ok a d' => .ok a d'
      | .error found d' => .ok () ((d'.record found).recover d.depth d.loops.length) := by
  have h : attempt s d = EStateM.tryCatch s (fun found => modify fun d' =>
      (d'.record found).recover d.depth d.loops.length) d := rfl
  rw [h]
  unfold EStateM.tryCatch
  cases s d <;> rfl

instance keeps_attempt (s : CompileM Unit) [hs : Keeps s] : Keeps (attempt s) := by
  constructor
  intro d
  have h := hs.keeps d
  simp only [leaves, attempt_apply] at h ⊢
  cases hrun : s d with
  | ok a d' =>
    rw [hrun] at h
    exact h
  | error found d' =>
    rw [hrun] at h
    exact h.trans (keeps_record d' found)

/-! ### The laws of clean computations -/

@[simp] theorem clean_pure (a : α) (d : Draft) : (pure a : CompileM α).clean d = some (a, d) := by
  show (if d.diagnostics = d.diagnostics then some (a, d) else none) = _
  rw [if_pos rfl]

theorem clean_bind (m : CompileM α) (f : α → CompileM β) [hm : Keeps m] [hf : ∀ a, Keeps (f a)]
    (d : Draft) : (m >>= f).clean d = (m.clean d).bind fun p => (f p.1).clean p.2 := by
  show (match EStateM.bind m f d with
    | .ok b d' => if d'.diagnostics = d.diagnostics then some (b, d') else none
    | .error _ _ => none) = _
  have hkeep := hm.keeps d
  simp only [EStateM.bind, clean, leaves] at hkeep ⊢
  cases hrun : m d with
  | error e d' => rfl
  | ok a d' =>
    simp only [hrun] at hkeep ⊢
    have hkeep' := (hf a).keeps d'
    simp only [leaves] at hkeep'
    by_cases hd : d'.diagnostics = d.diagnostics
    · simp only [hd, if_true, Option.bind_some]
    · -- a diagnostic recorded by `m` is still there behind `f a`
      simp only [hd, if_false, Option.bind_none]
      cases hrun' : f a d' with
      | error e d'' => rfl
      | ok b d'' =>
        simp only [hrun'] at hkeep' ⊢
        rw [if_neg]
        intro h
        rw [h] at hkeep'
        exact hd (Array.toList_inj.1 (hkeep'.eq_of_length
          (Nat.le_antisymm hkeep'.length_le hkeep.length_le)))

theorem clean_bind_of_eq_some {m : CompileM α} {a : α} {d d' : Draft} (h : m.clean d = some (a, d'))
    (f : α → CompileM β) : (m >>= f).clean d = (f a).clean d' := by
  unfold clean at h
  cases hrun : m d with
  | error e d' => simp [hrun] at h
  | ok a' d' =>
    simp only [hrun, Option.ite_none_right_eq_some, Option.some.injEq, Prod.mk.injEq] at h
    obtain ⟨hd, rfl, rfl⟩ := h
    show (match EStateM.bind m f d with
      | .ok b d' => if d'.diagnostics = d.diagnostics then some (b, d') else none
      | .error _ _ => none) = _
    simp only [EStateM.bind, hrun, clean, hd]

theorem clean_bind_of_error {m : CompileM α} {d : Draft} (h : ∃ found d', m d = .error found d')
    (f : α → CompileM β) : (m >>= f).clean d = none := by
  obtain ⟨found, d', h⟩ := h
  show (match EStateM.bind m f d with
    | .ok b d' => if d'.diagnostics = d.diagnostics then some (b, d') else none
    | .error _ _ => none) = _
  simp only [EStateM.bind, h]

@[simp] theorem clean_get_bind (f : Draft → CompileM β) (d : Draft) :
    (get >>= f).clean d = (f d).clean d := rfl

@[simp] theorem clean_get (d : Draft) : (get : CompileM Draft).clean d = some (d, d) := by
  show (if d.diagnostics = d.diagnostics then some (d, d) else none) = _
  rw [if_pos rfl]

@[simp] theorem clean_fail (site : Site) (problem : Problem) (d : Draft) :
    (fail site problem : CompileM α).clean d = none := rfl

theorem clean_modify {f : Draft → Draft} (h : ∀ d, (f d).diagnostics = d.diagnostics) (d : Draft) :
    (modify f : CompileM PUnit).clean d = some ((), f d) := by
  show (if (f d).diagnostics = d.diagnostics then some (PUnit.unit, f d) else none) = _
  rw [if_pos (h d)]

theorem clean_ite (c : Prop) [Decidable c] (a b : CompileM α) (d : Draft) :
    (if c then a else b).clean d = if c then a.clean d else b.clean d := by
  split <;> rfl

/-- As long as no problem was found, trying a statement is no more than compiling it. -/
theorem clean_attempt (s : CompileM Unit) {d : Draft} (hd : d.diagnostics = #[]) :
    (attempt s).clean d = s.clean d := by
  simp only [clean, attempt_apply]
  cases hrun : s d with
  | ok a d' => rfl
  | error found d' =>
    show (if (d'.record found).diagnostics = d.diagnostics then _ else none) = none
    rw [if_neg]
    rw [hd]
    unfold Draft.record
    split
    · rename_i h
      intro hempty
      simp [hempty] at h
    · simp

/-! ### Reading tokens -/

instance keeps_peek : Keeps peek := keeps_bind get fun d => pure d.next

instance keeps_advance : Keeps advance := keeps_modify fun _ => rfl

instance keeps_accept (kind : Token.Kind) : Keeps (accept kind) := by
  unfold accept; infer_instance

instance keeps_missing (wanted : Expectation) (token : Token) :
    Keeps (missing wanted token : CompileM α) := keeps_fail _ _

instance keeps_expect (kind : Token.Kind) (wanted : Expectation) : Keeps (expect kind wanted) := by
  unfold expect; infer_instance

@[simp] theorem clean_peek_bind (f : Token → CompileM β) (d : Draft) :
    (peek >>= f).clean d = (f d.next).clean d := rfl

@[simp] theorem clean_peek (d : Draft) : peek.clean d = some (d.next, d) := by
  show (if d.diagnostics = d.diagnostics then some (d.next, d) else none) = _
  rw [if_pos rfl]

@[simp] theorem clean_missing (wanted : Expectation) (token : Token) (d : Draft) :
    (missing wanted token : CompileM α).clean d = none := rfl

@[simp] theorem clean_advance (d : Draft) :
    advance.clean d = some ((), { d with ahead := d.ahead.tail }) :=
  @clean_modify (fun d => { d with ahead := d.ahead.tail }) (fun _ => rfl) d

theorem clean_expect (kind : Token.Kind) (hkind : kind ≠ .eof) (wanted : Expectation) {d : Draft}
    (hd : d.finish.kind = .eof) :
    (expect kind wanted).clean d =
      (Read.token kind d.ahead).map fun p => ((), { d with ahead := p.2 }) := by
  rw [expect, clean_peek_bind, clean_ite, clean_advance, clean_missing, Draft.next]
  cases d.ahead with
  | nil =>
    have hne : d.finish.kind ≠ kind := fun h => hkind (h.symm.trans hd)
    simp [Read.token, hne]
  | cons t ts =>
    by_cases ht : t.kind = kind <;> simp [Read.token, ht]

theorem clean_accept (kind : Token.Kind) (hkind : kind ≠ .eof) {d : Draft}
    (hd : d.finish.kind = .eof) :
    (accept kind).clean d =
      match Read.token kind d.ahead with
      | some (_, rest) => some (true, { d with ahead := rest })
      | none => some (false, d) := by
  rw [accept, clean_peek_bind, clean_ite, clean_bind, clean_advance, Option.bind_some, clean_pure,
    clean_pure, Draft.next]
  cases d.ahead with
  | nil =>
    have hne : d.finish.kind ≠ kind := fun h => hkind (h.symm.trans hd)
    simp [Read.token, hne]
  | cons t ts =>
    by_cases ht : t.kind = kind <;> simp [Read.token, ht]

/-! ### Writing code -/

instance keeps_emit (i : Instruction) (line : Nat) : Keeps (emit i line) :=
  keeps_modify fun _ => rfl

instance keeps_reserve (branch : Branch) (line : Nat) : Keeps (reserve branch line) := by
  have := @keeps_modify (fun d => { d with chunk := d.chunk.reserve branch line }) fun _ => rfl
  unfold reserve; infer_instance

instance keeps_patch (site : Site) (label : Chunk.Label) : Keeps (patch site label) := by
  unfold patch
  refine @keeps_bind _ _ _ _ _ fun d => ?_
  split
  · infer_instance
  · exact keeps_modify fun _ => rfl

instance keeps_jumpBack (site : Site) (target line : Nat) : Keeps (jumpBack site target line) := by
  unfold jumpBack
  refine @keeps_bind _ _ _ _ _ fun d => ?_
  split <;> infer_instance

@[simp] theorem clean_emit (i : Instruction) (line : Nat) (d : Draft) :
    (emit i line).clean d = some ((), { d with chunk := d.chunk.append [.op i line] }) := by
  rw [← Chunk.emit_eq_append]
  exact @clean_modify (fun d => { d with chunk := d.chunk.emit i line }) (fun _ => rfl) d

@[simp] theorem clean_reserve (branch : Branch) (line : Nat) (d : Draft) :
    (reserve branch line).clean d =
      some (⟨d.chunk.size + 1⟩, { d with chunk := d.chunk.append [.jump branch (-1) line] }) := by
  rw [← Chunk.reserve_eq_append]
  have := @keeps_modify (fun d => { d with chunk := d.chunk.reserve branch line }) fun _ => rfl
  rw [reserve, clean_get_bind, clean_bind,
    @clean_modify (fun d => { d with chunk := d.chunk.reserve branch line }) fun _ => rfl,
    Option.bind_some, clean_pure]
  rfl

theorem clean_emit_bind (i : Instruction) (line : Nat) (f : Unit → CompileM β) (d : Draft) :
    (emit i line >>= f).clean d = (f ()).clean { d with chunk := d.chunk.append [.op i line] } :=
  clean_bind_of_eq_some (clean_emit i line d) f

theorem clean_reserve_bind (branch : Branch) (line : Nat) (f : Chunk.Label → CompileM β)
    (d : Draft) :
    (reserve branch line >>= f).clean d =
      (f ⟨d.chunk.size + 1⟩).clean { d with chunk := d.chunk.append [.jump branch (-1) line] } :=
  clean_bind_of_eq_some (clean_reserve branch line d) f

theorem exactDistance_eq (distance : Int) :
    exactDistance distance =
      if FitsJump distance then .ok (Int16.ofInt distance) else .error ⟨Int64.ofInt distance⟩ := by
  have hmin : Int16.minValue.toInt = -32768 := by decide
  have hmax : Int16.maxValue.toInt = 32767 := by decide
  unfold exactDistance
  rw [hmin, hmax]
  by_cases h : FitsJump distance
  · exact (if_pos h).trans (if_pos h).symm
  · exact (if_neg h).trans (if_neg h).symm

/-- Patching the jump at the offset `k` leads it to the end of the code. -/
theorem clean_patch (site : Site) (k : Nat) (d : Draft) :
    (patch site ⟨k + 1⟩).clean d =
      if FitsJump (jumpDistance d.chunk.size k) then
        some ((), { d with chunk := d.chunk.land d.chunk.size [k] })
      else none := by
  have hreach : d.chunk.reach ⟨k + 1⟩ = exactDistance (jumpDistance d.chunk.size k) := rfl
  rw [patch, clean_get_bind, hreach, exactDistance_eq]
  by_cases h : FitsJump (jumpDistance d.chunk.size k)
  · simp only [if_pos h]
    let distance := Int16.ofInt (jumpDistance d.chunk.size k)
    exact @clean_modify (fun d => { d with chunk := d.chunk.setDistance ⟨k + 1⟩ distance })
      (fun _ => rfl) d
  · simp only [if_neg h, clean_fail]

/-- Patching a jump that was written before the code `b` leads it behind `b`. -/
theorem clean_patch_of_eq (site : Site) {d : Draft} {c : Chunk} {a b : Fragment} {branch : Branch}
    {line k : Nat} (hc : d.chunk = c.append (a ++ .jump branch (-1) line :: b))
    (hk : k = c.size + a.size) :
    (patch site ⟨k + 1⟩).clean d =
      if FitsJump b.size then
        some ((), { d with chunk := c.append (a ++ .jump branch b.size line :: b) })
      else none := by
  have hdist : jumpDistance d.chunk.size k = b.size := by
    rw [hc, hk]
    simp only [jumpDistance, Chunk.size_append, Fragment.size_append, Fragment.size_cons_jump]
    omega
  have hland := Chunk.land_singleton d.chunk.size k c a b branch (-1) line hk
  rw [← hc, hdist] at hland
  rw [clean_patch, hdist, hland]

theorem Chunk.size_land (stop : Nat) : ∀ (ks : List Nat) (c : Chunk), (c.land stop ks).size = c.size
  | [], _ => rfl
  | k :: ks, c => by
    rw [Chunk.land_cons, Chunk.size_land stop ks]
    simp [Chunk.land]

theorem clean_forM_patch (site : Site) : ∀ (ks : List Nat) (d : Draft),
    ((ks.map fun k => (⟨k + 1⟩ : Chunk.Label)).forM (patch site)).clean d =
      if ∀ k ∈ ks, FitsJump (jumpDistance d.chunk.size k) then
        some ((), { d with chunk := d.chunk.land d.chunk.size ks })
      else none
  | [], d => by
    rw [if_pos (by simp)]
    exact clean_pure () d
  | k :: ks, d => by
    show ((patch site ⟨k + 1⟩ >>= fun _ => List.forM _ (patch site)) : CompileM PUnit).clean d = _
    rw [clean_bind, clean_patch]
    by_cases h : FitsJump (jumpDistance d.chunk.size k)
    · rw [if_pos h, Option.bind_some, clean_forM_patch site ks]
      simp only [Chunk.size_land, List.forall_mem_cons, h, true_and, ← Chunk.land_cons]
    · rw [if_neg h, if_neg (by simp [h])]
      rfl

theorem clean_jumpBack (site : Site) (target line : Nat) (d : Draft) :
    (jumpBack site target line).clean d =
      if FitsJump (jumpDistance target d.chunk.size) then
        some ((), { d with
          chunk := d.chunk.append [.jump .always (jumpDistance target d.chunk.size) line] })
      else none := by
  have hdist : d.chunk.distanceTo target = exactDistance (jumpDistance target d.chunk.size) := rfl
  rw [jumpBack, clean_get_bind, hdist, exactDistance_eq]
  by_cases h : FitsJump (jumpDistance target d.chunk.size)
  · simp only [if_pos h, clean_emit]
    rfl
  · simp only [if_neg h, clean_fail]

/-! ### Slots -/

instance keeps_takeSlot (site : Site) : Keeps (takeSlot site) := by
  have := @keeps_modify (fun d => { d with chunk := d.chunk.takeSlot }) fun _ => rfl
  unfold takeSlot
  refine @keeps_bind _ _ _ _ _ fun d => ?_
  split <;> infer_instance

theorem clean_takeSlot (site : Site) (d : Draft) :
    (takeSlot site).clean d =
      if d.chunk.slotCount < Chunk.maxSlots then
        some (UInt8.ofNat d.chunk.slotCount,
          { d with chunk := { d.chunk with slotCount := d.chunk.slotCount + 1 } })
      else none := by
  have := @keeps_modify (fun d => { d with chunk := d.chunk.takeSlot }) fun _ => rfl
  rw [takeSlot, clean_get_bind, Chunk.freeSlot?]
  by_cases h : d.chunk.slotCount < Chunk.maxSlots
  · simp only [if_pos h]
    rw [clean_bind, @clean_modify (fun d => { d with chunk := d.chunk.takeSlot }) fun _ => rfl]
    simp [Chunk.takeSlot, h]
  · simp only [if_neg h, clean_fail]

end BoundedLoop.CompileM
