import BoundedLoop.Proofs.Codegen.Draft
import BoundedLoop.Proofs.Simulation.Increments
import BoundedLoop.Proofs.Simulation.Loop

/-!
# The code of a statement does what the statement means

Where the code of a statement stands in a chunk, a machine that comes there simulates the evaluation
of the statement (`Statement.simulates`, `Block.simulates`). It goes on behind the code, or leaves for
the end of the innermost loop.
-/

namespace BoundedLoop

open Machine

/-! ### Statements -/

section Statements

variable {chunk : Chunk} {F l : Layout} {blamed : Nat → Prop} {σ : Store}
  {slots : Array (Option Value)} {k line : Nat} {stack : List Value} {types : Types}

/-- What the slots have kept before and what they keep now. -/
theorem Behind.after {reserved reserved' next : Nat} {exit : Option Nat} {r : Flow × Store}
    {m : Machine} {slots' : Array (Option Value)}
    (h : Behind F reserved' next exit stack slots' r m) (hle : reserved ≤ reserved')
    (hkept : ∀ j < reserved, F[j]? = some none → slots'[j]? = slots[j]?) :
    Behind F reserved next exit stack slots r m := by
  refine ⟨h.ip, h.stack, h.laid, fun j hj hnone => ?_⟩
  rw [h.kept j (by omega) hnone, hkept j hj hnone]

/-- What a checked expression reads has the same slot all over the program. -/
theorem Expression.reads_declared {e : Expression} {ty : Ty} (hty : e.type? types = some ty)
    (hdecl : Declares l types) (hl : l <+: F) :
    ∀ name ∈ e.reads, some name ∈ F ∧ l.slot name = F.slot name := by
  intro name hname
  have hbelow : types.Below fun name => (types name).getD .number := by
    intro name ty h
    simp [h]
  obtain ⟨ty', hty'⟩ := Option.ne_none_iff_exists'.1
    (((Expression.type?_eq_some_iff hbelow).1 hty).1 name hname)
  have hmem := hdecl name ty' hty'
  exact ⟨hl.subset hmem, (Layout.slot_mono hl hmem).symm⟩

theorem Statement.simulates_assign {target arrow : Token} {name : String} {value : Expression}
    {leave : Nat → Int} {exit : Option Nat} {ty : Ty} (hF : F.length ≤ Chunk.maxSlots)
    (hty : value.type? types = some ty) (hdecl : Declares l types) (hl : l.add name <+: F)
    (hold : chunk.Holds k ((Statement.assign target name arrow value).code l leave k))
    (hσ : F.Laid σ slots) (hblame : Blames blamed k value.size []) :
    Simulates chunk F blamed (Behind F l.length (k + value.size + 3) exit stack slots)
      ⟨k, stack, slots⟩ ((Statement.assign target name arrow value).eval σ) := by
  have hreads := Expression.reads_declared hty (hdecl.mono (l.prefix_add name)) hl
  have hname := hl.subset (l.mem_add_self name)
  have hslot := Layout.toNat_slot hname hF
  simp only [Statement.code] at hold
  have hstore := hold.right
  rw [value.size_code, ← Layout.slot_mono hl (l.mem_add_self name)] at hstore
  refine (Expression.simulates hF hσ stack hreads hold.left fun o h₁ h₂ =>
    hblame o h₁ (by rwa [value.size_code] at h₂) List.not_mem_nil).bind ?_
  rintro v m rfl
  rw [value.size_code]
  have hlt : (F.slot name).toNat < slots.size := by
    rw [hslot]
    exact hσ.lt_size (Layout.getElem?_index hname)
  refine .steps (steps_store hlt hstore) (.steps (steps_pop hstore.tail) ?_)
  rw [hslot]
  refine .ok ⟨rfl, rfl, hσ.assign hname v, fun j _ hnone => ?_⟩
  refine Array.getElem?_setIfInBounds_ne ?_
  rintro rfl
  rw [Layout.getElem?_index hname] at hnone
  cases hnone

/-- What is known about the place of a statement: the layout and the types in front of it, and where
its aborts lead. -/
structure Place (chunk : Chunk) (F l : Layout) (types : Types) (leave : Nat → Int)
    (exit : Option Nat) : Prop where
  room : F.length ≤ Chunk.maxSlots
  declared : Declares l types
  leave : ∀ stop, exit = some stop → leave = jumpDistance stop ∧ stop ≤ chunk.size

theorem Place.arm {leave : Nat → Int} {exit : Option Nat} {body : List Statement} {types' : Types}
    (h : Place chunk F l types leave exit) (hcheck : Block.check types body = some types') :
    Place chunk F (Block.layout l body) types' leave exit :=
  ⟨h.room, Block.declares_check body h.declared hcheck, h.leave⟩

theorem Place.next {leave : Nat → Int} {exit : Option Nat} {s : Statement} {types' : Types}
    (h : Place chunk F l types leave exit) (hcheck : s.check types = some types') :
    Place chunk F (s.layout l) types' leave exit :=
  ⟨h.room, s.declares_check h.declared hcheck, h.leave⟩

/-- From the place of a statement the machine simulates its evaluation. -/
def Runs (chunk : Chunk) (F l : Layout) (blamed : Nat → Prop) (exit : Option Nat) (k size : Nat)
    (eval : Store → Except Failure (Flow × Store)) : Prop :=
  ∀ (stack : List Value) (σ : Store) (slots : Array (Option Value)), F.Laid σ slots →
    Simulates chunk F blamed (Behind F l.length (k + size) exit stack slots) ⟨k, stack, slots⟩
      (eval σ)

theorem Arms.holds_body {condition body : Fragment} {leaves : Int}
    (h : chunk.Holds k (Arms.armCode line condition body leaves)) :
    chunk.Holds (k + condition.size + 4) body :=
  h.left.right.tail_jump.tail

/-- An arm runs its body and leaves for the end of the `IF`, or goes on with what comes next. -/
theorem Arms.runs_arm {l' : Layout} {condition : Expression} {body : Fragment} {leave : Nat → Int}
    {leaves : Int} {exit : Option Nat} {b size : Nat} {ty : Ty}
    {eval eval' : Store → Except Failure (Flow × Store)} (hplace : Place chunk F l types leave exit)
    (hty : condition.type? types = some ty) (hl : l <+: F) (hl' : l <+: l') (hb : body.size = b)
    (hold : chunk.Holds k (Arms.armCode line (condition.code l.slot) body leaves))
    (hleaves : leaves = jumpDistance (k + (condition.size + b + size + 8))
      (k + condition.size + b + 4))
    (hfinish : k + (condition.size + b + size + 8) ≤ chunk.size)
    (hblame : Blames blamed k condition.size [])
    (hrun : Runs chunk F l blamed exit (k + condition.size + 4) b eval)
    (hrest : Runs chunk F l' blamed exit (k + condition.size + b + 8) size eval') :
    Runs chunk F l blamed exit k (condition.size + b + size + 8) (fun σ => do
      let b ← (← condition.eval σ).truth
      if b then eval σ else eval' σ) := by
  subst hb hleaves
  intro stack σ slots hσ
  have htest := hold.left.right
  have hleave := hold.right
  simp only [Fragment.size_append, Fragment.size_cons_jump, Fragment.size_cons_op,
    Instruction.size_pop, condition.size_code] at htest hleave
  have hreads := Expression.reads_declared hty hplace.declared hl
  refine (Expression.simulates hplace.room hσ stack hreads hold.left.left fun o h₁ h₂ =>
    hblame o h₁ (by rwa [condition.size_code] at h₂) List.not_mem_nil).bind ?_
  rintro v m rfl
  rw [condition.size_code]
  rcases v with n | _ | _
  · exact .stuck
  · -- the jump leads to the last instruction of the arm, which drops the condition
    have htarget : k + (condition.size + (3 + (1 + body.size))) + 3 ≤ chunk.size := by omega
    refine .steps (steps_jumpIfFalse_of_false _ htest (by push_cast; omega) htarget) ?_
    refine .steps (steps_pop hleave.tail_jump) ?_
    have hnext : k + (condition.size + (3 + (1 + body.size))) + 3 + 1 =
        k + condition.size + body.size + 8 := by omega
    have hend : k + condition.size + body.size + 8 + size =
        k + (condition.size + body.size + size + 8) := by omega
    have h := hrest stack σ slots hσ
    rw [hend] at h
    rw [hnext]
    exact h.mono fun r m hm => hm.after hl'.length_le fun _ _ _ => rfl
  · refine .steps (steps_jumpIfFalse_of_true htest) ?_
    refine .steps (steps_pop htest.tail_jump) ?_
    rw [← bind_pure (eval σ)]
    refine (hrun stack σ slots hσ).bind ?_
    rintro ⟨flow, σ'⟩ ⟨ip, stack', slots'⟩ ⟨hip, hstack, hσ', hkept⟩
    cases flow with
    | abort => exact .ok ⟨hip, hstack, hσ', hkept⟩
    | next =>
      have hat : ip = k + (condition.size + (3 + (1 + body.size))) := by
        simp only at hip
        omega
      subst hat
      refine .steps (steps_jump _ hleave ?_ hfinish) (.ok ⟨rfl, hstack, hσ', hkept⟩)
      simp only [jumpDistance]
      push_cast
      omega

theorem Blames.arm {c b size : Nat} {js js' : List Nat}
    (h : Blames blamed k (c + b + size + 8) (js ++ js'))
    (hjs : ∀ j ∈ js, k + c + 4 ≤ j ∧ j < k + c + 4 + b)
    (hjs' : ∀ j ∈ js', k + c + b + 8 ≤ j ∧ j < k + c + b + 8 + size) :
    Blames blamed k c [] ∧ Blames blamed (k + c + 4) b js ∧ Blames blamed (k + c + b + 8) size js' := by
  refine ⟨h.sub (by omega) (by omega) fun j hj hlt hge => ?_,
    h.sub (by omega) (by omega) fun j hj hlt hge => ?_,
    h.sub (by omega) (by omega) fun j hj hlt hge => ?_⟩
  all_goals rcases List.mem_append.1 hj with hj | hj
  · have := hjs j hj
    omega
  · have := hjs' j hj
    omega
  · exact hj
  · have := hjs' j hj
    omega
  · have := hjs j hj
    omega
  · exact hj

/-- A loop stores its count and a counter, and then repeats its body. -/
theorem Statement.runs_loop {keyword times closer : Token} {count : Expression}
    {body : List Statement} {leave : Nat → Int} {exit : Option Nat} {ty : Ty}
    (hplace : Place chunk F l types leave exit) (hty : count.type? types = some ty)
    (hl : l.addLoop <+: F)
    (hold : chunk.Holds k ((Statement.loop keyword count times body closer).code l leave k))
    (hblame : Blames blamed k count.size [])
    (hbody : Runs chunk F l.addLoop blamed (some (k + count.size + Block.size body + 45))
      (k + count.size + 25) (Block.size body) fun σ => Block.eval σ body) :
    Runs chunk F l blamed exit k (count.size + Block.size body + 45)
      (Statement.loop keyword count times body closer).eval := by
  intro stack σ slots hσ
  have hhead := hold.left.left.right
  have hfoot := hold.right
  have hend : k + count.size + 16 + 29 + Block.size body = k + count.size + Block.size body + 45 := by
    omega
  simp only [Fragment.size_append, count.size_code, Statement.size_loopHead, Block.size_code body,
    ← Nat.add_assoc] at hhead hfoot
  rw [Statement.loopHead, List.append_assoc] at hhead
  have htest := hhead.right
  rw [Statement.size_loopInit] at htest
  have hreads := Expression.reads_declared hty hplace.declared (l.prefix_addLoop.trans hl)
  refine (Expression.simulates hplace.room hσ stack hreads hold.left.left.left fun o h₁ h₂ =>
    hblame o h₁ (by rwa [count.size_code] at h₂) List.not_mem_nil).bind ?_
  rintro v m rfl
  rw [count.size_code]
  cases v with
  | boolean b => exact .stuck
  | number n =>
    have hbound := Layout.getElem?_bound hl
    have hcounter := Layout.getElem?_counter hl
    have hlt := hσ.lt_size hcounter
    have hroom : l.addLoop.length ≤ Chunk.maxSlots := Nat.le_trans hl.length_le hplace.room
    refine .steps (Statement.steps_loopInit hroom hlt n hhead.left) ?_
    have hσ' := (hσ.hide hbound (.number n)).hide hcounter (.number 0)
    have hcount : l.Counts ((slots.setIfInBounds l.length (some (.number n))).setIfInBounds
        (l.length + 1) (some (.number 0))) n 0 := by
      refine ⟨?_, by simp [hlt]⟩
      rw [Array.getElem?_setIfInBounds_ne (by omega), Array.getElem?_setIfInBounds_self_of_lt]
      omega
    have htimes : (n.toInt - (0 : Int64).toInt).toNat = n.toInt.toNat := by
      rw [Int64.toInt_zero, Int.sub_zero]
    refine (simulates_iterate hplace.room hl htest hfoot (fun σ slots hσ => ?_) n.toInt.toNat
      hσ' hcount htimes).bind ?_
    · have hrun := hbody stack σ slots hσ
      rw [Layout.length_addLoop] at hrun
      rw [hend]
      exact hrun
    · rintro σ' m hm
      rw [hend, Nat.add_assoc, Nat.add_assoc, ← Nat.add_assoc count.size] at hm
      refine .ok ⟨hm.ip, hm.stack, hm.laid, fun j hj hnone => ?_⟩
      rw [hm.kept j hj hnone, Array.getElem?_setIfInBounds_ne (by omega),
        Array.getElem?_setIfInBounds_ne (by omega)]

mutual

theorem Statement.simulates : ∀ (s : Statement) {l : Layout} {types types' : Types}
    {leave : Nat → Int} {exit : Option Nat} {k : Nat}, Place chunk F l types leave exit →
    s.Grammatical exit.isSome → s.check types = some types' → s.layout l <+: F →
    chunk.Holds k (s.code l leave k) → Blames blamed k s.size (s.increments k) →
    Runs chunk F l blamed exit k s.size s.eval
  | .assign target name arrow value, l, types, types', leave, exit, k, hplace, _, hcheck, hl, hold,
      hblame => by
    intro stack σ slots hσ
    simp only [Statement.check, Option.bind_eq_bind, Option.bind_eq_some_iff] at hcheck
    obtain ⟨ty, hty, -⟩ := hcheck
    exact Statement.simulates_assign hplace.room hty hplace.declared hl hold hσ
      (hblame.sub (Nat.le_refl k) (by simp [Statement.size]) (by simp [Statement.increments]))
  | .choice arms closer, l, types, types', leave, exit, k, hplace, hgram, hcheck, hl, hold,
      hblame => by
    have hend := hold.size_le
    rw [Statement.size_code] at hend
    exact arms.simulates hplace hgram.1 hcheck hl hold hend hblame
  | .loop keyword count times body closer, l, types, types', leave, exit, k, hplace, hgram, hcheck,
      hl, hold, hblame => by
    rw [Statement.check_loop, Option.ite_none_right_eq_some] at hcheck
    have hl₁ := (Block.prefix_layout body l.addLoop).trans hl
    have hbody := hold.left.right
    have hend := hold.size_le
    simp only [Fragment.size_append, count.size_code, Statement.size_loopHead, Statement.size_code,
      Statement.size, ← Nat.add_assoc] at hbody hend
    have hplace' : Place chunk F l.addLoop types
        (jumpDistance (k + count.size + Block.size body + 45))
        (some (k + count.size + Block.size body + 45)) := by
      refine ⟨hplace.room, hplace.declared.mono l.prefix_addLoop, ?_⟩
      rintro stop ⟨⟩
      exact ⟨rfl, hend⟩
    refine Statement.runs_loop hplace hcheck.1 hl₁ hold ?_
      (Block.simulates body hplace' hgram.2.2.2.1 hcheck.2 hl hbody ?_)
    · refine hblame.sub (Nat.le_refl k) (by simp only [Statement.size]; omega) fun j hj hlt _ => ?_
      rcases List.mem_cons.1 hj with rfl | hj
      · omega
      · have := Block.increments_bounds body _ j hj
        omega
    · refine hblame.sub (by omega) (by simp only [Statement.size]; omega) fun j hj hlt _ => ?_
      rcases List.mem_cons.1 hj with rfl | hj
      · omega
      · exact hj
  | .abort token, l, types, types', leave, exit, k, hplace, hgram, hcheck, hl, hold, hblame => by
    intro stack σ slots hσ
    obtain ⟨stop, rfl⟩ := Option.isSome_iff_exists.1 hgram.1
    obtain ⟨rfl, hstop⟩ := hplace.leave stop rfl
    refine .steps (steps_jump stop hold ?_ hstop) (.ok ⟨rfl, rfl, hσ, fun _ _ _ => rfl⟩)
    simp only [jumpDistance]
    omega

theorem Arms.simulates : ∀ (a : Arms) {l : Layout} {types types' : Types}
    {leave : Nat → Int} {exit : Option Nat} {k : Nat}, Place chunk F l types leave exit →
    a.Grammatical exit.isSome → a.check types = some types' → a.layout l <+: F →
    chunk.Holds k (a.code l leave (jumpDistance (k + a.size)) k) → k + a.size ≤ chunk.size →
    Blames blamed k a.size (a.increments k) →
    Runs chunk F l blamed exit k a.size a.eval
  | .last keyword condition thenWord body elseWord alternative, l, types, types', leave, exit, k,
      hplace, hgram, hcheck, hl, hold, hle, hblame => by
    rw [Arms.check_last, Option.bind_eq_some_iff] at hcheck
    obtain ⟨types₁, harm, halt⟩ := hcheck
    simp only [Arms.armCheck, Option.ite_none_right_eq_some] at harm
    obtain ⟨hty, hcheck⟩ := harm
    have hl₁ := (Block.prefix_layout alternative (Block.layout l body)).trans hl
    have hsize := Block.size_code body l leave (k + condition.size + 4)
    have hbody := Arms.holds_body hold.left
    have hcode := hold.right
    simp only [Arms.size_armCode, condition.size_code, hsize, ← Nat.add_assoc] at hbody hcode
    obtain ⟨hblame₀, hblame₁, hblame₂⟩ := Blames.arm hblame
      (Block.increments_bounds body _) (Block.increments_bounds alternative _)
    exact Arms.runs_arm hplace hty ((Block.prefix_layout body l).trans hl₁)
      (Block.prefix_layout body l) hsize hold.left rfl hle hblame₀
      (Block.simulates body hplace hgram.2.2.2.1 hcheck hl₁ hbody hblame₁)
      (Block.simulates alternative (hplace.arm hcheck) hgram.2.2.2.2.1 halt hl hcode hblame₂)
  | .elseIf keyword condition thenWord body elseWord rest, l, types, types', leave, exit, k,
      hplace, hgram, hcheck, hl, hold, hle, hblame => by
    rw [Arms.check_elseIf, Option.bind_eq_some_iff] at hcheck
    obtain ⟨types₁, harm, hrest⟩ := hcheck
    simp only [Arms.armCheck, Option.ite_none_right_eq_some] at harm
    obtain ⟨hty, hcheck⟩ := harm
    have hl₁ := (rest.prefix_layout (Block.layout l body)).trans hl
    have hsize := Block.size_code body l leave (k + condition.size + 4)
    have hbody := Arms.holds_body hold.left
    have hcode := hold.right
    -- the whole chain ends where the rest of it does
    have hend : k + (Arms.elseIf keyword condition thenWord body elseWord rest).size =
        k + condition.size + Block.size body + 8 + rest.size := by
      simp only [Arms.size]
      omega
    simp only [Arms.size_armCode, condition.size_code, hsize, ← Nat.add_assoc, hend] at hbody hcode
    obtain ⟨hblame₀, hblame₁, hblame₂⟩ := Blames.arm hblame
      (Block.increments_bounds body _) (rest.increments_bounds _)
    exact Arms.runs_arm hplace hty ((Block.prefix_layout body l).trans hl₁)
      (Block.prefix_layout body l) hsize hold.left rfl hle hblame₀
      (Block.simulates body hplace hgram.2.2.2.1 hcheck hl₁ hbody hblame₁)
      (rest.simulates (hplace.arm hcheck) hgram.2.2.2.2.2 hrest hl hcode (by omega) hblame₂)

theorem Block.simulates : ∀ (ss : List Statement) {l : Layout} {types types' : Types}
    {leave : Nat → Int} {exit : Option Nat} {k : Nat}, Place chunk F l types leave exit →
    Block.Grammatical exit.isSome ss → Block.check types ss = some types' →
    Block.layout l ss <+: F → chunk.Holds k (Block.code l leave k ss) →
    Blames blamed k (Block.size ss) (Block.increments k ss) →
    Runs chunk F l blamed exit k (Block.size ss) fun σ => Block.eval σ ss
  | [], l, types, types', leave, exit, k, hplace, hgram, hcheck, hl, hold, hblame => by
    intro stack σ slots hσ
    exact .ok ⟨rfl, rfl, hσ, fun _ _ _ => rfl⟩
  | s :: ss, l, types, types', leave, exit, k, hplace, hgram, hcheck, hl, hold, hblame => by
    intro stack σ slots hσ
    simp only [Block.check, Option.bind_eq_bind, Option.bind_eq_some_iff] at hcheck
    obtain ⟨types₁, hs, hss⟩ := hcheck
    have hl₁ := (Block.prefix_layout ss (s.layout l)).trans hl
    have hplace₁ := hplace.next hs
    have hcode := hold.right
    rw [s.size_code] at hcode
    refine (s.simulates hplace hgram.1 hs hl₁ hold.left ?_ stack σ slots hσ).bind ?_
    · refine hblame.sub (Nat.le_refl k) (by simp only [Block.size]; omega) fun j hj hlt _ => ?_
      rcases List.mem_append.1 hj with hj | hj
      · exact hj
      · have := Block.increments_bounds ss _ j hj
        omega
    rintro ⟨flow, σ'⟩ ⟨ip, stack, slots'⟩ ⟨hip, rfl, hσ', hkept⟩
    cases flow with
    | abort => exact .ok ⟨hip, rfl, hσ', hkept⟩
    | next =>
      simp only at hip
      subst hip
      have hrun := Block.simulates ss hplace₁ hgram.2 hss hl hcode ?_ stack σ' slots' hσ'
      · rw [Nat.add_assoc] at hrun
        exact hrun.mono fun r m hm => hm.after (s.prefix_layout l).length_le hkept
      · refine hblame.sub (by omega) (by simp only [Block.size]; omega) fun j hj _ hge => ?_
        rcases List.mem_append.1 hj with hj | hj
        · have := s.increments_bounds k j hj
          omega
        · exact hj

end

end Statements

end BoundedLoop
