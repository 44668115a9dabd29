import BoundedLoop.Proofs.Bookkeeping.Changes
import BoundedLoop.Proofs.Progress.Rounds

/-!
# Compiling is a sequence of changes

Whatever is compiled, and whether it fails or not, the draft is changed step by step as `Draft.Edit`
allows (`CompileM.Edits`). Expressions change neither slots nor names, so this is about statements:
assignments declare a name and give it a type, loops take two slots, and recovering from a failure gives
nothing back.

`CompileM.leads_of_loopSlots` and `CompileM.leads_loopStatement` follow the slots of a loop, and
`CompileM.slotOf?_of_assignedValue` says that a name is declared before it is given a type.
-/

namespace BoundedLoop

namespace CompileM

open Draft

variable {α β : Type} {m : CompileM α}

/-- Whether it fails or not, the computation is a sequence of changes to the draft. -/
def Edits (m : CompileM α) : Prop :=
  ∀ ledger d, ∃ more, Leads (ledger, d) (more ++ ledger, m.leaves d)

theorem Edits.of_edit (h : ∀ ledger d, Edit (ledger, d) (ledger, m.leaves d)) : Edits m :=
  fun ledger d => ⟨[], .single (h ledger d)⟩

theorem edits_of_readsOn [hm : ReadsOn m] : Edits m := by
  refine .of_edit ?_
  intro ledger d
  have h := hm.reads d
  exact .other h.slots h.scope

/-- A change that has nothing to do with slots and names. -/
theorem edits_modify {g : Draft → Draft}
    (h : ∀ d, (g d).chunk.slotCount = d.chunk.slotCount ∧ (g d).scope = d.scope) :
    Edits (modify g : CompileM PUnit) := by
  refine .of_edit ?_
  intro ledger d
  obtain ⟨hslots, hscope⟩ := h d
  exact .other hslots hscope

theorem Edits.bind {f : α → CompileM β} (hm : Edits m) (hf : ∀ a, Edits (f a)) :
    Edits (m >>= f) := by
  intro ledger d
  obtain ⟨more, hleads⟩ := hm ledger d
  rw [leaves_bind]
  unfold leaves at hleads
  cases hrun : m d with
  | error e d' =>
    rw [hrun] at hleads
    exact ⟨more, hleads⟩
  | ok a d' =>
    rw [hrun] at hleads
    obtain ⟨more', hleads'⟩ := hf a (more ++ ledger) d'
    refine ⟨more' ++ more, ?_⟩
    rw [List.append_assoc]
    exact hleads.trans hleads'

theorem Edits.ite {c : Prop} [Decidable c] {m' : CompileM α} (hm : Edits m) (hm' : Edits m') :
    Edits (if c then m else m') := by
  split
  · exact hm
  · exact hm'

/-- Recovering from a failure touches neither slots nor names. -/
theorem Edits.attempt {s : CompileM Unit} (hs : Edits s) : Edits (CompileM.attempt s) := by
  intro ledger d
  obtain ⟨more, hleads⟩ := hs ledger d
  refine ⟨more, ?_⟩
  unfold leaves at hleads ⊢
  rw [attempt_apply]
  cases hrun : s d with
  | ok a d' =>
    rw [hrun] at hleads
    exact hleads
  | error e d' =>
    rw [hrun] at hleads
    refine hleads.tail (.other ?_ ?_)
    · show (d'.record e).chunk.slotCount = _
      rw [record_eq]
    · show (d'.record e).scope = _
      rw [record_eq]

/-- Takes a slot for the bound of a loop and one for its counter. -/
def takeSlots (site : Site) : CompileM (UInt8 × UInt8) := do
  let bound ← takeSlot site
  let counter ← takeSlot site
  return (bound, counter)

theorem edits_takeSlots (site : Site) : Edits (takeSlots site) := by
  intro ledger d
  unfold takeSlots
  rw [leaves_bind]
  rcases hbound : takeSlot site d with ⟨bound, d₁⟩ | ⟨e, d₁⟩
  · dsimp only
    rw [leaves_bind]
    rcases hcounter : takeSlot site d₁ with ⟨counter, d₂⟩ | ⟨e, d₂⟩
    · exact ⟨[⟨bound, some counter⟩], .single (.loop hbound hcounter)⟩
    · exact ⟨[⟨bound, none⟩], .single (.halfLoop hbound hcounter)⟩
  · obtain ⟨rfl, -⟩ := full_of_takeSlot hbound
    exact ⟨[], .refl⟩

theorem edits_targetSlot (site : Site) (name : String) : Edits (targetSlot site name) := by
  intro ledger d
  refine ⟨[], ?_⟩
  unfold leaves
  cases hrun : targetSlot site name d with
  | ok slot d' => exact .single (.declare hrun)
  | error e d' =>
    rw [targetSlot_apply] at hrun
    split at hrun
    · cases hrun
    · split at hrun
      · cases hrun
        exact .refl
      · cases hrun

theorem edits_assignType (site : Site) (name : String) (ty : Ty) :
    Edits (assignType site name ty) := by
  intro ledger d
  refine ⟨[], ?_⟩
  unfold leaves
  cases hrun : assignType site name ty d with
  | ok a d' => exact .single (.assign hrun)
  | error e d' =>
    rw [assignType_apply] at hrun
    split at hrun <;> cases hrun <;> exact .refl

/-! ### Statements -/

/-- Compiles an assignment up to its type, and gives its slot and the type. -/
def assignedValue (target : Token) (name : String) : CompileM (UInt8 × Ty) := do
  expect (.symbol .leftArrow) (.arrow name)
  let slot ← targetSlot target.toSite name
  let ty ← expression
  return (slot, ty)

theorem assignment_eq {target : Token} {name : String} (h : target.variableName? = some name) :
    assignment target = (do
      let (slot, ty) ← assignedValue target name
      assignType target.toSite name ty
      emit (.store slot) target.line
      emit .pop target.line) := by
  simp only [assignment, h, assignedValue, bind_assoc, pure_bind]

theorem edits_assignedValue (target : Token) (name : String) :
    Edits (assignedValue target name) := by
  refine edits_of_readsOn.bind fun _ => (edits_targetSlot _ _).bind fun slot => ?_
  exact edits_of_readsOn

theorem edits_assignment (target : Token) : Edits (assignment target) := by
  cases hname : target.variableName? with
  | none =>
    rw [show assignment target = fail target.toSite (.notAssignable target.text) by
      simp only [assignment, hname]]
    exact edits_of_readsOn
  | some name =>
    rw [assignment_eq hname]
    refine (edits_assignedValue target name).bind fun p => ?_
    exact (edits_assignType _ _ _).bind fun _ => edits_of_readsOn

section Blocks

variable {block : CompileM Unit} {bound : Nat}

theorem edits_branches (hblock : Edits block) (bound : Nat) (keyword : Token) :
    Edits (branches block bound keyword) := by
  induction bound generalizing keyword with
  | zero => exact edits_of_readsOn (m := pure [])
  | succ bound ih =>
    rw [branches_succ]
    refine edits_of_readsOn.bind fun skip => hblock.bind fun _ => ?_
    refine edits_of_readsOn.bind fun exit => edits_of_readsOn.bind fun other => ?_
    refine .ite (edits_of_readsOn.bind fun follower => edits_of_readsOn.bind fun again => ?_)
      edits_of_readsOn
    refine .ite ?_ (hblock.bind fun _ => edits_of_readsOn)
    exact (ih follower).bind fun _ => edits_of_readsOn

theorem edits_openStatement : Edits openStatement := edits_modify fun _ => ⟨rfl, rfl⟩

theorem edits_closeStatement : Edits closeStatement := edits_modify fun _ => ⟨rfl, rfl⟩

theorem edits_ifStatement (hblock : Edits block) (keyword : Token) :
    Edits (ifStatement block bound keyword) := by
  refine edits_openStatement.bind fun _ => ?_
  refine (edits_branches hblock bound keyword).bind fun exits => edits_of_readsOn.bind fun _ => ?_
  exact edits_closeStatement.bind fun _ => edits_of_readsOn

theorem edits_enterLoop : Edits enterLoop := edits_modify fun _ => ⟨rfl, rfl⟩

theorem edits_leaveLoop : Edits leaveLoop := by
  refine edits_of_readsOn.bind fun d => ?_
  exact .bind (edits_modify fun _ => ⟨rfl, rfl⟩) fun _ => edits_of_readsOn

theorem edits_noteAbort (label : Chunk.Label) : Edits (noteAbort label) :=
  edits_modify fun _ => ⟨rfl, rfl⟩

/-- Compiles the start of a loop whose slots have been taken, and gives its test and the jump behind
it. -/
def loopHead (keyword : Token) (bound counter : UInt8) : CompileM (Nat × Chunk.Label) := do
  emit (.store bound) keyword.line
  emit .pop keyword.line
  emit (.push (.number 0)) keyword.line
  emit (.store counter) keyword.line
  emit .pop keyword.line
  let test := (← get).chunk.size
  emit (.load counter) keyword.line
  emit (.load bound) keyword.line
  emit .less keyword.line
  let exit ← reserve .ifFalse keyword.line
  emit .pop keyword.line
  return (test, exit)

instance readsOn_loopHead (keyword : Token) (bound counter : UInt8) :
    ReadsOn (loopHead keyword bound counter) := by
  unfold loopHead
  repeat' first | infer_instance | refine @readsOn_bind _ _ _ _ ?_ fun _ => ?_

/-- Compiles a `LOOP` up to where it has its slots, and gives those of its bound and its counter. -/
def loopSlots (keyword : Token) : CompileM (UInt8 × UInt8) := do
  openStatement
  loopBound
  takeSlots keyword.toSite

/-- Compiles the rest of a loop that has its slots. -/
def loopCode (block : CompileM Unit) (keyword : Token) (bound counter : UInt8) : CompileM Unit := do
  let ends ← loopHead keyword bound counter
  enterLoop
  block
  let closer ← peek
  expect (.keyword .endLoop) .endLoop
  closeStatement
  closeLoop keyword closer (counter, ends)
  let aborts ← leaveLoop
  aborts.forM (patch keyword.toSite)

theorem loopStatement_eq_loopSlots (block : CompileM Unit) (keyword : Token) :
    loopStatement block keyword = (do
      let (bound, counter) ← loopSlots keyword
      loopCode block keyword bound counter) := by
  simp only [loopStatement, loopSlots, takeSlots, loopCode, loopHead, closeLoop, bind_assoc, pure_bind]

theorem edits_loopCode (hblock : Edits block) (keyword : Token) (bound counter : UInt8) :
    Edits (loopCode block keyword bound counter) := by
  refine edits_of_readsOn.bind fun ends => edits_enterLoop.bind fun _ => hblock.bind fun _ => ?_
  refine edits_of_readsOn.bind fun closer => edits_of_readsOn.bind fun _ => ?_
  refine edits_closeStatement.bind fun _ => edits_of_readsOn.bind fun _ => ?_
  exact edits_leaveLoop.bind fun aborts => edits_of_readsOn

theorem edits_loopStatement (hblock : Edits block) (keyword : Token) :
    Edits (loopStatement block keyword) := by
  rw [loopStatement_eq_loopSlots]
  refine .bind ?_ fun slots => edits_loopCode hblock keyword slots.1 slots.2
  exact edits_openStatement.bind fun _ => edits_of_readsOn.bind fun _ => edits_takeSlots _

theorem edits_abortLoop (token : Token) : Edits (abortLoop token) := by
  refine edits_of_readsOn.bind fun d => .ite edits_of_readsOn ?_
  exact edits_of_readsOn.bind fun _ => edits_of_readsOn.bind edits_noteAbort

theorem edits_statement (hblock : Edits block) : Edits (statement block bound) := by
  refine edits_of_readsOn.bind fun token => ?_
  split
  case h_1 | h_2 => exact edits_of_readsOn.bind fun _ => edits_assignment token
  case h_3 => exact edits_of_readsOn.bind fun _ => edits_ifStatement hblock token
  case h_4 => exact edits_of_readsOn.bind fun _ => edits_loopStatement hblock token
  case h_5 => exact edits_abortLoop token
  case h_6 | h_7 => exact edits_of_readsOn

end Blocks

theorem edits_block (bound : Nat) : Edits (block bound) := by
  induction bound with
  | zero => exact edits_of_readsOn (m := pure ())
  | succ bound ih =>
    refine edits_of_readsOn.bind fun token => .ite edits_of_readsOn (.ite edits_of_readsOn ?_)
    exact (edits_statement ih).attempt.bind fun _ => ih

theorem edits_program (bound : Nat) : Edits (program bound) := by
  induction bound with
  | zero => exact edits_of_readsOn (m := pure ())
  | succ bound ih =>
    refine edits_of_readsOn.bind fun token => .ite edits_of_readsOn ?_
    exact (edits_statement (edits_block bound)).attempt.bind fun _ => ih

/-! ### Slots of loops and types of names -/

variable {d d' d'' : Draft}

theorem exists_of_bind_eq_ok {f : α → CompileM β} {b : β} (h : (m >>= f) d = .ok b d'') :
    ∃ a d', m d = .ok a d' ∧ f a d' = .ok b d'' := by
  change EStateM.bind m f d = _ at h
  unfold EStateM.bind at h
  cases hrun : m d with
  | error e d' =>
    rw [hrun] at h
    cases h
  | ok a d' =>
    rw [hrun] at h
    exact ⟨a, d', rfl, h⟩

theorem leads_of_loopSlots {keyword : Token} {bound counter : UInt8}
    (h : loopSlots keyword d = .ok (bound, counter) d') (ledger : List LoopSlots) :
    Leads (ledger, d) (⟨bound, some counter⟩ :: ledger, d') := by
  obtain ⟨_, d₁, hopen, h⟩ := exists_of_bind_eq_ok h
  obtain ⟨_, d₂, htimes, h⟩ := exists_of_bind_eq_ok h
  obtain ⟨_, d₃, hbound, h⟩ := exists_of_bind_eq_ok h
  obtain ⟨_, d₄, hcounter, h⟩ := exists_of_bind_eq_ok h
  cases h
  cases hopen
  have hreads : Draft.ReadsOn _ d₂ := ReadsOn.of_eq_ok htimes
  exact .head (.other hreads.slots hreads.scope) (.single (.loop hbound hcounter))

/-- Once a loop has its slots, they stay in the ledger, whatever becomes of the loop. -/
theorem leads_loopStatement {block : CompileM Unit} (hblock : Edits block) {keyword : Token}
    {bound counter : UInt8} (h : loopSlots keyword d = .ok (bound, counter) d')
    (ledger : List LoopSlots) :
    ∃ more, Leads (⟨bound, some counter⟩ :: ledger, d')
      (more ++ ⟨bound, some counter⟩ :: ledger, (loopStatement block keyword).leaves d) := by
  rw [loopStatement_eq_loopSlots, leaves_bind, h]
  exact edits_loopCode hblock keyword bound counter _ _

theorem slotOf?_of_targetSlot {site : Site} {name : String} {slot : UInt8}
    (h : targetSlot site name d = .ok slot d') : d'.slotOf? name = some slot := by
  rw [targetSlot_apply] at h
  split at h
  · rename_i v hv
    cases h
    rw [slotOf?, hv, Option.map_some]
  · split at h
    · cases h
    · cases h
      show ((d.scope.declare name slot).find? name).map Variable.slot = _
      rw [Scope.find?_declare, if_pos rfl, Option.map_some]

/-- When the value of an assignment has been compiled, its name is declared. -/
theorem slotOf?_of_assignedValue {target : Token} {name : String} {slot : UInt8} {ty : Ty}
    (h : assignedValue target name d = .ok (slot, ty) d') : d'.slotOf? name = some slot := by
  obtain ⟨_, d₁, -, h⟩ := exists_of_bind_eq_ok h
  obtain ⟨taken, d₂, htaken, h⟩ := exists_of_bind_eq_ok h
  obtain ⟨found, d₃, hvalue, h⟩ := exists_of_bind_eq_ok h
  cases h
  have hreads : d₂.ReadsOn d' := ReadsOn.of_eq_ok hvalue
  rw [slotOf?, hreads.scope]
  exact slotOf?_of_targetSlot htaken

end CompileM

end BoundedLoop
