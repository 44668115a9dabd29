import BoundedLoop.Proofs.Codegen.Expression

/-!
# Drafts that go on

`Draft.extend` is a draft behind more code, with more slots and types, and `Draft.extend?` the same
if the code can be written. Going on twice is going on once with the code of both
(`Draft.bind_extend?`). What a statement makes of a draft is `Statement.draft?`.

`Block.declares_check`: a variable that has a type has a slot as well.
-/

namespace BoundedLoop

/-! ### Drafts that go on -/

/-- A draft without problems whose slots are laid out by `l`. -/
structure Draft.Stands (d : Draft) (l : Layout) (types : Types) : Prop extends d.Knows l types where
  slots : d.chunk.slotCount = l.length
  room : l.length ≤ Chunk.maxSlots
  sound : d.diagnostics = #[]

namespace Draft

/-- The draft inside a new statement with a block. -/
def deeper (d : Draft) : Draft := { d with depth := d.depth + 1 }

def inLoop (d : Draft) : Draft := { d with loops := [] :: d.loops }

@[simp] theorem chunk_deeper (d : Draft) : d.deeper.chunk = d.chunk := rfl

@[simp] theorem chunk_inLoop (d : Draft) : d.inLoop.chunk = d.chunk := rfl

theorem inLoop_deeper (d : Draft) : d.deeper.inLoop = d.inLoop.deeper := rfl

theorem isEmpty_loops_inLoop (d : Draft) : d.inLoop.loops.isEmpty = false := rfl

/-- The loops when jumps at `offsets` out of the innermost one are noted. -/
def noteAborts (offsets : List Nat) : List (List Chunk.Label) → List (List Chunk.Label)
  | [] => []
  | aborts :: outer => ((offsets.map fun k => (⟨k + 1⟩ : Chunk.Label)).reverse ++ aborts) :: outer

/-- The draft behind code with the given jumps out of the innermost loop. -/
def extend (d : Draft) (l : Layout) (types : Types) (code : Fragment) (aborts : List Nat)
    (rest : List Token) : Draft :=
  { d with
    ahead := rest
    chunk := Chunk.append { d.chunk with slotCount := l.length } code
    scope := .of l types
    loops := noteAborts aborts d.loops }

/-- The draft behind code, if there are types for it, slots enough and no jump that is too long. -/
def extend? (d : Draft) (l : Layout) (types : Option Types) (code : Fragment) (aborts : List Nat)
    (rest : List Token) : Option (Unit × Draft) :=
  types.bind fun types =>
    if l.length ≤ Chunk.maxSlots ∧ code.Fits then some ((), d.extend l types code aborts rest)
    else none

theorem extend?_none (d : Draft) (l : Layout) (code : Fragment) (aborts : List Nat)
    (rest : List Token) : d.extend? l none code aborts rest = none := rfl

theorem extend?_of_fits {l : Layout} {code : Fragment} (hl : l.length ≤ Chunk.maxSlots)
    (hcode : code.Fits) (d : Draft) (types : Types) (aborts : List Nat) (rest : List Token) :
    d.extend? l (some types) code aborts rest = some ((), d.extend l types code aborts rest) :=
  if_pos ⟨hl, hcode⟩

theorem extend?_of_not {l : Layout} {code : Fragment}
    (h : ¬ (l.length ≤ Chunk.maxSlots ∧ code.Fits)) (d : Draft) (types : Option Types)
    (aborts : List Nat) (rest : List Token) : d.extend? l types code aborts rest = none := by
  cases types with
  | none => rfl
  | some types => exact if_neg h

theorem noteAborts_noteAborts (a b : List Nat) (loops : List (List Chunk.Label)) :
    noteAborts b (noteAborts a loops) = noteAborts (a ++ b) loops := by
  cases loops <;> simp [noteAborts]

theorem isEmpty_noteAborts (a : List Nat) (loops : List (List Chunk.Label)) :
    (noteAborts a loops).isEmpty = loops.isEmpty := by
  cases loops <;> rfl

theorem noteAborts_cons (offsets : List Nat) (aborts : List Chunk.Label)
    (outer : List (List Chunk.Label)) :
    noteAborts offsets (aborts :: outer) =
      ((offsets.map fun k => (⟨k + 1⟩ : Chunk.Label)).reverse ++ aborts) :: outer := rfl

theorem noteAborts_nil (loops : List (List Chunk.Label)) : noteAborts [] loops = loops := by
  cases loops <;> rfl

variable {d : Draft} {l l' : Layout} {types types' : Types} {code code' : Fragment}
  {aborts aborts' : List Nat} {rest rest' : List Token}

theorem extend_extend :
    (d.extend l types code aborts rest).extend l' types' code' aborts' rest' =
      d.extend l' types' (code ++ code') (aborts ++ aborts') rest' := by
  simp [extend, Chunk.append, noteAborts_noteAborts]

theorem size_extend :
    (d.extend l types code aborts rest).chunk.size = d.chunk.size + code.size := by
  simp [extend, Chunk.append, Chunk.size, Fragment.size]

theorem next_extend_cons (t : Token) (ts : List Token) :
    (d.extend l types code aborts (t :: ts)).next = t := rfl

theorem ahead_extend : (d.extend l types code aborts rest).ahead = rest := rfl

theorem isEmpty_loops_extend :
    (d.extend l types code aborts rest).loops.isEmpty = d.loops.isEmpty :=
  isEmpty_noteAborts aborts d.loops

theorem Stands.deeper (h : d.Stands l types) : d.deeper.Stands l types :=
  ⟨⟨h.scope, h.finish, h.declared⟩, h.slots, h.room, h.sound⟩

theorem Stands.inLoop (h : d.Stands l types) : d.inLoop.Stands l types :=
  ⟨⟨h.scope, h.finish, h.declared⟩, h.slots, h.room, h.sound⟩

theorem Stands.extend (h : d.Stands l types) (hroom : l'.length ≤ Chunk.maxSlots)
    (hdeclared : ∀ name ty, types' name = some ty → some name ∈ l') :
    (d.extend l' types' code aborts rest).Stands l' types' :=
  ⟨⟨rfl, h.finish, hdeclared⟩, rfl, hroom, h.sound⟩

theorem Knows.write_eq_extend (h : d.Knows l types) (hslots : d.chunk.slotCount = l.length)
    (code : Fragment) (rest : List Token) :
    { d with ahead := rest, chunk := d.chunk.append code } = d.extend l types code [] rest := by
  simp [extend, Chunk.append, noteAborts_nil, ← h.scope, ← hslots]

theorem Stands.extend_nil (h : d.Stands l types) (rest : List Token) :
    d.extend l types [] [] rest = { d with ahead := rest } := by
  rw [← h.write_eq_extend h.slots, Chunk.append_nil]

/-- What comes of a draft that goes on, and then goes on again. -/
theorem bind_extend? {γ : Type} {types : Option Types} {check : Types → Option Types}
    {f : Draft → Option γ} (g : Unit × Draft → γ) (hl : l <+: l')
    (hf : ∀ t, types = some t → l.length ≤ Chunk.maxSlots →
      f (d.extend l t code aborts rest) =
        ((d.extend l t code aborts rest).extend? l' (check t) code' aborts' rest').map g) :
    ((d.extend? l types code aborts rest).bind fun p => f p.2) =
      (d.extend? l' (types.bind check) (code ++ code') (aborts ++ aborts') rest').map g := by
  cases types with
  | none => rfl
  | some t =>
    by_cases h : l.length ≤ Chunk.maxSlots ∧ code.Fits
    · simp only [extend?, Option.bind_some, if_pos h] at hf ⊢
      rw [hf t rfl h.1]
      simp only [extend_extend, Fragment.fits_append, h.2, true_and]
    · have hnot : ¬ (l'.length ≤ Chunk.maxSlots ∧ (code ++ code').Fits) := by
        rintro ⟨hroom, hfits⟩
        rw [Fragment.fits_append] at hfits
        exact h ⟨Nat.le_trans hl.length_le hroom, hfits.1⟩
      simp only [extend?, Option.bind_some, if_neg h, if_neg hnot, Option.bind_none,
        Option.bind_fun_none, Option.map_none]

/-- The same, where how the draft goes on depends on what is read. -/
theorem bind_bind_extend? {ρ γ : Type} {types : Option Types} {f : Draft → Option γ}
    {read : Option ρ} {l' : ρ → Layout} {check : ρ → Types → Option Types} {code' : ρ → Fragment}
    {aborts' : ρ → List Nat} {rest' : ρ → List Token} (g : ρ → Unit × Draft → γ)
    (hl : ∀ x, l <+: l' x)
    (hf : ∀ t, types = some t → l.length ≤ Chunk.maxSlots →
      f (d.extend l t code aborts rest) = read.bind fun x =>
        ((d.extend l t code aborts rest).extend? (l' x) (check x t) (code' x) (aborts' x)
          (rest' x)).map (g x)) :
    ((d.extend? l types code aborts rest).bind fun p => f p.2) =
      read.bind fun x => (d.extend? (l' x) (types.bind (check x)) (code ++ code' x)
        (aborts ++ aborts' x) (rest' x)).map (g x) := by
  cases read with
  | none =>
    rw [Option.bind_none, Option.bind_eq_none_iff]
    intro p hp
    simp only [extend?, Option.bind_eq_some_iff, Option.ite_none_right_eq_some,
      Option.some.injEq] at hp
    obtain ⟨t, ht, ⟨hroom, -⟩, rfl⟩ := hp
    exact hf t ht hroom
  | some x => exact bind_extend? (g x) (hl x) hf

end Draft

/-- The draft behind a statement, where `rest` is ahead. -/
def Statement.draft? (l : Layout) (types : Types) (d : Draft) (s : Statement) (rest : List Token) :
    Option (Unit × Draft) :=
  d.extend? (s.layout l) (s.check types) (s.code l hole d.chunk.size) (s.aborts d.chunk.size) rest

def Arms.draft? (l : Layout) (types : Types) (d : Draft) (a : Arms) (rest : List Token) :
    Option (Unit × Draft) :=
  d.extend? (a.layout l) (a.check types) (a.code l hole hole d.chunk.size) (a.aborts d.chunk.size)
    rest

def Block.draft? (l : Layout) (types : Types) (d : Draft) (ss : List Statement)
    (rest : List Token) : Option (Unit × Draft) :=
  d.extend? (Block.layout l ss) (Block.check types ss) (Block.code l hole d.chunk.size ss)
    (Block.aborts d.chunk.size ss) rest

/-! ### Names with a type have a slot -/

/-- Every variable that has a type has a slot. -/
abbrev Declares (l : Layout) (types : Types) : Prop :=
  ∀ name ty, types name = some ty → some name ∈ l

theorem Declares.mono {l l' : Layout} {types : Types} (h : Declares l types) (hl : l <+: l') :
    Declares l' types :=
  fun name ty hty => hl.subset (h name ty hty)

theorem Declares.assign {l : Layout} {types types' : Types} {name : String} {ty : Ty}
    (h : Declares l types) (hassign : types.assign? name ty = some types') :
    Declares (l.add name) types' := by
  intro n ty' hn
  unfold Types.assign? at hassign
  split at hassign
  · cases hassign
    by_cases heq : n = name
    · rw [heq]
      exact l.mem_add_self name
    · rw [Function.update_of_ne heq] at hn
      exact (l.prefix_add name).subset (h n ty' hn)
  · split at hassign
    · cases hassign
      exact (l.prefix_add name).subset (h n ty' hn)
    · cases hassign

mutual

theorem Statement.declares_check : ∀ (s : Statement) {l : Layout} {types types' : Types},
    Declares l types → s.check types = some types' → Declares (s.layout l) types'
  | .assign _ name _ value, l, types, types', h, hcheck => by
    simp only [Statement.check, Option.bind_eq_bind, Option.bind_eq_some_iff] at hcheck
    obtain ⟨ty, -, hassign⟩ := hcheck
    exact h.assign hassign
  | .choice arms _, l, types, types', h, hcheck => arms.declares_check h hcheck
  | .loop _ count _ body _, l, types, types', h, hcheck => by
    rw [Statement.check_loop] at hcheck
    split at hcheck
    · exact Block.declares_check body (h.mono l.prefix_addLoop) hcheck
    · cases hcheck
  | .abort _, l, types, types', h, hcheck => by
    cases hcheck
    exact h

theorem Arms.declares_check : ∀ (a : Arms) {l : Layout} {types types' : Types},
    Declares l types → a.check types = some types' → Declares (a.layout l) types'
  | .last _ condition _ body _ alternative, l, types, types', h, hcheck => by
    rw [Arms.check_last, Option.bind_eq_some_iff] at hcheck
    obtain ⟨types₁, harm, hcheck⟩ := hcheck
    simp only [Arms.armCheck, Option.ite_none_right_eq_some] at harm
    exact Block.declares_check alternative (Block.declares_check body h harm.2) hcheck
  | .elseIf _ condition _ body _ rest, l, types, types', h, hcheck => by
    rw [Arms.check_elseIf, Option.bind_eq_some_iff] at hcheck
    obtain ⟨types₁, harm, hcheck⟩ := hcheck
    simp only [Arms.armCheck, Option.ite_none_right_eq_some] at harm
    exact rest.declares_check (Block.declares_check body h harm.2) hcheck

theorem Block.declares_check : ∀ (ss : List Statement) {l : Layout} {types types' : Types},
    Declares l types → Block.check types ss = some types' → Declares (Block.layout l ss) types'
  | [], l, types, types', h, hcheck => by
    cases hcheck
    exact h
  | s :: ss, l, types, types', h, hcheck => by
    simp only [Block.check, Option.bind_eq_bind, Option.bind_eq_some_iff] at hcheck
    obtain ⟨types₁, hs, hss⟩ := hcheck
    exact Block.declares_check ss (s.declares_check h hs) hss

end

namespace CompileM

variable {β : Type} {l : Layout} {types : Types} {d : Draft}

/-! ### Diagnostics stay -/

instance keeps_targetSlot (site : Site) (name : String) : Keeps (targetSlot site name) := by
  have := fun slot =>
    @keeps_modify (fun d => { d with scope := d.scope.declare name slot }) fun _ => rfl
  unfold targetSlot
  refine @keeps_bind _ _ _ _ _ fun d => ?_
  split <;> infer_instance

instance keeps_assignType (site : Site) (name : String) (ty : Ty) :
    Keeps (assignType site name ty) := by
  unfold assignType
  refine @keeps_bind _ _ _ _ _ fun d => ?_
  split
  · exact keeps_modify fun _ => rfl
  · infer_instance
  · infer_instance

instance keeps_assignment (target : Token) : Keeps (assignment target) := by
  unfold assignment
  split <;> infer_instance

instance keeps_condition (keyword : Token) : Keeps (condition keyword) := by
  unfold condition; infer_instance

instance keeps_openStatement : Keeps openStatement := keeps_modify fun _ => rfl

instance keeps_closeStatement : Keeps closeStatement := keeps_modify fun _ => rfl

instance keeps_branches (block : CompileM Unit) [Keeps block] :
    ∀ (bound : Nat) (branch : Token), Keeps (branches block bound branch)
  | 0, _ => keeps_pure []
  | bound + 1, branch => by
    have := keeps_branches block bound
    unfold branches
    repeat' first | infer_instance | refine @keeps_bind _ _ _ _ ?_ fun _ => ?_

instance keeps_ifStatement (block : CompileM Unit) [Keeps block] (bound : Nat) (keyword : Token) :
    Keeps (ifStatement block bound keyword) := by
  unfold ifStatement; infer_instance

instance keeps_enterLoop : Keeps enterLoop := keeps_modify fun _ => rfl

instance keeps_leaveLoop : Keeps leaveLoop := by
  have := @keeps_modify (fun d => { d with loops := d.loops.tail }) fun _ => rfl
  unfold leaveLoop; infer_instance

instance keeps_noteAbort (label : Chunk.Label) : Keeps (noteAbort label) :=
  keeps_modify fun _ => rfl

instance keeps_loopBound : Keeps loopBound := by
  unfold loopBound; infer_instance

instance keeps_loopStatement (block : CompileM Unit) [Keeps block] (keyword : Token) :
    Keeps (loopStatement block keyword) := by
  unfold loopStatement
  repeat' first | infer_instance | refine @keeps_bind _ _ _ _ ?_ fun _ => ?_

instance keeps_abortLoop (token : Token) : Keeps (abortLoop token) := by
  unfold abortLoop; infer_instance

instance keeps_statement (block : CompileM Unit) [Keeps block] (bound : Nat) :
    Keeps (statement block bound) := by
  unfold statement
  refine @keeps_bind _ _ _ _ _ fun t => ?_
  split <;> infer_instance

instance keeps_block : ∀ bound : Nat, Keeps (block bound)
  | 0 => keeps_pure ()
  | bound + 1 => by
    have := keeps_block bound
    unfold block; infer_instance

instance keeps_program : ∀ bound : Nat, Keeps (program bound)
  | 0 => keeps_pure ()
  | bound + 1 => by
    have := keeps_program bound
    unfold program; infer_instance

/-! ### Going on with a draft -/

section extend

variable {code : Fragment} {aborts : List Nat} {rest : List Token}

theorem clean_emit_extend (i : Instruction) (line : Nat) (f : Unit → CompileM β) :
    (emit i line >>= f).clean (d.extend l types code aborts rest) =
      (f ()).clean (d.extend l types (code ++ [.op i line]) aborts rest) := by
  rw [clean_emit_bind]
  simp [Draft.extend]

theorem clean_reserve_extend (branch : Branch) (line : Nat) (f : Chunk.Label → CompileM β) :
    (reserve branch line >>= f).clean (d.extend l types code aborts rest) =
      (f ⟨d.chunk.size + code.size + 1⟩).clean
        (d.extend l types (code ++ [.jump branch (-1) line]) aborts rest) := by
  rw [clean_reserve_bind, Draft.size_extend]
  simp [Draft.extend]

theorem clean_patch_extend (site : Site) (a b : Fragment) (branch : Branch) (line : Nat) {k : Nat}
    (hk : k = d.chunk.size + a.size) :
    (patch site ⟨k + 1⟩).clean
        (d.extend l types (a ++ .jump branch (-1) line :: b) aborts rest) =
      if FitsJump b.size then
        some ((), d.extend l types (a ++ .jump branch b.size line :: b) aborts rest)
      else none :=
  clean_patch_of_eq site rfl hk

theorem clean_accept_extend {kind : Token.Kind} (hkind : kind ≠ .eof) (hd : d.finish.kind = .eof)
    (f : Bool → CompileM β) :
    (accept kind >>= f).clean (d.extend l types code aborts rest) =
      match Read.token kind rest with
      | some p => (f true).clean (d.extend l types code aborts p.2)
      | none => (f false).clean (d.extend l types code aborts rest) := by
  have h := clean_accept kind hkind (d := d.extend l types code aborts rest) hd
  rw [Draft.ahead_extend] at h
  cases hread : Read.token kind rest with
  | none =>
    rw [hread] at h
    exact clean_bind_of_eq_some h f
  | some p =>
    rw [hread] at h
    exact clean_bind_of_eq_some h f

theorem clean_expect_extend {kind : Token.Kind} (hkind : kind ≠ .eof) (wanted : Expectation)
    (hd : d.finish.kind = .eof) (f : Unit → CompileM β) :
    (expect kind wanted >>= f).clean (d.extend l types code aborts rest) =
      (Read.token kind rest).bind fun p => (f ()).clean (d.extend l types code aborts p.2) := by
  have h := clean_expect kind hkind wanted (d := d.extend l types code aborts rest) hd
  rw [Draft.ahead_extend] at h
  cases hread : Read.token kind rest with
  | some p =>
    rw [hread] at h
    exact clean_bind_of_eq_some h f
  | none =>
    have hne : (d.extend l types code aborts rest).next.kind ≠ kind := by
      intro heq
      rw [hread, expect, clean_peek_bind, if_pos heq, clean_advance] at h
      cases h
    have herror : expect kind wanted (d.extend l types code aborts rest) =
        missing wanted (d.extend l types code aborts rest).next
          (d.extend l types code aborts rest) := by
      show (if _ then advance else missing wanted _) _ = _
      rw [if_neg hne]
    exact clean_bind_of_error ⟨_, _, herror⟩ f

theorem clean_openStatement_bind (f : Unit → CompileM β) (d : Draft) :
    (openStatement >>= f).clean d = (f ()).clean d.deeper :=
  clean_bind_of_eq_some (@clean_modify (fun d => { d with depth := d.depth + 1 }) (fun _ => rfl) d) f

theorem clean_closeStatement_extend (f : Unit → CompileM β) :
    (closeStatement >>= f).clean (d.deeper.extend l types code aborts rest) =
      (f ()).clean (d.extend l types code aborts rest) :=
  clean_bind_of_eq_some (@clean_modify (fun d => { d with depth := d.depth - 1 }) (fun _ => rfl) _) f

end extend

end CompileM

end BoundedLoop
