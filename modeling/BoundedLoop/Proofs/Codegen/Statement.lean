import BoundedLoop.Proofs.Codegen.Loops

/-!
# What compiling statements comes to

A clean compilation of statements reads their trees, follows their types, lays out their slots and
writes their code (`CompileM.clean_statement`, `CompileM.clean_block`). The jumps out of the innermost
loop stay open until the loop ends, so the code is written with holes for them, and their offsets are
noted.
-/

namespace BoundedLoop

namespace CompileM

variable {β : Type} {l : Layout} {types : Types} {d : Draft}

/-! ### Assignments -/

theorem clean_targetSlot (site : Site) (name : String) (hd : d.Stands l types) :
    (targetSlot site name).clean d =
      if (l.add name).length ≤ Chunk.maxSlots then
        some ((l.add name).slot name, { d with
          chunk := { d.chunk with slotCount := (l.add name).length }
          scope := .of (l.add name) types })
      else none := by
  rw [targetSlot, clean_get_bind, hd.scope, Scope.find?_of]
  by_cases hname : some name ∈ l
  · rw [if_pos hname, Layout.add_of_mem hname, if_pos hd.room, ← hd.slots, ← hd.scope]
    exact clean_pure _ d
  · have hnone : types name = none := by
      cases hty : types name with
      | none => rfl
      | some ty => exact absurd (hd.declared name ty hty) hname
    have hlen : (l.add name).length = l.length + 1 := by
      simp [Layout.add_of_not_mem hname]
    have := fun slot =>
      @keeps_modify (fun d => { d with scope := d.scope.declare name slot }) fun _ => rfl
    simp only [if_neg hname, clean_bind, clean_takeSlot, hd.slots, hlen, Nat.succ_le_iff]
    by_cases hroom : l.length < Chunk.maxSlots
    · simp only [if_pos hroom, Option.bind_some]
      rw [@clean_modify (fun d => { d with scope := d.scope.declare name (UInt8.ofNat l.length) })
        fun _ => rfl]
      simp only [Option.bind_some, clean_pure, hd.scope, Scope.declare_of hname hnone,
        Layout.slot_add_of_not_mem hname]
    · simp only [if_neg hroom, Option.bind_none]

theorem clean_assignType (site : Site) {name : String} (ty : Ty) (hd : d.Knows l types)
    (hname : some name ∈ l) :
    (assignType site name ty).clean d =
      (types.assign? name ty).map fun types' => ((), { d with scope := .of l types' }) := by
  rw [assignType, clean_get_bind, Scope.assign, hd.scope, Scope.find?_of, if_pos hname,
    Types.assign?]
  cases hty : types name with
  | none =>
    simp only [Scope.setType_of]
    exact @clean_modify (fun d => { d with scope := .of l (Function.update types name (some ty)) })
      (fun _ => rfl) d
  | some expected =>
    by_cases heq : expected = ty
    · simp only [if_pos heq]
      exact @clean_modify (fun d => { d with scope := .of l types }) (fun _ => rfl) d
    · simp only [if_neg heq, clean_fail, Option.map_none]

theorem clean_assignment (target : Token) (hd : d.Stands l types) :
    (assignment target).clean d =
      (Read.assignment target d.ahead).bind fun p => p.1.draft? l types d p.2 := by
  unfold assignment Read.assignment
  cases target.variableName? with
  | none => rfl
  | some name =>
    simp only [clean_bind, clean_expect (.symbol .leftArrow) (by simp) (.arrow name) hd.finish,
      Option.bind_eq_bind, Option.bind_assoc, Option.bind_some]
    cases Read.token (.symbol .leftArrow) d.ahead with
    | none => rfl
    | some p =>
      obtain ⟨arrow, ts⟩ := p
      have hd' : Draft.Stands { d with ahead := ts } l types :=
        ⟨⟨hd.scope, hd.finish, hd.declared⟩, hd.slots, hd.room, hd.sound⟩
      simp only [Option.map_some, Option.bind_some, clean_targetSlot target.toSite name hd']
      by_cases hroom : (l.add name).length ≤ Chunk.maxSlots
      · have hknows : Draft.Knows { d with
            ahead := ts
            chunk := { d.chunk with slotCount := (l.add name).length }
            scope := .of (l.add name) types } (l.add name) types :=
          ⟨rfl, hd.finish, fun n ty hn => (l.prefix_add name).subset (hd.declared n ty hn)⟩
        simp only [if_pos hroom, Option.bind_some, clean_expression hknows, Option.bind_assoc]
        refine Option.bind_congr fun q _ => ?_
        obtain ⟨value, rest⟩ := q
        simp only [Option.pure_def, Option.bind_some, Expression.draft?, Statement.draft?,
          Draft.extend?, Statement.layout, Statement.check, Statement.code, Statement.aborts,
          Option.bind_assoc, Option.bind_eq_bind, Fragment.fits_append, Fragment.fits_cons_op,
          Fragment.fits_nil, and_true, hroom, true_and]
        refine Option.bind_congr fun ty _ => ?_
        by_cases hfits : (value.code (l.add name).slot).Fits
        · simp only [if_pos hfits, Option.bind_some, clean_assignType target.toSite ty
            (hknows.write rest _) (l.mem_add_self name), clean_emit]
          cases types.assign? name ty with
          | none => rfl
          | some types' => simp [Draft.extend, Draft.noteAborts_nil]
        · simp [hfits]
      · simp [hroom, Statement.draft?, Draft.extend?, Statement.layout]

/-! ### Statements and blocks -/

theorem clean_advance_bind {t : Token} {ts : List Token} (hahead : d.ahead = t :: ts)
    (f : Unit → CompileM β) : (advance >>= f).clean d = (f ()).clean { d with ahead := ts } := by
  rw [clean_bind_of_eq_some (clean_advance d), hahead]
  rfl

theorem clean_noteAbort (k : Nat) (code : Fragment) (aborts : List Nat) (rest : List Token) :
    (noteAbort ⟨k + 1⟩).clean (d.extend l types code aborts rest) =
      some ((), d.extend l types code (aborts ++ [k]) rest) := by
  refine (clean_modify (fun _ => ?_) _).trans ?_
  · rfl
  · simp only [Draft.extend]
    cases d.loops <;> simp [Draft.noteAborts]

theorem clean_abortLoop {t : Token} {ts : List Token} (hahead : d.ahead = t :: ts)
    (hd : d.Stands l types) :
    (abortLoop t).clean d =
      if d.loops.isEmpty then none else (Statement.abort t).draft? l types d ts := by
  rw [abortLoop, clean_get_bind]
  by_cases hempty : d.loops.isEmpty
  · rw [if_pos hempty, if_pos hempty, clean_fail]
  · have hfits : Fragment.Fits [.jump .always (-1) t.line] := by
      rw [Fragment.fits_cons_jump]
      exact ⟨by decide, Fragment.fits_nil⟩
    rw [if_neg hempty, if_neg hempty, clean_advance_bind hahead, ← hd.extend_nil,
      clean_reserve_extend, clean_noteAbort]
    exact (Draft.extend?_of_fits hd.room hfits d types [d.chunk.size] ts).symm

theorem clean_statement {bound : Nat} (ih : CompilesBlocks bound) (hd : d.Stands l types)
    (hlen : d.ahead.length ≤ bound) :
    (statement (block bound) bound).clean d =
      (Read.statement (Read.block bound) (!d.loops.isEmpty) bound d.ahead).bind fun p =>
        p.1.draft? l types d p.2 := by
  rw [statement, clean_peek_bind, Draft.next]
  cases hahead : d.ahead with
  | nil =>
    rw [List.headD_nil, hd.finish]
    rfl
  | cons t ts =>
    have hd' : Draft.Stands { d with ahead := ts } l types :=
      ⟨⟨hd.scope, hd.finish, hd.declared⟩, hd.slots, hd.room, hd.sound⟩
    rw [hahead, List.length_cons] at hlen
    rw [List.headD_cons, Read.statement]
    cases t.kind with
    | identifier =>
      simp only
      rw [clean_advance_bind hahead, clean_assignment t hd']
      rfl
    | keyword k =>
      cases k with
      | output =>
        simp only
        rw [clean_advance_bind hahead, clean_assignment t hd']
        rfl
      | ifWord =>
        simp only
        rw [clean_advance_bind hahead, clean_ifStatement ih t hd' hlen]
        rfl
      | loop =>
        simp only
        rw [clean_advance_bind hahead, clean_loopStatement ih t hd' (Nat.le_of_lt hlen)]
        rfl
      | abortLoop =>
        simp only
        rw [clean_abortLoop hahead hd]
        cases d.loops.isEmpty <;> rfl
      | _ => rfl
    | _ => rfl

/-- What comes of a statement and the statements behind it, which `read` has read. -/
theorem bind_statement {read : Option (List Statement × List Token)}
    {f : Draft → Option (Unit × Draft)} {s : Statement} {ts : List Token}
    (hf : ∀ t, s.check types = some t → (s.layout l).length ≤ Chunk.maxSlots →
      f (d.extend (s.layout l) t (s.code l hole d.chunk.size) (s.aborts d.chunk.size) ts) =
        read.bind fun x => Block.draft? (s.layout l) t
          (d.extend (s.layout l) t (s.code l hole d.chunk.size) (s.aborts d.chunk.size) ts)
          x.1 x.2) :
    ((s.draft? l types d ts).bind fun p => f p.2) =
      read.bind fun x => Block.draft? l types d (s :: x.1) x.2 := by
  have h : ((s.draft? l types d ts).bind fun p => f p.2) =
      read.bind fun x => (d.extend? (Block.layout (s.layout l) x.1)
        ((s.check types).bind fun t => Block.check t x.1)
        (s.code l hole d.chunk.size ++ Block.code (s.layout l) hole (d.chunk.size + s.size) x.1)
        (s.aborts d.chunk.size ++ Block.aborts (d.chunk.size + s.size) x.1) x.2).map id := by
    refine Draft.bind_bind_extend? (fun _ => id) (fun x => Block.prefix_layout x.1 _)
      fun t ht hroom => ?_
    rw [hf t ht hroom]
    simp only [Block.draft?, Draft.size_extend, s.size_code, Option.map_id_fun, id_eq]
  simp only [Option.map_id_fun, id_eq] at h
  exact h

theorem clean_block : ∀ bound : Nat, CompilesBlocks bound
  | 0, _, _, _, _, hlen => absurd hlen (Nat.not_lt_zero _)
  | bound + 1, l, types, d, hd, hlen => by
    have ih := clean_block bound
    rw [block, clean_peek_bind, Draft.next]
    cases hahead : d.ahead with
    | nil =>
      rw [List.headD_nil, hd.finish]
      rfl
    | cons t ts =>
      rw [List.headD_cons, Read.block]
      by_cases hclose : t.kind.closesBlock
      · rw [if_pos hclose, if_pos hclose, clean_pure, Option.bind_some]
        refine Eq.trans ?_ (Draft.extend?_of_fits hd.room Fragment.fits_nil d types [] (t :: ts)).symm
        rw [hd.extend_nil, ← hahead]
      · rw [if_neg hclose, if_neg hclose]
        by_cases heof : t.kind = .eof
        · rw [if_pos heof, clean_fail, Read.statement, heof]
          rfl
        · rw [if_neg heof, clean_bind, clean_attempt _ hd.sound,
            clean_statement ih hd (Nat.le_of_lt_succ hlen), hahead]
          simp only [Option.bind_eq_bind, Option.bind_assoc, Option.pure_def, Option.bind_some]
          refine Option.bind_congr fun p hp => ?_
          obtain ⟨s, ts₁⟩ := p
          have hlen₁ : ts₁.length < (t :: ts).length := Read.length_of_statement hp
          rw [hahead] at hlen
          refine bind_statement fun types' hcheck hroom => ?_
          rw [ih _ _ _ (hd.extend hroom (s.declares_check hd.declared hcheck))
            (by rw [Draft.ahead_extend]; exact Nat.lt_of_lt_of_le hlen₁ (Nat.le_of_lt_succ hlen)),
            Draft.isEmpty_loops_extend, Draft.ahead_extend]

end CompileM

end BoundedLoop
