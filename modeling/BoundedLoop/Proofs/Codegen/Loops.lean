import BoundedLoop.Proofs.Codegen.Branches

/-!
# What compiling a loop comes to

A loop takes two slots, and its body is compiled with holes for the jumps out of it. The end of the
loop fills them (`CompileM.clean_loopFoot`, `CompileM.clean_loopStatement`).
-/

namespace BoundedLoop

/-! ### The code of a loop -/

namespace Statement

/-- The code of a loop behind that of its count, with a body that begins at `k`. -/
def loopCode (l : Layout) (line line' k : Nat) (body : List Statement) : Fragment :=
  loopHead l line (Block.size body + 20) ++
    Block.code l.addLoop (jumpDistance (k + Block.size body + 20)) k body ++
    loopFoot l line' (-(Block.size body + 28))

/-- The jumps of a loop are those of its body, the one over the body, the one back to the test, and
those of the `ABORT LOOP`s. -/
theorem fits_loopCode_iff (l : Layout) (line line' k : Nat) (body : List Statement) :
    (loopCode l line line' k body).Fits ↔
      (Block.code l.addLoop hole k body).Fits ∧
        (FitsJump (-(Block.size body + 28)) ∧ FitsJump (Block.size body + 20)) ∧
          ∀ j ∈ Block.aborts k body, FitsJump (jumpDistance (k + Block.size body + 20) j) := by
  simp only [loopCode, loopHead, loopFoot, Fragment.fits_append, Fragment.fits_cons_jump,
    Fragment.fits_cons_op, Fragment.fits_nil, fits_loopInit, fits_loopTest, fits_loopStep,
    Block.fits_code_iff body, true_and, and_true]
  constructor
  · rintro ⟨⟨hexit, hbody, haborts⟩, hback⟩
    exact ⟨hbody, ⟨hback, hexit⟩, haborts⟩
  · rintro ⟨hbody, ⟨hback, hexit⟩, haborts⟩
    exact ⟨⟨hexit, hbody, haborts⟩, hback⟩

theorem draft?_loop (l : Layout) (types : Types) (d : Draft) (keyword : Token) (count : Expression)
    (times : Token) (body : List Statement) (closer : Token) (rest : List Token) :
    (Statement.loop keyword count times body closer).draft? l types d rest =
      d.extend? (Block.layout l.addLoop body)
        (if count.type? types = some .number then Block.check types body else none)
        (count.code l.slot ++
          loopCode l keyword.line closer.line (d.chunk.size + count.size + 25) body) [] rest := by
  have hstop : d.chunk.size + count.size + 25 + Block.size body + 20 =
      d.chunk.size + count.size + Block.size body + 45 := by omega
  simp only [draft?, layout, check_loop, code, aborts, loopCode, hstop, List.append_assoc]

end Statement

namespace CompileM

variable {β : Type} {l : Layout} {types : Types} {d : Draft}

/-! ### Compiling loops -/

section loop

variable {code : Fragment} {aborts : List Nat} {rest : List Token}

theorem clean_takeSlot_extend (site : Site) (f : UInt8 → CompileM β) :
    (takeSlot site >>= f).clean (d.extend l types code aborts rest) =
      if (l ++ [none]).length ≤ Chunk.maxSlots then
        (f (UInt8.ofNat l.length)).clean (d.extend (l ++ [none]) types code aborts rest)
      else none := by
  have hcount : (d.extend l types code aborts rest).chunk.slotCount = l.length := rfl
  have htake := clean_takeSlot site (d.extend l types code aborts rest)
  rw [hcount] at htake
  simp only [List.length_append, List.length_singleton, Nat.succ_le_iff]
  by_cases h : l.length < Chunk.maxSlots
  · rw [if_pos h] at htake ⊢
    rw [clean_bind_of_eq_some htake]
    simp only [Draft.extend, Scope.of_append_none, List.length_append, List.length_singleton,
      Chunk.append]
  · rw [if_neg h]
    have hnone : (d.extend l types code aborts rest).chunk.freeSlot? = none := if_neg h
    have herror : takeSlot site (d.extend l types code aborts rest) =
        fail site .tooManyVariables (d.extend l types code aborts rest) := by
      have hget : ∀ (g : Draft → CompileM UInt8) (d : Draft), (get >>= g) d = g d d := fun _ _ => rfl
      rw [takeSlot, hget, hnone]
    exact clean_bind_of_error ⟨_, _, herror⟩ f

theorem clean_enterLoop_extend (f : Unit → CompileM β) :
    (enterLoop >>= f).clean (d.extend l types code [] rest) =
      (f ()).clean (d.inLoop.extend l types code [] rest) := by
  have h := @clean_modify (fun d => { d with loops := [] :: d.loops }) (fun _ => rfl)
    (d.extend l types code [] rest)
  refine (clean_bind_of_eq_some h f).trans ?_
  simp [Draft.extend, Draft.inLoop, Draft.noteAborts_nil]

theorem clean_leaveLoop_extend (f : List Chunk.Label → CompileM β) :
    (leaveLoop >>= f).clean (d.inLoop.extend l types code aborts rest) =
      (f (aborts.map fun k => ⟨k + 1⟩)).clean (d.extend l types code [] rest) := by
  have := @keeps_modify (fun d => { d with loops := d.loops.tail }) fun _ => rfl
  have h : leaveLoop.clean (d.inLoop.extend l types code aborts rest) =
      some (aborts.map fun k => ⟨k + 1⟩, d.extend l types code [] rest) := by
    rw [leaveLoop, clean_get_bind, clean_bind,
      @clean_modify (fun d => { d with loops := d.loops.tail }) fun _ => rfl]
    simp [Draft.extend, Draft.inLoop, Draft.noteAborts_cons, Draft.noteAborts_nil]
  exact clean_bind_of_eq_some h f

/-- The slots of a loop, and the code between its count and its body. -/
theorem clean_loopHead (site : Site) (line : Nat)
    (f : UInt8 → Draft → Chunk.Label → CompileM β) :
    (do
      let bound ← takeSlot site
      let counter ← takeSlot site
      emit (.store bound) line
      emit .pop line
      emit (.push (.number 0)) line
      emit (.store counter) line
      emit .pop line
      let test ← get
      emit (.load counter) line
      emit (.load bound) line
      emit .less line
      let exit ← reserve .ifFalse line
      emit .pop line
      enterLoop
      f counter test exit : CompileM β).clean (d.extend l types code [] rest) =
      if l.addLoop.length ≤ Chunk.maxSlots then
        (f l.counterSlot (d.extend l.addLoop types (code ++ Statement.loopInit l line) [] rest)
          ⟨d.chunk.size + code.size + 21 + 1⟩).clean
            (d.inLoop.extend l.addLoop types (code ++ Statement.loopHead l line (-1)) [] rest)
      else none := by
  have hadd : l ++ [none] ++ [none] = l.addLoop := by simp [Layout.addLoop]
  have hcounter : UInt8.ofNat (l ++ [none]).length = l.counterSlot := by simp [Layout.counterSlot]
  have hbound : UInt8.ofNat l.length = l.boundSlot := rfl
  rw [clean_takeSlot_extend]
  by_cases h : l.addLoop.length ≤ Chunk.maxSlots
  · have h' : (l ++ [none]).length ≤ Chunk.maxSlots := by
      simp only [Layout.addLoop, List.length_append, List.length_cons, List.length_nil] at h ⊢
      omega
    rw [if_pos h, if_pos h', clean_takeSlot_extend, hadd, if_pos h, hcounter, hbound]
    simp only [clean_emit_extend, clean_get_bind, clean_reserve_extend, clean_enterLoop_extend,
      Fragment.size_append, Fragment.size_cons_op, Fragment.size_nil, Instruction.size_store,
      Instruction.size_pop, Instruction.size_push, Instruction.size_load, Instruction.size_less]
    simp [Statement.loopHead, Statement.loopInit, Statement.loopTest, Nat.add_assoc]
  · rw [if_neg h, clean_takeSlot_extend, hadd, if_neg h, ite_self]

theorem clean_jumpBack_extend (site : Site) (target line : Nat) (f : Unit → CompileM β)
    [∀ a, Keeps (f a)] :
    (jumpBack site target line >>= f).clean (d.extend l types code aborts rest) =
      if FitsJump (jumpDistance target (d.chunk.size + code.size)) then
        (f ()).clean (d.extend l types
          (code ++ [.jump .always (jumpDistance target (d.chunk.size + code.size)) line]) aborts rest)
      else none := by
  rw [clean_bind, clean_jumpBack, Draft.size_extend]
  by_cases h : FitsJump (jumpDistance target (d.chunk.size + code.size))
  · rw [if_pos h, if_pos h]
    simp [Draft.extend]
  · rw [if_neg h, if_neg h]
    rfl

theorem clean_loopStep (line : Nat) (m : CompileM β) {l' : Layout} :
    (do
      emit (.load l.counterSlot) line
      emit (.push (.number 1)) line
      emit .add line
      emit (.store l.counterSlot) line
      emit .pop line
      m : CompileM β).clean (d.extend l' types code aborts rest) =
      m.clean (d.extend l' types (code ++ Statement.loopStep l line) aborts rest) := by
  simp only [clean_emit_extend]
  simp [Statement.loopStep]

/-- The code behind the body of a loop, and the jumps that lead there. -/
theorem clean_loopFoot (site : Site) (line line' : Nat) (count : Fragment) (body : List Statement)
    {k : Nat} (hk : k = d.chunk.size + count.size + 25)
    (hbody : (Block.code l.addLoop hole k body).Fits) :
    (do
      emit (.load l.counterSlot) line'
      emit (.push (.number 1)) line'
      emit .add line'
      emit (.store l.counterSlot) line'
      emit .pop line'
      jumpBack site (d.chunk.size + count.size + 16) line'
      patch site ⟨d.chunk.size + count.size + 21 + 1⟩
      emit .pop line'
      let aborts ← leaveLoop
      aborts.forM (patch site) : CompileM Unit).clean
        (d.inLoop.extend (Block.layout l.addLoop body) types
          (count ++ Statement.loopHead l line (-1) ++ Block.code l.addLoop hole k body)
          (Block.aborts k body) rest) =
      if (Statement.loopCode l line line' k body).Fits then
        some ((), d.extend (Block.layout l.addLoop body) types
          (count ++ Statement.loopCode l line line' k body) [] rest)
      else none := by
  have hfits := Statement.fits_loopCode_iff l line line' k body
  have hdist : jumpDistance (d.chunk.size + count.size + 16) (d.inLoop.chunk.size +
      (count ++ Statement.loopHead l line (-1) ++ Block.code l.addLoop hole k body ++
        Statement.loopStep l line').size) = -(Block.size body + 28) := by
    simp only [jumpDistance, Fragment.size_append, Statement.size_loopHead, Block.size_code,
      Statement.size_loopStep, Draft.inLoop]
    omega
  -- the jump out of the loop is led over all that follows it
  have hcode : count ++ Statement.loopHead l line (-1) ++ Block.code l.addLoop hole k body ++
      Statement.loopStep l line' ++ [.jump .always (-(Block.size body + 28)) line'] =
      count ++ Statement.loopInit l line ++ Statement.loopTest l line ++
        .jump .ifFalse (-1) line :: .op .pop line ::
          (Block.code l.addLoop hole k body ++ Statement.loopStep l line' ++
            [.jump .always (-(Block.size body + 28)) line']) := by
    simp [Statement.loopHead]
  have hexit : (Fragment.size (.op .pop line :: (Block.code l.addLoop hole k body ++
      Statement.loopStep l line' ++ [.jump .always (-(Block.size body + 28)) line'])) : Int) =
        Block.size body + 20 := by
    simp [Block.size_code]
    omega
  have hpatched : count ++ Statement.loopInit l line ++ Statement.loopTest l line ++
      .jump .ifFalse (Block.size body + 20) line :: .op .pop line ::
        (Block.code l.addLoop hole k body ++ Statement.loopStep l line' ++
          [.jump .always (-(Block.size body + 28)) line']) ++ [.op .pop line'] =
      count ++ Statement.loopHead l line (Block.size body + 20) ++
        Block.code l.addLoop hole k body ++ Statement.loopFoot l line' (-(Block.size body + 28)) := by
    simp [Statement.loopHead, Statement.loopFoot]
  have hstop : d.chunk.size + (count ++ Statement.loopHead l line (Block.size body + 20) ++
      Block.code l.addLoop hole k body ++
      Statement.loopFoot l line' (-(Block.size body + 28))).size = k + Block.size body + 20 := by
    simp [Block.size_code]
    omega
  -- the jumps out of the body are led behind the loop
  have hland := Block.land_aborts body l.addLoop (k + Block.size body + 20) k
    { d.chunk with slotCount := (Block.layout l.addLoop body).length }
    (count ++ Statement.loopHead l line (Block.size body + 20))
    (Statement.loopFoot l line' (-(Block.size body + 28)))
    (by simp [hk, Chunk.size, Nat.add_assoc])
  rw [clean_loopStep, clean_jumpBack_extend, hdist, hcode, clean_bind,
    clean_patch_extend site _ _ _ _ (by simp [Draft.inLoop, Nat.add_assoc]), hexit]
  by_cases hjumps : FitsJump (-(Block.size body + 28)) ∧ FitsJump (Block.size body + 20)
  · rw [if_pos hjumps.1, if_pos hjumps.2, Option.bind_some, clean_emit_extend, hpatched,
      clean_leaveLoop_extend, clean_forM_patch, Draft.size_extend, hstop]
    by_cases haborts : ∀ j ∈ Block.aborts k body,
        FitsJump (jumpDistance (k + Block.size body + 20) j)
    · rw [if_pos haborts, if_pos (hfits.2 ⟨hbody, hjumps, haborts⟩)]
      simp only [Draft.extend, hland]
      simp only [Statement.loopCode, List.append_assoc]
    · rw [if_neg haborts, if_neg fun h => haborts (hfits.1 h).2.2]
  · rw [if_neg fun h => hjumps (hfits.1 h).2.1]
    by_cases hback : FitsJump (-(Block.size body + 28))
    · rw [if_pos hback, if_neg fun h => hjumps ⟨hback, h⟩]
      rfl
    · rw [if_neg hback]

/-- The body of a loop, and what is behind it. -/
theorem clean_loopBody {bound : Nat} (ih : CompilesBlocks bound) (site : Site) (line : Nat)
    {count : Fragment} (hcount : count.Fits) {k : Nat} (hk : k = d.chunk.size + count.size + 25)
    (hd : d.Stands l types) (hroom : l.addLoop.length ≤ Chunk.maxSlots)
    (hlen : rest.length < bound) :
    (do
      block bound
      let closer ← peek
      expect (.keyword .endLoop) .endLoop
      closeStatement
      emit (.load l.counterSlot) closer.line
      emit (.push (.number 1)) closer.line
      emit .add closer.line
      emit (.store l.counterSlot) closer.line
      emit .pop closer.line
      jumpBack site (d.chunk.size + count.size + 16) closer.line
      patch site ⟨d.chunk.size + count.size + 21 + 1⟩
      emit .pop closer.line
      let aborts ← leaveLoop
      aborts.forM (patch site) : CompileM Unit).clean
        (d.deeper.inLoop.extend l.addLoop types (count ++ Statement.loopHead l line (-1)) [] rest) =
      (Read.block bound true rest).bind fun p => (Read.token (.keyword .endLoop) p.2).bind fun q =>
        d.extend? (Block.layout l.addLoop p.1) (Block.check types p.1)
          (count ++ Statement.loopCode l line q.1.line k p.1) [] q.2 := by
  have hstands : (d.deeper.inLoop.extend l.addLoop types
      (count ++ Statement.loopHead l line (-1)) [] rest).Stands l.addLoop types :=
    hd.deeper.inLoop.extend hroom (Declares.mono hd.declared l.prefix_addLoop)
  have hsize : d.deeper.inLoop.chunk.size + (count ++ Statement.loopHead l line (-1)).size = k := by
    rw [Fragment.size_append, Statement.size_loopHead, hk, ← Nat.add_assoc]
    rfl
  refine (@clean_bind _ _ _ _ _ (fun _ => ?_) _).trans ?_
  · repeat' first | infer_instance | refine @keeps_bind _ _ _ _ ?_ fun _ => ?_
  rw [ih _ _ _ hstands hlen, Draft.isEmpty_loops_extend, Draft.isEmpty_loops_inLoop,
    Draft.ahead_extend, Bool.not_false, Option.bind_assoc]
  refine Option.bind_congr fun p _ => ?_
  obtain ⟨body, rest'⟩ := p
  simp only [Block.draft?, Draft.size_extend, hsize]
  cases hcheck : Block.check types body with
  | none => cases Read.token (.keyword .endLoop) rest' <;> rfl
  | some types' =>
    by_cases hbody : (Block.layout l.addLoop body).length ≤ Chunk.maxSlots ∧
        (Block.code l.addLoop hole k body).Fits
    · rw [Draft.extend?_of_fits hbody.1 hbody.2, Draft.extend_extend]
      simp only [Option.bind_some, List.nil_append]
      rw [clean_peek_bind, Draft.inLoop_deeper,
        clean_expect_extend (by simp) _ hd.inLoop.deeper.finish]
      refine Option.bind_congr fun q hq => ?_
      obtain ⟨closer, rest''⟩ := q
      obtain ⟨-, rfl⟩ := Read.token_eq_some hq
      rw [Draft.next_extend_cons, clean_closeStatement_extend,
        clean_loopFoot _ _ _ _ _ hk hbody.2]
      by_cases hfits : (Statement.loopCode l line closer.line k body).Fits
      · rw [if_pos hfits,
          Draft.extend?_of_fits hbody.1 ((Fragment.fits_append ..).2 ⟨hcount, hfits⟩)]
      · rw [if_neg hfits,
          Draft.extend?_of_not fun h => hfits ((Fragment.fits_append ..).1 h.2).2]
    · rw [Draft.extend?_of_not hbody, Option.bind_none]
      refine (Option.bind_eq_none_iff.2 fun q _ => ?_).symm
      refine Draft.extend?_of_not (fun h => hbody ⟨h.1, ?_⟩) ..
      have hfits := ((Fragment.fits_append ..).1 h.2).2
      exact ((Statement.fits_loopCode_iff ..).1 hfits).1

end loop

theorem clean_loopBound (hd : d.Stands l types) :
    loopBound.clean d =
      (Read.expression d.ahead).bind fun p => (Read.token (.keyword .times) p.2).bind fun q =>
        if p.1.type? types = some .number ∧ (p.1.code l.slot).Fits then
          some ((), d.extend l types (p.1.code l.slot) [] q.2)
        else none :=
  clean_typed .number (by simp) .times .countNotNumber hd

theorem clean_loopStatement {bound : Nat} (ih : CompilesBlocks bound) (keyword : Token)
    (hd : d.Stands l types) (hlen : d.ahead.length ≤ bound) :
    (loopStatement (block bound) keyword).clean d =
      (Read.loop (Read.block bound true) keyword d.ahead).bind fun p =>
        p.1.draft? l types d p.2 := by
  rw [loopStatement, clean_openStatement_bind]
  refine (@clean_bind _ _ _ _ _ (fun _ => ?_) _).trans ?_
  · repeat' first | infer_instance | refine @keeps_bind _ _ _ _ ?_ fun _ => ?_
  rw [clean_loopBound hd.deeper, Read.loop]
  simp only [Option.bind_assoc, Option.bind_eq_bind, Option.pure_def, Option.bind_some,
    Statement.draft?_loop]
  refine Option.bind_congr fun p hp => Option.bind_congr fun q hq => ?_
  obtain ⟨count, ts⟩ := p
  obtain ⟨times, ts'⟩ := q
  have hlen' : ts'.length < bound := by
    have h₁ : ts.length < d.ahead.length := Read.length_of_expression hp
    have h₂ : ts'.length < ts.length := Read.length_of_token hq
    omega
  by_cases hcount : count.type? types = some .number ∧ (count.code l.slot).Fits
  · simp only [if_pos hcount, if_pos hcount.1, Option.bind_some]
    rw [clean_loopHead]
    by_cases hroom : l.addLoop.length ≤ Chunk.maxSlots
    · have htest : (d.deeper.extend l.addLoop types
          (count.code l.slot ++ Statement.loopInit l keyword.line) [] ts').chunk.size =
            d.chunk.size + (count.code l.slot).size + 16 := by
        rw [Draft.size_extend, Fragment.size_append, Statement.size_loopInit, ← Nat.add_assoc]
        rfl
      rw [if_pos hroom, htest]
      exact clean_loopBody ih keyword.toSite keyword.line hcount.2 (by rw [count.size_code]) hd hroom
        hlen'
    · rw [if_neg hroom]
      refine (Option.bind_eq_none_iff.2 fun r _ => Option.bind_eq_none_iff.2 fun s _ => ?_).symm
      refine Draft.extend?_of_not (fun h => hroom ?_) ..
      exact Nat.le_trans (Block.prefix_layout r.1 _).length_le h.1
  · simp only [if_neg hcount, Option.bind_none]
    refine (Option.bind_eq_none_iff.2 fun r _ => Option.bind_eq_none_iff.2 fun s _ => ?_).symm
    by_cases hty : count.type? types = some .number
    · refine Draft.extend?_of_not (fun h => hcount ⟨hty, ?_⟩) ..
      exact ((Fragment.fits_append ..).1 h.2).1
    · rw [if_neg hty, Draft.extend?_none]

end CompileM

end BoundedLoop
