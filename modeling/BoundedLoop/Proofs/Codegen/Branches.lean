import BoundedLoop.Proofs.Codegen.Draft

/-!
# What compiling an `IF` comes to

The jumps that leave the arms of an `IF` stay open until its end is known, so the arms are first
compiled with holes (`CompileM.clean_branches`). The end of the `IF` fills them
(`CompileM.clean_ifStatement`).
-/

namespace BoundedLoop

namespace CompileM

variable {β : Type} {l : Layout} {types : Types} {d : Draft}

/-! ### Branches -/

/-- An expression of the type `want`, and the keyword behind it. -/
theorem clean_typed (want : Ty) {kind : Token.Kind} (hkind : kind ≠ .eof) (wanted : Expectation)
    (problem : Ty → Problem) (hd : d.Stands l types) :
    (do
      let start ← peek
      let ty ← expression
      if ty = want then expect kind wanted
      else fail start.toSite (problem ty) : CompileM Unit).clean d =
      (Read.expression d.ahead).bind fun p => (Read.token kind p.2).bind fun q =>
        if p.1.type? types = some want ∧ (p.1.code l.slot).Fits then
          some ((), d.extend l types (p.1.code l.slot) [] q.2)
        else none := by
  simp only [← hd.write_eq_extend hd.slots]
  rw [clean_peek_bind, clean_bind, clean_expression hd.toKnows, Option.bind_assoc]
  refine Option.bind_congr fun p _ => ?_
  obtain ⟨e, rest⟩ := p
  simp only [Expression.draft?, Option.bind_assoc, clean_ite, clean_fail]
  cases hty : e.type? types with
  | none => simp
  | some ty =>
    by_cases hfits : (e.code l.slot).Fits
    · simp only [if_pos hfits, Option.bind_some, Option.some.injEq,
        clean_expect kind hkind wanted (hd.write rest _).finish]
      by_cases hwant : ty = want
      · cases Read.token kind rest <;> simp [hwant, hfits]
      · simp [hwant]
    · simp [hfits]

theorem clean_condition (keyword : Token) (hd : d.Stands l types) :
    (condition keyword).clean d =
      (Read.expression d.ahead).bind fun p => (Read.token (.keyword .thenWord) p.2).bind fun q =>
        if p.1.type? types = some .boolean ∧ (p.1.code l.slot).Fits then
          some ((), d.extend l types (p.1.code l.slot) [] q.2)
        else none :=
  clean_typed .boolean (by simp) .thenWord (.conditionNotBoolean keyword.text) hd

/-- What compiling a block comes to, for blocks of fewer than `bound` tokens. -/
def CompilesBlocks (bound : Nat) : Prop :=
  ∀ l types d, Draft.Stands d l types → d.ahead.length < bound →
    (block bound).clean d =
      (Read.block bound (!d.loops.isEmpty) d.ahead).bind fun p => Block.draft? l types d p.1 p.2

/-- The body of an arm, behind the code of its condition. -/
theorem clean_armBody {bound : Nat} (ih : CompilesBlocks bound) (site : Site) (line : Nat)
    (f : Chunk.Label → CompileM β) [∀ label, Keeps (f label)] {condition : Fragment}
    (hcondition : condition.Fits) {k : Nat} (hk : k = d.chunk.size + condition.size)
    {rest : List Token} (hd : d.Stands l types) (hlen : rest.length < bound) :
    (do
      let skip ← reserve .ifFalse line
      emit .pop line
      block bound
      let exit ← reserve .always line
      patch site skip
      emit .pop line
      f exit : CompileM β).clean (d.extend l types condition [] rest) =
      (Read.block bound (!d.loops.isEmpty) rest).bind fun r =>
        (d.extend? (Block.layout l r.1) (Block.check types r.1)
          (Arms.armCode line condition (Block.code l hole (k + 4) r.1) (-1))
          (Block.aborts (k + 4) r.1) r.2).bind fun s =>
            (f ⟨k + Block.size r.1 + 4 + 1⟩).clean s.2 := by
  have : ∀ exit, Keeps (do
      emit .pop line
      f exit : CompileM β) := inferInstance
  rw [clean_reserve_extend, clean_emit_extend, clean_bind,
    ih l types _ (hd.extend hd.room hd.declared) hlen, Draft.isEmpty_loops_extend,
    Draft.ahead_extend, Option.bind_assoc]
  refine Option.bind_congr fun r _ => ?_
  obtain ⟨body, rest'⟩ := r
  have hsize : d.chunk.size + Fragment.size (condition ++ [.jump .ifFalse (-1) line] ++
      [.op .pop line]) = k + 4 := by
    simp
    omega
  simp only [Block.draft?, Draft.extend?, Option.bind_assoc, Draft.extend_extend,
    Draft.size_extend, hsize]
  refine Option.bind_congr fun types' _ => ?_
  -- the jump over the body ends behind the jump that leaves the arm
  have hskip : ((Fragment.size (.op .pop line :: (Block.code l hole (k + 4) body ++
      [.jump .always (-1) line])) : Nat) : Int) = Block.size body + 4 := by
    simp [Block.size_code]
    omega
  have hexit : d.chunk.size + Fragment.size (condition ++ .jump .ifFalse (-1) line ::
      .op .pop line :: Block.code l hole (k + 4) body) = k + Block.size body + 4 := by
    simp [Block.size_code]
    omega
  have hfits : (Arms.armCode line condition (Block.code l hole (k + 4) body) (-1)).Fits ↔
      FitsJump (Block.size body + 4) ∧ (Block.code l hole (k + 4) body).Fits := by
    have : FitsJump (-1) := by decide
    simp [Arms.armCode, Block.size_code, hcondition, this]
  by_cases hbody : (Block.layout l body).length ≤ Chunk.maxSlots ∧
      (Block.code l hole (k + 4) body).Fits
  · rw [if_pos hbody, Option.bind_some, clean_reserve_extend, clean_bind]
    simp only [List.append_assoc, List.cons_append, List.nil_append]
    rw [clean_patch_extend site _ _ _ _ rfl, hskip, hexit]
    by_cases hjump : FitsJump (Block.size body + 4)
    · rw [if_pos hjump, if_pos ⟨hbody.1, hfits.2 ⟨hjump, hbody.2⟩⟩, Option.bind_some,
        Option.bind_some, clean_emit_extend]
      simp [Arms.armCode, Block.size_code]
    · rw [if_neg hjump, if_neg fun h => hjump (hfits.1 h.2).1]
      rfl
  · rw [if_neg hbody, if_neg fun h => hbody ⟨h.1, (hfits.1 h.2).2⟩]
    rfl

theorem clean_arm {bound : Nat} (ih : CompilesBlocks bound) (keyword : Token)
    (f : Chunk.Label → CompileM β) [∀ label, Keeps (f label)] (hd : d.Stands l types)
    (hlen : d.ahead.length ≤ bound) :
    (do
      condition keyword
      let skip ← reserve .ifFalse keyword.line
      emit .pop keyword.line
      block bound
      let exit ← reserve .always keyword.line
      patch keyword.toSite skip
      emit .pop keyword.line
      f exit : CompileM β).clean d =
      (Read.expression d.ahead).bind fun p => (Read.token (.keyword .thenWord) p.2).bind fun q =>
        (Read.block bound (!d.loops.isEmpty) q.2).bind fun r =>
          (d.extend? (Block.layout l r.1) (Arms.armCheck types p.1 r.1)
            (Arms.armCode keyword.line (p.1.code l.slot)
              (Block.code l hole (d.chunk.size + p.1.size + 4) r.1) (-1))
            (Block.aborts (d.chunk.size + p.1.size + 4) r.1) r.2).bind fun s =>
              (f ⟨d.chunk.size + p.1.size + Block.size r.1 + 4 + 1⟩).clean s.2 := by
  have : ∀ exit, Keeps (do
      emit .pop keyword.line
      f exit : CompileM β) := inferInstance
  rw [clean_bind, clean_condition keyword hd]
  simp only [Option.bind_assoc]
  refine Option.bind_congr fun p hp => Option.bind_congr fun q hq => ?_
  obtain ⟨cond, ts⟩ := p
  obtain ⟨thenWord, ts'⟩ := q
  have hlen' : ts'.length < bound := by
    have h₁ : ts.length < d.ahead.length := Read.length_of_expression hp
    have h₂ : ts'.length < ts.length := Read.length_of_token hq
    omega
  by_cases hcond : cond.type? types = some .boolean ∧ (cond.code l.slot).Fits
  · simp only [if_pos hcond, Option.bind_some, Arms.armCheck, if_pos hcond.1]
    exact clean_armBody ih keyword.toSite keyword.line f hcond.2 (by rw [cond.size_code]) hd hlen'
  · rw [if_neg hcond, Option.bind_none]
    refine (Option.bind_eq_none_iff.2 fun r _ => Option.bind_eq_none_iff.2 fun s hs => ?_).symm
    by_cases hty : cond.type? types = some .boolean
    · rw [Draft.extend?_of_not] at hs
      · cases hs
      · rintro ⟨-, hfits⟩
        simp only [Arms.armCode, Fragment.fits_append] at hfits
        exact hcond ⟨hty, hfits.1.1⟩
    · rw [Arms.armCheck, if_neg hty] at hs
      cases hs

theorem clean_branches {bound : Nat} (ih : CompilesBlocks bound) :
    ∀ (k : Nat) (keyword : Token) {l : Layout} {types : Types} {d : Draft}, d.Stands l types →
      d.ahead.length ≤ bound → d.ahead.length < k →
      (branches (block bound) k keyword).clean d =
        (Read.arms (Read.block bound (!d.loops.isEmpty)) k keyword d.ahead).bind fun p =>
          (p.1.draft? l types d p.2).map fun q =>
            ((p.1.exits d.chunk.size).map fun j => (⟨j + 1⟩ : Chunk.Label), q.2)
  | 0, _, _, _, _, _, _, hk => absurd hk (Nat.not_lt_zero _)
  | k + 1, keyword, l, types, d, hd, hlen, hk => by
    rw [branches, clean_arm ih keyword _ hd hlen, Read.arms]
    simp only [Option.bind_eq_bind, Option.bind_assoc]
    refine Option.bind_congr fun p hp => Option.bind_congr fun q hq => Option.bind_congr fun r hr => ?_
    obtain ⟨condition, ts₁⟩ := p
    obtain ⟨thenWord, ts₂⟩ := q
    obtain ⟨body, ts₃⟩ := r
    have hsize : d.chunk.size + (Arms.armCode keyword.line (condition.code l.slot)
        (Block.code l hole (d.chunk.size + condition.size + 4) body) (-1)).size =
          d.chunk.size + condition.size + Block.size body + 8 := by
      rw [Arms.size_armCode, condition.size_code, Block.size_code]
      omega
    have hstands : ∀ t, Arms.armCheck types condition body = some t →
        (Block.layout l body).length ≤ Chunk.maxSlots → ∀ ts,
          (d.extend (Block.layout l body) t (Arms.armCode keyword.line (condition.code l.slot)
            (Block.code l hole (d.chunk.size + condition.size + 4) body) (-1))
            (Block.aborts (d.chunk.size + condition.size + 4) body) ts).Stands
              (Block.layout l body) t := by
      intro t ht hroom ts
      simp only [Arms.armCheck, Option.ite_none_right_eq_some] at ht
      exact hd.extend hroom (Block.declares_check body hd.declared ht.2)
    have hlen₁ : ts₁.length < d.ahead.length := Read.length_of_expression hp
    have hlen₂ : ts₂.length < ts₁.length := Read.length_of_token hq
    cases helse : Read.token (.keyword .elseWord) ts₃ with
    | none =>
      simp only [Option.pure_def, Option.bind_some, Arms.draft?, Arms.layout, Arms.check_last,
        Arms.code, Arms.aborts, Arms.exits]
      refine Draft.bind_extend? _ (Block.prefix_layout [] _) fun t _ hroom => ?_
      rw [clean_accept_extend (by simp) hd.finish, helse]
      simp [Draft.extend?, Draft.extend_extend, Block.check, Block.code, Block.aborts, Block.layout,
        hroom]
    | some e =>
      obtain ⟨elseWord, ts₄⟩ := e
      have hlen₃ : ts₃.length ≤ ts₂.length := Read.length_of_block hr
      have hlen₄ : ts₄.length < ts₃.length := Read.length_of_token helse
      simp only
      cases hif : Read.token (.keyword .ifWord) ts₄ with
      | some e' =>
        obtain ⟨follower, ts₅⟩ := e'
        obtain ⟨-, rfl⟩ := Read.token_eq_some hif
        simp only [List.length_cons] at hlen₄
        simp only [Option.pure_def, Option.bind_assoc, Option.bind_some, Arms.draft?, Arms.layout,
          Arms.check_elseIf, Arms.code, Arms.aborts, Arms.exits]
        refine Draft.bind_bind_extend? _ (fun x => x.1.prefix_layout _) fun t ht hroom => ?_
        rw [clean_accept_extend (by simp) hd.finish, helse]
        simp only [if_true]
        rw [clean_peek_bind, clean_accept_extend (by simp) hd.finish, hif]
        simp only [if_true]
        rw [Draft.next_extend_cons, clean_bind, clean_branches ih k follower
          (hstands t ht hroom ts₅) (by rw [Draft.ahead_extend]; omega)
          (by rw [Draft.ahead_extend]; omega), Draft.isEmpty_loops_extend, Draft.ahead_extend,
          Option.bind_assoc]
        refine Option.bind_congr fun x _ => ?_
        simp only [Arms.draft?, Draft.size_extend, hsize, Draft.extend?, Draft.extend_extend,
          clean_pure, List.map_cons]
        cases x.1.check t with
        | none => rfl
        | some types' => simp only [Option.bind_some]; split <;> rfl
      | none =>
        simp only [Option.pure_def, Option.bind_assoc, Option.bind_some, Arms.draft?, Arms.layout,
          Arms.check_last, Arms.code, Arms.aborts, Arms.exits]
        refine Draft.bind_bind_extend? _ (fun x => Block.prefix_layout x.1 _) fun t ht hroom => ?_
        rw [clean_accept_extend (by simp) hd.finish, helse]
        simp only [if_true]
        rw [clean_peek_bind, clean_accept_extend (by simp) hd.finish, hif]
        simp only [Bool.false_eq_true, if_false]
        rw [clean_bind, ih _ _ _ (hstands t ht hroom ts₄) (by rw [Draft.ahead_extend]; omega),
          Draft.isEmpty_loops_extend, Draft.ahead_extend, Option.bind_assoc]
        refine Option.bind_congr fun x _ => ?_
        simp only [Block.draft?, Draft.size_extend, hsize, Draft.extend?, Draft.extend_extend,
          clean_pure]
        cases Block.check t x.1 with
        | none => rfl
        | some types' => simp only [Option.bind_some]; split <;> rfl

theorem clean_ifStatement {bound : Nat} (ih : CompilesBlocks bound) (keyword : Token)
    (hd : d.Stands l types) (hlen : d.ahead.length < bound) :
    (ifStatement (block bound) bound keyword).clean d =
      (Read.choice (Read.block bound (!d.loops.isEmpty)) bound keyword d.ahead).bind fun p =>
        p.1.draft? l types d p.2 := by
  have hopen : d.deeper.Stands l types := hd.deeper
  rw [ifStatement, clean_openStatement_bind, clean_bind,
    clean_branches ih bound keyword hopen (Nat.le_of_lt hlen) hlen, Read.choice,
    Draft.chunk_deeper]
  simp only [Option.bind_eq_bind, Option.bind_assoc]
  refine Option.bind_congr fun p _ => ?_
  obtain ⟨arms, ts⟩ := p
  have hfits := arms.fits_exits_iff l hole (d.chunk.size + arms.size) d.chunk.size
  have hland := arms.land_exits l hole (d.chunk.size + arms.size) d.chunk.size
    { d.chunk with slotCount := (arms.layout l).length } [] [] rfl
  simp only [List.nil_append, List.append_nil] at hland
  simp only [Arms.draft?, Draft.chunk_deeper, Option.pure_def, Option.bind_some]
  cases hcheck : arms.check types with
  | none =>
    cases Read.token (.keyword .endIf) ts <;>
      simp [Statement.draft?, Statement.check, hcheck, Draft.extend?_none]
  | some types' =>
    by_cases h : (arms.layout l).length ≤ Chunk.maxSlots ∧
        (arms.code l hole hole d.chunk.size).Fits
    · rw [Draft.extend?_of_fits h.1 h.2]
      simp only [Option.map_some, Option.bind_some]
      rw [clean_expect_extend (by simp) _ hopen.finish]
      refine Option.bind_congr fun q _ => ?_
      rw [clean_closeStatement_extend, clean_forM_patch, Draft.size_extend, arms.size_code,
        Statement.draft?, Statement.layout, Statement.check, hcheck, Statement.code,
        Statement.aborts]
      by_cases hexits : ∀ k ∈ arms.exits d.chunk.size,
          FitsJump (jumpDistance (d.chunk.size + arms.size) k)
      · rw [if_pos hexits, Draft.extend?_of_fits h.1 (hfits.2 ⟨h.2, hexits⟩)]
        simp only [Draft.extend, hland]
      · rw [if_neg hexits, Draft.extend?_of_not fun h' => hexits (hfits.1 h'.2).2]
    · rw [Draft.extend?_of_not h, Option.map_none, Option.bind_none]
      refine (Option.bind_eq_none_iff.2 fun q _ => ?_).symm
      rw [Statement.draft?, Statement.layout, Statement.code]
      exact Draft.extend?_of_not (fun h' => h ⟨h'.1, (hfits.1 h'.2).1⟩) ..

end CompileM

end BoundedLoop
