import BoundedLoop.Proofs.Codegen.Program
import BoundedLoop.Proofs.Verdicts.Branches

/-!
# The first diagnostic of blocks and programs

Where the tree of a block has too few slots or jumps that cannot be written nothing is said here;
otherwise compiling the block finds first what the first violation of its checks says
(`CompileM.finds_block`, `CompileM.finds_program`).
-/

namespace BoundedLoop

namespace CompileM

variable {l : Layout} {types : Types} {d : Draft} {c : Check} {rest : List Token}

/-! ### Compound statements -/

theorem finds_openStatement {m : CompileM Unit} (h : Finds c m d.deeper) :
    Finds c (openStatement >>= fun _ => m) d := by
  have hopen : openStatement.clean d = some ((), d.deeper) :=
    @clean_modify (fun d => { d with depth := d.depth + 1 }) (fun _ => rfl) d
  exact Finds.of_clean hopen h

theorem finds_ifStatement {bound : Nat} (ih : FindsInBlocks bound) {keyword : Token}
    {s : Statement} (hd : d.Stands l types) (hlen : d.ahead.length < bound)
    (hread : Read.choice (Read.block bound (!d.loops.isEmpty)) bound keyword d.ahead = some (s, rest))
    (hroom : (s.layout l).length ≤ Chunk.maxSlots) (hfits : (s.code l hole d.chunk.size).Fits)
    (hc : judge types s.checks = .error c) : Finds c (ifStatement (block bound) bound keyword) d := by
  simp only [Read.choice, Option.bind_eq_bind, Option.bind_eq_some_iff, Prod.exists] at hread
  obtain ⟨arms, ts, harms, closer, ts', hcloser, hread⟩ := hread
  cases hread
  have harmsFits := ((arms.fits_exits_iff l hole _ _).1 hfits).1
  refine finds_openStatement (Finds.bind ?_)
  exact finds_branches ih bound hd.deeper (Nat.le_of_lt hlen) hlen harms hroom harmsFits hc

/-- What stands in front of the body of a loop. -/
theorem clean_openLoop (keyword : Token) {times : Token} {count : Expression} {ts₁ ts₂ : List Token}
    (hd : d.Stands l types) (hcount : Read.expression d.ahead = some (count, ts₁))
    (htimes : Read.token (.keyword .times) ts₁ = some (times, ts₂))
    (hty : count.type? types = some .number) (hfits : (count.code l.slot).Fits)
    (hroom : l.addLoop.length ≤ Chunk.maxSlots) :
    ∃ head, (do
      let head ← openLoop keyword
      enterLoop
      return head : CompileM (UInt8 × Nat × Chunk.Label)).clean d =
        some (head, d.inLoop.extend l.addLoop types
          (count.code l.slot ++ Statement.loopHead l keyword.line (-1)) [] ts₂) := by
  have hbound := clean_loopBound hd
  rw [hcount, Option.bind_some, htimes, Option.bind_some, if_pos ⟨hty, hfits⟩] at hbound
  simp only [openLoop, bind_assoc, pure_bind]
  rw [clean_bind_of_eq_some hbound, clean_loopHead keyword.toSite keyword.line
    fun counter (test : Draft) exit => pure (counter, test.chunk.size, exit), if_pos hroom]
  exact ⟨_, clean_pure _ _⟩

theorem keeps_closeLoop (keyword closer : Token) (head : UInt8 × Nat × Chunk.Label) :
    Keeps (closeLoop keyword closer head) := by
  unfold closeLoop
  repeat' first | infer_instance | refine @keeps_bind _ _ _ _ ?_ fun _ => ?_

/-- What stands behind the body of a loop. -/
theorem keeps_endLoop (keyword : Token) (head : UInt8 × Nat × Chunk.Label) :
    Keeps (do
      let closer ← peek
      expect (.keyword .endLoop) .endLoop
      closeStatement
      closeLoop keyword closer head
      let aborts ← leaveLoop
      aborts.forM (patch keyword.toSite)) := by
  have := fun closer => keeps_closeLoop keyword closer head
  infer_instance

theorem finds_loopStatement {bound : Nat} (ih : FindsInBlocks bound) {keyword : Token}
    {s : Statement} (hd : d.Stands l types) (hlen : d.ahead.length ≤ bound)
    (hread : Read.loop (Read.block bound true) keyword d.ahead = some (s, rest))
    (hroom : (s.layout l).length ≤ Chunk.maxSlots) (hfits : (s.code l hole d.chunk.size).Fits)
    (hc : judge types s.checks = .error c) : Finds c (loopStatement (block bound) keyword) d := by
  simp only [Read.loop, Option.bind_eq_bind, Option.bind_eq_some_iff, Prod.exists] at hread
  obtain ⟨count, ts₁, hcount, times, ts₂, htimes, body, ts₃, hbody, closer, ts₄, hcloser, hread⟩ :=
    hread
  cases hread
  have hcode : (Statement.loop keyword count times body closer).code l hole d.chunk.size =
      count.code l.slot ++
        Statement.loopCode l keyword.line closer.line (d.chunk.size + count.size + 25) body := by
    have hstop : d.chunk.size + count.size + 25 + Block.size body + 20 =
        d.chunk.size + count.size + Block.size body + 45 := by omega
    simp only [Statement.code, Statement.loopCode, hstop, List.append_assoc]
  rw [hcode, Fragment.fits_append] at hfits
  obtain ⟨hcountFits, hloopFits⟩ := hfits
  have hbodyFits := ((Statement.fits_loopCode_iff _ _ _ _ _).1 hloopFits).1
  rw [Statement.checks, List.append_cons] at hc
  rcases judge_append_eq_error hc with hc | ⟨types', hok, hc'⟩
  · have hfinds := finds_loopBound hd.deeper hcount hcountFits hc
    rw [loopStatement]
    refine finds_openStatement (@Finds.bind _ _ _ _ _ _ hfinds fun _ => ?_)
    repeat' first | infer_instance | refine @keeps_bind _ _ _ _ ?_ fun _ => ?_
  · obtain ⟨hty, rfl⟩ := type?_of_judge .number Iff.rfl rfl hok
    have hadd : l.addLoop.length ≤ Chunk.maxSlots :=
      Nat.le_trans (Block.prefix_layout body _).length_le hroom
    obtain ⟨head, hhead⟩ :=
      clean_openLoop keyword hd.deeper hcount htimes hty hcountFits hadd
    have hlen₂ : ts₂.length < bound := by
      have h₁ : ts₁.length < d.ahead.length := Read.length_of_expression hcount
      have h₂ : ts₂.length < ts₁.length := Read.length_of_token htimes
      omega
    have hstands : (d.deeper.inLoop.extend l.addLoop types'
        (count.code l.slot ++ Statement.loopHead l keyword.line (-1)) [] ts₂).Stands
          l.addLoop types' :=
      hd.deeper.inLoop.extend hadd (Declares.mono hd.declared l.prefix_addLoop)
    have hsize : (d.deeper.inLoop.extend l.addLoop types'
        (count.code l.slot ++ Statement.loopHead l keyword.line (-1)) [] ts₂).chunk.size =
          d.chunk.size + count.size + 25 := by
      rw [Draft.size_extend, Fragment.size_append, Statement.size_loopHead, count.size_code,
        ← Nat.add_assoc]
      rfl
    have hbody' : Finds c (block bound) (d.deeper.inLoop.extend l.addLoop types'
        (count.code l.slot ++ Statement.loopHead l keyword.line (-1)) [] ts₂) := by
      refine ih _ types' _ body ts₃ c hstands hlen₂ ?_ hroom ?_ hc'
      · rw [Draft.isEmpty_loops_extend]
        exact hbody
      · rw [hsize]
        exact hbodyFits
    have heq : loopStatement (block bound) keyword = (do
        openStatement
        let head ← (do
          let head ← openLoop keyword
          enterLoop
          return head : CompileM (UInt8 × Nat × Chunk.Label))
        block bound
        let closer ← peek
        expect (.keyword .endLoop) .endLoop
        closeStatement
        closeLoop keyword closer head
        let aborts ← leaveLoop
        aborts.forM (patch keyword.toSite)) := by
      simp only [loopStatement_eq, bind_assoc, pure_bind]
    rw [heq]
    refine finds_openStatement (Finds.of_clean hhead ?_)
    exact @Finds.bind _ _ _ _ _ _ hbody' fun _ => keeps_endLoop keyword head

/-! ### Statements, blocks and programs -/

theorem finds_advance {m : CompileM Unit} {t : Token} {ts : List Token} (hahead : d.ahead = t :: ts)
    (h : Finds c m { d with ahead := ts }) : Finds c (advance >>= fun _ => m) d := by
  refine Finds.of_clean (clean_advance d) ?_
  rw [hahead]
  exact h

theorem finds_statement {bound : Nat} (ih : FindsInBlocks bound) {s : Statement}
    (hd : d.Stands l types) (hlen : d.ahead.length ≤ bound)
    (hread : Read.statement (Read.block bound) (!d.loops.isEmpty) bound d.ahead = some (s, rest))
    (hroom : (s.layout l).length ≤ Chunk.maxSlots) (hfits : (s.code l hole d.chunk.size).Fits)
    (hc : judge types s.checks = .error c) : Finds c (statement (block bound) bound) d := by
  rw [statement]
  refine Finds.of_clean (clean_peek d) ?_
  cases hahead : d.ahead with
  | nil =>
    rw [hahead] at hread
    cases hread
  | cons t ts =>
    rw [hahead] at hread hlen
    rw [List.length_cons] at hlen
    rw [next_of_cons hahead]
    -- an assignment takes the slot of its target first
    have hassign (hread : Read.assignment t ts = some (s, rest)) : Finds c (assignment t)
        { d with ahead := ts } := by
      have hread' := hread
      simp only [Read.assignment, Option.bind_eq_bind, Option.bind_eq_some_iff, Prod.exists] at hread'
      obtain ⟨name, -, arrow, _, -, value, _, -, heq⟩ := hread'
      cases heq
      rw [Statement.code, Fragment.fits_append] at hfits
      exact finds_assignment (hd.ahead ts) hread hroom hfits.1 hc
    rw [Read.statement] at hread
    cases hkind : t.kind with
    | identifier =>
      rw [hkind] at hread
      exact finds_advance hahead (hassign hread)
    | keyword k =>
      rw [hkind] at hread
      cases k with
      | output => exact finds_advance hahead (hassign hread)
      | ifWord =>
        exact finds_advance hahead (finds_ifStatement ih (hd.ahead ts) hlen hread hroom hfits hc)
      | loop =>
        exact finds_advance hahead
          (finds_loopStatement ih (hd.ahead ts) (Nat.le_of_lt hlen) hread hroom hfits hc)
      | abortLoop =>
        simp only [Option.ite_none_right_eq_some] at hread
        cases hread.2
        cases hc
      | _ => cases hread
    | _ =>
      rw [hkind] at hread
      cases hread

/-- A statement that passes, and what stands behind it. -/
theorem clean_statement_of_check {bound : Nat} {s : Statement} {types' : Types}
    (hd : d.Stands l types) (hlen : d.ahead.length ≤ bound)
    (hread : Read.statement (Read.block bound) (!d.loops.isEmpty) bound d.ahead = some (s, rest))
    (hroom : (s.layout l).length ≤ Chunk.maxSlots) (hfits : (s.code l hole d.chunk.size).Fits)
    (hok : judge types s.checks = .ok types') :
    (attempt (statement (block bound) bound)).clean d =
        some ((), d.extend (s.layout l) types' (s.code l hole d.chunk.size)
          (s.aborts d.chunk.size) rest) ∧
      (d.extend (s.layout l) types' (s.code l hole d.chunk.size) (s.aborts d.chunk.size) rest).Stands
        (s.layout l) types' := by
  have hcheck : s.check types = some types' := by
    rw [← s.judge_checks, hok]
    rfl
  refine ⟨?_, hd.extend hroom (s.declares_check hd.declared hcheck)⟩
  rw [clean_attempt _ hd.sound, clean_statement (clean_block bound) hd hlen, hread,
    Option.bind_some, Statement.draft?, hcheck]
  exact Draft.extend?_of_fits hroom hfits _ _ _ _

/-- The first diagnostic of a statement, or of what stands behind it. -/
theorem finds_statement_bind {bound : Nat} (ih : FindsInBlocks bound) {s : Statement}
    {more : List Check} {m : CompileM Unit} [Keeps m] (hd : d.Stands l types)
    (hlen : d.ahead.length ≤ bound)
    (hread : Read.statement (Read.block bound) (!d.loops.isEmpty) bound d.ahead = some (s, rest))
    (hroom : (s.layout l).length ≤ Chunk.maxSlots) (hfits : (s.code l hole d.chunk.size).Fits)
    (hc : judge types (s.checks ++ more) = .error c)
    (hmore : ∀ d' : Draft, d'.ahead = rest → d'.loops.isEmpty = d.loops.isEmpty →
      d'.chunk.size = d.chunk.size + s.size →
      ∀ types', d'.Stands (s.layout l) types' → judge types' more = .error c → Finds c m d') :
    Finds c (attempt (statement (block bound) bound) >>= fun _ => m) d := by
  rcases judge_append_eq_error hc with hc | ⟨types', hok, hc⟩
  · exact (finds_statement ih hd hlen hread hroom hfits hc).attempt.bind
  · obtain ⟨hclean, hstands⟩ := clean_statement_of_check hd hlen hread hroom hfits hok
    refine Finds.of_clean hclean (hmore _ Draft.ahead_extend Draft.isEmpty_loops_extend ?_ types'
      hstands hc)
    rw [Draft.size_extend, s.size_code]

theorem finds_block : ∀ bound : Nat, FindsInBlocks bound
  | 0, _, _, _, _, _, _, _, hlen, _, _, _, _ => absurd hlen (Nat.not_lt_zero _)
  | bound + 1, l, types, d, ss, rest, c, hd, hlen, hread, hroom, hfits, hc => by
    have ih := finds_block bound
    rw [block]
    refine Finds.of_clean (clean_peek d) ?_
    cases hahead : d.ahead with
    | nil =>
      rw [hahead] at hread
      cases hread
    | cons t ts =>
      rw [next_of_cons hahead]
      rw [hahead, Read.block] at hread
      by_cases hclose : t.kind.closesBlock
      · rw [if_pos hclose] at hread
        cases hread
        cases hc
      · rw [if_neg hclose] at hread ⊢
        simp only [Option.bind_eq_bind, Option.bind_eq_some_iff, Prod.exists] at hread
        obtain ⟨s, ts₁, hs, ss, ts₂, hss, hread⟩ := hread
        cases hread
        have heof : t.kind ≠ .eof := by
          intro heof
          rw [Read.statement, heof] at hs
          cases hs
        have hlen₁ : ts₁.length < (t :: ts).length := Read.length_of_statement hs
        rw [← hahead] at hs hlen₁
        rw [Block.code, Fragment.fits_append] at hfits
        rw [if_neg heof]
        refine finds_statement_bind ih hd (Nat.le_of_lt_succ hlen) hs
          (Nat.le_trans (Block.prefix_layout ss _).length_le hroom) hfits.1 hc ?_
        intro d' hahead' hloops hsize types' hd' hc
        rw [← hloops, ← hahead'] at hss
        rw [← hsize] at hfits
        refine ih _ types' d' ss rest c hd' ?_ hss hroom hfits.2 hc
        rw [hahead']
        omega

/-- The first diagnostic of a program. -/
theorem finds_program : ∀ (bound : Nat) {l : Layout} {types : Types} {d : Draft} {p : Program}
    {rest : List Token} {c : Check}, d.Stands l types → d.loops = [] →
      (∀ t ∈ d.ahead, t.kind ≠ .eof) → d.ahead.length < bound →
      Read.program bound d.ahead = some (p, rest) → (Block.layout l p).length ≤ Chunk.maxSlots →
      (Block.code l hole d.chunk.size p).Fits → judge types (Block.checks p) = .error c →
      Finds c (program bound) d
  | 0, _, _, _, _, _, _, _, _, _, hlen, _, _, _, _ => absurd hlen (Nat.not_lt_zero _)
  | bound + 1, l, types, d, p, rest, c, hd, hloops, hkinds, hlen, hread, hroom, hfits, hc => by
    rw [program]
    refine Finds.of_clean (clean_peek d) ?_
    cases hahead : d.ahead with
    | nil =>
      rw [hahead] at hread
      cases hread
      cases hc
    | cons t ts =>
      rw [next_of_cons hahead, if_neg (hkinds t (by rw [hahead]; exact List.mem_cons_self))]
      rw [hahead, Read.program] at hread
      simp only [Option.bind_eq_bind, Option.bind_eq_some_iff, Prod.exists] at hread
      obtain ⟨s, ts₁, hs, ss, ts₂, hss, hread⟩ := hread
      cases hread
      rw [← hahead] at hs
      have hlen₁ : ts₁.length < d.ahead.length := Read.length_of_statement hs
      have hkinds₁ : ∀ t ∈ ts₁, t.kind ≠ .eof := by
        intro t' ht'
        rw [(Read.statement_sound (Read.block_sound bound) hs).1] at hkinds
        exact hkinds t' (List.mem_append_right _ ht')
      have hinLoop : (!d.loops.isEmpty) = false := by
        rw [hloops]
        rfl
      rw [← hinLoop] at hs
      rw [Block.code, Fragment.fits_append] at hfits
      refine finds_statement_bind (finds_block bound) hd (Nat.le_of_lt_succ hlen) hs
        (Nat.le_trans (Block.prefix_layout ss _).length_le hroom) hfits.1 hc ?_
      intro d' hahead' hloops' hsize types' hd' hc
      rw [← hahead'] at hss hkinds₁
      rw [← hsize] at hfits
      refine finds_program bound hd' ?_ hkinds₁ ?_ hss hroom hfits.2 hc
      · rw [hloops] at hloops'
        exact List.isEmpty_iff.1 hloops'
      · rw [hahead']
        omega

end CompileM

end BoundedLoop
