import BoundedLoop.Proofs.Bookkeeping.Changes
import BoundedLoop.Proofs.Codegen.Statement
import BoundedLoop.Proofs.Recovery.Compound
import BoundedLoop.Proofs.Verdicts.Expression

/-!
# The first diagnostic of assignments and arms

Compiling goes on behind a statement that fails, so many diagnostics may come of one block. The first
one is about the first check of its tree that fails: up to there compiling is clean, and no diagnostic
is taken back behind it (`CompileM.Finds.of_clean`, `CompileM.Finds.bind`).
-/

namespace BoundedLoop

/-- The first diagnostic is about the failure of `c`. -/
def Draft.Reports (d : Draft) (c : Check) : Prop :=
  ∃ first rest, d.diagnostics.toList = first :: rest ∧ c.Blames first

theorem Draft.Reports.mono {d d' : Draft} {c : Check} (h : d.Reports c)
    (hstart : d.diagnostics.toList <+: d'.diagnostics.toList) : d'.Reports c := by
  obtain ⟨first, rest, hdiag, hblames⟩ := h
  obtain ⟨more, hmore⟩ := hstart
  exact ⟨first, rest ++ more, by rw [← hmore, hdiag, List.cons_append], hblames⟩

/-- A diagnostic is the first to be recorded where none was. -/
theorem Draft.reports_record {d : Draft} {c : Check} {found : Diagnostic}
    (hd : d.diagnostics = #[]) (h : c.Blames found) : (d.record found).Reports c := by
  refine ⟨found, [], ?_, h⟩
  unfold record
  rw [if_neg (by simp [hd]), hd]
  rfl

/-- Reading on does not change what is known. -/
theorem Draft.Stands.ahead {d : Draft} {l : Layout} {types : Types} (h : d.Stands l types)
    (ts : List Token) : Draft.Stands { d with ahead := ts } l types :=
  ⟨⟨h.scope, h.finish, h.declared⟩, h.slots, h.room, h.sound⟩

namespace CompileM

section Finds

variable {α β : Type} {m : CompileM α} {f : α → CompileM β} {d d' : Draft} {a : α} {c : Check}

/-- The draft that a computation leaves behind, its failure recorded. -/
def records (m : CompileM α) (d : Draft) : Draft :=
  match m d with
  | .ok _ d' => d'
  | .error found d' => d'.record found

/-- The first diagnostic that the computation finds is about the failure of `c`. -/
def Finds (c : Check) (m : CompileM α) (d : Draft) : Prop := (m.records d).Reports c

theorem Finds.of_error {found : Diagnostic} (h : m d = .error found d')
    (hd' : d'.diagnostics = #[]) (hblames : c.Blames found) : Finds c m d := by
  unfold Finds records
  rw [h]
  exact Draft.reports_record hd' hblames

/-- What has been found first stays first, whatever follows. -/
theorem Finds.bind (h : Finds c m d) [hf : ∀ a, Keeps (f a)] : Finds c (m >>= f) d := by
  unfold Finds records at h ⊢
  show Draft.Reports (match EStateM.bind m f d with
    | .ok _ d' => d'
    | .error found d' => d'.record found) c
  unfold EStateM.bind
  cases hm : m d with
  | error found d' =>
    rw [hm] at h
    exact h
  | ok a d' =>
    rw [hm] at h
    have hkeeps := (hf a).keeps d'
    unfold leaves at hkeeps
    simp only
    cases hrun : f a d' with
    | ok b d'' =>
      rw [hrun] at hkeeps
      exact h.mono hkeeps
    | error found d'' =>
      rw [hrun] at hkeeps
      exact h.mono (hkeeps.trans (keeps_record d'' found))

/-- Behind a clean computation it is what follows that finds something. -/
theorem Finds.of_clean (hm : m.clean d = some (a, d')) (h : Finds c (f a) d') :
    Finds c (m >>= f) d := by
  unfold Finds records at h ⊢
  rw [bind_apply_of_clean hm]
  exact h

theorem Finds.attempt {s : CompileM Unit} (h : Finds c s d) : Finds c (attempt s) d := by
  unfold Finds records at h ⊢
  rw [attempt_apply]
  cases hs : s d with
  | ok a d' =>
    rw [hs] at h
    exact h
  | error found d' =>
    rw [hs] at h
    exact h

theorem Finds.accept_some (kind : Token.Kind) (hkind : kind ≠ .eof) (hfinish : d.finish.kind = .eof)
    {t : Token} {ts : List Token} (hread : Read.token kind d.ahead = some (t, ts))
    {f : Bool → CompileM β} (h : Finds c (f true) { d with ahead := ts }) :
    Finds c (accept kind >>= f) d := by
  have haccept := clean_accept kind hkind hfinish
  rw [hread] at haccept
  exact Finds.of_clean haccept h

theorem Finds.accept_none (kind : Token.Kind) (hkind : kind ≠ .eof) (hfinish : d.finish.kind = .eof)
    (hread : Read.token kind d.ahead = none) {f : Bool → CompileM β} (h : Finds c (f false) d) :
    Finds c (accept kind >>= f) d := by
  have haccept := clean_accept kind hkind hfinish
  rw [hread] at haccept
  exact Finds.of_clean haccept h

end Finds

variable {β : Type} {l : Layout} {types : Types} {d : Draft} {c : Check} {e : Expression}
  {rest : List Token}

/-! ### Expressions -/

theorem types_of_knows (h : d.Knows l types) : d.types = types := by
  funext name
  rw [Draft.types, h.scope, readable?_of h.declared, Option.map_map]
  exact Option.map_id'

/-- Whether the code of an expression fits does not depend on its slots. -/
theorem fits_code_slot (slot slot' : String → UInt8) (h : (e.code slot).Fits) :
    (e.code slot').Fits := by
  induction e with
  | constant | reference => simp [Expression.code]
  | group opening e closing ih => exact ih h
  | negation t e ih =>
    simp only [Expression.code, Fragment.fits_append] at h ⊢
    exact ⟨ih h.1, h.2⟩
  | binary left t op right ihl ihr =>
    have hsize : (right.code slot).size = (right.code slot').size := by
      rw [right.size_code, right.size_code]
    simp only [Expression.code, Fragment.fits_append] at h ⊢
    refine ⟨ihl h.1, ?_⟩
    have hr := h.2
    cases op with
    | or | and =>
      simp only [BinaryOp.code, Fragment.fits_cons_jump, Fragment.fits_cons_op, hsize] at hr ⊢
      tauto
    | _ =>
      simp only [BinaryOp.code, Fragment.fits_append] at hr ⊢
      exact ⟨ihr hr.1, hr.2⟩

theorem finds_expression (hknows : d.Knows l types) (hd : d.diagnostics = #[])
    (hread : Read.expression d.ahead = some (e, rest)) (hfits : (e.code l.slot).Fits)
    (hc : judge types e.checks = .error c) : Finds c expression d := by
  rw [← types_of_knows hknows] at hc
  obtain ⟨found, d', hrun, hd', hblames⟩ :=
    expression_of_judge hknows.finish hread (fits_code_slot _ _ hfits) hc
  exact .of_error hrun (hd'.trans hd) hblames

theorem clean_expression_of_type? {ty : Ty} (hknows : d.Knows l types)
    (hread : Read.expression d.ahead = some (e, rest)) (hfits : (e.code l.slot).Fits)
    (hty : e.type? types = some ty) :
    expression.clean d =
      some (ty, { d with ahead := rest, chunk := d.chunk.append (e.code l.slot) }) := by
  rw [clean_expression hknows, hread, Option.bind_some, Expression.draft?, hty, Option.bind_some,
    if_pos hfits]

theorem next_of_expression (hread : Read.expression d.ahead = some (e, rest)) :
    d.next = e.start := by
  obtain ⟨ts, hts⟩ := e.tokens_eq_start_cons
  have hahead := (Read.expression_sound hread).1
  rw [hts] at hahead
  exact next_of_cons hahead

/-- The first diagnostic of an expression, or of the check behind it, which is left to `f`. -/
theorem finds_expression_bind {check : Check} {f : Ty → CompileM β} [∀ ty, Keeps (f ty)]
    (hknows : d.Knows l types) (hd : d.diagnostics = #[])
    (hread : Read.expression d.ahead = some (e, rest)) (hfits : (e.code l.slot).Fits)
    (hc : judge types (e.checks ++ [check]) = .error c)
    (hf : ∀ ty, e.type? types = some ty → ¬ check.Passes types → Finds check (f ty)
      { d with ahead := rest, chunk := d.chunk.append (e.code l.slot) }) :
    Finds c (expression >>= f) d := by
  cases hty : e.type? types with
  | none =>
    obtain ⟨c', hc'⟩ := Expression.exists_judge_checks hty
    rw [judge_append_of_error hc'] at hc
    cases hc
    exact (finds_expression hknows hd hread hfits hc').bind
  | some ty =>
    rw [judge_append_of_ok (Expression.judge_checks_of_type? hty), judge] at hc
    have hfails : ¬ check.Passes types := by
      intro hpasses
      rw [if_pos hpasses] at hc
      cases hc
    rw [if_neg hfails] at hc
    cases hc
    exact Finds.of_clean (clean_expression_of_type? hknows hread hfits hty) (hf ty hty hfails)

/-- An expression of the type `want`, and the keyword behind it. -/
theorem finds_typed {want : Ty} {kind : Token.Kind} {wanted : Expectation} {problem : Ty → Problem}
    {check : Check} (hpasses : check.Passes types ↔ e.type? types = some want)
    (hblames : ∀ ty, check.Blames ⟨e.start.toSite, problem ty⟩) (hd : d.Stands l types)
    (hread : Read.expression d.ahead = some (e, rest)) (hfits : (e.code l.slot).Fits)
    (hc : judge types (e.checks ++ [check]) = .error c) :
    Finds c (do
      let start ← peek
      let ty ← expression
      if ty = want then expect kind wanted
      else fail start.toSite (problem ty) : CompileM Unit) d := by
  refine Finds.of_clean (clean_peek d) (finds_expression_bind hd.toKnows hd.sound hread hfits hc ?_)
  intro ty hty hfails
  have hne : ty ≠ want := by
    rintro rfl
    exact hfails (hpasses.2 hty)
  rw [if_neg hne, next_of_expression hread]
  exact .of_error rfl hd.sound (hblames ty)

theorem finds_condition (keyword : Token) (hd : d.Stands l types)
    (hread : Read.expression d.ahead = some (e, rest)) (hfits : (e.code l.slot).Fits)
    (hc : judge types (e.checks ++ [.condition e]) = .error c) : Finds c (condition keyword) d :=
  finds_typed Iff.rfl (fun _ => ⟨rfl, rfl⟩) hd hread hfits hc

theorem finds_loopBound (hd : d.Stands l types)
    (hread : Read.expression d.ahead = some (e, rest)) (hfits : (e.code l.slot).Fits)
    (hc : judge types (e.checks ++ [.count e]) = .error c) : Finds c loopBound d :=
  finds_typed Iff.rfl (fun _ => ⟨rfl, rfl⟩) hd hread hfits hc

/-! ### Assignments -/

/-- An assignment of another type is refused at its target. -/
theorem finds_assignType {target : Token} {name : String} {value : Expression} {ty : Ty}
    (hknows : d.Knows l types) (hd : d.diagnostics = #[]) (hname : some name ∈ l)
    (hty : value.type? types = some ty)
    (hfails : ¬ (Check.target target name value).Passes types) :
    Finds (.target target name value) (assignType target.toSite name ty) d := by
  simp only [Check.Passes, hty, not_forall] at hfails
  obtain ⟨expected, hexpected, hne⟩ := hfails
  have hfind : d.scope.find? name = some { slot := l.slot name, ty := types name } := by
    rw [hknows.scope, Scope.find?_of, if_pos hname]
  have hassign : d.scope.assign name ty = .error (.conflict ⟨expected, ty⟩) := by
    rw [Scope.assign, hfind]
    simp only [show types name = some expected from hexpected]
    rw [if_neg fun h => hne (congrArg some h.symm)]
  have hrun : assignType target.toSite name ty d =
      .error ⟨target.toSite, .typeConflict ⟨expected, ty⟩ name⟩ d := by
    rw [assignType_apply, hassign]
  exact .of_error hrun hd ⟨rfl, rfl⟩

theorem finds_assignment {target arrow : Token} {name : String} {value : Expression}
    (hd : d.Stands l types)
    (hread : Read.assignment target d.ahead = some (.assign target name arrow value, rest))
    (hroom : (l.add name).length ≤ Chunk.maxSlots) (hfits : (value.code (l.add name).slot).Fits)
    (hc : judge types (value.checks ++ [.target target name value]) = .error c) :
    Finds c (assignment target) d := by
  simp only [Read.assignment, Option.bind_eq_bind, Option.bind_eq_some_iff, Option.pure_def,
    Option.some.injEq, Prod.mk.injEq, Prod.exists, Statement.assign.injEq] at hread
  obtain ⟨name', hname, arrow', ts, harrow, value', rest', hvalue, ⟨-, rfl, rfl, rfl⟩, rfl⟩ := hread
  have hexpect := clean_expect (.symbol .leftArrow) (by simp) (.arrow name') hd.finish
  rw [harrow, Option.map_some] at hexpect
  have hslot := clean_targetSlot target.toSite name' (hd.ahead ts)
  rw [if_pos hroom] at hslot
  have hknows : Draft.Knows { d with
      ahead := ts
      chunk := { d.chunk with slotCount := (l.add name').length }
      scope := .of (l.add name') types } (l.add name') types :=
    ⟨rfl, hd.finish, Declares.mono hd.declared (l.prefix_add name')⟩
  unfold assignment
  rw [hname]
  refine Finds.of_clean hexpect (Finds.of_clean hslot
    (finds_expression_bind hknows hd.sound hvalue hfits hc ?_))
  intro ty hty hfails
  exact (finds_assignType (hknows.write _ _) hd.sound (l.mem_add_self name') hty hfails).bind

/-! ### Branches -/

instance keeps_closeArm (keyword : Token) (skip : Chunk.Label) : Keeps (closeArm keyword skip) := by
  unfold closeArm; infer_instance

instance keeps_moreBranches (block : CompileM Unit) [Keeps block] (bound : Nat)
    (exit : Chunk.Label) : Keeps (moreBranches block bound exit) := by
  unfold moreBranches; infer_instance

theorem judge_append_eq_error {a b : List Check} (h : judge types (a ++ b) = .error c) :
    judge types a = .error c ∨ ∃ types', judge types a = .ok types' ∧ judge types' b = .error c := by
  rw [judge_append] at h
  cases ha : judge types a with
  | error c' =>
    rw [ha] at h
    exact .inl h
  | ok types' =>
    rw [ha] at h
    exact .inr ⟨types', rfl, h⟩

theorem type?_of_judge (want : Ty) {check : Check} {types' : Types}
    (hpasses : check.Passes types ↔ e.type? types = some want) (hlearn : check.learn types = types)
    (h : judge types (e.checks ++ [check]) = .ok types') :
    e.type? types = some want ∧ types' = types := by
  have hoption := e.toOption_judge_checks_cons want hpasses hlearn []
  rw [h] at hoption
  split at hoption
  · rename_i hty
    cases hoption
    exact ⟨hty, rfl⟩
  · cases hoption

/-- The first diagnostic of blocks of fewer than `bound` tokens. -/
def FindsInBlocks (bound : Nat) : Prop :=
  ∀ l types d ss rest c, Draft.Stands d l types → d.ahead.length < bound →
    Read.block bound (!d.loops.isEmpty) d.ahead = some (ss, rest) →
    (Block.layout l ss).length ≤ Chunk.maxSlots → (Block.code l hole d.chunk.size ss).Fits →
    judge types (Block.checks ss) = .error c → Finds c (block bound) d

/-- An arm up to the jump out of it. -/
theorem clean_arm_of_check {bound : Nat} {keyword thenWord : Token} {condition : Expression}
    {body : List Statement} {ts₁ ts₂ : List Token} {types' : Types} (hd : d.Stands l types)
    (hlen : d.ahead.length ≤ bound) (hcondition : Read.expression d.ahead = some (condition, ts₁))
    (hthen : Read.token (.keyword .thenWord) ts₁ = some (thenWord, ts₂))
    (hbody : Read.block bound (!d.loops.isEmpty) ts₂ = some (body, rest))
    (hroom : (Block.layout l body).length ≤ Chunk.maxSlots)
    (hfits : (Arms.armCode keyword.line (condition.code l.slot)
      (Block.code l hole (d.chunk.size + condition.size + 4) body) (-1)).Fits)
    (hcheck : Arms.armCheck types condition body = some types') :
    (do
      let skip ← openArm keyword
      block bound
      closeArm keyword skip : CompileM Chunk.Label).clean d =
      some (⟨d.chunk.size + condition.size + Block.size body + 4 + 1⟩,
        d.extend (Block.layout l body) types' (Arms.armCode keyword.line (condition.code l.slot)
          (Block.code l hole (d.chunk.size + condition.size + 4) body) (-1))
          (Block.aborts (d.chunk.size + condition.size + 4) body) rest) := by
  have h := clean_arm (clean_block bound) keyword (fun exit => pure exit) hd hlen
  rw [hcondition, Option.bind_some, hthen, Option.bind_some, hbody, Option.bind_some, hcheck,
    Draft.extend?_of_fits hroom hfits, Option.bind_some, clean_pure] at h
  rw [← h]
  simp only [openArm, closeArm, bind_assoc, pure_bind]

theorem clean_openArm {keyword thenWord : Token} {condition : Expression} {ts₁ ts₂ : List Token}
    (hd : d.Stands l types) (hcondition : Read.expression d.ahead = some (condition, ts₁))
    (hthen : Read.token (.keyword .thenWord) ts₁ = some (thenWord, ts₂))
    (hty : condition.type? types = some .boolean) (hfits : (condition.code l.slot).Fits) :
    (openArm keyword).clean d = some (⟨d.chunk.size + condition.size + 1⟩,
      d.extend l types (condition.code l.slot ++
        [.jump .ifFalse (-1) keyword.line, .op .pop keyword.line]) [] ts₂) := by
  have h := clean_condition keyword hd
  rw [hcondition, Option.bind_some, hthen, Option.bind_some, if_pos ⟨hty, hfits⟩] at h
  rw [openArm, clean_bind_of_eq_some h, clean_reserve_extend, clean_emit_extend, clean_pure,
    condition.size_code, List.append_assoc]
  rfl

/-- The first diagnostic of an arm, up to the jump out of it. -/
theorem finds_arm {bound : Nat} (ih : FindsInBlocks bound) {keyword thenWord : Token}
    {condition : Expression} {body : List Statement} {ts₁ ts₂ : List Token} (hd : d.Stands l types)
    (hlen : d.ahead.length ≤ bound) (hcondition : Read.expression d.ahead = some (condition, ts₁))
    (hthen : Read.token (.keyword .thenWord) ts₁ = some (thenWord, ts₂))
    (hbody : Read.block bound (!d.loops.isEmpty) ts₂ = some (body, rest))
    (hroom : (Block.layout l body).length ≤ Chunk.maxSlots)
    (hfits : (Arms.armCode keyword.line (condition.code l.slot)
      (Block.code l hole (d.chunk.size + condition.size + 4) body) (-1)).Fits)
    (hc : judge types (condition.checks ++ .condition condition :: Block.checks body) = .error c) :
    Finds c (do
      let skip ← openArm keyword
      block bound
      closeArm keyword skip : CompileM Chunk.Label) d := by
  simp only [Arms.armCode, Fragment.fits_append, Fragment.fits_cons_jump, Fragment.fits_cons_op]
    at hfits
  obtain ⟨⟨hcond, -, hbodyFits⟩, -⟩ := hfits
  rw [List.append_cons] at hc
  rcases judge_append_eq_error hc with hc | ⟨types', hok, hmore⟩
  · have hfinds := finds_condition keyword hd hcondition hcond hc
    have hopen : Finds c (openArm keyword) d := hfinds.bind
    exact hopen.bind
  · obtain ⟨hty, rfl⟩ := type?_of_judge .boolean Iff.rfl rfl hok
    refine Finds.of_clean (clean_openArm hd hcondition hthen hty hcond) ?_
    have hlen₂ : ts₂.length < bound := by
      have h₁ : ts₁.length < d.ahead.length := Read.length_of_expression hcondition
      have h₂ : ts₂.length < ts₁.length := Read.length_of_token hthen
      omega
    have hsize : (d.extend l types' (condition.code l.slot ++
        [.jump .ifFalse (-1) keyword.line, .op .pop keyword.line]) [] ts₂).chunk.size =
          d.chunk.size + condition.size + 4 := by
      rw [Draft.size_extend]
      simp [condition.size_code, Nat.add_assoc]
    refine (ih l types' _ body rest c (hd.extend hd.room hd.declared) hlen₂ ?_ hroom ?_ hmore).bind
    · rw [Draft.isEmpty_loops_extend]
      exact hbody
    · rw [hsize]
      exact hbodyFits

/-- The first diagnostic of an arm and of what follows it. -/
theorem finds_arm_bind {bound : Nat} (ih : FindsInBlocks bound) {keyword thenWord : Token}
    {condition : Expression} {body : List Statement} {ts₁ ts₂ : List Token} {more : List Check}
    {f : Chunk.Label → CompileM β} [∀ exit, Keeps (f exit)] (hd : d.Stands l types)
    (hlen : d.ahead.length ≤ bound) (hcondition : Read.expression d.ahead = some (condition, ts₁))
    (hthen : Read.token (.keyword .thenWord) ts₁ = some (thenWord, ts₂))
    (hbody : Read.block bound (!d.loops.isEmpty) ts₂ = some (body, rest))
    (hroom : (Block.layout l body).length ≤ Chunk.maxSlots)
    (hfits : (Arms.armCode keyword.line (condition.code l.slot)
      (Block.code l hole (d.chunk.size + condition.size + 4) body) (-1)).Fits)
    (hc : judge types (condition.checks ++ .condition condition :: Block.checks body ++ more) =
      .error c)
    (hmore : ∀ exit d', d'.ahead = rest → d'.loops.isEmpty = d.loops.isEmpty →
      d'.chunk.size = d.chunk.size + condition.size + Block.size body + 8 →
      ∀ types', d'.Stands (Block.layout l body) types' → judge types' more = .error c →
        Finds c (f exit) d') :
    Finds c ((do
      let skip ← openArm keyword
      block bound
      closeArm keyword skip) >>= f) d := by
  rcases judge_append_eq_error hc with hc | ⟨types', hok, hc⟩
  · exact (finds_arm ih hd hlen hcondition hthen hbody hroom hfits hc).bind
  · have hcheck : Arms.armCheck types condition body = some types' := by
      rw [← Arms.toOption_judge_arm types condition (Block.judge_checks body), hok]
      rfl
    have hbodyCheck : Block.check types body = some types' := by
      simp only [Arms.armCheck, Option.ite_none_right_eq_some] at hcheck
      exact hcheck.2
    refine Finds.of_clean
      (clean_arm_of_check hd hlen hcondition hthen hbody hroom hfits hcheck) ?_
    refine hmore _ _ Draft.ahead_extend Draft.isEmpty_loops_extend ?_ types'
      (hd.extend hroom (Block.declares_check body hd.declared hbodyCheck)) hc
    rw [Draft.size_extend, Arms.size_armCode, condition.size_code, Block.size_code]
    omega

theorem branches_eq (block : CompileM Unit) (bound : Nat) (keyword : Token) :
    branches block (bound + 1) keyword = (do
      let skip ← openArm keyword
      block
      closeArm keyword skip) >>= moreBranches block bound := by
  simp only [branches_succ, bind_assoc]

/-- The first diagnostic of the arms of an `IF`. -/
theorem finds_branches {bound : Nat} (ih : FindsInBlocks bound) :
    ∀ (k : Nat) {keyword : Token} {l : Layout} {types : Types} {d : Draft} {a : Arms}
      {rest : List Token} {c : Check}, d.Stands l types →
      d.ahead.length ≤ bound → d.ahead.length < k →
      Read.arms (Read.block bound (!d.loops.isEmpty)) k keyword d.ahead = some (a, rest) →
      (a.layout l).length ≤ Chunk.maxSlots → (a.code l hole hole d.chunk.size).Fits →
      judge types a.checks = .error c → Finds c (branches (block bound) k keyword) d
  | 0, _, _, _, _, _, _, _, _, _, hk, _, _, _, _ => absurd hk (Nat.not_lt_zero _)
  | k + 1, keyword, l, types, d, a, rest, c, hd, hlen, hk, hread, hroom, hfits, hc => by
    rw [branches_eq]
    simp only [Read.arms, Option.bind_eq_bind, Option.bind_eq_some_iff, Prod.exists] at hread
    obtain ⟨condition, ts₁, hcondition, thenWord, ts₂, hthen, body, ts₃, hbody, hread⟩ := hread
    have hlen₁ : ts₁.length < d.ahead.length := Read.length_of_expression hcondition
    have hlen₂ : ts₂.length < ts₁.length := Read.length_of_token hthen
    have hlen₃ : ts₃.length ≤ ts₂.length := Read.length_of_block hbody
    cases helse : Read.token (.keyword .elseWord) ts₃ with
    | none =>
      rw [helse] at hread
      cases hread
      simp only [Arms.checks, Block.checks, List.append_nil] at hc
      simp only [Arms.code, Block.code, List.append_nil] at hfits
      exact (finds_arm ih hd hlen hcondition hthen hbody hroom hfits hc).bind
    | some e =>
      obtain ⟨elseWord, ts₄⟩ := e
      have hlen₄ : ts₄.length < ts₃.length := Read.length_of_token helse
      simp only [helse] at hread
      cases hif : Read.token (.keyword .ifWord) ts₄ with
      | some e' =>
        obtain ⟨follower, ts₅⟩ := e'
        obtain ⟨-, hts₄⟩ := Read.token_eq_some hif
        have hlen₅ : ts₅.length < ts₄.length := Read.length_of_token hif
        simp only [hif, Option.bind_eq_some_iff, Prod.exists] at hread
        obtain ⟨more, ts, hmore, hread⟩ := hread
        cases hread
        simp only [Arms.code, Fragment.fits_append] at hfits
        refine finds_arm_bind ih hd hlen hcondition hthen hbody
          (Nat.le_trans (more.prefix_layout _).length_le hroom) hfits.1 hc ?_
        intro exit d' hahead hloops hsize types' hd' hc
        rw [← hahead] at helse
        refine Finds.accept_some (.keyword .elseWord) (by simp) hd'.finish helse ?_
        refine Finds.of_clean (clean_peek _) ?_
        refine Finds.accept_some (.keyword .ifWord) (by simp) (hd'.ahead ts₄).finish hif ?_
        have hfollower : ({ d' with ahead := ts₄ } : Draft).next = follower :=
          next_of_cons hts₄
        rw [hfollower]
        rw [← hloops] at hmore
        rw [← hsize] at hfits
        refine (finds_branches ih k (hd'.ahead ts₅) ?_ ?_ hmore hroom hfits.2 hc).bind
        · show ts₅.length ≤ bound
          omega
        · show ts₅.length < k
          omega
      | none =>
        simp only [hif, Option.bind_eq_some_iff, Prod.exists] at hread
        obtain ⟨alternative, ts, halternative, hread⟩ := hread
        cases hread
        simp only [Arms.code, Fragment.fits_append] at hfits
        refine finds_arm_bind ih hd hlen hcondition hthen hbody
          (Nat.le_trans (Block.prefix_layout alternative _).length_le hroom) hfits.1 hc ?_
        intro exit d' hahead hloops hsize types' hd' hc
        rw [← hahead] at helse
        refine Finds.accept_some (.keyword .elseWord) (by simp) hd'.finish helse ?_
        refine Finds.of_clean (clean_peek _) ?_
        refine Finds.accept_none (.keyword .ifWord) (by simp) (hd'.ahead ts₄).finish hif ?_
        rw [← hloops] at halternative
        rw [← hsize] at hfits
        refine (ih _ types' _ alternative rest c (hd'.ahead ts₄) ?_ halternative hroom hfits.2 hc).bind
        show ts₄.length < bound
        omega

end CompileM

end BoundedLoop
