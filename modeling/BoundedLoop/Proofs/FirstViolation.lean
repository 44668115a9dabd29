import BoundedLoop.Proofs.Acceptance
import BoundedLoop.Proofs.Verdicts.Blocks

/-!
# The first diagnostic is the first violation

A program with few enough slots and no jump that is too long is refused if and only if one of its
checks fails, and the first diagnostic is about the first check that does
(`compileTokens_first_violation`).
-/

namespace BoundedLoop

/-! ### What checks learn -/

theorem learnAll_append (types : Types) (a b : List Check) :
    learnAll types (a ++ b) = learnAll (learnAll types a) b := List.foldl_append

theorem AllPass.left {types : Types} {a b : List Check} (h : AllPass types (a ++ b)) :
    AllPass types a := by
  rintro before c after rfl
  exact h before c (after ++ b) (by simp)

theorem AllPass.right {types : Types} {a b : List Check} (h : AllPass types (a ++ b)) :
    AllPass (learnAll types a) b := by
  rintro before c after rfl
  rw [← learnAll_append]
  exact h (a ++ before) c after (by simp)

/-- What has a type keeps it. -/
theorem learnAll_of_eq_some {types : Types} {name : String} {ty : Ty} (h : types name = some ty)
    (cs : List Check) : learnAll types cs name = some ty := by
  induction cs generalizing types with
  | nil => exact h
  | cons c cs ih =>
    refine ih ?_
    cases c with
    | target t other v =>
      by_cases hname : name = other
      · subst hname
        simp [Check.learn, h]
      · simp [Check.learn, Function.update_of_ne hname, h]
    | _ => exact h

/-- A variable that is not assigned to keeps having no type. -/
theorem learnAll_eq_none {types : Types} {name : String} {cs : List Check} (h : types name = none)
    (hcs : ∀ t v, .target t name v ∉ cs) : learnAll types cs name = none := by
  induction cs generalizing types with
  | nil => exact h
  | cons c cs ih =>
    refine ih ?_ fun t v hmem => hcs t v (List.mem_cons_of_mem _ hmem)
    cases c with
    | target t other v =>
      have hname : name ≠ other := by
        rintro rfl
        exact hcs t v List.mem_cons_self
      simp [Check.learn, Function.update_of_ne hname, h]
    | _ => exact h

/-- The value of each assignment is checked right before its target. -/
def Guarded (cs : List Check) : Prop :=
  ∀ before t name v after, cs = before ++ .target t name v :: after → v.checks <:+ before

theorem Guarded.append {a b : List Check} (ha : Guarded a) (hb : Guarded b) : Guarded (a ++ b) := by
  intro before t name v after heq
  rcases List.append_eq_append_iff.1 heq with ⟨before', rfl, hb'⟩ | ⟨after', ha', hb'⟩
  · exact (hb before' t name v after hb').trans (List.suffix_append _ _)
  · rcases List.cons_eq_append_iff.1 hb' with ⟨rfl, hb'⟩ | ⟨after'', rfl, -⟩
    · have hnil := List.suffix_nil.1 (hb [] t name v after hb'.symm)
      rw [hnil]
      exact List.nil_suffix
    · exact ha before t name v after'' ha'

theorem Guarded.concat {cs : List Check} {v : Expression} (h : Guarded cs) (hv : v.checks <:+ cs)
    (t : Token) (name : String) : Guarded (cs ++ [.target t name v]) := by
  intro before t' name' v' after heq
  rcases List.eq_nil_or_concat after with rfl | ⟨after, c, rfl⟩
  · obtain ⟨rfl, hlast⟩ := List.append_inj' heq rfl
    cases hlast
    exact hv
  · rw [List.concat_eq_append, ← List.cons_append, ← List.append_assoc] at heq
    exact h before t' name' v' after (List.append_inj' heq rfl).1

theorem Guarded.of_forall {cs : List Check} (h : ∀ t name v, .target t name v ∉ cs) :
    Guarded cs := by
  rintro before t name v after rfl
  exact absurd (List.mem_append_right _ List.mem_cons_self) (h t name v)

theorem Expression.target_not_mem_checks (e : Expression) (t : Token) (name : String)
    (v : Expression) : Check.target t name v ∉ e.checks := by
  induction e with
  | constant | reference => simp [checks]
  | group opening e closing ih => exact ih
  | negation s e ih => simp [checks, ih]
  | binary l s op r ihl ihr => simp [checks, ihl, ihr]

theorem Expression.guarded_checks (e : Expression) : Guarded e.checks :=
  .of_forall e.target_not_mem_checks

theorem Expression.guarded_checks_cons {e : Expression} {c : Check} {cs : List Check}
    (hc : ∀ t name v, c ≠ .target t name v) (hcs : Guarded cs) : Guarded (e.checks ++ c :: cs) := by
  rw [List.append_cons]
  refine (e.guarded_checks.append (.of_forall ?_)).append hcs
  intro t name v hmem
  exact hc t name v (List.mem_singleton.1 hmem).symm

mutual

theorem Statement.guarded_checks : ∀ s : Statement, Guarded s.checks
  | .assign target name arrow value =>
    value.guarded_checks.concat List.suffix_rfl target name
  | .choice arms closer => arms.guarded_checks
  | .loop keyword count times body closer =>
    Expression.guarded_checks_cons (by simp) (Block.guarded_checks body)
  | .abort token => .of_forall (by simp [Statement.checks])

theorem Arms.guarded_checks : ∀ a : Arms, Guarded a.checks
  | .last keyword condition thenWord body elseWord alternative =>
    (Expression.guarded_checks_cons (by simp) (Block.guarded_checks body)).append
      (Block.guarded_checks alternative)
  | .elseIf keyword condition thenWord body elseWord rest =>
    (Expression.guarded_checks_cons (by simp) (Block.guarded_checks body)).append
      rest.guarded_checks

theorem Block.guarded_checks : ∀ ss : List Statement, Guarded (Block.checks ss)
  | [] => .of_forall (by simp [Block.checks])
  | s :: ss => s.guarded_checks.append (Block.guarded_checks ss)

end

/-- Behind checks that pass, the variables that have a type are those which one of the checks is about an
assignment to, and each assignment to them has been of that type. -/
theorem learnAll_of_allPass {cs before after : List Check} (hcs : Guarded cs)
    (heq : cs = before ++ after) (hpass : AllPass (fun _ => none) before) (name : String) :
    (learnAll (fun _ => none) before name = none ↔ ∀ t v, .target t name v ∉ before) ∧
      ∀ before' t v after', before = before' ++ .target t name v :: after' →
        ∃ ty, v.type? (learnAll (fun _ => none) before') = some ty ∧
          learnAll (fun _ => none) before name = some ty := by
  have hsome : ∀ before' t v after', before = before' ++ .target t name v :: after' →
      ∃ ty, v.type? (learnAll (fun _ => none) before') = some ty ∧
        learnAll (fun _ => none) before name = some ty := by
    rintro before' t v after' rfl
    rw [List.append_assoc, List.cons_append] at heq
    obtain ⟨first, hfirst⟩ := hcs before' t name v _ heq
    -- the value has a type, for its checks have passed
    obtain ⟨ty, hty⟩ : ∃ ty, v.type? (learnAll (fun _ => none) before') = some ty := by
      rw [← Option.isSome_iff_exists, Option.isSome_iff_ne_none]
      intro hnone
      rw [← hfirst, learnAll_append, v.learnAll_checks] at hnone
      obtain ⟨c, hc⟩ := Expression.exists_judge_checks hnone
      rw [← hfirst] at hpass
      rw [judge_eq_ok_iff.2 ⟨hpass.left.right, rfl⟩] at hc
      cases hc
    refine ⟨ty, hty, ?_⟩
    have htarget := hpass before' (.target t name v) after' rfl
    rw [learnAll_append]
    refine learnAll_of_eq_some (?_ : Check.learn _ _ name = some ty) after'
    cases hold : learnAll (fun _ => none) before' name with
    | none => simp [Check.learn, hold, hty]
    | some old =>
      have hsame : v.type? (learnAll (fun _ => none) before') = some old := htarget old hold
      simp [Check.learn, hold, ← hty, hsame]
  refine ⟨⟨fun hnone t v hmem => ?_, learnAll_eq_none rfl⟩, hsome⟩
  obtain ⟨before', after', hbefore⟩ := List.append_of_mem hmem
  obtain ⟨ty, -, hty⟩ := hsome before' t v after' hbefore
  rw [hnone] at hty
  cases hty

/-! ### Programs -/

theorem Program.judge_checks {p : Program} {types : Types} (hp : p.Accepted types) :
    judge (fun _ => none) (Block.checks p) = .ok types := by
  have hoption := Block.judge_checks p fun _ => none
  rw [hp.check] at hoption
  cases hjudge : judge (fun _ => none) (Block.checks p) with
  | error c =>
    rw [hjudge] at hoption
    cases hoption
  | ok types' =>
    rw [hjudge] at hoption
    cases hoption
    rfl

/-- Some check fails if and only if the rules for variables or those for types are broken. -/
theorem Program.exists_firstViolation_iff (p : Program) :
    (∃ c, FirstViolation (fun _ => none) (Block.checks p) c) ↔
      ¬ ((∀ before name after, Block.events p = before ++ .read name :: after →
          .assigned name ∈ before) ∧ ∃ Γ : String → Ty, Block.WellTyped Γ p) := by
  have hrules : (∃ types, Block.check (fun _ => none) p = some types) ↔
      (∀ before name after, Block.events p = before ++ .read name :: after →
        .assigned name ∈ before) ∧ ∃ Γ : String → Ty, Block.WellTyped Γ p := by
    simpa only [InOrder, false_or] using p.check_iff
  rw [← hrules, ← Block.judge_checks]
  cases hjudge : judge (fun _ => none) (Block.checks p) with
  | error c => exact iff_of_true ⟨c, judge_eq_error_iff.1 hjudge⟩ (by simp [Except.toOption])
  | ok types =>
    refine iff_of_false ?_ (not_not.2 ⟨types, rfl⟩)
    rintro ⟨c, hc⟩
    rw [judge_eq_error_iff.2 hc] at hjudge
    cases hjudge

/-- Compiling a program finds its first violation first. -/
theorem compileTokens_of_firstViolation {tokens : List Token} {p : Program} {c : Check}
    (hgram : Block.Grammatical false p) (htokens : Block.tokens p = tokens.takeWhile (·.kind ≠ .eof))
    (hroom : p.layout.length ≤ Chunk.maxSlots) (hfits : p.code.Fits)
    (hc : FirstViolation (fun _ => none) (Block.checks p) c) :
    ∃ first rest, compileTokens tokens = .error (first :: rest) ∧ c.Blames first := by
  have hkinds : ∀ t ∈ (Draft.ofTokens tokens).ahead, t.kind ≠ .eof := by
    intro t ht
    simpa using List.mem_takeWhile_imp ht
  have hread : Read.program ((Draft.ofTokens tokens).ahead.length + 1)
      (Draft.ofTokens tokens).ahead = some (p, []) :=
    (Read.program_eq_some_iff (Nat.lt_succ_self _)).2 ⟨htokens.symm, rfl, hgram⟩
  have hfinds := CompileM.finds_program _ (Draft.stands_ofTokens tokens) rfl hkinds
    (Nat.lt_succ_self _) hread hroom hfits (judge_eq_error_iff.2 hc)
  obtain ⟨d, hrun⟩ := CompileM.program_eq_ok ((Draft.ofTokens tokens).ahead.length + 1)
    (Draft.ofTokens tokens)
  have hcompiled : (Draft.ofTokens tokens).compiled = d := by
    simp only [Draft.compiled, EStateM.run, hrun]
  unfold CompileM.Finds CompileM.records at hfinds
  rw [hrun] at hfinds
  obtain ⟨first, rest, hdiag, hblames⟩ := hfinds
  refine ⟨first, rest, ?_, hblames⟩
  have hempty : d.diagnostics.isEmpty = false := by
    rw [← Array.isEmpty_toList, hdiag]
    rfl
  rw [compileTokens, hcompiled, Draft.result, hempty, hdiag]
  rfl

/-- Assignments of different types to one name break the rules. -/
theorem Program.Accepted.same_type {p : Program} {types : Types} (hp : p.Accepted types)
    {before between after : List Check} {t t' : Token} {name : String} {v v' : Expression} {ty ty' : Ty}
    (heq : Block.checks p =
      before ++ .target t name v :: between ++ .target t' name v' :: after)
    (hty : v.type? (learnAll (fun _ => none) before) = some ty)
    (hty' : v'.type? (learnAll (fun _ => none) (before ++ .target t name v :: between)) = some ty') :
    ty = ty' := by
  have hpass : AllPass (fun _ => none) (Block.checks p) :=
    (judge_eq_ok_iff.1 (Program.judge_checks hp)).1
  have hlearnt := (learnAll_of_allPass (Block.guarded_checks p) (List.append_nil _).symm hpass name).2
  obtain ⟨ty₁, h₁, hfinal₁⟩ := hlearnt before t v (between ++ .target t' name v' :: after)
    (by rw [heq, List.append_assoc, List.cons_append])
  obtain ⟨ty₂, h₂, hfinal₂⟩ := hlearnt _ t' v' after heq
  rw [hty] at h₁
  rw [hty'] at h₂
  cases h₁
  cases h₂
  exact Option.some.inj (hfinal₁.symm.trans hfinal₂)

/-- A program within the limits is refused if and only if it breaks a rule, and the first diagnostic is
about the first check that fails, in its class and at its place. Behind checks that pass the variables
that have a type are those that have been assigned to, each with the type of all its assignments; so no
program that gives a name values of different types is compiled. -/
theorem compileTokens_first_violation {source : String} {tokens : List Token} {p : Program}
    (hscan : Token.scan source = .ok tokens) (hparses : p.Parses tokens) :
    (1 + ((Block.assigned p).toFinset.erase Token.outputName).card + 2 * Block.loops p ≤ 256 →
      p.code.Fits →
        ((∃ found, compileTokens tokens = .error found) ↔
          ∃ c, FirstViolation (fun _ => none) (Block.checks p) c) ∧
        ∀ c, FirstViolation (fun _ => none) (Block.checks p) c →
          ∃ first rest, compileTokens tokens = .error (first :: rest) ∧
            first.code = c.code ∧ first.toSite = c.site) ∧
    ((∃ c, FirstViolation (fun _ => none) (Block.checks p) c) ↔
      ¬ ((∀ before name after, Block.events p = before ++ .read name :: after →
          .assigned name ∈ before) ∧ ∃ Γ : String → Ty, Block.WellTyped Γ p)) ∧
    (∀ before after, Block.checks p = before ++ after → AllPass (fun _ => none) before → ∀ name,
      (learnAll (fun _ => none) before name = none ↔ ∀ t v, .target t name v ∉ before) ∧
      ∀ before' t v after', before = before' ++ .target t name v :: after' →
        ∃ ty, v.type? (learnAll (fun _ => none) before') = some ty ∧
          learnAll (fun _ => none) before name = some ty) ∧
    ∀ before t between t' after name v v' ty ty',
      Block.checks p = before ++ .target t name v :: between ++ .target t' name v' :: after →
      v.type? (learnAll (fun _ => none) before) = some ty →
      v'.type? (learnAll (fun _ => none) (before ++ .target t name v :: between)) = some ty' →
      ty ≠ ty' → ∃ found, compileTokens tokens = .error found := by
  obtain ⟨hgram, htokens⟩ := (Program.parses_iff_of_scan hscan).1 hparses
  refine ⟨fun hslots hfits => ⟨⟨?_, ?_⟩, ?_⟩, p.exists_firstViolation_iff, ?_, ?_⟩
  · rintro ⟨found, hfound⟩
    rw [p.exists_firstViolation_iff]
    rintro ⟨hordered, htyped⟩
    obtain ⟨types, hp⟩ := p.accepted_iff.2 ⟨hgram, hordered, htyped, hslots, hfits⟩
    have hok := (compileTokens_eq_ok_iff_of_scan hscan).2 ⟨p, types, hp, hparses, rfl⟩
    rw [hfound] at hok
    cases hok
  · rintro ⟨c, hc⟩
    obtain ⟨first, rest, herror, -⟩ := compileTokens_of_firstViolation hgram htokens
      (by rw [p.length_layout]; exact hslots) hfits hc
    exact ⟨_, herror⟩
  · intro c hc
    exact compileTokens_of_firstViolation hgram htokens
      (by rw [p.length_layout]; exact hslots) hfits hc
  · intro before after heq hpass name
    exact learnAll_of_allPass (Block.guarded_checks p) heq hpass name
  · intro before t between t' after name v v' ty ty' heq hty hty' hne
    cases hcompiled : compileTokens tokens with
    | error found => exact ⟨found, rfl⟩
    | ok chunk =>
      obtain ⟨q, types, hq, hqparses, -⟩ := (compileTokens_eq_ok_iff_of_scan hscan).1 hcompiled
      cases hqparses.unique hparses
      exact absurd (hq.same_type heq hty hty') hne

/-- A variable is read in front of the only assignment to it, two checks fail behind that. -/
def hastyText : String :=
  "n <- 1
  LOOP n TIMES
    n <- n + 1
    IF n = 2 THEN n <- n * (m + YES)
    ELSE m <- NO
    END IF
    n <- m
  END LOOP"

/-- Whether the text has a tree within the limits whose first violation is of the class `code`, at a
token in the line `line`. -/
def violates (source : String) (code : Code) (line : Nat) : Bool :=
  match Token.scan source with
  | .error _ => false
  | .ok tokens =>
    let inside := tokens.takeWhile (·.kind ≠ .eof)
    match Read.program (inside.length + 1) inside with
    | none => false
    | some (p, _) =>
      decide (p.layout.length ≤ 256) && (decide p.code.Fits &&
        match judge (fun _ => none) (Block.checks p) with
        | .ok _ => false
        | .error c => decide (c.code = code ∧ c.site.line = line))

theorem exists_of_violates {source : String} {code : Code} {line : Nat}
    (h : violates source code line = true) :
    ∃ (tokens : List Token) (p : Program) (c : Check), Token.scan source = .ok tokens ∧
      p.Parses tokens ∧ p.layout.length ≤ 256 ∧ p.code.Fits ∧
        FirstViolation (fun _ => none) (Block.checks p) c ∧ c.code = code ∧ c.site.line = line := by
  unfold violates at h
  split at h
  · cases h
  · rename_i tokens hscan
    simp only at h
    split at h
    · cases h
    · rename_i p rest hread
      obtain ⟨htokens, rfl, hgram⟩ := (Read.program_eq_some_iff (Nat.lt_succ_self _)).1 hread
      simp only [Bool.and_eq_true, decide_eq_true_eq] at h
      obtain ⟨hroom, hfits, h⟩ := h
      split at h
      · cases h
      · rename_i c hc
        exact ⟨tokens, p, c, hscan, (Program.parses_iff_of_scan hscan).2 ⟨hgram, htokens.symm⟩, hroom,
          hfits, judge_eq_error_iff.1 hc, of_decide_eq_true h⟩

theorem compileTokens_first_violation_hastyText : ∃ (tokens : List Token) (p : Program),
    Token.scan hastyText = .ok tokens ∧ p.Parses tokens ∧ p.code.Fits ∧
      1 + ((Block.assigned p).toFinset.erase Token.outputName).card + 2 * Block.loops p ≤ 256 ∧
      ∃ first rest, compileTokens tokens = .error (first :: rest) ∧
        first.code = .undefinedVariable ∧ first.line = 4 := by
  have hviolates : violates hastyText .undefinedVariable 4 = true := by decide +kernel
  obtain ⟨tokens, p, c, hscan, hparses, hroom, hfits, hc, hcode, hline⟩ :=
    exists_of_violates hviolates
  rw [p.length_layout] at hroom
  obtain ⟨first, rest, herror, hfirst, hsite⟩ :=
    ((compileTokens_first_violation hscan hparses).1 hroom hfits).2 c hc
  refine ⟨tokens, p, hscan, hparses, hfits, hroom, first, rest, herror, hfirst.trans hcode, ?_⟩
  rw [← hline, ← hsite]

end BoundedLoop
