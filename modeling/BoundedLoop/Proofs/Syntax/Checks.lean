import BoundedLoop.Diagnostic
import BoundedLoop.Proofs.Syntax.Rules

/-!
# The checks of a program, in order

`Block.checks` lists what is to be checked about variables and types in a tree, from left to right
and operands before their operator. A check sees the types that the assignments in front of it have
given to their names. `judge` goes through such a list up to the first check that fails, which is the
first violation (`judge_eq_error_iff`); it finds none exactly where `Block.check` gives types
(`Block.judge_checks`).
-/

namespace BoundedLoop

/-- The first token of an expression. -/
def Expression.start : Expression → Token
  | constant t _ | reference t _ => t
  | group opening _ _ => opening
  | negation t _ => t
  | binary l _ _ _ => l.start

theorem Expression.tokens_eq_start_cons (e : Expression) : ∃ ts, e.tokens = e.start :: ts := by
  induction e with
  | constant t v => exact ⟨[], rfl⟩
  | reference t name => exact ⟨[], rfl⟩
  | group opening e closing => exact ⟨e.tokens ++ [closing], rfl⟩
  | negation t e => exact ⟨e.tokens, rfl⟩
  | binary l t op r ihl =>
    obtain ⟨ts, hts⟩ := ihl
    exact ⟨ts ++ t :: r.tokens, by rw [tokens, hts, List.cons_append, start]⟩

/-- Something to be checked at one place of a program. -/
inductive Check where
  /-- `token` reads a variable, which must have been assigned to -/
  | read (token : Token) (name : String)
  /-- `token` is the operator of `operation`, and must get operands of types that it takes -/
  | operator (token : Token) (operation : Expression)
  /-- `value` must have the type that an earlier assignment gave to the name -/
  | target (token : Token) (name : String) (value : Expression)
  /-- the condition of an `IF` must be a truth value -/
  | condition (e : Expression)
  /-- the count of a `LOOP` must be a number -/
  | count (e : Expression)

namespace Check

/-- The class of the diagnostic about a failed check. -/
def code : Check → Code
  | read .. => .undefinedVariable
  | operator .. | target .. => .invalidType
  | condition _ => .booleanExpressionNeeded
  | count _ => .numberExpressionNeeded

/-- Where the diagnostic about a failed check points to. -/
def site : Check → Site
  | read token _ | operator token _ | target token _ _ => token.toSite
  | condition e | count e => e.start.toSite

/-- Whether a check passes, if `types` are the types given so far. -/
def Passes (types : Types) : Check → Prop
  | read _ name => types name ≠ none
  | operator _ operation => operation.type? types ≠ none
  | target _ name value => ∀ ty ∈ types name, value.type? types = some ty
  | condition e => e.type? types = some .boolean
  | count e => e.type? types = some .number

instance (types : Types) : (c : Check) → Decidable (c.Passes types)
  | read _ name => inferInstanceAs (Decidable (types name ≠ none))
  | operator _ operation => inferInstanceAs (Decidable (operation.type? types ≠ none))
  | target _ name value =>
    inferInstanceAs (Decidable (∀ ty ∈ types name, value.type? types = some ty))
  | condition e => inferInstanceAs (Decidable (e.type? types = some .boolean))
  | count e => inferInstanceAs (Decidable (e.type? types = some .number))

/-- The types given behind a check: the first assignment to a name gives it the type of its value. -/
def learn (types : Types) : Check → Types
  | target _ name value => Function.update types name ((types name).or (value.type? types))
  | _ => types

/-- The diagnostic is about the failure of this check. -/
def Blames (c : Check) (found : Diagnostic) : Prop :=
  found.code = c.code ∧ found.toSite = c.site

end Check

def Expression.checks : Expression → List Check
  | constant _ _ => []
  | reference t name => [.read t name]
  | group _ e _ => e.checks
  | negation t e => e.checks ++ [.operator t (negation t e)]
  | binary l t op r => l.checks ++ r.checks ++ [.operator t (binary l t op r)]

mutual

def Statement.checks : Statement → List Check
  | .assign target name _ value => value.checks ++ [.target target name value]
  | .choice arms _ => arms.checks
  | .loop _ count _ body _ => count.checks ++ .count count :: Block.checks body
  | .abort _ => []

def Arms.checks : Arms → List Check
  | .last _ condition _ body _ alternative =>
    condition.checks ++ .condition condition :: Block.checks body ++ Block.checks alternative
  | .elseIf _ condition _ body _ rest =>
    condition.checks ++ .condition condition :: Block.checks body ++ rest.checks

def Block.checks : List Statement → List Check
  | [] => []
  | s :: ss => s.checks ++ Block.checks ss

end

/-! ### The first check that fails -/

/-- The types given behind some checks. -/
def learnAll (types : Types) (cs : List Check) : Types := cs.foldl Check.learn types

/-- Every check passes, with the types given in front of it. -/
def AllPass (types : Types) (cs : List Check) : Prop :=
  ∀ before c after, cs = before ++ c :: after → c.Passes (learnAll types before)

/-- The check `c` fails, and none in front of it does. -/
def FirstViolation (types : Types) (cs : List Check) (c : Check) : Prop :=
  ∃ before after, cs = before ++ c :: after ∧ AllPass types before ∧
    ¬ c.Passes (learnAll types before)

/-- Goes through checks, up to the first one that fails. -/
def judge (types : Types) : List Check → Except Check Types
  | [] => .ok types
  | c :: cs => if c.Passes types then judge (c.learn types) cs else .error c

theorem judge_append (types : Types) (a b : List Check) :
    judge types (a ++ b) = (judge types a).bind fun types => judge types b := by
  induction a generalizing types with
  | nil => rfl
  | cons c a ih =>
    simp only [List.cons_append, judge]
    split
    · exact ih _
    · rfl

theorem judge_append_of_ok {types types' : Types} {a : List Check} (h : judge types a = .ok types')
    (b : List Check) : judge types (a ++ b) = judge types' b := by
  rw [judge_append, h]
  rfl

theorem judge_append_of_error {types : Types} {a : List Check} {c : Check}
    (h : judge types a = .error c) (b : List Check) : judge types (a ++ b) = .error c := by
  rw [judge_append, h]
  rfl

theorem allPass_nil (types : Types) : AllPass types [] := by
  intro before c after h
  simp at h

theorem allPass_cons {types : Types} {c : Check} {cs : List Check} :
    AllPass types (c :: cs) ↔ c.Passes types ∧ AllPass (c.learn types) cs := by
  constructor
  · intro h
    refine ⟨h [] c cs rfl, ?_⟩
    rintro before c' after rfl
    exact h (c :: before) c' after rfl
  · rintro ⟨hc, hcs⟩ before c' after h
    rcases List.cons_eq_append_iff.1 h with ⟨rfl, heq⟩ | ⟨before, rfl, rfl⟩
    · cases heq
      exact hc
    · exact hcs before c' after rfl

theorem judge_eq_ok_iff {types types' : Types} {cs : List Check} :
    judge types cs = .ok types' ↔ AllPass types cs ∧ types' = learnAll types cs := by
  induction cs generalizing types with
  | nil =>
    refine ⟨?_, fun h => congrArg Except.ok h.2.symm⟩
    rintro ⟨⟩
    exact ⟨allPass_nil _, rfl⟩
  | cons c cs ih =>
    rw [judge, allPass_cons]
    split
    · rename_i hc
      rw [ih]
      exact ⟨fun h => ⟨⟨hc, h.1⟩, h.2⟩, fun h => ⟨h.1.2, h.2⟩⟩
    · rename_i hc
      exact ⟨fun h => (by cases h), fun h => absurd h.1.1 hc⟩

/-- Going through checks finds the first violation. -/
theorem judge_eq_error_iff {types : Types} {cs : List Check} {c : Check} :
    judge types cs = .error c ↔ FirstViolation types cs c := by
  constructor
  · intro h
    induction cs generalizing types with
    | nil => cases h
    | cons c' cs ih =>
      rw [judge] at h
      split at h
      · rename_i hc'
        obtain ⟨before, after, rfl, hpass, hfail⟩ := ih h
        exact ⟨c' :: before, after, rfl, allPass_cons.2 ⟨hc', hpass⟩, hfail⟩
      · rename_i hc'
        cases h
        exact ⟨[], cs, rfl, allPass_nil types, hc'⟩
  · rintro ⟨before, after, rfl, hpass, hfail⟩
    rw [judge_append_of_ok (judge_eq_ok_iff.2 ⟨hpass, rfl⟩), judge, if_neg hfail]

/-! ### Checks and types -/

/-- Inside an expression no types are given. -/
theorem Expression.learnAll_checks (types : Types) (e : Expression) :
    learnAll types e.checks = types := by
  unfold learnAll
  induction e with
  | constant t v => rfl
  | reference t name => rfl
  | group opening e closing ih => exact ih
  | negation t e ih => rw [checks, List.foldl_append, ih]; rfl
  | binary l t op r ihl ihr => rw [checks, List.foldl_append, List.foldl_append, ihl, ihr]; rfl

theorem Expression.judge_checks_of_type? {types : Types} {e : Expression} {ty : Ty}
    (h : e.type? types = some ty) : judge types e.checks = .ok types := by
  induction e generalizing ty with
  | constant t v => rfl
  | reference t name =>
    have hpass : (Check.read t name).Passes types := by
      intro hnone
      rw [type?, hnone] at h
      cases h
    rw [checks, judge, if_pos hpass]
    rfl
  | group opening e closing ih => exact ih h
  | negation t e ih =>
    have hpass : (Check.operator t (negation t e)).Passes types := by
      intro hnone
      rw [hnone] at h
      cases h
    simp only [type?, Option.bind_eq_bind, Option.bind_eq_some_iff] at h
    obtain ⟨ty', hty', -⟩ := h
    rw [checks, judge_append_of_ok (ih hty'), judge, if_pos hpass]
    rfl
  | binary l t op r ihl ihr =>
    have hpass : (Check.operator t (binary l t op r)).Passes types := by
      intro hnone
      rw [hnone] at h
      cases h
    simp only [type?, Option.bind_eq_bind, Option.bind_eq_some_iff] at h
    obtain ⟨left, hleft, right, hright, -⟩ := h
    rw [checks, List.append_assoc, judge_append_of_ok (ihl hleft), judge_append_of_ok (ihr hright),
      judge, if_pos hpass]
    rfl

theorem Expression.exists_judge_checks {types : Types} {e : Expression}
    (h : e.type? types = none) : ∃ c, judge types e.checks = .error c := by
  induction e with
  | constant t v => cases h
  | reference t name => exact ⟨.read t name, if_neg (not_not.2 h)⟩
  | group opening e closing ih => exact ih h
  | negation t e ih =>
    cases hty : e.type? types with
    | none =>
      obtain ⟨c, hc⟩ := ih hty
      exact ⟨c, judge_append_of_error hc _⟩
    | some ty =>
      refine ⟨.operator t (negation t e), ?_⟩
      rw [checks, judge_append_of_ok (judge_checks_of_type? hty)]
      exact if_neg (not_not.2 h)
  | binary l t op r ihl ihr =>
    cases hleft : l.type? types with
    | none =>
      obtain ⟨c, hc⟩ := ihl hleft
      exact ⟨c, judge_append_of_error (judge_append_of_error hc _) _⟩
    | some left =>
      cases hright : r.type? types with
      | none =>
        obtain ⟨c, hc⟩ := ihr hright
        refine ⟨c, judge_append_of_error ?_ _⟩
        rw [judge_append_of_ok (judge_checks_of_type? hleft), hc]
      | some right =>
        refine ⟨.operator t (binary l t op r), ?_⟩
        rw [checks, List.append_assoc, judge_append_of_ok (judge_checks_of_type? hleft),
          judge_append_of_ok (judge_checks_of_type? hright)]
        exact if_neg (not_not.2 h)

/-! ### Checks and the types that they give -/

theorem toOption_judge_append (types : Types) (a b : List Check) :
    (judge types (a ++ b)).toOption =
      (judge types a).toOption.bind fun types => (judge types b).toOption := by
  rw [judge_append]
  cases judge types a <;> rfl

/-- The checks of an expression, and one more that asks for the type `ty`. -/
theorem Expression.toOption_judge_checks_cons {types : Types} {e : Expression} (ty : Ty) {c : Check}
    (hpasses : c.Passes types ↔ e.type? types = some ty) (hlearn : c.learn types = types)
    (cs : List Check) :
    (judge types (e.checks ++ c :: cs)).toOption =
      if e.type? types = some ty then (judge types cs).toOption else none := by
  cases hty : e.type? types with
  | none =>
    obtain ⟨c', hc'⟩ := exists_judge_checks hty
    rw [judge_append_of_error hc', if_neg (fun h => by cases h)]
    rfl
  | some found =>
    rw [judge_append_of_ok (judge_checks_of_type? hty), judge, ← hty]
    by_cases h : e.type? types = some ty
    · rw [if_pos (hpasses.2 h), if_pos h, hlearn]
    · rw [if_neg (fun hc => h (hpasses.1 hc)), if_neg h]
      rfl

/-- The last check of an assignment gives the types that the assignment gives. -/
theorem toOption_judge_target {types : Types} {token : Token} {name : String} {value : Expression}
    {ty : Ty} (h : value.type? types = some ty) :
    (judge types [.target token name value]).toOption = types.assign? name ty := by
  rw [judge]
  simp only [Check.Passes, Check.learn, h, Types.assign?]
  cases hname : types name with
  | none =>
    rw [if_pos (by simp)]
    rfl
  | some expected =>
    have hsame : Function.update types name ((some expected).or (some ty)) = types := by
      rw [Option.some_or, ← hname, Function.update_eq_self]
    rw [hsame]
    by_cases heq : expected = ty
    · subst heq
      rw [if_pos (by simp)]
      simp [judge, Except.toOption]
    · rw [if_neg (by simpa using fun h' => heq h'.symm)]
      simp [heq, Except.toOption]

theorem Expression.toOption_judge_target (types : Types) (token : Token) (name : String)
    (value : Expression) :
    (judge types (value.checks ++ [.target token name value])).toOption =
      (value.type? types).bind (types.assign? name) := by
  cases hty : value.type? types with
  | none =>
    obtain ⟨c, hc⟩ := exists_judge_checks hty
    rw [judge_append_of_error hc]
    rfl
  | some ty =>
    rw [judge_append_of_ok (judge_checks_of_type? hty), BoundedLoop.toOption_judge_target hty]
    rfl

theorem Arms.toOption_judge_arm (types : Types) (condition : Expression) {body : List Statement}
    (hbody : ∀ types, (judge types (Block.checks body)).toOption = Block.check types body) :
    (judge types (condition.checks ++ .condition condition :: Block.checks body)).toOption =
      Arms.armCheck types condition body := by
  rw [condition.toOption_judge_checks_cons .boolean Iff.rfl rfl, hbody]
  rfl

mutual

/-- Going through the checks of a statement gives the types behind it. -/
theorem Statement.judge_checks : ∀ (s : Statement) (types : Types),
    (judge types s.checks).toOption = s.check types
  | .assign target name arrow value, types => value.toOption_judge_target types target name
  | .choice arms closer, types => arms.judge_checks types
  | .loop keyword count times body closer, types => by
    rw [Statement.checks, count.toOption_judge_checks_cons .number Iff.rfl rfl,
      Block.judge_checks body, Statement.check_loop]
  | .abort token, types => rfl

theorem Arms.judge_checks : ∀ (a : Arms) (types : Types),
    (judge types a.checks).toOption = a.check types
  | .last keyword condition thenWord body elseWord alternative, types => by
    rw [Arms.checks, toOption_judge_append,
      Arms.toOption_judge_arm types condition (Block.judge_checks body), Arms.check_last]
    exact Option.bind_congr fun types _ => Block.judge_checks alternative types
  | .elseIf keyword condition thenWord body elseWord rest, types => by
    rw [Arms.checks, toOption_judge_append,
      Arms.toOption_judge_arm types condition (Block.judge_checks body), Arms.check_elseIf]
    exact Option.bind_congr fun types _ => rest.judge_checks types

theorem Block.judge_checks : ∀ (ss : List Statement) (types : Types),
    (judge types (Block.checks ss)).toOption = Block.check types ss
  | [], types => rfl
  | s :: ss, types => by
    rw [Block.checks, toOption_judge_append, s.judge_checks]
    exact Option.bind_congr fun types _ => Block.judge_checks ss types

end

end BoundedLoop
