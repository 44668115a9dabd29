import BoundedLoop.Proofs.Codegen.Code
import BoundedLoop.Proofs.Syntax.Typing

/-!
# Rules for variables and types

The rules that a program has to follow, without an order of checking: every read of a variable
stands behind an assignment to it (`InOrder`), and there is one type for each variable such that all
operands have the types that they should have (`Block.WellTyped`).

`Program.check_iff`: `Block.check` accepts exactly the programs that follow both rules.
-/

namespace BoundedLoop

/-! ### Reads and assignments in the order of the text -/

/-- What a program does to a variable at some place of its text. An assignment takes place at its
end. -/
inductive Event where
  | read (name : String)
  | assigned (name : String)
deriving DecidableEq

mutual

/-- The reads and assignments of a statement, in the order of the text. -/
def Statement.events : Statement → List Event
  | .assign _ name _ value => value.reads.map .read ++ [.assigned name]
  | .choice arms _ => arms.events
  | .loop _ count _ body _ => count.reads.map .read ++ Block.events body
  | .abort _ => []

def Arms.events : Arms → List Event
  | .last _ condition _ body _ alternative =>
    condition.reads.map .read ++ Block.events body ++ Block.events alternative
  | .elseIf _ condition _ body _ rest =>
    condition.reads.map .read ++ Block.events body ++ rest.events

def Block.events : List Statement → List Event
  | [] => []
  | s :: ss => s.events ++ Block.events ss

end

/-- Every variable that is read is `known` or was assigned before. -/
def InOrder (known : String → Prop) (es : List Event) : Prop :=
  ∀ before name after, es = before ++ .read name :: after → known name ∨ .assigned name ∈ before

theorem inOrder_nil (known : String → Prop) : InOrder known [] := by
  intro before name after h
  simp at h

theorem inOrder_append {known : String → Prop} {a b : List Event} :
    InOrder known (a ++ b) ↔
      InOrder known a ∧ InOrder (fun name => known name ∨ .assigned name ∈ a) b := by
  constructor
  · intro h
    refine ⟨?_, ?_⟩
    · rintro before name after rfl
      exact h before name (after ++ b) (by simp)
    · rintro before name after rfl
      rcases h (a ++ before) name after (by simp) with hk | hm
      · exact .inl (.inl hk)
      · rcases List.mem_append.1 hm with hm | hm
        · exact .inl (.inr hm)
        · exact .inr hm
  · rintro ⟨ha, hb⟩ before name after h
    -- the read stands in the first part or in the second one
    rcases List.append_eq_append_iff.1 h with ⟨more, rfl, hmore⟩ | ⟨more, rfl, hmore⟩
    · rcases hb more name after hmore with (hk | hm) | hm
      · exact .inl hk
      · exact .inr (List.mem_append_left _ hm)
      · exact .inr (List.mem_append_right _ hm)
    · cases more with
      | nil =>
        rcases hb [] name after (by simpa using hmore.symm) with (hk | hm) | hm
        · exact .inl hk
        · exact .inr (by simpa using hm)
        · simp at hm
      | cons e more =>
        obtain ⟨rfl, -⟩ := List.cons.inj hmore
        exact ha before name more rfl

theorem inOrder_read {known : String → Prop} {names : List String} :
    InOrder known (names.map .read) ↔ ∀ name ∈ names, known name := by
  constructor
  · intro h name hname
    obtain ⟨front, back, rfl⟩ := List.append_of_mem hname
    rcases h (front.map .read) name (back.map .read) (by simp) with hk | hm
    · exact hk
    · simp at hm
  · intro h before name after heq
    refine .inl (h name ?_)
    have : Event.read name ∈ names.map .read := by rw [heq]; simp
    simpa using this

theorem inOrder_assigned (known : String → Prop) (name : String) :
    InOrder known [.assigned name] := by
  intro before name' after h
  have : Event.read name' ∈ [Event.assigned name] := by rw [h]; simp
  simp at this

theorem InOrder.congr {known known' : String → Prop} {es : List Event}
    (h : ∀ name, known name ↔ known' name) : InOrder known es ↔ InOrder known' es := by
  simp only [InOrder, h]

/-! ### One type for each variable -/

/-- `e` has the type `ty` if the variables have the types `Γ`. -/
def Expression.HasType (Γ : String → Ty) : Expression → Ty → Prop
  | constant _ v, ty => v.ty = ty
  | reference _ name, ty => Γ name = ty
  | group _ e _, ty => e.HasType Γ ty
  | negation _ e, ty => e.HasType Γ .boolean ∧ ty = .boolean
  | binary l _ op r, ty =>
    ∃ left right, l.HasType Γ left ∧ r.HasType Γ right ∧ op.result? left right = some ty

mutual

/-- What is assigned to a variable has the type of the variable, conditions are truth values and
the counts of loops are numbers. -/
def Statement.WellTyped (Γ : String → Ty) : Statement → Prop
  | .assign _ name _ value => value.HasType Γ (Γ name)
  | .choice arms _ => arms.WellTyped Γ
  | .loop _ count _ body _ => count.HasType Γ .number ∧ Block.WellTyped Γ body
  | .abort _ => True

def Arms.WellTyped (Γ : String → Ty) : Arms → Prop
  | .last _ condition _ body _ alternative =>
    (condition.HasType Γ .boolean ∧ Block.WellTyped Γ body) ∧ Block.WellTyped Γ alternative
  | .elseIf _ condition _ body _ rest =>
    (condition.HasType Γ .boolean ∧ Block.WellTyped Γ body) ∧ rest.WellTyped Γ

def Block.WellTyped (Γ : String → Ty) : List Statement → Prop
  | [] => True
  | s :: ss => s.WellTyped Γ ∧ Block.WellTyped Γ ss

end

/-! ### The check follows the rules -/

namespace Types

def Known (types : Types) (name : String) : Prop := types name ≠ none

/-- The types collected so far are the right ones. -/
def Below (types : Types) (Γ : String → Ty) : Prop :=
  ∀ name ty, types name = some ty → Γ name = ty

/-- A check that goes over the events `es` finds out whether they are in order and `P` holds. -/
structure Decides (Γ : String → Ty) (check : Types → Option Types) (es : List Event) (P : Prop) :
    Prop where
  known : ∀ types types', check types = some types' →
    ∀ name, types'.Known name ↔ types.Known name ∨ .assigned name ∈ es
  iff : ∀ types, (∃ types', check types = some types' ∧ types'.Below Γ) ↔
    types.Below Γ ∧ InOrder types.Known es ∧ P

variable {Γ : String → Ty} {types types' : Types}

theorem Decides.bind {c₁ c₂ : Types → Option Types} {a b : List Event} {P Q : Prop}
    (h₁ : Decides Γ c₁ a P) (h₂ : Decides Γ c₂ b Q) :
    Decides Γ (fun types => (c₁ types).bind c₂) (a ++ b) (P ∧ Q) := by
  refine ⟨?_, ?_⟩
  · intro types types₂ h name
    obtain ⟨types₁, hc₁, hc₂⟩ := Option.bind_eq_some_iff.1 h
    rw [h₂.known _ _ hc₂, h₁.known _ _ hc₁, List.mem_append, or_assoc]
  · intro types
    have hstep : (∃ types₂, (c₁ types).bind c₂ = some types₂ ∧ types₂.Below Γ) ↔
        ∃ types₁, c₁ types = some types₁ ∧ types₁.Below Γ ∧ InOrder types₁.Known b ∧ Q := by
      simp only [Option.bind_eq_some_iff, ← h₂.iff]
      constructor
      · rintro ⟨types₂, ⟨types₁, hc₁, hc₂⟩, hb⟩
        exact ⟨types₁, hc₁, types₂, hc₂, hb⟩
      · rintro ⟨types₁, hc₁, types₂, hc₂, hb⟩
        exact ⟨types₂, ⟨types₁, hc₁, hc₂⟩, hb⟩
    rw [hstep, inOrder_append]
    constructor
    · rintro ⟨types₁, hc₁, hb, hord, hQ⟩
      obtain ⟨hbelow, ha, hP⟩ := (h₁.iff types).1 ⟨types₁, hc₁, hb⟩
      exact ⟨hbelow, ⟨ha, (InOrder.congr (h₁.known _ _ hc₁)).1 hord⟩, hP, hQ⟩
    · rintro ⟨hbelow, ⟨ha, hord⟩, hP, hQ⟩
      obtain ⟨types₁, hc₁, hb⟩ := (h₁.iff types).2 ⟨hbelow, ha, hP⟩
      exact ⟨types₁, hc₁, hb, (InOrder.congr (h₁.known _ _ hc₁)).2 hord, hQ⟩

theorem Decides.congr {c c' : Types → Option Types} {es : List Event} {P : Prop}
    (h : Decides Γ c es P) (heq : ∀ types, c' types = c types) : Decides Γ c' es P := by
  rw [funext heq]
  exact h

theorem decides_some : Decides Γ some [] True := by
  refine ⟨?_, ?_⟩
  · rintro types types' ⟨⟩ name
    simp
  · intro types
    simp [inOrder_nil]

end Types

theorem Expression.type?_eq_some_iff {Γ : String → Ty} {types : Types} (hΓ : types.Below Γ)
    {e : Expression} {ty : Ty} :
    e.type? types = some ty ↔ (∀ name ∈ e.reads, types.Known name) ∧ e.HasType Γ ty := by
  induction e generalizing ty with
  | constant t v => simp [type?, reads, HasType]
  | reference t name =>
    simp only [type?, reads, HasType, List.forall_mem_singleton, Types.Known]
    constructor
    · intro h
      exact ⟨by simp [h], hΓ name ty h⟩
    · rintro ⟨hknown, rfl⟩
      obtain ⟨ty, hty⟩ := Option.ne_none_iff_exists'.1 hknown
      rw [hty, hΓ name ty hty]
  | group opening e closing ih => exact ih
  | negation t e ih =>
    simp only [type?, reads, HasType, Option.bind_eq_bind, Option.bind_eq_some_iff, ih]
    constructor
    · rintro ⟨ty', ⟨hreads, hty⟩, h⟩
      split at h
      · rename_i hb
        subst hb
        cases h
        exact ⟨hreads, hty, rfl⟩
      · cases h
    · rintro ⟨hreads, hty, rfl⟩
      exact ⟨.boolean, ⟨hreads, hty⟩, rfl⟩
  | binary l t op r ihl ihr =>
    simp only [type?, reads, HasType, Option.bind_eq_bind, Option.bind_eq_some_iff, ihl, ihr,
      List.forall_mem_append]
    constructor
    · rintro ⟨left, ⟨hl, hleft⟩, right, ⟨hr, hright⟩, hop⟩
      exact ⟨⟨hl, hr⟩, left, right, hleft, hright, hop⟩
    · rintro ⟨⟨hl, hr⟩, left, right, hleft, hright, hop⟩
      exact ⟨left, ⟨hl, hleft⟩, right, ⟨hr, hright⟩, hop⟩

namespace Types

variable {Γ : String → Ty}

theorem decides_type? (e : Expression) (ty : Ty) :
    Decides Γ (fun types => if e.type? types = some ty then some types else none)
      (e.reads.map .read) (e.HasType Γ ty) := by
  refine ⟨?_, ?_⟩
  · intro types types' h name
    split at h
    · cases h
      simp
    · cases h
  · intro types
    rw [inOrder_read]
    constructor
    · rintro ⟨types', h, hb⟩
      split at h
      · rename_i hty
        cases h
        exact ⟨hb, (Expression.type?_eq_some_iff hb).1 hty⟩
      · cases h
    · rintro ⟨hb, hty⟩
      exact ⟨types, if_pos ((Expression.type?_eq_some_iff hb).2 hty), hb⟩

theorem known_of_assign? {types types' : Types} {name : String} {ty : Ty}
    (h : types.assign? name ty = some types') (other : String) :
    types'.Known other ↔ types.Known other ∨ other = name := by
  simp only [assign?] at h
  split at h
  · cases h
    by_cases ho : other = name
    · subst ho; simp [Known]
    · simp [Known, ho]
  · rename_i expected hname
    split at h
    · cases h
      constructor
      · exact .inl
      · rintro (hk | rfl)
        · exact hk
        · simp [Known, hname]
    · cases h

/-- An assignment goes well if and only if its value has the type that the variable should have. -/
theorem assign?_iff {types : Types} {name : String} {ty : Ty} :
    (∃ types', types.assign? name ty = some types' ∧ types'.Below Γ) ↔
      types.Below Γ ∧ Γ name = ty := by
  simp only [assign?]
  cases hname : types name with
  | none =>
    simp only [Option.some.injEq, exists_eq_left']
    constructor
    · intro h
      refine ⟨fun other ty' hother => h other ty' ?_, h name ty (by simp)⟩
      rw [Function.update_of_ne, hother]
      rintro rfl
      rw [hname] at hother
      cases hother
    · rintro ⟨h, rfl⟩ other ty' hother
      by_cases ho : other = name
      · subst ho
        simpa using hother
      · rw [Function.update_of_ne ho] at hother
        exact h other ty' hother
  | some expected =>
    simp only
    split
    · rename_i heq
      subst heq
      simp only [Option.some.injEq, exists_eq_left']
      exact ⟨fun h => ⟨h, h name expected hname⟩, And.left⟩
    · rename_i hne
      simp only [reduceCtorEq, false_and, exists_false, false_iff]
      rintro ⟨h, rfl⟩
      exact hne (h name expected hname).symm

theorem decides_assign (name : String) (value : Expression) :
    Decides Γ (fun types => (value.type? types).bind (types.assign? name))
      (value.reads.map .read ++ [.assigned name]) (value.HasType Γ (Γ name)) := by
  refine ⟨?_, ?_⟩
  · intro types types' h other
    obtain ⟨ty, -, hassign⟩ := Option.bind_eq_some_iff.1 h
    rw [known_of_assign? hassign]
    simp
  · intro types
    simp only [Option.bind_eq_some_iff, inOrder_append, inOrder_read, inOrder_assigned, and_true]
    constructor
    · rintro ⟨types', ⟨ty, hty, hassign⟩, hb⟩
      obtain ⟨hbelow, rfl⟩ := assign?_iff.1 ⟨types', hassign, hb⟩
      exact ⟨hbelow, (Expression.type?_eq_some_iff hbelow).1 hty⟩
    · rintro ⟨hbelow, hty⟩
      obtain ⟨types', hassign, hb⟩ := assign?_iff.2 ⟨hbelow, rfl⟩
      exact ⟨types', ⟨_, (Expression.type?_eq_some_iff hbelow).2 hty, hassign⟩, hb⟩

end Types

theorem Arms.decides_armCheck {Γ : String → Ty} {body : List Statement} {es : List Event} {P : Prop}
    (condition : Expression) (h : Types.Decides Γ (Block.check · body) es P) :
    Types.Decides Γ (Arms.armCheck · condition body) (condition.reads.map .read ++ es)
      (condition.HasType Γ .boolean ∧ P) := by
  refine ((Types.decides_type? condition .boolean).bind h).congr fun types => ?_
  rw [Arms.armCheck]
  split <;> rfl

mutual

theorem Statement.decides_check (Γ : String → Ty) : ∀ s : Statement,
    Types.Decides Γ s.check s.events (s.WellTyped Γ)
  | .assign target name arrow value => Types.decides_assign name value
  | .choice arms closer => arms.decides_check Γ
  | .loop keyword count times body closer => by
    refine ((Types.decides_type? count .number).bind (Block.decides_check Γ body)).congr
      fun types => ?_
    rw [Statement.check_loop]
    split <;> rfl
  | .abort token => Types.decides_some

theorem Arms.decides_check (Γ : String → Ty) : ∀ a : Arms,
    Types.Decides Γ a.check a.events (a.WellTyped Γ)
  | .last _ condition _ body _ alternative =>
    ((Arms.decides_armCheck condition (Block.decides_check Γ body)).bind
      (Block.decides_check Γ alternative)).congr fun _ => Arms.check_last ..
  | .elseIf _ condition _ body _ rest =>
    ((Arms.decides_armCheck condition (Block.decides_check Γ body)).bind
      (rest.decides_check Γ)).congr fun _ => Arms.check_elseIf ..

theorem Block.decides_check (Γ : String → Ty) : ∀ ss : List Statement,
    Types.Decides Γ (Block.check · ss) (Block.events ss) (Block.WellTyped Γ ss)
  | [] => Types.decides_some
  | s :: ss => (s.decides_check Γ).bind (Block.decides_check Γ ss)

end

/-- The check accepts exactly the programs whose reads are in order and that can be typed. -/
theorem Program.check_iff (p : Program) :
    (∃ types, Block.check (fun _ => none) p = some types) ↔
      InOrder (fun _ => False) (Block.events p) ∧ ∃ Γ, Block.WellTyped Γ p := by
  have hknown : ∀ name, Types.Known (fun _ => none) name ↔ False := fun name => by simp [Types.Known]
  have hbelow : ∀ Γ, Types.Below (fun _ => none) Γ := fun Γ name ty h => by cases h
  constructor
  · rintro ⟨types, hcheck⟩
    have htypes : types.Below fun name => (types name).getD .number := by
      intro name ty h
      simp [h]
    obtain ⟨-, hord, hwell⟩ := ((Block.decides_check _ p).iff _).1 ⟨types, hcheck, htypes⟩
    exact ⟨(InOrder.congr hknown).1 hord, _, hwell⟩
  · rintro ⟨hord, Γ, hwell⟩
    obtain ⟨types, hcheck, -⟩ := ((Block.decides_check Γ p).iff _).2
      ⟨hbelow Γ, (InOrder.congr hknown).2 hord, hwell⟩
    exact ⟨types, hcheck⟩

end BoundedLoop
