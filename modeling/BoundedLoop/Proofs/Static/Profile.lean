import BoundedLoop.Proofs.Static.CodeTyping

/-!
# The stacks of compiled code

`Block.profile` gives the types on the stack at each byte of the code of a block, one entry for each
byte as in the table of lines. It follows the shape of the code: an expression is computed above what
lies on the stack already, and between statements the stack is empty.

`Program.Accepted.typed_code`: the code of a program that can be compiled is typed by its stacks.
-/

namespace BoundedLoop

/-! ### Types of expressions -/

def BinaryOp.ty : BinaryOp → Ty
  | plus | star => .number
  | _ => .boolean

/-- The type of an expression that has one. -/
def Expression.ty (Γ : String → Ty) : Expression → Ty
  | constant _ v => v.ty
  | reference _ name => Γ name
  | group _ e _ => e.ty Γ
  | negation _ _ => .boolean
  | binary _ _ op _ => op.ty

theorem BinaryOp.ty_of_result? {op : BinaryOp} {left right ty : Ty}
    (h : op.result? left right = some ty) : op.ty = ty := by
  cases op with
  | equal =>
    simp only [result?] at h
    split at h
    · cases h
      rfl
    · cases h
  | _ => 
    cases left <;> cases right <;> cases h
    all_goals rfl

theorem Expression.HasType.ty_eq {Γ : String → Ty} {e : Expression} {ty : Ty}
    (h : e.HasType Γ ty) : e.ty Γ = ty := by
  induction e generalizing ty with
  | constant t v => exact h
  | reference t name => exact h
  | group opening e closing ih => exact ih h
  | negation t e ih => exact h.2.symm
  | binary l t op r ihl ihr =>
    obtain ⟨left, right, -, -, hop⟩ := h
    exact BinaryOp.ty_of_result? hop

/-! ### Stacks -/

/-- The stacks at the bytes that follow the left operand. `right` gives those of the right operand,
above what it finds. -/
def BinaryOp.profile (op : BinaryOp) (left other : Ty) (below : List Ty)
    (right : List Ty → List (List Ty)) : List (List Ty) :=
  match op with
  | or => List.replicate 7 (.boolean :: below) ++ right below
  | and => List.replicate 4 (.boolean :: below) ++ right below
  | lessEqual | greaterEqual =>
    right (left :: below) ++ [other :: left :: below, .boolean :: below]
  | _ => right (left :: below) ++ [other :: left :: below]

/-- The stacks at the bytes of an expression that is computed above `below`. -/
def Expression.profile (Γ : String → Ty) : Expression → List Ty → List (List Ty)
  | constant _ _, below => List.replicate 10 below
  | reference _ _, below => List.replicate 2 below
  | group _ e _, below => e.profile Γ below
  | negation _ e, below => e.profile Γ below ++ [.boolean :: below]
  | binary l _ op r, below =>
    l.profile Γ below ++ op.profile (l.ty Γ) (r.ty Γ) below (r.profile Γ)

/-- The stacks between the count and the body of a loop. -/
def Statement.headProfile : List (List Ty) :=
  List.replicate 3 [.number] ++ List.replicate 10 [] ++ List.replicate 3 [.number] ++
    List.replicate 2 [] ++ List.replicate 2 [.number] ++ [[.number, .number]] ++
    List.replicate 4 [.boolean]

/-- The stacks behind the body of a loop. The last instruction drops the outcome of the test. -/
def Statement.footProfile : List (List Ty) :=
  List.replicate 2 [] ++ List.replicate 10 [.number] ++ [[.number, .number]] ++
    List.replicate 3 [.number] ++ List.replicate 3 [] ++ [[.boolean]]

/-- The stacks of an arm. The last instruction drops a condition that does not hold. -/
def Arms.armProfile (condition body : List (List Ty)) : List (List Ty) :=
  condition ++ (List.replicate 4 [.boolean] ++ (body ++ (List.replicate 3 [] ++ [[.boolean]])))

mutual

def Statement.profile (Γ : String → Ty) : Statement → List (List Ty)
  | .assign _ name _ value => value.profile Γ [] ++ List.replicate 3 [Γ name]
  | .choice arms _ => arms.profile Γ
  | .loop _ count _ body _ =>
    count.profile Γ [] ++ (Statement.headProfile ++ (Block.profile Γ body ++ Statement.footProfile))
  | .abort _ => List.replicate 3 []

def Arms.profile (Γ : String → Ty) : Arms → List (List Ty)
  | .last _ condition _ body _ alternative =>
    Arms.armProfile (condition.profile Γ []) (Block.profile Γ body) ++ Block.profile Γ alternative
  | .elseIf _ condition _ body _ rest =>
    Arms.armProfile (condition.profile Γ []) (Block.profile Γ body) ++ rest.profile Γ

def Block.profile (Γ : String → Ty) : List Statement → List (List Ty)
  | [] => []
  | s :: ss => s.profile Γ ++ Block.profile Γ ss

end

/-! ### One entry for each byte -/

theorem BinaryOp.length_profile (op : BinaryOp) {left other : Ty} {below : List Ty} {line : Nat}
    {right : List Ty → List (List Ty)} {code : Fragment}
    (h : ∀ below, (right below).length = code.size) :
    (op.profile left other below right).length = (op.code line code).size := by
  cases op <;> simp [profile, BinaryOp.code, instructions, h, Instruction.size, Instruction.opcode,
    Opcode.operandSize] <;> omega

theorem Expression.length_profile (Γ : String → Ty) (e : Expression) (below : List Ty) :
    (e.profile Γ below).length = e.size := by
  induction e generalizing below with
  | constant t v => simp [profile, size, code]
  | reference t name => rfl
  | group opening e closing ih => exact ih below
  | negation t e ih =>
    rw [profile, List.length_append, ih]
    simp [size, code]
  | binary l t op r ihl ihr =>
    have hop : (op.profile (l.ty Γ) (r.ty Γ) below (r.profile Γ)).length =
        (op.code t.line (r.code fun _ => 0)).size := op.length_profile ihr
    rw [profile, List.length_append, ihl, hop]
    simp [size, code]

theorem Arms.length_armProfile (condition body : List (List Ty)) :
    (Arms.armProfile condition body).length = condition.length + body.length + 8 := by
  simp [Arms.armProfile]
  omega

mutual

theorem Statement.length_profile (Γ : String → Ty) : ∀ s : Statement, (s.profile Γ).length = s.size
  | .assign target name arrow value => by
    simp [Statement.profile, Statement.size, value.length_profile]
  | .choice arms closer => arms.length_profile Γ
  | .loop keyword count times body closer => by
    have hhead : Statement.headProfile.length = 25 := rfl
    have hfoot : Statement.footProfile.length = 20 := rfl
    simp only [Statement.profile, Statement.size, List.length_append, count.length_profile,
      Block.length_profile Γ body, hhead, hfoot]
    omega
  | .abort token => rfl

theorem Arms.length_profile (Γ : String → Ty) : ∀ a : Arms, (a.profile Γ).length = a.size
  | .last keyword condition thenWord body elseWord alternative => by
    simp only [Arms.profile, Arms.size, List.length_append, Arms.length_armProfile,
      condition.length_profile, Block.length_profile Γ body, Block.length_profile Γ alternative]
    omega
  | .elseIf keyword condition thenWord body elseWord rest => by
    simp only [Arms.profile, Arms.size, List.length_append, Arms.length_armProfile,
      condition.length_profile, Block.length_profile Γ body, rest.length_profile Γ]
    omega

theorem Block.length_profile (Γ : String → Ty) : ∀ ss : List Statement,
    (Block.profile Γ ss).length = Block.size ss
  | [] => rfl
  | s :: ss => by
    simp only [Block.profile, Block.size, List.length_append, s.length_profile Γ,
      Block.length_profile Γ ss]

end

/-- An expression begins with what it finds. -/
theorem Expression.getElem?_profile_zero (Γ : String → Ty) (e : Expression) (below : List Ty) :
    (e.profile Γ below)[0]? = some below := by
  induction e generalizing below with
  | constant t v => rfl
  | reference t name => rfl
  | group opening e closing ih => exact ih below
  | negation t e ih =>
    have hlt := (List.getElem?_eq_some_iff.1 (ih below)).1
    rw [profile, List.getElem?_append_left hlt, ih]
  | binary l t op r ihl ihr =>
    have hlt := (List.getElem?_eq_some_iff.1 (ihl below)).1
    rw [profile, List.getElem?_append_left hlt, ihl]

/-! ### Stacks at an offset -/

namespace CodeTyping

/-- From `k` on the stacks are those of `part`. -/
def Shows (T : CodeTyping) (k : Nat) (part : List (List Ty)) : Prop :=
  ∀ (j : Nat) (s : List Ty), part[j]? = some s → T.stack (k + j) = s

/-- Execution may arrive wherever code that begins at `k` can be cut. -/
def Marks (T : CodeTyping) (k : Nat) (code : Fragment) : Prop :=
  ∀ o, code.Boundary k o → T.target o

variable {T : CodeTyping} {k : Nat} {a b : Fragment} {x y : List (List Ty)}

theorem Shows.left (h : T.Shows k (x ++ y)) : T.Shows k x := by
  intro j s hj
  have hlt := (List.getElem?_eq_some_iff.1 hj).1
  exact h j s (by rw [List.getElem?_append_left hlt, hj])

theorem Shows.right (h : T.Shows k (x ++ y)) : T.Shows (k + x.length) y := by
  intro j s hj
  have hj' : (x ++ y)[x.length + j]? = some s := by
    rw [List.getElem?_append_right (Nat.le_add_right _ _), Nat.add_sub_cancel_left, hj]
  rw [Nat.add_assoc]
  exact h _ s hj'

theorem Marks.left (h : T.Marks k (a ++ b)) : T.Marks k a := by
  rintro o ⟨a₁, a₂, rfl, ho⟩
  exact h o ⟨a₁, a₂ ++ b, List.append_assoc _ _ _, ho⟩

theorem Marks.right (h : T.Marks k (a ++ b)) : T.Marks (k + a.size) b := by
  rintro o ⟨b₁, b₂, rfl, ho⟩
  refine h o ⟨a ++ b₁, b₂, (List.append_assoc _ _ _).symm, ?_⟩
  rw [ho, Fragment.size_append, Nat.add_assoc]

/-- Where two pieces of code meet. -/
theorem Marks.mid (h : T.Marks k (a ++ b)) : T.target (k + a.size) :=
  h _ ⟨a, b, rfl, rfl⟩

theorem Marks.stop (h : T.Marks k a) : T.target (k + a.size) :=
  h _ ⟨a, [], by simp, rfl⟩

end CodeTyping

/-! ### Expressions -/

section Expressions

variable {T : CodeTyping} {Γ : String → Ty} {slot : String → UInt8} {k line : Nat}
  {below : List Ty} {code : Fragment} {profile : List Ty → List (List Ty)} {left right ty : Ty}

/-- Wherever its profile is shown, the code is typed and leaves a value of type `ty`. -/
structure CodeTyping.Computes (T : CodeTyping) (code : Fragment)
    (profile : List Ty → List (List Ty)) (ty : Ty) : Prop where
  length : ∀ below, (profile below).length = code.size
  start : ∀ k below, T.Shows k (profile below) → T.stack k = below
  typed : ∀ k below, T.Shows k (profile below) → T.stack (k + code.size) = ty :: below →
    T.Marks k code → code.Typed T k

/-- The instructions of an operator that takes both operands. -/
theorem BinaryOp.typed_instructions {op : BinaryOp} (hor : op ≠ .or) (hand : op ≠ .and)
    (hop : op.result? left right = some ty) (hfirst : T.stack k = right :: left :: below)
    (hnot : op = .lessEqual ∨ op = .greaterEqual → T.stack (k + 1) = .boolean :: below)
    (hnext : T.stack (k + Fragment.size (op.instructions.map (.op · line))) = ty :: below) :
    Fragment.Typed T k (op.instructions.map (.op · line)) := by
  cases op with
  | or => exact absurd rfl hor
  | and => exact absurd rfl hand
  | equal =>
    simp only [result?] at hop
    split at hop
    · rename_i heq
      subst heq
      cases hop
      exact ⟨⟨left, below, hfirst, hnext⟩, trivial⟩
    · cases hop
  | less | greater | plus | star =>
    cases left <;> cases right <;> cases hop
    exact ⟨⟨below, hfirst, hnext⟩, trivial⟩
  | lessEqual | greaterEqual =>
    cases left <;> cases right <;> cases hop
    have hmid : T.stack (k + 1) = .boolean :: below := hnot (by simp)
    exact ⟨⟨below, hfirst, hmid⟩, ⟨below, hmid, hnext⟩, trivial⟩

theorem BinaryOp.typed_or (hcode : T.Computes code profile .boolean)
    (hshow : T.Shows k (BinaryOp.or.profile left right below profile))
    (hnext : T.stack (k + Fragment.size (BinaryOp.or.code line code)) = .boolean :: below)
    (hmarks : T.Marks k (BinaryOp.or.code line code)) :
    Fragment.Typed T k (BinaryOp.or.code line code) ∧ T.stack k = .boolean :: below := by
  have hsize : k + Fragment.size (BinaryOp.or.code line code) = k + 7 + code.size := by
    simp only [BinaryOp.code, Fragment.size_cons_jump, Fragment.size_cons_op, Instruction.size_pop]
    omega
  have h₀ := hshow.left 0 _ rfl
  have h₃ := hshow.left 3 _ rfl
  have h₆ := hshow.left 6 _ rfl
  have h₇ : T.stack (k + 7) = below := hcode.start _ _ hshow.right
  have hstop := hmarks.stop
  rw [hsize] at hnext hstop
  have hpop : T.target (k + 6) :=
    hmarks _ ⟨[.jump .ifFalse 3 line, .jump .always (code.size + 1) line], _, rfl, rfl⟩
  have hotherwise : T.Lands k 3 := ⟨k + 6, by push_cast; omega, hpop, h₆.trans h₀.symm⟩
  have hdone : T.Lands (k + 3) (code.size + 1) :=
    ⟨k + 7 + code.size, by push_cast; omega, hstop, hnext.trans h₃.symm⟩
  have hright : code.Typed T (k + 7) := by
    refine hcode.typed _ below hshow.right hnext (CodeTyping.Marks.right (a := [
      .jump .ifFalse 3 line, .jump .always (code.size + 1) line, .op .pop line]) hmarks)
  refine ⟨⟨⟨by decide, hotherwise, h₃.trans h₀.symm, below, h₀⟩, ⟨by omega, hdone⟩,
    ⟨.boolean, ?_⟩, hright⟩, h₀⟩
  exact h₆.trans (congrArg _ h₇.symm)

theorem BinaryOp.typed_and (hcode : T.Computes code profile .boolean)
    (hshow : T.Shows k (BinaryOp.and.profile left right below profile))
    (hnext : T.stack (k + Fragment.size (BinaryOp.and.code line code)) = .boolean :: below)
    (hmarks : T.Marks k (BinaryOp.and.code line code)) :
    Fragment.Typed T k (BinaryOp.and.code line code) ∧ T.stack k = .boolean :: below := by
  have hsize : k + Fragment.size (BinaryOp.and.code line code) = k + 4 + code.size := by
    simp only [BinaryOp.code, Fragment.size_cons_jump, Fragment.size_cons_op, Instruction.size_pop]
    omega
  have h₀ := hshow.left 0 _ rfl
  have h₃ := hshow.left 3 _ rfl
  have h₄ : T.stack (k + 4) = below := hcode.start _ _ hshow.right
  have hstop := hmarks.stop
  rw [hsize] at hnext hstop
  have hdone : T.Lands k (code.size + 1) :=
    ⟨k + 4 + code.size, by push_cast; omega, hstop, hnext.trans h₀.symm⟩
  have hright : code.Typed T (k + 4) := by
    refine hcode.typed _ below hshow.right hnext (CodeTyping.Marks.right (a := [
      .jump .ifFalse (code.size + 1) line, .op .pop line]) hmarks)
  refine ⟨⟨⟨by omega, hdone, h₃.trans h₀.symm, below, h₀⟩, ⟨.boolean, ?_⟩, hright⟩, h₀⟩
  exact h₃.trans (congrArg _ h₄.symm)

/-- The profile of an operator that takes both operands ends with those of its instructions. -/
theorem BinaryOp.profile_strict {op : BinaryOp} (hor : op ≠ .or) (hand : op ≠ .and)
    (left right : Ty) (below : List Ty) (profile : List Ty → List (List Ty)) :
    ∃ last, op.profile left right below profile =
        profile (left :: below) ++ ((right :: left :: below) :: last) ∧
      (op = .lessEqual ∨ op = .greaterEqual → last = [.boolean :: below]) := by
  cases op with
  | or => exact absurd rfl hor
  | and => exact absurd rfl hand
  | lessEqual | greaterEqual => exact ⟨[.boolean :: below], rfl, fun _ => rfl⟩
  | _ => exact ⟨[], rfl, by simp⟩

/-- What follows the left operand is typed, and finds that operand on the stack. -/
theorem BinaryOp.typed_code {op : BinaryOp} (hop : op.result? left right = some ty)
    (hcode : T.Computes code profile right)
    (hshow : T.Shows k (op.profile left right below profile))
    (hnext : T.stack (k + (op.code line code).size) = ty :: below)
    (hmarks : T.Marks k (op.code line code)) :
    (op.code line code).Typed T k ∧ T.stack k = left :: below := by
  have hlazy : op = .or ∨ op = .and → left = .boolean ∧ right = .boolean ∧ ty = .boolean := by
    rintro (rfl | rfl)
    all_goals cases left <;> cases right <;> cases hop
    all_goals exact ⟨rfl, rfl, rfl⟩
  by_cases hor : op = .or
  · subst hor
    obtain ⟨rfl, rfl, rfl⟩ := hlazy (.inl rfl)
    exact typed_or hcode hshow hnext hmarks
  · by_cases hand : op = .and
    · subst hand
      obtain ⟨rfl, rfl, rfl⟩ := hlazy (.inr rfl)
      exact typed_and hcode hshow hnext hmarks
    · obtain ⟨last, hlast, hnot⟩ := BinaryOp.profile_strict hor hand left right below profile
      obtain ⟨heq, -⟩ := BinaryOp.code_strict hor hand line code
      rw [hlast] at hshow
      rw [heq] at hnext hmarks ⊢
      rw [Fragment.size_append, ← Nat.add_assoc] at hnext
      have hlast := hshow.right
      rw [hcode.length] at hlast
      have hfirst : T.stack (k + code.size) = right :: left :: below := hlast 0 _ rfl
      refine ⟨Fragment.typed_append.2 ⟨hcode.typed k _ hshow.left hfirst hmarks.left, ?_⟩,
        hcode.start k _ hshow.left⟩
      refine typed_instructions hor hand hop hfirst (fun h => ?_) hnext
      exact hlast 1 _ (by rw [hnot h]; rfl)

/-- The code of an expression computes a value of its type. -/
theorem Expression.computes {e : Expression} (hty : e.HasType Γ ty)
    (hreads : ∀ name ∈ e.reads, T.slot (slot name).toNat = some (Γ name)) :
    T.Computes (e.code slot) (e.profile Γ) ty := by
  have hlength : ∀ (e : Expression) below, (e.profile Γ below).length = (e.code slot).size := by
    intro e below
    rw [e.length_profile, e.size_code]
  have hstart : ∀ (e : Expression) k below, T.Shows k (e.profile Γ below) → T.stack k = below :=
    fun e k below h => h 0 below (e.getElem?_profile_zero Γ below)
  refine ⟨hlength e, hstart e, ?_⟩
  induction e generalizing ty with
  | constant t v =>
    intro k below hshow hnext hmarks
    have hpush : T.stack (k + 10) = v.ty :: T.stack k := by
      rw [hstart _ k below hshow, show v.ty = ty from hty]
      simpa [code] using hnext
    exact ⟨hpush, trivial⟩
  | reference t name =>
    intro k below hshow hnext hmarks
    refine ⟨⟨Γ name, hreads name (by simp [reads]), ?_⟩, trivial⟩
    rw [hstart _ k below hshow, show Γ name = ty from hty]
    exact hnext
  | group opening e closing ih => exact ih hty hreads
  | negation t e ih =>
    intro k below hshow hnext hmarks
    obtain ⟨he, rfl⟩ := hty
    have hnot : T.stack (k + (e.code slot).size) = .boolean :: below := by
      have h := hshow.right 0 _ rfl
      rwa [hlength] at h
    simp only [code, Fragment.size_append, ← Nat.add_assoc] at hnext
    refine Fragment.typed_append.2 ⟨ih he hreads k below hshow.left hnot hmarks.left, ?_⟩
    exact ⟨⟨below, hnot, hnext⟩, trivial⟩
  | binary l t op r ihl ihr =>
    intro k below hshow hnext hmarks
    obtain ⟨left, right, hl, hr, hop⟩ := hty
    simp only [reads, List.mem_append] at hreads
    simp only [code, Fragment.size_append, ← Nat.add_assoc] at hnext hmarks
    have hright : T.Computes (r.code slot) (r.profile Γ) right :=
      ⟨hlength r, hstart r, ihr hr fun name hn => hreads name (.inr hn)⟩
    have hshow' := hshow.right
    rw [hlength, hl.ty_eq, hr.ty_eq] at hshow'
    obtain ⟨htyped, hmid⟩ := BinaryOp.typed_code hop hright hshow' hnext hmarks.right
    exact Fragment.typed_append.2
      ⟨ihl hl (fun name hn => hreads name (.inl hn)) k below hshow.left hmid hmarks.left, htyped⟩

end Expressions

end BoundedLoop
