import BoundedLoop.Compile
import BoundedLoop.Proofs.Recovery.Nest

/-!
# What reading an expression can do

`CompileM.Ends` says how a computation ends, whether it fails or not. `CompileM.Reads` is what all
computations have in common that compile no block: they read tokens of a certain class, one after the
other, write code, and leave the open statements, the loops and the diagnostics as they are.

`Diagnostic.Mild` are the diagnostics that say nothing about blocks. Expressions, conditions and
assignments read plain tokens only, and fail with nothing else.
-/

namespace BoundedLoop

namespace Token.Kind

/-- Neither does an operator open or close anything, nor what begins an operand. -/
theorem isPlain_of_binaryOp? {k : Kind} {op : BinaryOp} (h : k.binaryOp? = some op) :
    k.isPlain = true := by
  cases k with
  | keyword w => cases w <;> simp_all [isPlain, binaryOp?]
  | eof => cases h
  | _ => rfl

theorem isPlain_of_operandForm? {k : Kind} {form : OperandForm} (h : k.operandForm? = some form) :
    k.isPlain = true := by
  cases k with
  | keyword w => cases w <;> simp_all [isPlain, operandForm?]
  | eof => cases h
  | _ => rfl

end Token.Kind

/-! ### Mild diagnostics -/

/-- A diagnostic that does not find fault with the blocks. It is sited at some token out of `known` if
it complains about a token, and an `ABORT LOOP` is complained about only out of `free`. -/
structure Diagnostic.Mild (known free : Token → Prop) (e : Diagnostic) : Prop where
  endIf : e.code ≠ .expectedEndIf
  endLoop : e.code ≠ .expectedEndLoop
  closed : e.problem ≠ .blockNeverClosed
  site : e.code = .unexpectedToken →
    ∃ t, known t ∧ t.kind.closesBlock = false ∧ e.toSite = t.toSite
  abort : e.problem = .abortOutsideLoop →
    ∃ t, free t ∧ t.kind = .keyword .abortLoop ∧ e.toSite = t.toSite

/-- The classes of diagnostics that are mild wherever they are found. -/
def Code.isMild : Code → Bool
  | unexpectedEnd | unexpectedToken | expectedEndIf | expectedEndLoop => false
  | _ => true

namespace Diagnostic.Mild

variable {known free : Token → Prop}

theorem of_code {e : Diagnostic} (h : e.code.isMild = true) : e.Mild known free := by
  have hne : ∀ c : Code, c.isMild = false → e.code ≠ c := by
    rintro c hc rfl
    rw [h] at hc
    cases hc
  refine ⟨hne _ rfl, hne _ rfl, fun hp => hne .unexpectedEnd rfl ?_,
    fun hc => absurd hc (hne _ rfl), fun hp => absurd ?_ (hne .unexpectedToken rfl)⟩
  · rw [code, hp]
    rfl
  · rw [code, hp]
    rfl

/-- A complaint about a token that closes no block. -/
theorem of_token {t : Token} {problem : Problem} (ht : known t) (hclose : t.kind.closesBlock = false)
    (hproblem : problem.code = .unexpectedToken)
    (habort : problem = .abortOutsideLoop → free t ∧ t.kind = .keyword .abortLoop) :
    Mild known free ⟨t.toSite, problem⟩ := by
  have hcode : (Diagnostic.mk t.toSite problem).code = .unexpectedToken := hproblem
  refine ⟨by simp [hcode], by simp [hcode], fun hp => ?_, fun _ => ⟨t, ht, hclose, rfl⟩,
    fun hp => ⟨t, (habort hp).1, (habort hp).2, rfl⟩⟩
  have hp : problem = .blockNeverClosed := hp
  rw [hp] at hproblem
  cases hproblem

theorem of_missing {wanted : Expectation} (h : wanted.code.isMild = true) (site : Site)
    (found : Option String) : Mild known free ⟨site, .missing wanted found⟩ := by
  cases found with
  | some text => exact of_code h
  | none => exact ⟨nofun, nofun, nofun, nofun, nofun⟩

end Diagnostic.Mild

/-! ### Drafts before and after -/

/-- The draft ends with the end of the input, and what is ahead is `known`. -/
structure Draft.Sound (known : Token → Prop) (d : Draft) : Prop where
  finish : d.finish.kind = .eof
  ahead : ∀ t ∈ d.ahead, known t

theorem Draft.Sound.ahead_eq_cons {known : Token → Prop} {d : Draft} (h : d.Sound known)
    (hnext : d.next.kind ≠ .eof) : d.ahead = d.next :: d.ahead.tail := by
  cases hahead : d.ahead with
  | nil =>
    rw [Draft.next, hahead] at hnext
    exact absurd h.finish hnext
  | cons t ts =>
    rw [Draft.next, hahead]
    rfl

/-- From `d` to `d'` no statement and no loop is opened or closed, and all that is found satisfies
`E`. -/
structure Draft.Follows (E : Diagnostic → Prop) (d d' : Draft) : Prop where
  finish : d'.finish = d.finish
  depth : d'.depth = d.depth
  loops : d'.loops.length = d.loops.length
  found : ∀ e ∈ d'.diagnostics, e ∈ d.diagnostics ∨ E e

/-- From `d` to `d'` tokens are read that all satisfy `P`. -/
structure Draft.ReadsTo (P : Token → Prop) (E : Diagnostic → Prop) (d d' : Draft) : Prop
    extends d.Follows E d' where
  ahead : ∃ used, d.ahead = used ++ d'.ahead ∧ ∀ t ∈ used, P t

/-- From `d` to `d'` plain tokens are read, and what is found is mild. -/
abbrev Draft.PlainTo (known free : Token → Prop) (d d' : Draft) : Prop :=
  d.ReadsTo (·.kind.isPlain = true) (Diagnostic.Mild known free) d'

namespace Draft

variable {P known : Token → Prop} {E E' : Diagnostic → Prop} {d d₁ d₂ : Draft}

theorem Follows.refl (d : Draft) : d.Follows E d := ⟨rfl, rfl, rfl, fun _ => .inl⟩

theorem Follows.trans (h : d.Follows E d₁) (h' : d₁.Follows E d₂) : d.Follows E d₂ := by
  refine ⟨h'.finish.trans h.finish, h'.depth.trans h.depth, h'.loops.trans h.loops, fun e he => ?_⟩
  rcases h'.found e he with he | he
  · exact h.found e he
  · exact .inr he

theorem Follows.mono (h : d.Follows E d₁) (hE : ∀ e, E e → E' e) : d.Follows E' d₁ :=
  ⟨h.finish, h.depth, h.loops, fun e he => (h.found e he).imp_right (hE e)⟩

theorem ReadsTo.refl (d : Draft) : d.ReadsTo P E d :=
  ⟨.refl d, [], rfl, nofun⟩

theorem ReadsTo.trans (h : d.ReadsTo P E d₁) (h' : d₁.ReadsTo P E d₂) : d.ReadsTo P E d₂ := by
  obtain ⟨used, hused, hP⟩ := h.ahead
  obtain ⟨used', hused', hP'⟩ := h'.ahead
  refine ⟨h.toFollows.trans h'.toFollows, used ++ used', ?_, fun t ht => ?_⟩
  · rw [hused, hused', List.append_assoc]
  · rcases List.mem_append.1 ht with ht | ht
    · exact hP t ht
    · exact hP' t ht

theorem ReadsTo.sound (h : d.ReadsTo P E d₁) (hd : d.Sound known) : d₁.Sound known := by
  obtain ⟨used, hused, -⟩ := h.ahead
  refine ⟨by rw [h.finish, hd.finish], fun t ht => hd.ahead t ?_⟩
  rw [hused]
  exact List.mem_append_right _ ht

/-- What satisfies nothing cannot be read. -/
theorem ReadsTo.ahead_eq (h : d.ReadsTo P E d₁) (hP : ∀ t ∈ d.ahead.head?, ¬ P t) :
    d₁.ahead = d.ahead := by
  obtain ⟨used, hused, hall⟩ := h.ahead
  cases used with
  | nil => exact hused.symm
  | cons t used =>
    refine absurd (hall t List.mem_cons_self) (hP t ?_)
    rw [hused]
    rfl

end Draft

/-! ### How computations end -/

namespace CompileM

section Ends

variable {α β : Type} {m : CompileM α} {f : α → CompileM β} {d : Draft}

/-- A computation ends with a result and a draft that satisfy `ok`, or with a diagnostic and a draft
that satisfy `error`. -/
def Ends (m : CompileM α) (d : Draft) (ok : α → Draft → Prop) (error : Diagnostic → Draft → Prop) :
    Prop :=
  match m d with
  | .ok a d' => ok a d'
  | .error e d' => error e d'

variable {ok ok' : α → Draft → Prop} {error error' : Diagnostic → Draft → Prop}

theorem Ends.bind {after : β → Draft → Prop} (h : Ends m d ok error)
    (hf : ∀ a d', ok a d' → Ends (f a) d' after error) : Ends (m >>= f) d after error := by
  show (match EStateM.bind m f d with
    | .ok a d' => after a d'
    | .error e d' => error e d')
  unfold Ends at h
  unfold EStateM.bind
  cases hm : m d with
  | ok a d' =>
    rw [hm] at h
    exact hf a d' h
  | error e d' =>
    rw [hm] at h
    exact h

theorem Ends.mono (h : Ends m d ok error) (hok : ∀ a d', ok a d' → ok' a d')
    (herror : ∀ e d', error e d' → error' e d') : Ends m d ok' error' := by
  unfold Ends at h ⊢
  cases hm : m d with
  | ok a d' =>
    rw [hm] at h
    exact hok a d' h
  | error e d' =>
    rw [hm] at h
    exact herror e d' h

/-- What follows a computation that cannot fail. -/
theorem Ends.ok_bind {after : β → Draft → Prop} (h : Ends m d ok fun _ _ => False)
    (hf : ∀ a d', ok a d' → Ends (f a) d' after error) : Ends (m >>= f) d after error :=
  (h.mono (fun _ _ h => h) fun _ _ h => h.elim).bind hf

theorem Ends.peek_bind {f : Token → CompileM β} {after : β → Draft → Prop}
    (h : Ends (f d.next) d after error) : Ends (peek >>= f) d after error := h

theorem Ends.modify_bind {g : Draft → Draft} {f : PUnit → CompileM β} {after : β → Draft → Prop}
    (h : Ends (f ⟨⟩) (g d) after error) : Ends (modify g >>= f) d after error := h

end Ends

/-! ### Computations that only read and write -/

/-- Wherever what is ahead is `known`, the computation reads only tokens that satisfy `P`, and fails
only with what satisfies `E`. -/
def Reads (P known : Token → Prop) (E : Diagnostic → Prop) {α : Type} (m : CompileM α) : Prop :=
  ∀ d, d.Sound known →
    Ends m d (fun _ d' => d.ReadsTo P E d') (fun e d' => d.ReadsTo P E d' ∧ E e)

namespace Reads

variable {α β : Type} {P known : Token → Prop} {E : Diagnostic → Prop} {m : CompileM α}
  {f : α → CompileM β} {d : Draft}

/-- What follows a computation that reads goes on from where it stopped. -/
theorem ends_bind {ok : β → Draft → Prop} {error : Diagnostic → Draft → Prop}
    (hm : Reads P known E m) (hd : d.Sound known)
    (herror : ∀ e d', d.ReadsTo P E d' → E e → error e d')
    (hf : ∀ a d', d.ReadsTo P E d' → d'.Sound known → Ends (f a) d' ok error) :
    Ends (m >>= f) d ok error := by
  refine Ends.bind ((hm d hd).mono (fun _ _ h => h) fun e d' h => herror e d' h.1 h.2) ?_
  intro a d' h
  exact hf a d' h (h.sound hd)

theorem bind (hm : Reads P known E m) (hf : ∀ a, Reads P known E (f a)) :
    Reads P known E (m >>= f) := by
  intro d hd
  refine hm.ends_bind hd (fun e d' h he => ⟨h, he⟩) fun a d' h hd' => ?_
  exact (hf a d' hd').mono (fun _ _ h' => h.trans h') fun e d'' h' => ⟨h.trans h'.1, h'.2⟩

theorem pure (a : α) : Reads P known E (pure a) := fun d _ => .refl d

theorem get : Reads P known E (get : CompileM Draft) := fun d _ => .refl d

theorem peek : Reads P known E CompileM.peek := fun d _ => .refl d

theorem fail {site : Site} {problem : Problem} (h : E ⟨site, problem⟩) :
    Reads P known E (CompileM.fail site problem : CompileM α) := fun d _ => ⟨.refl d, h⟩

theorem ite {c : Prop} [Decidable c] {m' : CompileM α} (hm : Reads P known E m)
    (hm' : Reads P known E m') : Reads P known E (if c then m else m') := by
  split
  · exact hm
  · exact hm'

theorem forM {g : β → CompileM PUnit} (h : ∀ b, Reads P known E (g b)) :
    ∀ l : List β, Reads P known E (l.forM g) := by
  intro l
  induction l with
  | nil => exact pure _
  | cons b l ih => exact (h b).bind fun _ => ih

theorem modify {g : Draft → Draft}
    (h : ∀ d, (g d).ahead = d.ahead ∧ (g d).finish = d.finish ∧ (g d).depth = d.depth ∧
      (g d).loops.length = d.loops.length ∧ (g d).diagnostics = d.diagnostics) :
    Reads P known E (modify g : CompileM PUnit) := by
  intro d _
  obtain ⟨hahead, hfinish, hdepth, hloops, hfound⟩ := h d
  refine ⟨⟨hfinish, hdepth, hloops, fun e he => .inl ?_⟩, [], hahead.symm, nofun⟩
  rw [← hfound]
  exact he

theorem emit (i : Instruction) (line : Nat) : Reads P known E (CompileM.emit i line) :=
  modify fun _ => ⟨rfl, rfl, rfl, rfl, rfl⟩

theorem reserve (branch : Branch) (line : Nat) :
    Reads P known E (CompileM.reserve branch line) :=
  get.bind fun _ => bind (modify fun _ => ⟨rfl, rfl, rfl, rfl, rfl⟩) fun _ => pure _

theorem patch (hE : ∀ e : Diagnostic, e.code = .blockIsTooLarge → E e) (site : Site)
    (label : Chunk.Label) : Reads P known E (CompileM.patch site label) := by
  refine get.bind fun d => ?_
  split
  · exact fail (hE _ rfl)
  · exact modify fun _ => ⟨rfl, rfl, rfl, rfl, rfl⟩

theorem jumpBack (hE : ∀ e : Diagnostic, e.code = .blockIsTooLarge → E e) (site : Site)
    (target line : Nat) : Reads P known E (CompileM.jumpBack site target line) := by
  refine get.bind fun d => ?_
  split
  · exact fail (hE _ rfl)
  · exact emit _ _

end Reads

/-! ### Expressions -/

section Expressions

variable {α : Type} {known free : Token → Prop}

/-- The computation reads plain tokens and fails mildly. -/
abbrev ReadsPlain (known free : Token → Prop) (m : CompileM α) : Prop :=
  Reads (·.kind.isPlain = true) known (Diagnostic.Mild known free) m

theorem readsPlain_patch (site : Site) (label : Chunk.Label) :
    ReadsPlain known free (patch site label) :=
  .patch (fun _ he => .of_code (by rw [he]; rfl)) site label

theorem readsPlain_takeSlot (site : Site) : ReadsPlain known free (takeSlot site) := by
  refine Reads.get.bind fun d => ?_
  split
  · exact .fail (.of_code rfl)
  · exact .bind (.modify fun _ => ⟨rfl, rfl, rfl, rfl, rfl⟩) fun _ => .pure _

theorem readsPlain_missing {wanted : Expectation} (h : wanted.code.isMild = true) (token : Token) :
    ReadsPlain known free (missing wanted token : CompileM α) :=
  .fail (.of_missing h _ _)

/-- A plain token that comes next is known, and can be read. -/
theorem ends_advance_bind {f : PUnit → CompileM α} {d : Draft} (hd : d.Sound known)
    (hnext : d.next.kind.isPlain = true)
    (hf : known d.next → ReadsPlain known free (f ⟨⟩)) :
    Ends (advance >>= f) d
      (fun _ d' => d.PlainTo known free d' ∧ d'.ahead.length < d.ahead.length)
      (fun e d' => d.PlainTo known free d' ∧ e.Mild known free) := by
  have hahead : d.ahead = d.next :: d.ahead.tail := by
    refine hd.ahead_eq_cons fun hk => ?_
    rw [hk] at hnext
    cases hnext
  have hknown : known d.next := hd.ahead _ (by rw [hahead]; exact List.mem_cons_self)
  have hread : d.PlainTo known free { d with ahead := d.ahead.tail } := by
    refine ⟨⟨rfl, rfl, rfl, fun _ => .inl⟩, [d.next], hahead, fun t ht => ?_⟩
    rw [List.mem_singleton.1 ht]
    exact hnext
  refine (hf hknown _ (hread.sound hd)).mono (fun _ d' h => ⟨hread.trans h, ?_⟩)
    fun e d' h => ⟨hread.trans h.1, h.2⟩
  obtain ⟨used, hused, -⟩ := h.ahead
  rw [hahead, show d.ahead.tail = used ++ d'.ahead from hused, List.length_cons, List.length_append]
  omega

theorem readsPlain_expect {kind : Token.Kind} {wanted : Expectation} (hkind : kind.isPlain = true)
    (h : wanted.code.isMild = true) : ReadsPlain known free (expect kind wanted) := by
  intro d hd
  refine Ends.peek_bind ?_
  split
  · rename_i hnext
    exact (ends_advance_bind hd (by rw [hnext]; exact hkind) fun _ => Reads.pure PUnit.unit).mono
      (fun _ _ h => h.1) fun _ _ h => h
  · exact readsPlain_missing h d.next d hd

variable {token : Token} {sub : Level → CompileM Ty}

theorem readsPlain_constant (ht : known token) (hclose : token.kind.closesBlock = false) :
    ReadsPlain known free (constant token) := by
  unfold constant
  split
  · exact .fail (.of_token ht hclose rfl fun h => by cases h)
  · exact .bind (.emit _ _) fun _ => .pure _

theorem readsPlain_reference (ht : known token) (hclose : token.kind.closesBlock = false) :
    ReadsPlain known free (reference token) := by
  unfold reference
  split
  · exact .fail (.of_token ht hclose rfl fun h => by cases h)
  · refine .bind .get fun d => ?_
    split
    · exact .fail (.of_code rfl)
    · exact .bind (.emit _ _) fun _ => .pure _

theorem readsPlain_operand (hsub : ∀ level, ReadsPlain known free (sub level)) (ht : known token)
    (hclose : token.kind.closesBlock = false) (form : OperandForm) :
    ReadsPlain known free (operand sub token form) := by
  cases form with
  | constant => exact readsPlain_constant ht hclose
  | reference => exact readsPlain_reference ht hclose
  | grouping =>
    exact .bind (hsub _) fun _ => .bind (readsPlain_expect rfl rfl) fun _ => .pure _
  | negation =>
    exact .bind (hsub _) fun _ => .ite (.bind (.emit _ _) fun _ => .pure _) (.fail (.of_code rfl))

theorem readsPlain_logicalOperand (hsub : ∀ level, ReadsPlain known free (sub level))
    (op : BinaryOp) (left : Ty) : ReadsPlain known free (logicalOperand sub token op left) :=
  .bind (hsub _) fun _ => .ite (.pure _) (.fail (.of_code rfl))

theorem readsPlain_onNumbers (hsub : ∀ level, ReadsPlain known free (sub level)) (op : BinaryOp)
    (left : Ty) (code : List Instruction) (ty : Ty) :
    ReadsPlain known free (onNumbers sub token op left code ty) :=
  .bind (hsub _) fun _ =>
    .ite (.bind (.forM (fun _ => .emit _ _) _) fun _ => .pure _) (.fail (.of_code rfl))

theorem readsPlain_operation (hsub : ∀ level, ReadsPlain known free (sub level)) (op : BinaryOp)
    (left : Ty) : ReadsPlain known free (operation sub token op left) := by
  cases op with
  | or =>
    exact .bind (.reserve _ _) fun _ => .bind (.reserve _ _) fun _ =>
      .bind (readsPlain_patch _ _) fun _ => .bind (.emit _ _) fun _ =>
      .bind (readsPlain_logicalOperand hsub _ _) fun _ =>
      .bind (readsPlain_patch _ _) fun _ => .pure _
  | and =>
    exact .bind (.reserve _ _) fun _ => .bind (.emit _ _) fun _ =>
      .bind (readsPlain_logicalOperand hsub _ _) fun _ =>
      .bind (readsPlain_patch _ _) fun _ => .pure _
  | equal =>
    exact .bind (hsub _) fun _ => .ite (.bind (.emit _ _) fun _ => .pure _) (.fail (.of_code rfl))
  | _ => exact readsPlain_onNumbers hsub _ _ _ _

theorem readsPlain_operations (hsub : ∀ level, ReadsPlain known free (sub level)) (level : Level) :
    ∀ (bound : Nat) (left : Ty), ReadsPlain known free (operations sub level bound left) := by
  intro bound
  induction bound with
  | zero =>
    intro left
    exact .pure left
  | succ bound ih =>
    intro left d hd
    refine Ends.peek_bind ?_
    split
    · exact .refl d
    · rename_i op hop
      split
      · refine (ends_advance_bind hd (Token.Kind.isPlain_of_binaryOp? hop) fun _ => ?_).mono
          (fun _ _ h => h.1) fun _ _ h => h
        exact .bind (readsPlain_operation hsub op left) fun ty => ih ty
      · exact .refl d

theorem readsPlain_climb : ∀ (bound : Nat) (level : Level),
    ReadsPlain known free (climb bound level) := by
  intro bound
  induction bound with
  | zero =>
    intro level
    exact .bind .peek fun token => readsPlain_missing rfl token
  | succ bound ih =>
    intro level d hd
    refine Ends.peek_bind ?_
    split
    · exact readsPlain_missing rfl d.next d hd
    · rename_i form hform
      have hplain := Token.Kind.isPlain_of_operandForm? hform
      refine (ends_advance_bind hd hplain fun hknown => ?_).mono (fun _ _ h => h.1) fun _ _ h => h
      exact .bind (readsPlain_operand ih hknown (Token.Kind.closesBlock_of_isPlain hplain) form)
        fun left => readsPlain_operations ih level bound left

theorem readsPlain_expression : ReadsPlain known free expression :=
  .bind .get fun _ => readsPlain_climb _ _

/-! ### Parts of statements -/

theorem readsPlain_targetSlot (site : Site) (name : String) :
    ReadsPlain known free (targetSlot site name) := by
  refine .bind .get fun d => ?_
  split
  · exact .pure _
  · exact .bind (readsPlain_takeSlot site) fun _ =>
      .bind (.modify fun _ => ⟨rfl, rfl, rfl, rfl, rfl⟩) fun _ => .pure _

theorem readsPlain_assignType (site : Site) (name : String) (ty : Ty) :
    ReadsPlain known free (assignType site name ty) := by
  refine .bind .get fun d => ?_
  split
  · exact .modify fun _ => ⟨rfl, rfl, rfl, rfl, rfl⟩
  · exact .fail (.of_code rfl)
  · exact .fail (.of_code rfl)

theorem readsPlain_assignment (ht : known token) (hclose : token.kind.closesBlock = false) :
    ReadsPlain known free (assignment token) := by
  unfold assignment
  split
  · exact .fail (.of_token ht hclose rfl fun h => by cases h)
  · exact .bind (readsPlain_expect rfl rfl) fun _ => .bind (readsPlain_targetSlot _ _) fun _ =>
      .bind readsPlain_expression fun _ => .bind (readsPlain_assignType _ _ _) fun _ =>
      .bind (.emit _ _) fun _ => .emit _ _

theorem readsPlain_condition (keyword : Token) : ReadsPlain known free (condition keyword) :=
  .bind .peek fun _ => .bind readsPlain_expression fun _ =>
    .ite (readsPlain_expect rfl rfl) (.fail (.of_code rfl))

theorem readsPlain_loopBound : ReadsPlain known free loopBound :=
  .bind .peek fun _ => .bind readsPlain_expression fun _ =>
    .ite (readsPlain_expect rfl rfl) (.fail (.of_code rfl))

end Expressions

end CompileM

end BoundedLoop
