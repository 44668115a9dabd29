import BoundedLoop.Proofs.Progress.Rounds

/-!
# Where the input ends is not seen

The end of the input is a token like others, with a line and a column. A compilation does not depend
on them. It never writes code for the end of the input, so they can only show in the sites of
diagnostics.

`Draft.Twin` are drafts that differ in nothing else, and a computation is blind (`CompileM.Blind`)
if it takes twins to twins. Blindness is closed under sequencing and choice. Only a computation that
looks at the next token has to be looked at itself, where no token is ahead
(`CompileM.blind_peek_bind`).
-/

namespace BoundedLoop

/-- What a diagnostic says, and of which bytes. -/
def Diagnostic.content (e : Diagnostic) : Span × Problem :=
  (e.span, e.problem)

theorem Diagnostic.code_of_content {e e' : Diagnostic} (h : e'.content = e.content) :
    e'.code = e.code :=
  congrArg (·.2.code) h

/-- The same token on another line and column. -/
abbrev Token.movedTo (t : Token) (line column : Nat) : Token :=
  { t with line, column }

namespace Draft

/-- The draft with the end of its input elsewhere, and with other diagnostics. -/
abbrev endingAt (d : Draft) (line column : Nat) (found : Array Diagnostic) : Draft :=
  { d with finish := d.finish.movedTo line column, diagnostics := found }

/-- Drafts that differ only in the line and column of the end of the input, and in the sites of the
diagnostics. -/
inductive Twin (d : Draft) : Draft → Prop where
  | mk (line column : Nat) (found : Array Diagnostic) (hend : d.finish.kind = .eof)
      (hfound : found.toList.map Diagnostic.content = d.diagnostics.toList.map Diagnostic.content) :
      d.Twin (d.endingAt line column found)

variable {d d' : Draft}

theorem Twin.ahead (h : d.Twin d') : d'.ahead = d.ahead := by
  cases h
  rfl

theorem Twin.finish_kind (h : d.Twin d') : d.finish.kind = .eof ∧ d'.finish.kind = .eof := by
  rcases h with ⟨line, column, found, hend, -⟩
  exact ⟨hend, hend⟩

/-- What is recorded and what is skipped is the same for twins. -/
theorem Twin.resumed {e e' : Diagnostic} (h : d.Twin d') (he : e'.content = e.content)
    (base loops : Nat) :
    ((d.record e).recover base loops).Twin ((d'.record e').recover base loops) := by
  rcases h with ⟨line, column, found, hend, hfound⟩
  have hcode := Diagnostic.code_of_content he
  have hany : found.any (·.code = .unexpectedEnd) = d.diagnostics.any (·.code = .unexpectedEnd) := by
    have hcodes : found.toList.map (·.code) = d.diagnostics.toList.map (·.code) := by
      have hproblems := congrArg (List.map (·.2.code)) hfound
      rw [List.map_map, List.map_map] at hproblems
      exact hproblems
    have hany := congrArg (List.any · (· = .unexpectedEnd)) hcodes
    simpa [List.any_map, Function.comp_def] using hany
  unfold record
  rw [hcode]
  simp only [hany]
  split
  · exact .mk line column found hend hfound
  · refine .mk line column (found.push e') hend ?_
    show (found.push e').toList.map Diagnostic.content =
      (d.diagnostics.push e).toList.map Diagnostic.content
    simp [hfound, he]

theorem next_of_nil (h : d.ahead = []) : d.next = d.finish := by
  rw [next, h]
  rfl

end Draft

namespace CompileM

variable {α β : Type} {m m' : CompileM α} {f f' : α → CompileM β} {d d' : Draft}

/-- The same result and twins, or failures that say the same and twins. -/
inductive OutcomeTwin :
    EStateM.Result Diagnostic Draft α → EStateM.Result Diagnostic Draft α → Prop where
  | ok (a : α) {d d' : Draft} (h : d.Twin d') : OutcomeTwin (.ok a d) (.ok a d')
  | error {e e' : Diagnostic} (he : e'.content = e.content) {d d' : Draft} (h : d.Twin d') :
      OutcomeTwin (.error e d) (.error e' d')

/-- A computation that does not see where the input ends. -/
class Blind (m : CompileM α) : Prop where
  blind : ∀ d d', Draft.Twin d d' → OutcomeTwin (m d) (m d')

/-! ### Sequencing and choice -/

instance blind_pure (a : α) : Blind (pure a) := ⟨fun _ _ h => .ok a h⟩

instance blind_fail (site : Site) (problem : Problem) : Blind (fail site problem : CompileM α) :=
  ⟨fun _ _ h => .error rfl h⟩

theorem OutcomeTwin.bind (hm : OutcomeTwin (m d) (m' d'))
    (hf : ∀ a d d', Draft.Twin d d' → OutcomeTwin (f a d) (f' a d')) :
    OutcomeTwin ((m >>= f) d) ((m' >>= f') d') := by
  show OutcomeTwin (EStateM.bind m f d) (EStateM.bind m' f' d')
  unfold EStateM.bind
  generalize m d = r at hm ⊢
  generalize m' d' = r' at hm ⊢
  cases hm with
  | ok a h => exact hf a _ _ h
  | error he h => exact .error he h

instance blind_bind (m : CompileM α) (f : α → CompileM β) [hm : Blind m] [hf : ∀ a, Blind (f a)] :
    Blind (m >>= f) :=
  ⟨fun d d' h => (hm.blind d d' h).bind fun a => (hf a).blind⟩

instance blind_ite (c : Prop) [Decidable c] (a b : CompileM α) [Blind a] [Blind b] :
    Blind (if c then a else b) := by
  split <;> infer_instance

instance blind_forM (f : β → CompileM PUnit) [∀ b, Blind (f b)] : ∀ l : List β, Blind (l.forM f)
  | [] => blind_pure _
  | b :: l => by
    have := blind_forM f l
    exact blind_bind (f b) fun _ => l.forM f

/-- A change that has nothing to do with the end of the input and with diagnostics. -/
theorem blind_modify {g : Draft → Draft} (hfinish : ∀ d, (g d).finish = d.finish)
    (hfound : ∀ d, (g d).diagnostics = d.diagnostics)
    (hg : ∀ d line column found, g (d.endingAt line column found) = (g d).endingAt line column found) :
    Blind (modify g : CompileM PUnit) := by
  constructor
  rintro d _ ⟨line, column, found, hend, hsame⟩
  refine OutcomeTwin.ok PUnit.unit ?_
  rw [hg d line column found]
  refine .mk line column found ?_ ?_
  · rw [hfinish, hend]
  · rw [hfound, hsame]

/-- What is done may depend on the draft, but for the end of the input and for the diagnostics. -/
theorem blind_get_bind {f : Draft → CompileM β}
    (hf : ∀ d line column found, f (d.endingAt line column found) = f d) [hblind : ∀ d, Blind (f d)] :
    Blind (get >>= f) := by
  constructor
  rintro d _ ⟨line, column, found, hend, hsame⟩
  show OutcomeTwin (f d d) (f (d.endingAt line column found) _)
  rw [hf d line column found]
  exact (hblind d).blind _ _ (.mk line column found hend hsame)

/-! ### Tokens -/

/-- A token that is ahead is the same for twins. Where none is, they look at different ends of the
input. -/
theorem blind_peek_bind {f : Token → CompileM β} [hf : ∀ t, Blind (f t)]
    (hend : ∀ d d', Draft.Twin d d' → d.ahead = [] → d.finish.kind = .eof → ∀ line column,
      OutcomeTwin (f d.finish d) (f (d.finish.movedTo line column) d')) : Blind (peek >>= f) := by
  constructor
  intro d d' htwin
  have htwins := htwin
  rcases htwins with ⟨line, column, found, hkind, -⟩
  show OutcomeTwin (f d.next d) (f (d.endingAt line column found).next _)
  cases hahead : d.ahead with
  | nil =>
    have hahead' : (d.endingAt line column found).ahead = [] := hahead
    rw [Draft.next_of_nil hahead, Draft.next_of_nil hahead']
    exact hend d _ htwin hahead hkind line column
  | cons t ts =>
    have hnext' : (d.endingAt line column found).next = d.next := by
      rw [Draft.next, Draft.next, show (d.endingAt line column found).ahead = d.ahead from rfl, hahead]
      rfl
    rw [hnext']
    exact (hf d.next).blind d _ htwin

instance blind_advance : Blind advance :=
  blind_modify (fun _ => rfl) (fun _ => rfl) fun _ _ _ _ => rfl

/-- Only the kind of a token decides whether it is accepted. -/
instance blind_accept (kind : Token.Kind) : Blind (accept kind) := by
  unfold accept
  refine blind_peek_bind fun d d' h _ _ line column => ?_
  exact (blind_ite (d.finish.kind = kind) (advance >>= fun _ => pure true) (pure false)).blind d d' h

instance blind_missing (wanted : Expectation) (token : Token) :
    Blind (missing wanted token : CompileM α) := by
  unfold missing; infer_instance

theorem outcomeTwin_missing (wanted : Expectation) (token : Token) (line column : Nat) (h : d.Twin d') :
    OutcomeTwin (missing wanted token d : EStateM.Result Diagnostic Draft α)
      (missing wanted (token.movedTo line column) d') := by
  refine OutcomeTwin.error ?_ h
  rfl

instance blind_expect (kind : Token.Kind) (wanted : Expectation) : Blind (expect kind wanted) := by
  unfold expect
  refine blind_peek_bind fun d d' h _ _ line column => ?_
  by_cases hkind : d.finish.kind = kind
  · rw [if_pos hkind, if_pos hkind]
    exact blind_advance.blind d d' h
  · rw [if_neg hkind, if_neg hkind]
    exact outcomeTwin_missing wanted d.finish line column h

/-- The end of the input is no keyword. -/
theorem accept_bind_of_nil (k : Keyword) (f : Bool → CompileM β) (hahead : d.ahead = [])
    (hend : d.finish.kind = .eof) : (accept (.keyword k) >>= f) d = f false d := by
  show ((if d.next.kind = .keyword k then advance >>= fun _ => pure true else pure false) >>= f) d = _
  rw [Draft.next_of_nil hahead, hend, if_neg nofun]
  rfl

theorem expect_bind_of_nil (k : Keyword) (wanted : Expectation) (f : PUnit → CompileM β)
    (hahead : d.ahead = []) (hend : d.finish.kind = .eof) :
    (expect (.keyword k) wanted >>= f) d = (missing wanted d.finish : CompileM β) d := by
  show ((if d.next.kind = .keyword k then advance else missing wanted d.next) >>= f) d = _
  rw [Draft.next_of_nil hahead, hend, if_neg nofun]
  rfl

/-! ### Code -/

instance blind_emit (i : Instruction) (line : Nat) : Blind (emit i line) :=
  blind_modify (fun _ => rfl) (fun _ => rfl) fun _ _ _ _ => rfl

instance blind_reserve (branch : Branch) (line : Nat) : Blind (reserve branch line) := by
  have : Blind (modify fun d => { d with chunk := d.chunk.reserve branch line }) :=
    blind_modify (fun _ => rfl) (fun _ => rfl) fun _ _ _ _ => rfl
  exact blind_get_bind fun _ _ _ _ => rfl

instance blind_patch (site : Site) (label : Chunk.Label) : Blind (patch site label) := by
  refine @blind_get_bind _ _ (fun _ _ _ _ => rfl) fun d => ?_
  split
  · infer_instance
  · exact blind_modify (fun _ => rfl) (fun _ => rfl) fun _ _ _ _ => rfl

instance blind_jumpBack (site : Site) (target line : Nat) : Blind (jumpBack site target line) := by
  refine @blind_get_bind _ _ (fun _ _ _ _ => rfl) fun d => ?_
  split <;> infer_instance

instance blind_takeSlot (site : Site) : Blind (takeSlot site) := by
  have : Blind (modify fun d => { d with chunk := d.chunk.takeSlot }) :=
    blind_modify (fun _ => rfl) (fun _ => rfl) fun _ _ _ _ => rfl
  refine @blind_get_bind _ _ (fun _ _ _ _ => rfl) fun d => ?_
  split <;> infer_instance

/-! ### Expressions -/

instance blind_constant (token : Token) : Blind (constant token) := by
  unfold constant
  split <;> infer_instance

instance blind_reference (token : Token) : Blind (reference token) := by
  unfold reference
  split
  · infer_instance
  · refine @blind_get_bind _ _ (fun _ _ _ _ => rfl) fun d => ?_
    split <;> infer_instance

section Operands

variable (sub : Level → CompileM Ty) [∀ level, Blind (sub level)]

instance blind_operand (token : Token) (form : OperandForm) : Blind (operand sub token form) := by
  cases form <;> unfold operand <;> infer_instance

instance blind_logicalOperand (token : Token) (op : BinaryOp) (left : Ty) :
    Blind (logicalOperand sub token op left) := by
  unfold logicalOperand; infer_instance

instance blind_onNumbers (token : Token) (op : BinaryOp) (left : Ty) (code : List Instruction)
    (ty : Ty) :
    Blind (onNumbers sub token op left code ty) := by
  unfold onNumbers; infer_instance

instance blind_operation (token : Token) (op : BinaryOp) (left : Ty) :
    Blind (operation sub token op left) := by
  cases op <;> unfold operation <;> infer_instance

instance blind_operations (level : Level) :
    ∀ (bound : Nat) (left : Ty), Blind (operations sub level bound left)
  | 0, left => blind_pure left
  | bound + 1, left => by
    have := blind_operations level bound
    unfold operations
    refine @blind_peek_bind _ _ (fun token => ?_) fun d d' h _ hkind line column => ?_
    · split <;> infer_instance
    · simp only [hkind]
      exact .ok left h

end Operands

instance blind_climb : ∀ (bound : Nat) (level : Level), Blind (climb bound level)
  | 0, _ => blind_peek_bind fun d _ h _ _ line column =>
    outcomeTwin_missing .expression d.finish line column h
  | bound + 1, level => by
    have := blind_climb bound
    unfold climb
    refine @blind_peek_bind _ _ (fun token => ?_) fun d d' h _ hkind line column => ?_
    · split <;> infer_instance
    · simp only [hkind]
      exact outcomeTwin_missing .expression d.finish line column h

instance blind_expression : Blind expression :=
  blind_get_bind fun _ _ _ _ => rfl

/-! ### Statements -/

instance blind_targetSlot (site : Site) (name : String) : Blind (targetSlot site name) := by
  refine @blind_get_bind _ _ (fun _ _ _ _ => rfl) fun d => ?_
  split
  · infer_instance
  · refine @blind_bind _ _ _ _ _ fun slot => ?_
    have : Blind (modify fun d => { d with scope := d.scope.declare name slot }) :=
      blind_modify (fun _ => rfl) (fun _ => rfl) fun _ _ _ _ => rfl
    infer_instance

instance blind_assignType (site : Site) (name : String) (ty : Ty) :
    Blind (assignType site name ty) := by
  refine @blind_get_bind _ _ (fun _ _ _ _ => rfl) fun d => ?_
  split
  · exact blind_modify (fun _ => rfl) (fun _ => rfl) fun _ _ _ _ => rfl
  · infer_instance
  · infer_instance

instance blind_assignment (target : Token) : Blind (assignment target) := by
  unfold assignment
  split <;> infer_instance

/-- What comes first may be blamed behind an expression, but no code is written for it. -/
theorem blind_judged (ty : Ty) (kind : Token.Kind) (wanted : Expectation) (problem : Ty → Problem) :
    Blind (do
      let start ← peek
      let found ← expression
      if found = ty then expect kind wanted else fail start.toSite (problem found)) := by
  refine blind_peek_bind fun d d' h _ _ line column => ?_
  refine (blind_expression.blind d d' h).bind fun found d d' h => ?_
  by_cases hty : found = ty
  · rw [if_pos hty, if_pos hty]
    exact (blind_expect kind wanted).blind d d' h
  · rw [if_neg hty, if_neg hty]
    refine OutcomeTwin.error ?_ h
    rfl

instance blind_condition (keyword : Token) : Blind (condition keyword) :=
  blind_judged .boolean (.keyword .thenWord) .thenWord (.conditionNotBoolean keyword.text)

instance blind_loopBound : Blind loopBound :=
  blind_judged .number (.keyword .times) .times .countNotNumber

instance blind_openArm (keyword : Token) : Blind (openArm keyword) := by
  unfold openArm; infer_instance

instance blind_closeArm (keyword : Token) (skip : Chunk.Label) : Blind (closeArm keyword skip) := by
  unfold closeArm; infer_instance

section Blocks

variable (block : CompileM Unit) [Blind block]

/-- The end of the input is no second `IF`. -/
instance blind_branches : ∀ (bound : Nat) (keyword : Token), Blind (branches block bound keyword)
  | 0, _ => blind_pure _
  | bound + 1, keyword => by
    have := blind_branches bound
    have hmore : ∀ exit, Blind (moreBranches block bound exit) := by
      intro exit
      unfold moreBranches
      refine @blind_bind _ _ _ _ _ fun other => ?_
      refine @blind_ite _ _ _ _ _ ?_ _
      -- the token in question is a keyword only if it is accepted, and the end of the input is not
      refine blind_peek_bind fun d d' h hahead hend line column => ?_
      rw [accept_bind_of_nil _ _ hahead hend,
        accept_bind_of_nil _ _ (h.ahead.trans hahead) h.finish_kind.2]
      exact (blind_bind block fun _ => pure [exit]).blind d d' h
    rw [branches_succ]
    infer_instance

instance blind_openStatement : Blind openStatement :=
  blind_modify (fun _ => rfl) (fun _ => rfl) fun _ _ _ _ => rfl

instance blind_closeStatement : Blind closeStatement :=
  blind_modify (fun _ => rfl) (fun _ => rfl) fun _ _ _ _ => rfl

instance blind_ifStatement (bound : Nat) (keyword : Token) :
    Blind (ifStatement block bound keyword) := by
  unfold ifStatement; infer_instance

instance blind_enterLoop : Blind enterLoop :=
  blind_modify (fun _ => rfl) (fun _ => rfl) fun _ _ _ _ => rfl

instance blind_leaveLoop : Blind leaveLoop := by
  have : Blind (modify fun d => { d with loops := d.loops.tail }) :=
    blind_modify (fun _ => rfl) (fun _ => rfl) fun _ _ _ _ => rfl
  exact blind_get_bind fun _ _ _ _ => rfl

instance blind_noteAbort (label : Chunk.Label) : Blind (noteAbort label) :=
  blind_modify (fun _ => rfl) (fun _ => rfl) fun _ _ _ _ => rfl

instance blind_openLoop (keyword : Token) : Blind (openLoop keyword) := by
  unfold openLoop
  iterate 8 refine @blind_bind _ _ _ _ _ fun _ => ?_
  exact blind_get_bind fun _ _ _ _ => rfl

instance blind_closeLoop (keyword closer : Token) (head : UInt8 × Nat × Chunk.Label) :
    Blind (closeLoop keyword closer head) := by
  unfold closeLoop
  iterate 7 refine @blind_bind _ _ _ _ _ fun _ => ?_
  infer_instance

instance blind_loopStatement (keyword : Token) : Blind (loopStatement block keyword) := by
  rw [loopStatement_eq]
  refine @blind_bind _ _ _ _ _ fun _ => @blind_bind _ _ _ _ _ fun head => ?_
  refine @blind_bind _ _ _ _ _ fun _ => @blind_bind _ _ _ _ _ fun _ => ?_
  -- The code behind the loop has the line of the word that closes it. The end of the input closes
  -- none, so its line is in no code.
  refine blind_peek_bind fun d d' h hahead hend line column => ?_
  rw [expect_bind_of_nil _ _ _ hahead hend,
    expect_bind_of_nil _ _ _ (h.ahead.trans hahead) h.finish_kind.2]
  have htwin := h
  rcases h with ⟨line, column, found, -, -⟩
  exact outcomeTwin_missing .endLoop d.finish line column htwin

instance blind_abortLoop (token : Token) : Blind (abortLoop token) :=
  blind_get_bind fun _ _ _ _ => rfl

instance blind_statement (bound : Nat) : Blind (statement block bound) := by
  unfold statement
  refine @blind_peek_bind _ _ (fun token => ?_) fun d d' h _ hkind line column => ?_
  · split <;> infer_instance
  · simp only [hkind]
    exact outcomeTwin_missing .statement d.finish line column h

end Blocks

/-! ### Going on behind failures -/

instance blind_attempt (s : CompileM Unit) [hs : Blind s] : Blind (attempt s) := by
  constructor
  intro d d' htwin
  have houtcome := hs.blind d d' htwin
  rw [attempt_apply, attempt_apply]
  generalize s d = r at houtcome ⊢
  generalize s d' = r' at houtcome ⊢
  cases houtcome with
  | ok a h => exact .ok a h
  | error he h =>
    rcases htwin with ⟨line, column, found, -, -⟩
    exact .ok () (h.resumed he d.depth d.loops.length)

/-- A block that is never closed is blamed on the end of the input. -/
instance blind_block : ∀ bound : Nat, Blind (block bound)
  | 0 => blind_pure ()
  | bound + 1 => by
    have := blind_block bound
    unfold block
    refine blind_peek_bind fun d d' h _ hkind line column => ?_
    simp only [hkind]
    refine OutcomeTwin.error ?_ h
    rfl

instance blind_program : ∀ bound : Nat, Blind (program bound)
  | 0 => blind_pure ()
  | bound + 1 => by
    have := blind_program bound
    unfold program
    refine blind_peek_bind fun d d' h _ hkind line column => ?_
    simp only [hkind]
    exact .ok () h

end CompileM

end BoundedLoop
