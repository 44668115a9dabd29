import BoundedLoop.Proofs.Progress.Rounds

/-!
# Bounds that are never reached

Recursion in the compiler is bounded by a number that is larger than that of the tokens ahead. Which one
it is does not matter: two computations that differ in their bounds only are the same on every draft with
fewer tokens ahead (`CompileM.SameBelow`), because each level and each round uses up a token before the
next one begins. So expressions (`sameBelow_climb`), blocks (`sameBelow_block`) and programs
(`program_eq_of_lt`) end where the tokens say, and never because a bound is used up.
-/

namespace BoundedLoop.CompileM

variable {α β : Type} {k : Nat} {m m' : CompileM α} {f f' : α → CompileM β} {d : Draft}

/-- Two computations are the same wherever fewer than `k` tokens are ahead. -/
def SameBelow (k : Nat) (m m' : CompileM α) : Prop :=
  ∀ d, d.finish.kind = .eof → d.ahead.length < k → m d = m' d

namespace SameBelow

theorem refl (m : CompileM α) : SameBelow k m m := fun _ _ _ => rfl

theorem zero (m m' : CompileM α) : SameBelow 0 m m' := by
  intro d _ hlength
  exact absurd hlength (Nat.not_lt_zero _)

theorem mono {j : Nat} (h : SameBelow k m m') (hj : j ≤ k) : SameBelow j m m' := by
  intro d hd hlength
  exact h d hd (Nat.lt_of_lt_of_le hlength hj)

theorem bind (h : SameBelow k m m') (hm : Balanced m) (hf : ∀ a, SameBelow k (f a) (f' a)) :
    SameBelow k (m >>= f) (m' >>= f') := by
  intro d hd hlength
  show EStateM.bind m f d = EStateM.bind m' f' d
  have hends := hm d hd
  unfold Ends at hends
  unfold EStateM.bind
  rw [← h d hd hlength]
  cases hrun : m d with
  | error e d' => rfl
  | ok a d' =>
    rw [hrun] at hends
    have hmoves := hends.1
    exact hf a d' (by rw [hmoves.finish, hd]) (Nat.lt_of_le_of_lt hmoves.ahead.length_le hlength)

/-- Only what comes first differs. -/
theorem before (h : SameBelow k m m') (f : α → CompileM β) : SameBelow k (m >>= f) (m' >>= f) := by
  intro d hd hlength
  show EStateM.bind m f d = EStateM.bind m' f d
  unfold EStateM.bind
  rw [h d hd hlength]

/-- Only what comes second differs. -/
theorem after [ReadsOn m] (hf : ∀ a, SameBelow k (f a) (f' a)) : SameBelow k (m >>= f) (m >>= f') :=
  bind (.refl m) balanced_of_readsOn hf

theorem ite {c : Prop} [Decidable c] {n n' : CompileM α} (h : SameBelow k m m')
    (h' : SameBelow k n n') : SameBelow k (if c then m else n) (if c then m' else n') := by
  split
  · exact h
  · exact h'

theorem modify_bind {g : Draft → Draft} {f f' : PUnit → CompileM β}
    (hg : ∀ d, (g d).finish = d.finish ∧ (g d).ahead = d.ahead) (hf : SameBelow k (f ⟨⟩) (f' ⟨⟩)) :
    SameBelow k (modify g >>= f) (modify g >>= f') := by
  intro d hd hlength
  refine hf (g d) ?_ ?_
  · rw [(hg d).1, hd]
  · rw [(hg d).2]
    exact hlength

theorem attempt {s s' : CompileM Unit} (h : SameBelow k s s') :
    SameBelow k (CompileM.attempt s) (CompileM.attempt s') := by
  intro d hd hlength
  rw [attempt_apply, attempt_apply, h d hd hlength]

/-- What is done may depend on the token that comes next. -/
theorem peek_bind {f f' : Token → CompileM β}
    (hf : ∀ d, d.finish.kind = .eof → d.ahead.length < k → f d.next d = f' d.next d) :
    SameBelow k (peek >>= f) (peek >>= f') :=
  hf

/-- Behind a token one token less is ahead. -/
theorem advance_bind {f f' : PUnit → CompileM β} (hf : SameBelow k (f ⟨⟩) (f' ⟨⟩))
    (hd : d.finish.kind = .eof) (hnext : d.next.kind ≠ .eof) (hlength : d.ahead.length < k + 1) :
    (advance >>= f) d = (advance >>= f') d := by
  rw [Draft.ahead_eq_cons hd hnext, List.length_cons] at hlength
  exact hf d.behindNext hd (Nat.lt_of_succ_lt_succ hlength)

theorem accept_bind {kind : Token.Kind} {f f' : Bool → CompileM β} (hkind : kind ≠ .eof)
    (htrue : SameBelow k (f true) (f' true)) (hfalse : SameBelow (k + 1) (f false) (f' false)) :
    SameBelow (k + 1) (accept kind >>= f) (accept kind >>= f') := by
  intro d hd hlength
  by_cases hnext : d.next.kind = kind
  · have haccept : ∀ g : Bool → CompileM β, (accept kind >>= g) d = (advance >>= fun _ => g true) d := by
      intro g
      show ((if d.next.kind = kind then advance >>= fun _ => pure true else pure false) >>= g) d = _
      rw [if_pos hnext, bind_assoc]
      rfl
    rw [haccept f, haccept f']
    exact advance_bind htrue hd (by rw [hnext]; exact hkind) hlength
  · have haccept : ∀ g : Bool → CompileM β, (accept kind >>= g) d = g false d := by
      intro g
      show ((if d.next.kind = kind then advance >>= fun _ => pure true else pure false) >>= g) d = _
      rw [if_neg hnext]
      rfl
    rw [haccept f, haccept f']
    exact hfalse d hd hlength

end SameBelow

/-! ### Expressions -/

section Expressions

variable {sub sub' : Level → CompileM Ty}

theorem sameBelow_operand (hsub : ∀ level, SameBelow k (sub level) (sub' level)) (token : Token)
    (form : OperandForm) : SameBelow k (operand sub token form) (operand sub' token form) := by
  cases form with
  | constant => exact .refl _
  | reference => exact .refl _
  | grouping => exact (hsub .or).before _
  | negation => exact (hsub .unary).before _

theorem sameBelow_logicalOperand (hsub : ∀ level, SameBelow k (sub level) (sub' level))
    (token : Token) (op : BinaryOp) (left : Ty) :
    SameBelow k (logicalOperand sub token op left) (logicalOperand sub' token op left) :=
  (hsub op.level.tighter).before _

theorem sameBelow_operation (hsub : ∀ level, SameBelow k (sub level) (sub' level)) (token : Token)
    (op : BinaryOp) (left : Ty) :
    SameBelow k (operation sub token op left) (operation sub' token op left) := by
  cases op with
  | or =>
    refine .after fun otherwise => .after fun done => .after fun _ => .after fun _ => ?_
    exact (sameBelow_logicalOperand hsub token .or left).before _
  | and =>
    refine .after fun done => .after fun _ => ?_
    exact (sameBelow_logicalOperand hsub token .and left).before _
  | _ => exact (hsub _).before _

theorem sameBelow_operations [∀ level, ReadsOn (sub level)] (level : Level)
    (hsub : ∀ level, SameBelow k (sub level) (sub' level)) :
    ∀ {j : Nat}, j ≤ k → ∀ {n n' : Nat}, j ≤ n → j ≤ n' → ∀ left : Ty,
      SameBelow j (operations sub level n left) (operations sub' level n' left)
  | 0, _, _, _, _, _, left => .zero _ _
  | j + 1, hj, n + 1, n' + 1, hn, hn', left => by
    unfold operations
    refine .peek_bind fun d hd hlength => ?_
    cases hop : d.next.kind.binaryOp? with
    | none => rfl
    | some op =>
      simp only
      split
      · have hnext : d.next.kind ≠ .eof := by
          intro heof
          rw [heof] at hop
          cases hop
        have hoperation := (sameBelow_operation hsub d.next op left).mono (Nat.le_of_succ_le hj)
        have hrest := sameBelow_operations level hsub (Nat.le_of_succ_le hj)
          (Nat.le_of_succ_le_succ hn) (Nat.le_of_succ_le_succ hn')
        exact SameBelow.advance_bind (hoperation.bind balanced_of_readsOn hrest) hd hnext hlength
      · rfl

end Expressions

/-- Expressions nest less deep than tokens are ahead. -/
theorem sameBelow_climb : ∀ {k n n' : Nat}, k ≤ n → k ≤ n' → ∀ level : Level,
    SameBelow k (climb n level) (climb n' level)
  | 0, _, _, _, _, level => .zero _ _
  | k + 1, n + 1, n' + 1, hn, hn', level => by
    have hsub := sameBelow_climb (Nat.le_of_succ_le_succ hn) (Nat.le_of_succ_le_succ hn')
    unfold climb
    refine .peek_bind fun d hd hlength => ?_
    cases hform : d.next.kind.operandForm? with
    | none => rfl
    | some form =>
      have hnext : d.next.kind ≠ .eof := by
        intro heof
        rw [heof] at hform
        cases hform
      have hoperations := sameBelow_operations level hsub (Nat.le_refl k)
        (Nat.le_of_succ_le_succ hn) (Nat.le_of_succ_le_succ hn')
      exact SameBelow.advance_bind
        ((sameBelow_operand hsub d.next form).bind balanced_of_readsOn hoperations) hd hnext hlength

/-! ### Statements -/

section Statements

variable {block block' : CompileM Unit}

theorem sameBelow_branches (hsame : SameBelow k block block') (hblock : Balanced block) :
    ∀ {j : Nat}, j ≤ k → ∀ {n n' : Nat}, j ≤ n → j ≤ n' → ∀ keyword : Token,
      SameBelow j (branches block n keyword) (branches block' n' keyword)
  | 0, _, _, _, _, _, keyword => .zero _ _
  | j + 1, hj, n + 1, n' + 1, hn, hn', keyword => by
    have hrest := sameBelow_branches hsame hblock (Nat.le_of_succ_le hj)
      (Nat.le_of_succ_le_succ hn) (Nat.le_of_succ_le_succ hn')
    rw [branches_succ, branches_succ]
    refine .after fun skip => (hsame.mono hj).bind hblock fun _ => .after fun exit => ?_
    refine .accept_bind nofun ?_ (.refl _)
    -- behind `ELSE` there is a token less, which another arm may use up
    refine .after fun follower => .after fun again => .ite ?_ ?_
    · exact (hrest follower).before _
    · exact (hsame.mono (Nat.le_of_succ_le hj)).before _

theorem sameBelow_ifStatement {n n' : Nat} (hsame : SameBelow k block block')
    (hblock : Balanced block) (hn : k ≤ n) (hn' : k ≤ n') (keyword : Token) :
    SameBelow k (ifStatement block n keyword) (ifStatement block' n' keyword) := by
  refine .modify_bind (fun _ => ⟨rfl, rfl⟩) ?_
  exact (sameBelow_branches hsame hblock (Nat.le_refl k) hn hn' keyword).before _

theorem sameBelow_loopStatement (hsame : SameBelow k block block') (keyword : Token) :
    SameBelow k (loopStatement block keyword) (loopStatement block' keyword) := by
  rw [loopStatement_eq, loopStatement_eq]
  refine .modify_bind (fun _ => ⟨rfl, rfl⟩) ?_
  refine (SameBelow.refl _).bind (balanced_openLoop keyword) fun head => ?_
  refine .modify_bind (fun _ => ⟨rfl, rfl⟩) ?_
  exact hsame.before _

theorem sameBelow_statement {n n' : Nat} (hsame : SameBelow k block block')
    (hblock : Balanced block) (hn : k ≤ n) (hn' : k ≤ n') :
    SameBelow (k + 1) (statement block n) (statement block' n') := by
  refine .peek_bind fun d hd hlength => ?_
  have hadvance : ∀ {f f' : PUnit → CompileM Unit}, SameBelow k (f ⟨⟩) (f' ⟨⟩) →
      d.next.kind ≠ .eof → (advance >>= f) d = (advance >>= f') d := by
    intro f f' hf hnext
    exact hf.advance_bind hd hnext hlength
  cases hkind : d.next.kind with
  | keyword word =>
    have hnext : d.next.kind ≠ .eof := by
      rw [hkind]
      nofun
    cases word with
    | ifWord => exact hadvance (sameBelow_ifStatement hsame hblock hn hn' d.next) hnext
    | loop => exact hadvance (sameBelow_loopStatement hsame d.next) hnext
    | _ => rfl
  | _ => rfl

end Statements

/-- A round, and what follows it where it has got on. -/
theorem round_bind_eq {s s' rest rest' : CompileM Unit} (hsame : SameBelow k s s')
    (hd : d.finish.kind = .eof) (hlength : d.ahead.length < k)
    (hround : Ends (attempt s) d (fun _ d' => d.GetsOn d') fun _ _ => False)
    (hrest : ∀ d', d.GetsOn d' → rest d' = rest' d') :
    (attempt s >>= fun _ => rest) d = (attempt s' >>= fun _ => rest') d := by
  show EStateM.bind (attempt s) (fun _ => rest) d = EStateM.bind (attempt s') (fun _ => rest') d
  unfold Ends at hround
  unfold EStateM.bind
  rw [← hsame.attempt d hd hlength]
  cases hrun : attempt s d with
  | error e d' => rfl
  | ok a d' =>
    rw [hrun] at hround
    exact hrest d' hround

/-- A block has fewer statements than tokens are ahead, and they nest less deep. -/
theorem sameBelow_block : ∀ {k n n' : Nat}, k ≤ n → k ≤ n' → SameBelow k (block n) (block n')
  | 0, _, _, _, _ => .zero _ _
  | k + 1, n + 1, n' + 1, hn, hn' => by
    have hn := Nat.le_of_succ_le_succ hn
    have hn' := Nat.le_of_succ_le_succ hn'
    have hsame := sameBelow_block hn hn'
    refine .peek_bind fun d hd hlength => ?_
    split
    · rfl
    · rename_i hclose
      split
      · rfl
      · rename_i hnext
        refine round_bind_eq (sameBelow_statement hsame (balanced_block n) hn hn') hd hlength
          (ends_round (balanced_block n) hd hnext (absurd · hclose)) fun d' h => ?_
        have hshorter := h.shorter
        exact hsame d' (by rw [h.finish, hd]) (by omega)

/-- A program has fewer statements than tokens are ahead. -/
theorem program_eq_of_lt : ∀ {n n' : Nat} {d : Draft}, d.finish.kind = .eof → d.depth = 0 →
    d.ahead.length < n → d.ahead.length < n' → program n d = program n' d
  | 0, _, _, _, _, hn, _ => absurd hn (Nat.not_lt_zero _)
  | _, 0, _, _, _, _, hn' => absurd hn' (Nat.not_lt_zero _)
  | n + 1, n' + 1, d, hd, hdepth, hn, hn' => by
    show (if d.next.kind = .eof then pure () else
      attempt (statement (block n) n) >>= fun _ => program n) d =
      (if d.next.kind = .eof then pure () else
      attempt (statement (block n') n') >>= fun _ => program n') d
    split
    · rfl
    · rename_i hnext
      have hsame := sameBelow_block (Nat.le_of_lt_succ hn) (Nat.le_of_lt_succ hn')
      refine round_bind_eq (sameBelow_statement hsame (balanced_block n) (Nat.le_of_lt_succ hn)
        (Nat.le_of_lt_succ hn')) hd (Nat.lt_succ_self _)
        (ends_round (balanced_block n) hd hnext fun _ => hdepth) fun d' h => ?_
      have hshorter := h.shorter
      exact program_eq_of_lt (by rw [h.finish, hd]) (h.depth.trans hdepth) (by omega) (by omega)

end BoundedLoop.CompileM
