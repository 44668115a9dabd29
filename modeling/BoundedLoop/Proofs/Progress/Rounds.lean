import BoundedLoop.Proofs.Progress.ReadingOn
import BoundedLoop.Proofs.Recovery.Blocks

/-!
# Rounds that get on

Blocks and programs are compiled round by round, one statement in each. A round gets on: it ends with
fewer tokens ahead, even if the statement fails at its first token, and finds no more problems than it
uses up tokens (`CompileM.ends_round`). Nothing is asked of the tokens; a block may be closed by the wrong
word or not at all.

The count of problems is kept below that of the tokens by `Draft.Moves`. What a statement with a block
uses up for the problem that it may fail with is its keyword, and for a statement that begins with
nothing of use it is the first token that is skipped.
-/

namespace BoundedLoop

/-! ### Skipping -/

theorem skipFailed_suffix (base depth : Nat) (ts : List Token) :
    skipFailed base depth ts <:+ ts := by
  fun_induction skipFailed base depth ts <;> grind [List.suffix_cons_iff]

/-- Where a statement failed at its first token this token is skipped, unless it closes the block
around. -/
theorem skipFailed_suffix_tail {base : Nat} {t : Token} (ts : List Token)
    (h : t.kind.closesBlock = true → base = 0) : skipFailed base base (t :: ts) <:+ ts := by
  have hskip : ∀ depth, skipFailed base depth ts <:+ ts := by
    intro depth
    exact skipFailed_suffix base depth ts
  rw [skipFailed.eq_def]
  simp only [Nat.lt_irrefl, if_false, if_true]
  split
  case h_1 | h_2 => exact hskip (base + 1)
  case h_7 => exact List.suffix_rfl
  case h_8 => exact hskip base
  -- a closer is skipped as well where there is nothing to close
  all_goals
    rename_i hkind
    obtain rfl := h (by rw [hkind]; rfl)
    exact List.suffix_rfl

/-! ### Tokens against problems -/

/-- From `d` to `d'` the cursor does not go back, and no more problems are found than tokens are used
up. -/
structure Draft.Moves (d d' : Draft) : Prop where
  finish : d'.finish = d.finish
  ahead : d'.ahead <:+ d.ahead
  found : d'.diagnostics.size + d'.ahead.length ≤ d.diagnostics.size + d.ahead.length

namespace Draft

variable {d d' d'' : Draft}

theorem Moves.refl (d : Draft) : d.Moves d := ⟨rfl, List.suffix_rfl, Nat.le_refl _⟩

theorem Moves.trans (h : d.Moves d') (h' : d'.Moves d'') : d.Moves d'' :=
  ⟨h'.finish.trans h.finish, h'.ahead.trans h.ahead, Nat.le_trans h'.found h.found⟩

theorem ReadsOn.moves (h : d.ReadsOn d') : d.Moves d' := by
  refine ⟨h.finish, h.ahead, ?_⟩
  rw [h.diagnostics]
  exact Nat.add_le_add_left h.ahead.length_le _

theorem size_record_le (d : Draft) (e : Diagnostic) :
    (d.record e).diagnostics.size ≤ d.diagnostics.size + 1 := by
  unfold record
  split
  · exact Nat.le_succ _
  · exact Nat.le_of_eq (Array.size_push ..)

theorem ahead_eq_cons (hd : d.finish.kind = .eof) (hnext : d.next.kind ≠ .eof) :
    d.ahead = d.next :: d.ahead.tail := by
  have hsound : d.Sound fun _ => True := ⟨hd, fun _ _ => trivial⟩
  exact hsound.ahead_eq_cons hnext

/-- The draft when the token that comes next has been read. -/
abbrev behindNext (d : Draft) : Draft := { d with ahead := d.ahead.tail }

/-- From `d` to `d'` the cursor moves, by one token at least, and statements that are opened are closed
again. -/
structure GetsOn (d d' : Draft) : Prop extends d.Moves d' where
  depth : d'.depth = d.depth
  shorter : d'.ahead.length < d.ahead.length

theorem getsOn_of_behindNext {t : Token} {ts : List Token} (hahead : d.ahead = t :: ts)
    (h : d.behindNext.Moves d') (hdepth : d'.depth = d.depth) : d.GetsOn d' := by
  have htail : d.behindNext.ahead = ts := by rw [behindNext, hahead, List.tail_cons]
  have hsuffix := h.ahead
  have hfound := h.found
  rw [htail] at hsuffix hfound
  have hlength : d.ahead.length = ts.length + 1 := by rw [hahead, List.length_cons]
  refine ⟨⟨h.finish, ?_, ?_⟩, hdepth, ?_⟩
  · rw [hahead]
    exact hsuffix.trans (List.suffix_cons t ts)
  · rw [hlength]
    exact Nat.le_succ_of_le hfound
  · rw [hlength]
    exact Nat.lt_succ_of_le hsuffix.length_le

/-- Recovering from a failure: one token makes up for the problem that is recorded. -/
theorem getsOn_resumed {t : Token} {ts : List Token} (hahead : d.ahead = t :: ts)
    (hfinish : d'.finish = d.finish) (hskip : skipFailed d.depth d'.depth d'.ahead <:+ ts)
    (hfound : d'.diagnostics.size + (skipFailed d.depth d'.depth d'.ahead).length ≤
      d.diagnostics.size + ts.length) (e : Diagnostic) : d.GetsOn (d.resumed d' e) := by
  have hlength : d.ahead.length = ts.length + 1 := by rw [hahead, List.length_cons]
  refine ⟨⟨?_, ?_, ?_⟩, rfl, ?_⟩
  · rw [resumed, record_eq]
    exact hfinish
  · rw [resumed_ahead, hahead]
    exact hskip.trans (List.suffix_cons t ts)
  · have hsize := size_record_le d' e
    rw [resumed_ahead, hlength]
    show (d'.record e).diagnostics.size + _ ≤ _
    omega
  · rw [resumed_ahead, hlength]
    exact Nat.lt_succ_of_le hskip.length_le

end Draft

namespace CompileM

variable {α β : Type} {m : CompileM α} {d : Draft}

/-! ### Balanced computations -/

/-- The computation moves the cursor and, unless it fails, closes the statements that it opens. -/
def Balanced (m : CompileM α) : Prop :=
  ∀ d, d.finish.kind = .eof →
    Ends m d (fun _ d' => d.Moves d' ∧ d'.depth = d.depth) fun _ d' => d.Moves d'

theorem Balanced.bind {f : α → CompileM β} (hm : Balanced m) (hf : ∀ a, Balanced (f a)) :
    Balanced (m >>= f) := by
  intro d hd
  refine Ends.bind (hm d hd) ?_
  rintro a d' ⟨hmoves, hdepth⟩
  refine (hf a d' (by rw [hmoves.finish, hd])).mono ?_ ?_
  · rintro b d'' ⟨hmoves', hdepth'⟩
    exact ⟨hmoves.trans hmoves', hdepth'.trans hdepth⟩
  · intro e d'' hmoves'
    exact hmoves.trans hmoves'

theorem balanced_of_readsOn [hm : ReadsOn m] : Balanced m := by
  intro d hd
  have h := hm.reads d
  unfold leaves at h
  unfold Ends
  cases hrun : m d with
  | ok a d' =>
    rw [hrun] at h
    exact ⟨h.moves, h.depth⟩
  | error e d' =>
    rw [hrun] at h
    exact h.moves

theorem Balanced.ite {c : Prop} [Decidable c] {m' : CompileM α} (hm : Balanced m)
    (hm' : Balanced m') : Balanced (if c then m else m') := by
  split
  · exact hm
  · exact hm'

/-- A change that has nothing to do with tokens and problems. -/
theorem balanced_modify {g : Draft → Draft}
    (h : ∀ d, (g d).finish = d.finish ∧ (g d).ahead = d.ahead ∧
      (g d).diagnostics = d.diagnostics ∧ (g d).depth = d.depth) :
    Balanced (modify g : CompileM PUnit) := by
  intro d hd
  obtain ⟨hfinish, hahead, hfound, hdepth⟩ := h d
  refine ⟨⟨hfinish, ⟨[], hahead⟩, Nat.le_of_eq ?_⟩, hdepth⟩
  show (g d).diagnostics.size + (g d).ahead.length = d.diagnostics.size + d.ahead.length
  rw [hfound, hahead]

/-- A statement that is opened, and closed again before its jumps are filled in. -/
theorem Balanced.enclosed {g : α → CompileM β} (hm : Balanced m) (hg : ∀ a, Balanced (g a)) :
    Balanced (openStatement >>= fun _ => m >>= fun a => closeStatement >>= fun _ => g a) := by
  intro d hd
  refine Ends.modify_bind ?_
  refine Ends.bind ((hm { d with depth := d.depth + 1 } hd).mono (fun _ _ h => h) ?_) ?_
  · intro e d' hmoves
    exact ⟨hmoves.finish, hmoves.ahead, hmoves.found⟩
  · rintro a d' ⟨hmoves, hdepth⟩
    refine Ends.modify_bind ?_
    have hclose : d.Moves { d' with depth := d'.depth - 1 } :=
      ⟨hmoves.finish, hmoves.ahead, hmoves.found⟩
    refine (hg a _ (by rw [hclose.finish, hd])).mono ?_ ?_
    · rintro b d'' ⟨hmoves', hdepth'⟩
      refine ⟨hclose.trans hmoves', ?_⟩
      rw [hdepth', hdepth, Nat.add_sub_cancel]
    · intro e d'' hmoves'
      exact hclose.trans hmoves'

/-! ### Statements -/

theorem balanced_takeSlot (site : Site) : Balanced (takeSlot site) := by
  refine balanced_of_readsOn.bind fun d => ?_
  split
  · exact balanced_of_readsOn
  · exact .bind (balanced_modify fun _ => ⟨rfl, rfl, rfl, rfl⟩) fun _ => balanced_of_readsOn

theorem balanced_targetSlot (site : Site) (name : String) : Balanced (targetSlot site name) := by
  refine balanced_of_readsOn.bind fun d => ?_
  split
  · exact balanced_of_readsOn
  · refine (balanced_takeSlot site).bind fun slot => ?_
    exact .bind (balanced_modify fun _ => ⟨rfl, rfl, rfl, rfl⟩) fun _ => balanced_of_readsOn

theorem balanced_assignType (site : Site) (name : String) (ty : Ty) :
    Balanced (assignType site name ty) := by
  refine balanced_of_readsOn.bind fun d => ?_
  split
  · exact balanced_modify fun _ => ⟨rfl, rfl, rfl, rfl⟩
  · exact balanced_of_readsOn
  · exact balanced_of_readsOn

theorem balanced_assignment (target : Token) : Balanced (assignment target) := by
  unfold assignment
  split
  · exact balanced_of_readsOn
  · refine balanced_of_readsOn.bind fun _ => ?_
    refine (balanced_targetSlot _ _).bind fun slot => ?_
    refine balanced_of_readsOn.bind fun ty => ?_
    exact (balanced_assignType _ _ _).bind fun _ => balanced_of_readsOn

section Blocks

variable {block : CompileM Unit} {bound : Nat}

instance readsOn_openArm (keyword : Token) : ReadsOn (openArm keyword) := by
  unfold openArm; infer_instance

instance readsOn_closeArm (keyword : Token) (skip : Chunk.Label) :
    ReadsOn (closeArm keyword skip) := by
  unfold closeArm; infer_instance

theorem balanced_branches (hblock : Balanced block) (bound : Nat) (keyword : Token) :
    Balanced (branches block bound keyword) := by
  induction bound generalizing keyword with
  | zero => exact balanced_of_readsOn (m := pure [])
  | succ bound ih =>
    rw [branches_succ]
    refine balanced_of_readsOn.bind fun skip => hblock.bind fun _ => ?_
    refine balanced_of_readsOn.bind fun exit => balanced_of_readsOn.bind fun other => ?_
    refine .ite (balanced_of_readsOn.bind fun follower => balanced_of_readsOn.bind fun again => ?_)
      balanced_of_readsOn
    refine .ite ?_ (hblock.bind fun _ => balanced_of_readsOn)
    exact (ih follower).bind fun _ => balanced_of_readsOn

theorem ifStatement_eq (block : CompileM Unit) (bound : Nat) (keyword : Token) :
    ifStatement block bound keyword = (do
      openStatement
      let exits ← (do
        let exits ← branches block bound keyword
        expect (.keyword .endIf) .endIf
        return exits)
      closeStatement
      exits.forM (patch keyword.toSite)) := by
  simp only [ifStatement, bind_assoc, pure_bind]

theorem balanced_ifStatement (hblock : Balanced block) (keyword : Token) :
    Balanced (ifStatement block bound keyword) := by
  rw [ifStatement_eq]
  refine Balanced.enclosed ?_ fun exits => balanced_of_readsOn
  exact (balanced_branches hblock bound keyword).bind fun exits => balanced_of_readsOn

theorem balanced_openLoop (keyword : Token) : Balanced (openLoop keyword) := by
  refine balanced_of_readsOn.bind fun _ => ?_
  refine (balanced_takeSlot _).bind fun bound => (balanced_takeSlot _).bind fun counter => ?_
  refine @balanced_of_readsOn _ _ ?_
  repeat' first | infer_instance | refine @readsOn_bind _ _ _ _ ?_ fun _ => ?_

instance readsOn_closeLoop (keyword closer : Token) (head : UInt8 × Nat × Chunk.Label) :
    ReadsOn (closeLoop keyword closer head) := by
  unfold closeLoop
  repeat' first | infer_instance | refine @readsOn_bind _ _ _ _ ?_ fun _ => ?_

theorem balanced_enterLoop : Balanced enterLoop := balanced_modify fun _ => ⟨rfl, rfl, rfl, rfl⟩

theorem balanced_leaveLoop : Balanced leaveLoop := by
  refine balanced_of_readsOn.bind fun d => ?_
  exact .bind (balanced_modify fun _ => ⟨rfl, rfl, rfl, rfl⟩) fun _ => balanced_of_readsOn

/-- The loop up to its closer, with what its end has to know. -/
theorem loopStatement_eq_enclosed (block : CompileM Unit) (keyword : Token) :
    loopStatement block keyword = (do
      openStatement
      let ends ← (do
        let head ← openLoop keyword
        enterLoop
        block
        let closer ← peek
        expect (.keyword .endLoop) .endLoop
        return (head, closer))
      closeStatement
      closeLoop keyword ends.2 ends.1
      let aborts ← leaveLoop
      aborts.forM (patch keyword.toSite)) := by
  rw [loopStatement_eq]
  simp only [bind_assoc, pure_bind]

theorem balanced_loopStatement (hblock : Balanced block) (keyword : Token) :
    Balanced (loopStatement block keyword) := by
  rw [loopStatement_eq_enclosed]
  refine Balanced.enclosed ?_ fun ends => ?_
  · refine (balanced_openLoop keyword).bind fun head => balanced_enterLoop.bind fun _ => ?_
    exact hblock.bind fun _ => balanced_of_readsOn
  · refine balanced_of_readsOn.bind fun _ => ?_
    exact balanced_leaveLoop.bind fun aborts => balanced_of_readsOn

theorem balanced_noteAbort (label : Chunk.Label) : Balanced (noteAbort label) :=
  balanced_modify fun _ => ⟨rfl, rfl, rfl, rfl⟩

/-- A statement fails where it begins, or gets on behind its first token. -/
theorem ends_statement (hblock : Balanced block) (hd : d.finish.kind = .eof) :
    Ends (statement block bound) d (fun _ d' => d.behindNext.Moves d' ∧ d'.depth = d.depth)
      fun _ d' => d' = d ∨ d.behindNext.Moves d' := by
  have hadvance : ∀ {f : PUnit → CompileM Unit}, Balanced (f ⟨⟩) →
      Ends (advance >>= f) d (fun _ d' => d.behindNext.Moves d' ∧ d'.depth = d.depth)
        fun _ d' => d' = d ∨ d.behindNext.Moves d' := by
    intro f hf
    exact (hf d.behindNext hd).mono (fun _ _ h => h) fun _ _ h => .inr h
  refine Ends.peek_bind ?_
  split
  case h_1 | h_2 => exact hadvance (balanced_assignment _)
  case h_3 => exact hadvance (balanced_ifStatement hblock _)
  case h_4 => exact hadvance (balanced_loopStatement hblock _)
  case h_5 =>
    show Ends (if d.loops.isEmpty then fail d.next.toSite .abortOutsideLoop else
      advance >>= fun _ => reserve .always d.next.line >>= noteAbort) d _ _
    split
    · exact .inl rfl
    · exact hadvance (balanced_of_readsOn.bind balanced_noteAbort)
  case h_6 | h_7 => exact .inl rfl

/-! ### Rounds -/

/-- A round gets on, unless it stands in front of a word that closes the block around. -/
theorem ends_round (hblock : Balanced block) (hd : d.finish.kind = .eof)
    (hnext : d.next.kind ≠ .eof) (hclose : d.next.kind.closesBlock = true → d.depth = 0) :
    Ends (attempt (statement block bound)) d (fun _ d' => d.GetsOn d') fun _ _ => False := by
  have hahead := Draft.ahead_eq_cons hd hnext
  refine Ends.attempt ((ends_statement hblock hd).mono ?_ fun _ _ h => h) ?_
  · rintro - d' ⟨hmoves, hdepth⟩
    exact Draft.getsOn_of_behindNext hahead hmoves hdepth
  · rintro e d' (rfl | hmoves)
    · have hskip : skipFailed d'.depth d'.depth d'.ahead <:+ d'.ahead.tail := by
        rw [hahead]
        exact skipFailed_suffix_tail _ hclose
      exact Draft.getsOn_resumed hahead rfl hskip (Nat.add_le_add_left hskip.length_le _) e
    · have hskip := skipFailed_suffix d.depth d'.depth d'.ahead
      refine Draft.getsOn_resumed hahead hmoves.finish (hskip.trans hmoves.ahead) ?_ e
      exact Nat.le_trans (Nat.add_le_add_left hskip.length_le _) hmoves.found

end Blocks

theorem balanced_block (bound : Nat) : Balanced (block bound) := by
  induction bound with
  | zero => exact balanced_of_readsOn (m := pure ())
  | succ bound ih =>
    intro d hd
    refine Ends.peek_bind ?_
    split
    · exact ⟨.refl d, rfl⟩
    · rename_i hclose
      split
      · exact .refl d
      · rename_i hnext
        refine (ends_round ih hd hnext (absurd · hclose)).ok_bind ?_
        intro _ d₁ h₁
        refine (ih d₁ (by rw [h₁.finish, hd])).mono ?_ ?_
        · rintro - d₂ ⟨h₂, hdepth₂⟩
          exact ⟨h₁.toMoves.trans h₂, hdepth₂.trans h₁.depth⟩
        · intro e d₂ h₂
          exact h₁.toMoves.trans h₂

/-- A block is compiled up to a word that closes it, and fails only where the input ends. -/
theorem ends_block : ∀ (bound : Nat) {d : Draft}, d.finish.kind = .eof → d.ahead.length < bound →
    Ends (block bound) d (fun _ d' => d'.next.kind.closesBlock = true)
      fun e d' => e.problem = .blockNeverClosed ∧ d'.next.kind = .eof
  | 0, d, _, hbound => absurd hbound (Nat.not_lt_zero _)
  | bound + 1, d, hd, hbound => by
    refine Ends.peek_bind ?_
    split
    · rename_i hclose
      exact hclose
    · rename_i hclose
      split
      · rename_i hnext
        exact ⟨rfl, hnext⟩
      · rename_i hnext
        refine (ends_round (balanced_block bound) hd hnext (absurd · hclose)).ok_bind ?_
        intro _ d₁ h₁
        have hlength := h₁.shorter
        exact ends_block bound (by rw [h₁.finish, hd]) (by omega)

/-- A program is compiled up to the end of the input. -/
theorem ends_rounds : ∀ (bound : Nat) {d : Draft}, d.finish.kind = .eof → d.depth = 0 →
    d.ahead.length < bound →
    Ends (program bound) d (fun _ d' => d.Moves d' ∧ d'.next.kind = .eof) fun _ _ => False
  | 0, d, _, _, hbound => absurd hbound (Nat.not_lt_zero _)
  | bound + 1, d, hd, hdepth, hbound => by
    refine Ends.peek_bind ?_
    split
    · rename_i hnext
      exact ⟨.refl d, hnext⟩
    · rename_i hnext
      refine (ends_round (balanced_block bound) hd hnext fun _ => hdepth).ok_bind ?_
      intro _ d₁ h₁
      have hlength := h₁.shorter
      refine (ends_rounds bound (by rw [h₁.finish, hd]) (h₁.depth.trans hdepth)
        (by omega)).mono ?_ fun _ _ h => h
      rintro - d₂ ⟨h₂, hend⟩
      exact ⟨h₁.toMoves.trans h₂, hend⟩

end CompileM

end BoundedLoop
