import BoundedLoop.Proofs.SourceOrder.Sites

/-!
# Diagnostics in the order of the source

`Draft.InOrder` is what holds of the diagnostics between two statements: in the order in which they
were recorded they begin ever later, none of them behind the cursor, and only the last one can be
that the input ends. Those that a block is too large are left out of the order, because they are
blamed on the keyword in front of the block.

A statement may fail after its blocks have recorded diagnostics of their own. `Draft.Fails` says
that its failure can be recorded behind them. It can be, because whatever is compiled behind a block
fails at a token behind that block (`CompileM.KeepsOrder`). Once the input has ended, all open
statements fail for that one reason.
-/

namespace BoundedLoop

/-- Tokens begin one behind the other. -/
abbrev Token.Ascending (ts : List Token) : Prop :=
  ts.Pairwise fun t t' => t.span.start ≤ t'.span.start

theorem Token.Ascending.head_le {t t' : Token} {ts : List Token} (h : Ascending (t :: ts))
    (ht' : t' ∈ t :: ts) :
    t.span.start ≤ t'.span.start := by
  rcases List.mem_cons.1 ht' with rfl | ht'
  · exact Nat.le_refl _
  · exact (List.pairwise_cons.1 h).1 t' ht'

namespace Draft

open Token (Ascending)

/-- The diagnostics are in order, and stand at tokens out of `all`. -/
structure InOrder (all : List Token) (d : Draft) : Prop where
  sound : d.Sound (·.kind ≠ .eof)
  upcoming : d.upcoming <:+ all
  sites : ∀ e ∈ d.diagnostics, ∃ t ∈ all, e.toSite = t.toSite
  sorted : (d.diagnostics.toList.filter (·.code ≠ .blockIsTooLarge)).Pairwise fun e e' =>
    e.span.start ≤ e'.span.start
  passed : ∀ e ∈ d.diagnostics, e.code ≠ .blockIsTooLarge → e.span.start ≤ d.next.span.start
  ended : ∀ e ∈ d.diagnostics, e.code = .unexpectedEnd → d.ahead = [] ∧ e.toSite = d.finish.toSite
  last : ∀ e ∈ d.diagnostics.toList.dropLast, e.code ≠ .unexpectedEnd

/-- The diagnostic can be recorded as the next one. -/
structure Fails (all : List Token) (e : Diagnostic) (d : Draft) : Prop extends d.InOrder all where
  site : ∃ t ∈ all, e.toSite = t.toSite
  after : e.code ≠ .blockIsTooLarge → ∀ e' ∈ d.diagnostics, e'.code ≠ .blockIsTooLarge →
    e'.span.start ≤ e.span.start
  before : e.code ≠ .blockIsTooLarge → e.span.start ≤ d.next.span.start
  atEnd : e.code = .unexpectedEnd → d.ahead = [] ∧ e.toSite = d.finish.toSite
  unended : e.code ≠ .unexpectedEnd → ∀ e' ∈ d.diagnostics, e'.code ≠ .unexpectedEnd

/-- The diagnostics are in order, the input has not been said to end, and fewer than `bound` tokens
are ahead. -/
structure Ready (all : List Token) (bound : Nat) (d : Draft) : Prop extends d.InOrder all where
  unended : ∀ e ∈ d.diagnostics, e.code ≠ .unexpectedEnd
  shorter : d.ahead.length < bound

variable {all : List Token} {d d' : Draft} {e : Diagnostic} {bound : Nat}

theorem next_mem_upcoming (d : Draft) : d.next ∈ d.upcoming := by
  obtain ⟨rest, hrest⟩ := d.exists_upcoming
  rw [hrest]
  exact List.mem_cons_self

/-- A token that is passed stands in order between the two cursors. -/
theorem Passes.start_le {t : Token} (h : d.Passes d' t) (hascend : Ascending d.upcoming) :
    d.next.span.start ≤ t.span.start ∧ t.span.start ≤ d'.next.span.start := by
  obtain ⟨rest, hrest, hstop⟩ := h
  constructor
  · obtain ⟨behind, hbehind⟩ := d.exists_upcoming
    rw [hbehind] at hascend hrest
    exact hascend.head_le (hrest.subset List.mem_cons_self)
  · exact Ascending.head_le (hascend.sublist hrest.sublist) (hstop.subset d'.next_mem_upcoming)

namespace InOrder

/-- Reading on keeps the order. -/
theorem goesTo (hall : Ascending all) (h : d.InOrder all) (hgoes : d.GoesTo d') : d'.InOrder all := by
  have hascend : Ascending d.upcoming := hall.sublist h.upcoming.sublist
  refine ⟨hgoes.sound h.sound, hgoes.upcoming.trans h.upcoming, ?_, ?_, ?_, ?_, ?_⟩
  all_goals rw [hgoes.diagnostics]
  · exact h.sites
  · exact h.sorted
  · intro e he hcode
    exact Nat.le_trans (h.passed e he hcode) (hgoes.passes_next.start_le hascend).2
  · intro e he hcode
    obtain ⟨hahead, hsite⟩ := h.ended e he hcode
    have hsuffix := hgoes.ahead
    rw [hahead] at hsuffix
    exact ⟨List.suffix_nil.1 hsuffix, by rw [hsite, hgoes.finish]⟩
  · exact h.last

/-- Where a token is still ahead, the input has not been said to end. -/
theorem ready (h : d.InOrder all) (hnext : d.next.kind ≠ .eof) (hlength : d.ahead.length < bound) :
    d.Ready all bound := by
  refine ⟨h, ?_, hlength⟩
  intro e he hcode
  have hahead := (h.ended e he hcode).1
  rw [next, hahead] at hnext
  exact hnext h.sound.finish

end InOrder

theorem Ready.goesTo (hall : Ascending all) (h : d.Ready all bound) (hgoes : d.GoesTo d') :
    d'.Ready all bound := by
  refine ⟨h.toInOrder.goesTo hall hgoes, ?_, Nat.lt_of_le_of_lt hgoes.ahead.length_le h.shorter⟩
  rw [hgoes.diagnostics]
  exact h.unended

/-- Behind a token one token less is ahead. -/
theorem Ready.behindNext (hall : Ascending all) (h : d.Ready all (bound + 1))
    (hnext : d.next.kind ≠ .eof) :
    d.behindNext.Ready all bound := by
  have hgoes := GoesTo.behindNext d
  refine ⟨h.toInOrder.goesTo hall hgoes, h.unended, ?_⟩
  have hlength := h.shorter
  rw [ahead_eq_cons h.sound.finish hnext, List.length_cons] at hlength
  exact Nat.lt_of_succ_lt_succ hlength

/-- A failure at a token that was passed. -/
theorem Ready.fails (hall : Ascending all) (h : d.Ready all bound)
    (hfails : d.FailsAt (fun _ => False) e d') :
    d'.Fails all e := by
  have hascend : Ascending d.upcoming := hall.sublist h.upcoming.sublist
  obtain ⟨t, ht, hsite⟩ := hfails.site
  have hpasses : d.Passes d' t := ht.resolve_left not_false
  obtain ⟨hle, hle'⟩ := hpasses.start_le hascend
  have hspan : e.span.start = t.span.start := by rw [hsite]
  refine ⟨h.toInOrder.goesTo hall hfails.toGoesTo, ⟨t, ?_, hsite⟩, ?_, ?_, hfails.ended, ?_⟩
  · obtain ⟨rest, hrest, -⟩ := hpasses
    exact h.upcoming.subset (hrest.subset List.mem_cons_self)
  · intro _ e' he' hcode'
    rw [hfails.diagnostics] at he'
    rw [hspan]
    exact Nat.le_trans (h.passed e' he' hcode') hle
  · intro _
    rw [hspan]
    exact hle'
  · intro _
    rw [hfails.diagnostics]
    exact h.unended

/-- A block that is too large may be blamed on any token. -/
theorem Ready.fails_of_tooLarge (hall : Ascending all) (h : d.Ready all bound) {t : Token}
    (ht : t ∈ all) (hfails : d.FailsAt (· = t) e d') (hcode : e.code = .blockIsTooLarge) :
    d'.Fails all e := by
  refine ⟨h.toInOrder.goesTo hall hfails.toGoesTo, ?_, absurd hcode, absurd hcode, hfails.ended, ?_⟩
  · obtain ⟨t', rfl | ⟨rest, hrest, -⟩, hsite⟩ := hfails.site
    · exact ⟨t', ht, hsite⟩
    · exact ⟨t', h.upcoming.subset (hrest.subset List.mem_cons_self), hsite⟩
  · intro _
    rw [hfails.diagnostics]
    exact h.unended

/-- A block that is never closed fails where the input ends, even if that has been said before. -/
theorem InOrder.fails_of_end (h : d.InOrder all) (hnext : d.next.kind = .eof) :
    d.Fails all ⟨d.next.toSite, .blockNeverClosed⟩ := by
  have hahead := h.sound.ahead_eq_nil hnext
  refine ⟨h, ⟨d.next, h.upcoming.subset d.next_mem_upcoming, rfl⟩, ?_, fun _ => Nat.le_refl _, ?_,
    absurd rfl⟩
  · intro _ e' he' hcode'
    exact h.passed e' he' hcode'
  · intro _
    refine ⟨hahead, ?_⟩
    show d.next.toSite = d.finish.toSite
    rw [next, hahead]
    rfl

/-- A failure is recorded in order. -/
theorem Fails.record (h : d.Fails all e) : (d.record e).InOrder all := by
  unfold Draft.record
  split
  · exact h.toInOrder
  · rename_i hnew
    -- a second end of the input is not recorded, so whatever is recorded finds none
    have hunended : ∀ e' ∈ d.diagnostics, e'.code ≠ .unexpectedEnd := by
      intro e' he' hcode'
      by_cases hcode : e.code = .unexpectedEnd
      · exact hnew ⟨hcode, Array.any_eq_true'.2 ⟨e', he', by rw [hcode']; rfl⟩⟩
      · exact h.unended hcode e' he' hcode'
    refine ⟨⟨h.sound.finish, h.sound.ahead⟩, h.upcoming, ?_, ?_, ?_, ?_, ?_⟩
    · intro e' he'
      rcases Array.mem_push.1 he' with he' | rfl
      · exact h.sites e' he'
      · exact h.site
    · show ((d.diagnostics.push e).toList.filter _).Pairwise _
      rw [Array.toList_push, List.filter_append, List.pairwise_append]
      refine ⟨h.sorted, (List.pairwise_singleton _ e).sublist List.filter_sublist, ?_⟩
      intro e₁ he₁ e₂ he₂
      obtain ⟨he₁, hcode₁⟩ := List.mem_filter.1 he₁
      obtain ⟨he₂, hcode₂⟩ := List.mem_filter.1 he₂
      obtain rfl := List.mem_singleton.1 he₂
      exact h.after (of_decide_eq_true hcode₂) e₁ (Array.mem_toList_iff.1 he₁)
        (of_decide_eq_true hcode₁)
    · intro e' he' hcode
      rcases Array.mem_push.1 he' with he' | rfl
      · exact h.passed e' he' hcode
      · exact h.before hcode
    · intro e' he' hcode
      rcases Array.mem_push.1 he' with he' | rfl
      · exact h.ended e' he' hcode
      · exact h.atEnd hcode
    · intro e' he'
      rw [Array.toList_push, List.dropLast_concat] at he'
      exact hunended e' (Array.mem_toList_iff.1 he')

/-- Behind a failure that has been recorded the order goes on. -/
theorem Fails.resumed (hall : Ascending all) (h : d'.Fails all e) : (d.resumed d' e).InOrder all := by
  refine h.record.goesTo hall ⟨rfl, ?_, rfl⟩
  exact skipFailed_suffix d.depth (d'.record e).depth (d'.record e).ahead

end Draft

namespace CompileM

open Token (Ascending)

variable {α β : Type} {all : List Token} {bound : Nat} {m : CompileM α} {f : α → CompileM β} {d : Draft}
  {keyword : Token}

theorem Ends.and {ok ok' : α → Draft → Prop} {error error' : Diagnostic → Draft → Prop}
    (h : Ends m d ok error) (h' : Ends m d ok' error') :
    Ends m d (fun a d' => ok a d' ∧ ok' a d') fun e d' => error e d' ∧ error' e d' := by
  unfold Ends at h h' ⊢
  cases hm : m d with
  | ok a d' =>
    rw [hm] at h h'
    exact ⟨h, h'⟩
  | error e d' =>
    rw [hm] at h h'
    exact ⟨h, h'⟩

/-- The computation keeps the diagnostics in order, and may fail with the next one. -/
def KeepsOrder (all : List Token) (bound : Nat) (m : CompileM α) : Prop :=
  ∀ d, d.Ready all bound → Ends m d (fun _ d' => d'.Ready all bound) fun e d' => d'.Fails all e

namespace KeepsOrder

theorem bind (hm : KeepsOrder all bound m) (hf : ∀ a, KeepsOrder all bound (f a)) :
    KeepsOrder all bound (m >>= f) := by
  intro d hd
  refine Ends.bind (hm d hd) ?_
  intro a d' hd'
  exact hf a d' hd'

theorem ite {c : Prop} [Decidable c] {m' : CompileM α} (hm : KeepsOrder all bound m)
    (hm' : KeepsOrder all bound m') : KeepsOrder all bound (if c then m else m') := by
  split
  · exact hm
  · exact hm'

/-- The token that comes next is one of all. -/
theorem peek_bind {f : Token → CompileM β} (hf : ∀ t ∈ all, KeepsOrder all bound (f t)) :
    KeepsOrder all bound (peek >>= f) := by
  intro d hd
  exact hf d.next (hd.upcoming.subset d.next_mem_upcoming) d hd

/-- What fails at its own tokens only keeps the order. -/
theorem of_tells (hall : Ascending all) (hm : Tells (fun _ => False) m) : KeepsOrder all bound m := by
  intro d hd
  refine (hm d hd.sound).mono ?_ ?_
  · intro _ d' hgoes
    exact hd.goesTo hall hgoes
  · intro e d' hfails
    exact hd.fails hall hfails

/-- What fails only because a block is too large keeps the order, whichever keyword it is blamed on. -/
theorem of_writes (hall : Ascending all) (hkeyword : keyword ∈ all)
    (hm : ∀ given : Token → Prop, given keyword → Tells given m) (hwrites : Writes m) :
    KeepsOrder all bound m := by
  intro d hd
  have hends := Ends.and (hm (· = keyword) rfl d hd.sound)
    (hwrites d ⟨hd.sound.finish, fun _ _ => trivial⟩)
  refine hends.mono ?_ ?_
  · rintro _ d' ⟨hgoes, -⟩
    exact hd.goesTo hall hgoes
  · rintro e d' ⟨hfails, -, hcode⟩
    exact hd.fails_of_tooLarge hall hkeyword hfails hcode

end KeepsOrder

/-! ### Statements with blocks -/

section Blocks

variable {block : CompileM Unit}

theorem tells_accept {given : Token → Prop} (kind : Token.Kind) : Tells given (accept kind) :=
  .peek_bind fun _ => .ite (Tells.advance.bind fun _ => .pure true) (.pure false)

theorem keepsOrder_branches (hall : Ascending all) (hblock : KeepsOrder all bound block) (n : Nat)
    (hkeyword : keyword ∈ all) : KeepsOrder all bound (branches block n keyword) := by
  induction n generalizing keyword with
  | zero => exact .of_tells hall (.pure [])
  | succ n ih =>
    rw [branches_succ]
    refine .bind (.of_tells hall (tells_openArm keyword)) fun skip => hblock.bind fun _ => ?_
    refine .bind (.of_writes hall hkeyword (fun _ h => tells_closeArm h skip)
      (writes_closeArm keyword skip)) fun exit => ?_
    refine .bind (.of_tells hall (tells_accept _)) fun other => ?_
    refine .ite ?_ (.of_tells hall (.pure _))
    refine .peek_bind fun follower hfollower => ?_
    refine .bind (.of_tells hall (tells_accept _)) fun again => .ite ?_ ?_
    · exact (ih hfollower).bind fun exits => .of_tells hall (.pure _)
    · exact hblock.bind fun _ => .of_tells hall (.pure _)

theorem keepsOrder_forM_patch (hall : Ascending all) (hkeyword : keyword ∈ all)
    (labels : List Chunk.Label) :
    KeepsOrder all bound (labels.forM (patch keyword.toSite)) :=
  .of_writes hall hkeyword (fun _ h => .forM (fun _ => tells_patch h _) labels)
    (writes_forM_patch _ labels)

theorem tells_openStatement {given : Token → Prop} : Tells given openStatement :=
  .modify fun _ => ⟨rfl, rfl, rfl⟩

theorem tells_closeStatement {given : Token → Prop} : Tells given closeStatement :=
  .modify fun _ => ⟨rfl, rfl, rfl⟩

theorem keepsOrder_ifStatement (hall : Ascending all) (hblock : KeepsOrder all bound block) (n : Nat)
    (hkeyword : keyword ∈ all) : KeepsOrder all bound (ifStatement block n keyword) := by
  refine .bind (.of_tells hall tells_openStatement) fun _ => ?_
  refine (keepsOrder_branches hall hblock n hkeyword).bind fun exits => ?_
  refine .bind (.of_tells hall (tells_expect _ _)) fun _ => ?_
  refine .bind (.of_tells hall tells_closeStatement) fun _ => ?_
  exact keepsOrder_forM_patch hall hkeyword exits

/-- A loop behind its head. -/
theorem keepsOrder_loopRest (hall : Ascending all) (hblock : KeepsOrder all bound block)
    (hkeyword : keyword ∈ all) (head : UInt8 × Nat × Chunk.Label) : KeepsOrder all bound (do
      block
      let closer ← peek
      expect (.keyword .endLoop) .endLoop
      closeStatement
      closeLoop keyword closer head
      let aborts ← leaveLoop
      aborts.forM (patch keyword.toSite)) := by
  refine hblock.bind fun _ => .peek_bind fun closer _ => ?_
  refine .bind (.of_tells hall (tells_expect _ _)) fun _ => ?_
  refine .bind (.of_tells hall tells_closeStatement) fun _ => ?_
  refine .bind (.of_writes hall hkeyword (fun _ h => tells_closeLoop h closer head)
    (writes_closeLoop keyword closer head)) fun _ => ?_
  refine .bind (.of_tells hall ?_) fun aborts => keepsOrder_forM_patch hall hkeyword aborts
  exact Tells.get.bind fun _ => .bind (.modify fun _ => ⟨rfl, rfl, rfl⟩) fun _ => .pure _

/-- What is read behind the first token of a statement may be blamed on that token. -/
theorem ends_advance_bind_inOrder (hall : Ascending all) (hd : d.Ready all (bound + 1))
    (hnext : d.next.kind ≠ .eof) {f : PUnit → CompileM α}
    (hf : ∀ given : Token → Prop, given d.next → Tells given (f ⟨⟩)) :
    Ends (advance >>= f) d (fun _ d' => d'.Ready all bound) fun e d' => d'.Fails all e := by
  have hbehind := hd.behindNext hall hnext
  show Ends (f ⟨⟩) d.behindNext _ _
  refine (hf (· = d.next) rfl d.behindNext hbehind.sound).mono ?_ ?_
  · intro _ d' hgoes
    exact hbehind.goesTo hall hgoes
  · intro e d' hfails
    have hfails := (Draft.GoesTo.behindNext d).failsAt hfails
    refine hd.fails hall (hfails.mono ?_)
    rintro t rfl
    exact .inr hfails.passes_next

/-- A statement keeps the order, and may fail with the next diagnostic. -/
theorem ends_statement_inOrder (hall : Ascending all) (hblock : KeepsOrder all bound block)
    (hd : d.Ready all (bound + 1)) (hnext : d.next.kind ≠ .eof) :
    Ends (statement block bound) d (fun _ d' => d'.Ready all bound) fun e d' => d'.Fails all e := by
  have hmem : d.next ∈ all := hd.upcoming.subset d.next_mem_upcoming
  have hbehind := hd.behindNext hall hnext
  have hfails : ∀ problem : Problem, decide (problem.code = .unexpectedEnd) = false →
      d.Fails all ⟨d.next.toSite, problem⟩ := by
    intro problem hcode
    have hcode := of_decide_eq_false hcode
    exact hd.fails hall
      ⟨.refl d, ⟨d.next, .inr (Draft.GoesTo.refl d).passes_next, rfl⟩, (absurd · hcode)⟩
  refine Ends.peek_bind ?_
  split
  case h_1 | h_2 => exact ends_advance_bind_inOrder hall hd hnext fun _ h => tells_assignment h
  case h_3 => exact keepsOrder_ifStatement hall hblock bound hmem d.behindNext hbehind
  case h_4 =>
    -- The head of the loop may be blamed on the keyword, since nothing has been recorded behind it.
    -- From the block on, only a jump that is too long is.
    have hloop : (advance >>= fun _ => loopStatement block d.next) = (do
        let head ← (do
          advance
          openStatement
          let head ← openLoop d.next
          enterLoop
          return head)
        block
        let closer ← peek
        expect (.keyword .endLoop) .endLoop
        closeStatement
        closeLoop d.next closer head
        let aborts ← leaveLoop
        aborts.forM (patch d.next.toSite)) := by
      rw [loopStatement_eq]
      simp only [bind_assoc, pure_bind]
    rw [hloop]
    refine Ends.bind (ends_advance_bind_inOrder hall hd hnext fun _ h => ?_) ?_
    · refine tells_openStatement.bind fun _ => (tells_openLoop h).bind fun head => ?_
      exact .bind (.modify fun _ => ⟨rfl, rfl, rfl⟩) fun _ => .pure head
    · intro head d' hd'
      exact keepsOrder_loopRest hall hblock hmem head d' hd'
  case h_5 =>
    show Ends (if d.loops.isEmpty then fail d.next.toSite .abortOutsideLoop else
      advance >>= fun _ => reserve .always d.next.line >>= noteAbort) d _ _
    split
    · exact hfails _ rfl
    · refine ends_advance_bind_inOrder hall hd hnext fun _ _ => ?_
      exact (tells_reserve _ _).bind fun label => .modify fun _ => ⟨rfl, rfl, rfl⟩
  case h_6 => exact hfails _ rfl
  case h_7 =>
    refine hfails (.missing .statement (if d.next.kind = .eof then none else some d.next.text)) ?_
    rw [if_neg hnext]
    rfl

/-- A round keeps the order, and gets on unless it stands in front of a word that closes the block
around. -/
theorem ends_round_inOrder (hall : Ascending all) (hbalanced : Balanced block)
    (hblock : KeepsOrder all bound block) (hd : d.InOrder all) (hnext : d.next.kind ≠ .eof)
    (hlength : d.ahead.length < bound + 1) (hclose : d.next.kind.closesBlock = true → d.depth = 0) :
    Ends (attempt (statement block bound)) d (fun _ d' => d'.InOrder all ∧ d.GetsOn d')
      fun _ _ => False := by
  have horder : Ends (attempt (statement block bound)) d (fun _ d' => d'.InOrder all)
      fun _ _ => False := by
    have hstatement := ends_statement_inOrder hall hblock (hd.ready hnext hlength) hnext
    refine Ends.attempt (hstatement.mono ?_ fun _ _ h => h) ?_
    · intro _ d' hd'
      exact hd'.toInOrder
    · intro e d' hfails
      exact hfails.resumed hall
  refine (horder.and (ends_round hbalanced hd.sound.finish hnext hclose)).mono (fun _ _ h => h) ?_
  rintro _ _ ⟨hfalse, -⟩
  exact hfalse

end Blocks

/-- A block keeps the order up to the word that closes it. Where the input ends it fails, whatever
has been recorded. -/
theorem ends_block_inOrder (hall : Ascending all) (bound : Nat) {d : Draft} (hd : d.InOrder all)
    (hlength : d.ahead.length < bound) :
    Ends (block bound) d (fun _ d' => d'.Ready all bound) fun e d' => d'.Fails all e := by
  induction bound generalizing d with
  | zero => exact absurd hlength (Nat.not_lt_zero _)
  | succ bound ih =>
    refine Ends.peek_bind ?_
    split
    · rename_i hclose
      refine hd.ready ?_ hlength
      intro hnext
      rw [hnext] at hclose
      cases hclose
    · rename_i hclose
      split
      · rename_i hnext
        exact hd.fails_of_end hnext
      · rename_i hnext
        have hblock : KeepsOrder all bound (block bound) := fun d hd => ih hd.toInOrder hd.shorter
        refine (ends_round_inOrder hall (balanced_block bound) hblock hd hnext hlength
          (absurd · hclose)).ok_bind ?_
        rintro - d₁ ⟨hd₁, hgets⟩
        -- The round may have recorded that the input ends, so the rest of the block is not `Ready`.
        have hshorter := hgets.shorter
        refine (ih hd₁ (by omega)).mono ?_ fun _ _ h => h
        intro _ d₂ hd₂
        exact ⟨hd₂.toInOrder, hd₂.unended, Nat.lt_succ_of_lt hd₂.shorter⟩

theorem ends_program_inOrder (hall : Ascending all) (bound : Nat) {d : Draft} (hd : d.InOrder all)
    (hdepth : d.depth = 0) (hlength : d.ahead.length < bound) :
    Ends (program bound) d (fun _ d' => d'.InOrder all) fun _ _ => False := by
  induction bound generalizing d with
  | zero => exact absurd hlength (Nat.not_lt_zero _)
  | succ bound ih =>
    refine Ends.peek_bind ?_
    split
    · exact hd
    · rename_i hnext
      have hblock : KeepsOrder all bound (block bound) :=
        fun d hd => ends_block_inOrder hall bound hd.toInOrder hd.shorter
      refine (ends_round_inOrder hall (balanced_block bound) hblock hd hnext hlength
        fun _ => hdepth).ok_bind ?_
      rintro - d₁ ⟨hd₁, hgets⟩
      have hshorter := hgets.shorter
      exact ih hd₁ (hgets.depth.trans hdepth) (by omega)

end CompileM

end BoundedLoop
