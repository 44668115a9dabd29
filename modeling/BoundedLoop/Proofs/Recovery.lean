import BoundedLoop.Proofs.Recovery.Blocks
import Mathlib.Data.List.Nodup

/-!
# Recovery and blocks

However many statements of a program fail, and wherever they do, no trouble with blocks is made up by
going on behind them: tokens that are well nested are never said to be nested badly
(`sparesBlocks_of_compileTokens`). An `IF` or a `LOOP` that fails is skipped up to its own closer, and
no further unless its closer has been read when it fails (`resumes_behind_closer`).
-/

namespace BoundedLoop

/-! ### The start of a compilation -/

section Start

variable {ts : List Token} {finish : Token}

theorem Draft.ofTokens_ahead (hts : ∀ t ∈ ts, t.kind ≠ .eof) (hfinish : finish.kind = .eof) :
    (ofTokens (ts ++ [finish])).ahead = ts := by
  show (ts ++ [finish]).takeWhile (·.kind ≠ .eof) = ts
  rw [List.takeWhile_append_of_pos (by simpa using hts)]
  simp [hfinish]

theorem Draft.ofTokens_finish (hts : ∀ t ∈ ts, t.kind ≠ .eof) (hfinish : finish.kind = .eof) :
    (ofTokens (ts ++ [finish])).finish = finish := by
  have hnone : ts.find? (·.kind = .eof) = none := by simpa using hts
  show ((ts ++ [finish]).find? (·.kind = .eof)).getD _ = finish
  rw [List.find?_append, hnone]
  simp [hfinish]

end Start

/-- All that is found in a compilation of well-nested tokens is mild. -/
theorem Draft.mild_of_compiled {known free : Token → Prop} {d : Draft} {ns : List Nest}
    (hd : d.Faces known free ns []) (hnew : d.diagnostics = #[]) :
    ∀ e ∈ d.compiled.diagnostics, e.Mild known free := by
  have h := CompileM.ends_program (d.ahead.length + 1) hd (Nat.le_succ _)
  intro e he
  unfold CompileM.Ends at h
  unfold compiled EStateM.run at he
  cases hrun : CompileM.program (d.ahead.length + 1) d with
  | ok a d' =>
    rw [hrun] at h he
    rcases h.found e he with he | he
    · rw [hnew] at he
      exact absurd he (Array.not_mem_empty e)
    · exact he
  | error e d' =>
    rw [hrun] at h
    exact h.elim

/-- A diagnostic that finds no fault with how the nests are nested. Of all tokens, it complains of
no closer, and of an `ABORT LOOP` only where no loop is open. -/
structure Diagnostic.SparesBlocks (ns : List Nest) (e : Diagnostic) : Prop where
  endIf : e.code ≠ .expectedEndIf
  endLoop : e.code ≠ .expectedEndLoop
  closed : e.problem ≠ .blockNeverClosed
  closer : e.code = .unexpectedToken → ∀ t ∈ Nests.tokens ns,
    t.kind = .keyword .elseWord ∨ t.kind = .keyword .endIf ∨ t.kind = .keyword .endLoop →
    t.span ≠ e.span
  abort : e.problem = .abortOutsideLoop →
    ∃ t ∈ Nests.free ns, t.kind = .keyword .abortLoop ∧ t.toSite = e.toSite ∧
      ∀ t' ∈ Nests.tokens ns, t'.span = e.span → t' = t

theorem Diagnostic.Mild.sparesBlocks {ns : List Nest} {e : Diagnostic}
    (h : e.Mild (· ∈ Nests.tokens ns) (· ∈ Nests.free ns))
    (hspans : ((Nests.tokens ns).map (·.span)).Nodup) : e.SparesBlocks ns := by
  refine ⟨h.endIf, h.endLoop, h.closed, fun hcode t ht hkind hspan => ?_, fun hproblem => ?_⟩
  · obtain ⟨t', ht', hclose, hsite⟩ := h.site hcode
    have heq : t = t' := List.inj_on_of_nodup_map hspans ht ht' (by rw [hspan, hsite])
    rw [← heq] at hclose
    rcases hkind with hk | hk | hk
    all_goals
      rw [hk] at hclose
      cases hclose
  · obtain ⟨t, ht, hkind, hsite⟩ := h.abort hproblem
    refine ⟨t, ht, hkind, hsite.symm, fun t' ht' hspan => ?_⟩
    exact List.inj_on_of_nodup_map hspans ht' ((Nests.free_sublist ns).subset ht)
      (by rw [hspan, hsite])

/-- Whatever is wrong with well-nested tokens, their nesting is not found fault with. -/
theorem sparesBlocks_of_compileTokens {ns : List Nest} {finish : Token} {found : List Diagnostic}
    (hns : Nests.WellNested ns) (hfinish : finish.kind = .eof)
    (hspans : ((Nests.tokens ns ++ [finish]).map (·.span)).Nodup)
    (hfound : compileTokens (Nests.tokens ns ++ [finish]) = .error found) :
    ∀ e ∈ found, e.SparesBlocks ns := by
  intro e he
  have hts := Nests.kind_ne_eof hns
  have hd : (Draft.ofTokens (Nests.tokens ns ++ [finish])).Faces
      (· ∈ Nests.tokens ns) (· ∈ Nests.free ns) ns [] := by
    refine ⟨⟨?_, fun t ht => ?_⟩, hns, ?_, fun _ _ ht => ht⟩
    · rw [Draft.ofTokens_finish hts hfinish, hfinish]
    · rw [Draft.ofTokens_ahead hts hfinish] at ht
      exact ht
    · rw [Draft.ofTokens_ahead hts hfinish, List.append_nil]
  have hmild := Draft.mild_of_compiled hd rfl
  rw [List.map_append] at hspans
  refine (hmild e ?_).sparesBlocks hspans.of_append_left
  unfold compileTokens Draft.result at hfound
  split at hfound
  · cases hfound
  · cases hfound
    exact Array.mem_toList_iff.1 he

/-! ### Nests with mistakes -/

/-- A token on the first line. -/
def tokenAt (column : Nat) (kind : Token.Kind) (lexeme : String)
    (literal : Option Token.Literal := none) : Token where
  span := ⟨column - 1, column - 1 + lexeme.length⟩
  line := 1
  column
  kind
  lexeme
  literal

/-- An `IF` with a number for its condition. -/
def brokenChoice : Nest :=
  .choice (tokenAt 14 (.keyword .ifWord) "IF")
    [.plain (tokenAt 17 .constant "1" (some (.value (.number 1)))),
      .plain (tokenAt 19 (.keyword .thenWord) "THEN"),
      .plain (tokenAt 24 (.keyword .abortLoop) "ABORT LOOP")]
    (.otherwise (tokenAt 35 (.keyword .elseWord) "ELSE")
      [.plain (tokenAt 40 .identifier "X" (some (.name "X"))),
        .plain (tokenAt 42 (.symbol .leftArrow) "<-"),
        .plain (tokenAt 45 .constant "1" (some (.value (.number 1))))])
    (tokenAt 47 (.keyword .endIf) "END IF")

/-- An assignment of a variable that is not there. -/
def brokenAssignment : List Nest :=
  [.plain (tokenAt 54 .identifier "Y" (some (.name "Y"))),
    .plain (tokenAt 56 (.symbol .leftArrow) "<-"),
    .plain (tokenAt 59 .identifier "Z" (some (.name "Z")))]

/-- A loop around both, and an `ABORT LOOP` behind it. -/
def brokenNests : List Nest :=
  [.loop (tokenAt 1 (.keyword .loop) "LOOP")
      (.plain (tokenAt 6 .constant "2" (some (.value (.number 2)))) ::
        .plain (tokenAt 8 (.keyword .times) "TIMES") :: brokenChoice :: brokenAssignment)
      (tokenAt 61 (.keyword .endLoop) "END LOOP"),
    .plain (tokenAt 70 (.keyword .abortLoop) "ABORT LOOP")]

def brokenEnd : Token := tokenAt 80 .eof ""

def brokenText : String :=
  "LOOP 2 TIMES IF 1 THEN ABORT LOOP ELSE X <- 1 END IF Y <- Z END LOOP ABORT LOOP"

theorem sparesBlocks_of_compileTokens_brokenText : ∃ found,
    (Token.scan brokenText).toOption = some (Nests.tokens brokenNests ++ [brokenEnd]) ∧
    compileTokens (Nests.tokens brokenNests ++ [brokenEnd]) = .error found ∧
    found.map (·.code) = [.booleanExpressionNeeded, .undefinedVariable, .unexpectedToken] ∧
    ∀ e ∈ found, e.SparesBlocks brokenNests := by
  have hcodes : (match compileTokens (Nests.tokens brokenNests ++ [brokenEnd]) with
      | .ok _ => []
      | .error found => found.map (·.code)) =
      [.booleanExpressionNeeded, .undefinedVariable, .unexpectedToken] := by
    decide +kernel
  cases hfound : compileTokens (Nests.tokens brokenNests ++ [brokenEnd]) with
  | ok chunk =>
    rw [hfound] at hcodes
    cases hcodes
  | error found =>
    rw [hfound] at hcodes
    exact ⟨found, by decide +kernel, rfl, hcodes,
      sparesBlocks_of_compileTokens (by decide) rfl (by decide +kernel) hfound⟩

/-! ### Skipping compound statements -/

section Skipping

open CompileM

/-- A failed `IF` or `LOOP` is skipped up to its own closer, wherever in it the failure is. When only
a jump over it is too long, the closer has been read; what is skipped then stands behind it. A
compilation starts with a `bound` that leaves room for all tokens ahead. -/
theorem resumes_behind_closer {n : Nest} {rest : List Token} {bound : Nat} {d d' : Draft}
    {e : Diagnostic} (hn : n.WellNested) (hcompound : n.isCompound = true)
    (hahead : d.ahead = n.tokens ++ rest) (hfinish : d.finish.kind = .eof)
    (hbound : d.ahead.length ≤ bound + 1)
    (hfails : statement (block bound) bound d = .error e d') :
    ∃ d'', attempt (statement (block bound) bound) d = .ok () d'' ∧
      d''.depth = d.depth ∧ d''.loops.length = d.loops.length ∧
      (d'.depth = d.depth + 1 ∧ d''.ahead = rest ∨
        d'.depth = d.depth ∧ d'.ahead = rest ∧ e.code = .blockIsTooLarge ∧
          d''.ahead = skipFailed d.depth d.depth rest) := by
  have hd : d.Faces (fun _ => True) (fun _ => True) [n] rest := by
    refine ⟨⟨hfinish, fun _ _ => trivial⟩, ⟨hn, trivial⟩, ?_, fun _ _ _ => trivial⟩
    rw [hahead, Nests.tokens, Nests.tokens, List.append_nil]
  have h := endsCompound_statement (closesBlocks _ _ bound) hcompound hd hbound
  unfold EndsCompound Ends at h
  rw [hfails] at h
  have hfollows := h.follows
  refine ⟨d.resumed d' e, by rw [attempt_apply, hfails], hfollows.depth, hfollows.loops, ?_⟩
  rcases h.place with ⟨hdepth, hskip⟩ | ⟨hdepth, hrest, hcode⟩
  · exact .inl ⟨hdepth, Draft.resumed_ahead.trans hskip⟩
  · refine .inr ⟨hdepth, hrest, hcode, ?_⟩
    rw [Draft.resumed_ahead, hdepth, hrest]

/-- Inside the loop, in front of the `IF`. -/
def brokenDraft : Draft where
  ahead := brokenChoice.tokens ++ Nests.tokens brokenAssignment
  finish := brokenEnd
  loops := [[]]
  depth := 1

/-- The class of a failure, and how deep in blocks it happened. -/
def failureOf : EStateM.Result Diagnostic Draft Unit → Option (Code × Nat)
  | .ok _ _ => none
  | .error e d' => some (e.code, d'.depth)

theorem resumes_behind_closer_brokenChoice : ∃ e d' d'',
    statement (block 12) 12 brokenDraft = .error e d' ∧ e.code = .booleanExpressionNeeded ∧
    attempt (statement (block 12) 12) brokenDraft = .ok () d'' ∧
    d''.ahead = Nests.tokens brokenAssignment := by
  have hcode : failureOf (statement (block 12) 12 brokenDraft) = some (.booleanExpressionNeeded, 2) := by
    decide +kernel
  cases hfails : statement (block 12) 12 brokenDraft with
  | ok a d' =>
    rw [hfails] at hcode
    cases hcode
  | error e d' =>
    rw [hfails] at hcode
    simp only [failureOf, Option.some.injEq, Prod.mk.injEq] at hcode
    obtain ⟨d'', hattempt, -, -, h⟩ :=
      resumes_behind_closer (n := brokenChoice) (by decide) rfl rfl rfl (by decide) hfails
    rcases h with ⟨-, hrest⟩ | ⟨hdepth, -⟩
    · exact ⟨e, d', d'', rfl, hcode.1, hattempt, hrest⟩
    · rw [hcode.2] at hdepth
      cases hdepth

end Skipping

end BoundedLoop
