import BoundedLoop.Proofs.Recovery
import BoundedLoop.Proofs.Scanning
import BoundedLoop.Proofs.SourceOrder.Blocks

/-!
# The order of diagnostics

The diagnostics of a text come in the order of the text, however its statements are nested and
wherever compiling goes on behind a failure (`diagnostics_in_source_order`). Each is at one of the
tokens. That the input ends too early is said once at most, and behind all else.
-/

namespace BoundedLoop

open Token (Ascending)

namespace Draft

theorem inOrder_ofTokens {ts : List Token} {finish : Token} (hts : ∀ t ∈ ts, t.kind ≠ .eof)
    (hfinish : finish.kind = .eof) : (ofTokens (ts ++ [finish])).InOrder (ts ++ [finish]) := by
  have hahead := ofTokens_ahead hts hfinish
  have hend := ofTokens_finish hts hfinish
  have hnone : ∀ e, e ∉ (ofTokens (ts ++ [finish])).diagnostics := Array.not_mem_empty
  refine ⟨⟨?_, ?_⟩, ?_, ?_, List.Pairwise.nil, ?_, ?_, nofun⟩
  · rw [hend, hfinish]
  · rw [hahead]
    exact hts
  · unfold upcoming
    rw [hahead, hend]
  all_goals
    intro e he
    exact absurd he (hnone e)

theorem InOrder.finish_eq {ts : List Token} {finish : Token} {d : Draft}
    (h : d.InOrder (ts ++ [finish])) :
    d.finish = finish := by
  obtain ⟨before, hbefore⟩ := h.upcoming
  rw [Draft.upcoming, ← List.append_assoc] at hbefore
  exact List.singleton_injective (List.append_inj' hbefore rfl).2

theorem InOrder.compiled {all : List Token} {d : Draft} (hall : Ascending all) (hd : d.InOrder all)
    (hdepth : d.depth = 0) : d.compiled.InOrder all := by
  have h := CompileM.ends_program_inOrder hall (d.ahead.length + 1) hd hdepth (Nat.lt_succ_self _)
  unfold CompileM.Ends at h
  unfold Draft.compiled EStateM.run
  cases hrun : CompileM.program (d.ahead.length + 1) d with
  | ok a d' =>
    rw [hrun] at h
    exact h
  | error e d' =>
    rw [hrun] at h
    exact h.elim

end Draft

/-- What is said nowhere but in the last diagnostic is said once at most. -/
theorem countP_le_one {p : Diagnostic → Prop} [DecidablePred p] {found : List Diagnostic}
    (h : ∀ e ∈ found.dropLast, ¬p e) :
    found.countP (p ·) ≤ 1 ∧ ∀ e ∈ found, p e → found.getLast? = some e := by
  rcases found.eq_nil_or_concat' with rfl | ⟨front, last, rfl⟩
  · exact ⟨Nat.zero_le 1, nofun⟩
  · rw [List.dropLast_concat] at h
    refine ⟨?_, ?_⟩
    · rw [List.countP_append, List.countP_eq_zero.2 (by simpa using h), Nat.zero_add]
      exact List.countP_le_length
    · intro e he hp
      rcases List.mem_append.1 he with he | he
      · exact absurd hp (h e he)
      · rw [List.mem_singleton.1 he, List.getLast?_concat]

variable {source : String} {tokens : List Token} {found : List Diagnostic}

/-- The diagnostics of a text are at its tokens and in its order. Only that a block is too large is
said of an earlier keyword. That the input ends too early is said of its end, at most once and last.
-/
theorem diagnostics_in_source_order (hscan : Token.scan source = .ok tokens)
    (hfound : compileTokens tokens = .error found) :
    (∀ e ∈ found, ∃ t ∈ tokens, e.toSite = t.toSite) ∧
    (found.filter (·.code ≠ .blockIsTooLarge)).Pairwise (fun e e' => e.span.start ≤ e'.span.start) ∧
    found.countP (·.code = .unexpectedEnd) ≤ 1 ∧
    ∀ e ∈ found, e.code = .unexpectedEnd →
      found.getLast? = some e ∧ ∃ t ∈ tokens, t.kind = .eof ∧ e.toSite = t.toSite := by
  obtain ⟨finish, hfinish, ts, rfl, hts⟩ := Token.endBy_of_scan hscan
  have hall : Ascending (ts ++ [finish]) := Token.starts_of_scan hscan
  have horder := (Draft.inOrder_ofTokens hts hfinish).compiled hall rfl
  unfold compileTokens Draft.result at hfound
  split at hfound
  · cases hfound
  · cases hfound
    obtain ⟨hcount, hlast⟩ := countP_le_one horder.last
    refine ⟨?_, horder.sorted, hcount, ?_⟩
    · intro e he
      exact horder.sites e (Array.mem_toList_iff.1 he)
    · intro e he hcode
      refine ⟨hlast e he hcode, finish, List.mem_append_right _ List.mem_cons_self, hfinish, ?_⟩
      rw [(horder.ended e (Array.mem_toList_iff.1 he) hcode).2, horder.finish_eq]

/-- A loop with a wrong operand and an `IF` with an unknown variable in it, neither of them closed. -/
def unclosedText : String := "LOOP 2 TIMES X <- YES + 1 ABORT LOOP IF YES THEN Y <- Z"

/-- The classes of the diagnostics. -/
def codesOf : Except (List Diagnostic) Chunk → Option (List Code)
  | .ok _ => none
  | .error found => some (found.map (·.code))

theorem diagnostics_in_source_order_unclosedText : ∃ tokens found,
    Token.scan unclosedText = .ok tokens ∧ compileTokens tokens = .error found ∧
    found.map (·.code) = [.invalidType, .undefinedVariable, .unexpectedEnd] ∧
    found.countP (·.code = .unexpectedEnd) ≤ 1 ∧ ∀ e ∈ found, ∃ t ∈ tokens, e.toSite = t.toSite := by
  have hcodes : (Token.scan unclosedText).toOption.bind (fun tokens => codesOf (compileTokens tokens)) =
      some [.invalidType, .undefinedVariable, .unexpectedEnd] := by decide +kernel
  cases hscan : Token.scan unclosedText with
  | error e =>
    rw [hscan] at hcodes
    cases hcodes
  | ok tokens =>
    rw [hscan] at hcodes
    have hcodes : codesOf (compileTokens tokens) = _ := hcodes
    cases hfound : compileTokens tokens with
    | ok chunk =>
      rw [hfound] at hcodes
      cases hcodes
    | error found =>
      rw [hfound] at hcodes
      obtain ⟨hsites, -, hcount, -⟩ := diagnostics_in_source_order hscan hfound
      exact ⟨tokens, found, rfl, hfound, Option.some.inj hcodes, hcount, hsites⟩

end BoundedLoop
