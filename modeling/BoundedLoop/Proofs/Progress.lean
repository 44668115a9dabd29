import BoundedLoop.Proofs.Codegen.Program
import BoundedLoop.Proofs.Progress.Bounds

/-!
# Compilations get on

Whatever tokens a compilation is given, in whatever order, it comes to their end, and finds no more
problems than there are tokens (`compilation_gets_on`). Every round of a program or of a block gets on,
so that no bound on the recursion is ever reached.
-/

namespace BoundedLoop

open CompileM

variable {d : Draft} {n : Nat}

theorem exists_round (hd : d.finish.kind = .eof) (hnext : d.next.kind ≠ .eof)
    (hclose : d.next.kind.closesBlock = true → d.depth = 0) (n : Nat) :
    ∃ d', attempt (statement (block n) n) d = .ok () d' ∧ d.GetsOn d' := by
  have hround : Ends (attempt (statement (block n) n)) d (fun _ d' => d.GetsOn d') fun _ _ => False :=
    ends_round (balanced_block n) hd hnext hclose
  unfold Ends at hround
  cases hrun : attempt (statement (block n) n) d with
  | ok a d' =>
    rw [hrun] at hround
    exact ⟨d', rfl, hround⟩
  | error e d' =>
    rw [hrun] at hround
    exact hround.elim

theorem Draft.depth_ofTokens (tokens : List Token) : (ofTokens tokens).depth = 0 := rfl

/-- With any bound that leaves room for all tokens, the program is compiled up to the last of them. -/
theorem exists_program (tokens : List Token) (hn : (Draft.ofTokens tokens).ahead.length < n) :
    program n (Draft.ofTokens tokens) = .ok () (Draft.ofTokens tokens).compiled ∧
      (Draft.ofTokens tokens).Moves (Draft.ofTokens tokens).compiled ∧
      (Draft.ofTokens tokens).compiled.ahead = [] := by
  have hfinish := (Draft.stands_ofTokens tokens).finish
  have hdepth := Draft.depth_ofTokens tokens
  have hends := ends_rounds _ hfinish hdepth (Nat.lt_succ_self _)
  obtain ⟨d, hrun⟩ := program_eq_ok ((Draft.ofTokens tokens).ahead.length + 1)
    (Draft.ofTokens tokens)
  have hcompiled : (Draft.ofTokens tokens).compiled = d := by
    simp only [Draft.compiled, EStateM.run, hrun]
  unfold Ends at hends
  rw [hrun] at hends
  obtain ⟨hmoves, hnext⟩ := hends
  rw [hcompiled]
  refine ⟨?_, hmoves, ?_⟩
  · rw [program_eq_of_lt hfinish hdepth hn (Nat.lt_succ_self _), hrun]
  · cases hahead : d.ahead with
    | nil => rfl
    | cons t ts =>
      -- no end of the input is among the tokens in front of the first one
      have hmem : t ∈ (Draft.ofTokens tokens).ahead :=
        hmoves.ahead.subset (by rw [hahead]; exact List.mem_cons_self)
      have hkind : t.kind ≠ .eof := by
        simpa using List.mem_takeWhile_imp hmem
      rw [Draft.next_eq hahead] at hnext
      exact absurd hnext hkind

/-- Compiling any tokens comes to an end. Each round outside of blocks, and each round of a block, moves
the cursor on unless the input ends there or the block does. So every bound that leaves room for the
tokens ahead is as good as any other: blocks end where they are closed or where the input ends, and the
program at the end of its tokens. There are at most as many problems as tokens in front of the first end
of the input. -/
theorem compilation_gets_on (tokens : List Token) :
    (∀ (d : Draft) (n : Nat), d.finish.kind = .eof → d.depth = 0 → d.next.kind ≠ .eof →
      ∃ d', attempt (statement (block n) n) d = .ok () d' ∧ d.GetsOn d') ∧
    (∀ (d : Draft) (n : Nat), d.finish.kind = .eof → d.next.kind.closesBlock = false →
      d.next.kind ≠ .eof → ∃ d', attempt (statement (block n) n) d = .ok () d' ∧ d.GetsOn d') ∧
    (∀ (d : Draft) (n : Nat), d.finish.kind = .eof → d.ahead.length < n →
      block n d = block (d.ahead.length + 1) d ∧
      (∀ level, climb n level d = climb (d.ahead.length + 1) level d) ∧
      Ends (block n) d (fun _ d' => d'.next.kind.closesBlock = true)
        fun e d' => e.problem = .blockNeverClosed ∧ d'.next.kind = .eof) ∧
    (∀ n, (Draft.ofTokens tokens).ahead.length < n →
      program n (Draft.ofTokens tokens) = .ok () (Draft.ofTokens tokens).compiled ∧
      (Draft.ofTokens tokens).compiled.ahead = []) ∧
    ∀ found, compileTokens tokens = .error found →
      found.length ≤ (tokens.takeWhile (·.kind ≠ .eof)).length := by
  refine ⟨?_, ?_, ?_, ?_, ?_⟩
  · intro d n hd hdepth hnext
    exact exists_round hd hnext (fun _ => hdepth) n
  · intro d n hd hclose hnext
    exact exists_round hd hnext (by rw [hclose]; nofun) n
  · intro d n hd hn
    refine ⟨?_, fun level => ?_, ends_block n hd hn⟩
    · exact sameBelow_block hn (Nat.le_refl _) d hd (Nat.lt_succ_self _)
    · exact sameBelow_climb hn (Nat.le_refl _) level d hd (Nat.lt_succ_self _)
  · intro n hn
    obtain ⟨hrun, -, hend⟩ := exists_program tokens hn
    exact ⟨hrun, hend⟩
  · intro found hfound
    obtain ⟨-, hmoves, hend⟩ := exists_program tokens (Nat.lt_succ_self _)
    have hcount := hmoves.found
    rw [hend] at hcount
    unfold compileTokens Draft.result at hfound
    split at hfound
    · cases hfound
    · cases hfound
      rw [Array.length_toList]
      simpa [Draft.ofTokens] using hcount

/-- A word where no statement begins, at the given offset. -/
def strayWord (offset : Nat) (word : Keyword) : Token where
  span := ⟨offset, offset + 1⟩
  line := 1
  column := offset + 1
  kind := .keyword word
  lexeme := "?"

/-- Closers that close nothing, then an end of the input and one more closer. -/
def strayWords : List Token :=
  [strayWord 0 .endIf, strayWord 1 .endProcedure, strayWord 2 .elseWord,
    { strayWord 3 .output with kind := .eof }, strayWord 4 .endLoop]

/-- Every token in front of the end is a problem of its own. -/
theorem compilation_gets_on_strayWords : ∃ found, compileTokens strayWords = .error found ∧
    found.map (·.code) = [.unexpectedToken, .unexpectedToken, .unexpectedToken] ∧
    found.length ≤ (strayWords.takeWhile (·.kind ≠ .eof)).length ∧
    ∃ d', attempt (statement (block 5) 5) (Draft.ofTokens strayWords) = .ok () d' ∧
      (Draft.ofTokens strayWords).GetsOn d' := by
  obtain ⟨hround, -, -, -, hcount⟩ := compilation_gets_on strayWords
  have hcodes : (match compileTokens strayWords with
      | .ok _ => []
      | .error found => found.map (·.code)) =
      [.unexpectedToken, .unexpectedToken, .unexpectedToken] := by
    decide +kernel
  cases hfound : compileTokens strayWords with
  | ok chunk =>
    rw [hfound] at hcodes
    cases hcodes
  | error found =>
    rw [hfound] at hcodes
    exact ⟨found, rfl, hcodes, hcount found hfound, hround _ 5 rfl rfl (by decide)⟩

end BoundedLoop
