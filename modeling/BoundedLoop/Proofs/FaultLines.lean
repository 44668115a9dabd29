import BoundedLoop.Proofs.Simulation.Culprit
import BoundedLoop.Proofs.StackDiscipline
import BoundedLoop.Proofs.WellFormed

/-!
# The lines of faults

A run that faults blames the right line: that of the operator whose result is too large or of the
variable that holds nothing when it is read, in the order in which the program is evaluated. A fault at
the end of the code has no line (`fault_line`).
-/

namespace BoundedLoop

open Machine

/-! ### Tokens of texts -/

theorem Token.forall_of_map_cons {P : Token → Prop} {t : Token} {r : Except ScanError (List Token)}
    {tokens : List Token} (h : (t :: ·) <$> r = .ok tokens)
    (ih : ∀ {tokens}, r = .ok tokens → ∀ t ∈ tokens, P t) (ht : P t) : ∀ t ∈ tokens, P t := by
  obtain ⟨tokens', htokens, rfl⟩ := Except.map_eq_ok_iff.1 h
  exact List.forall_mem_cons.2 ⟨ht, ih htokens⟩

theorem Token.name?_of_ofLexemes {last : Token} (hlast : last.kind ≠ .label) {ls : List Lexeme}
    {tokens : List Token} (h : ofLexemes last ls = .ok tokens) :
    ∀ t ∈ tokens, t.kind = .label → t.name? = none := by
  fun_induction ofLexemes last ls generalizing tokens with
  | case1 =>
    cases h
    exact List.forall_mem_singleton.2 fun hkind => absurd hkind hlast
  | case3 l rest s _ ih => exact forall_of_map_cons h ih fun hkind => by cases hkind
  | case4 l rest n _ ih => exact forall_of_map_cons h ih fun hkind => by cases hkind
  | case5 l rest content _ ih => exact forall_of_map_cons h ih fun _ => rfl
  | case6 l rest _ _ ih => exact forall_of_map_cons h ih fun hkind => by cases hkind
  | case7 l rest _ k _ ih => exact forall_of_map_cons h ih fun hkind => by cases hkind
  | case8 l rest _ b _ ih => exact forall_of_map_cons h ih fun hkind => by cases hkind
  | case11 l _ stem _ next rest k _ ih => exact forall_of_map_cons h ih fun hkind => by cases hkind
  | _ => cases h

/-- In a text only identifiers and `OUTPUT` are read as variables. -/
theorem Token.Reads.kind_of_scan {source : String} {tokens : List Token} {t : Token} {name : String}
    (hread : t.Reads name) (h : scan source = .ok tokens) (ht : t ∈ tokens) :
    t.kind = .identifier ∨ t.kind = .keyword .output := by
  obtain ⟨hform, hname⟩ := hread
  unfold Kind.operandForm? at hform
  split at hform
  · cases hform
  · rename_i hkind
    exact .inl hkind
  · rename_i hkind
    exact .inr hkind
  · rename_i hkind
    have hnone : t.name? = none :=
      name?_of_ofLexemes (by simp [endOf]) h t ht hkind
    rw [variableName?, hkind, if_neg (by simp), hnone] at hname
    cases hname
  all_goals cases hform

/-! ### Crashes -/

/-- A crash is blamed on an instruction of the program, and on the line of its bytes. -/
theorem Program.Accepted.mem_of_crashes {p : Program} {types : Types} {f : Fault} (h : p.Accepted types)
    (hcrash : Crashes p.chunk (.ofChunk p.chunk) f) (hcause : ∀ e, f.cause ≠ .decode e) :
    f.line = p.chunk.lineAt? f.offset ∧ ∃ i, (f.offset, .ok i) ∈ p.chunk.instructions := by
  obtain ⟨m, m', hsteps, hfault⟩ := hcrash
  have hof : ∃ cause, f = .of p.chunk m.ip cause := by
    unfold execute at hfault
    split at hfault
    · cases hfault
      exact ⟨_, rfl⟩
    · simp only at hfault
      split at hfault
      · cases hfault
      · cases hfault
        exact ⟨_, rfl⟩
  obtain ⟨cause, rfl⟩ := hof
  refine ⟨rfl, ?_⟩
  obtain ⟨Γ, htyped⟩ := h.exists_typed
  rcases Fragment.boundary_iff.1 (typed_of_steps h htyped hsteps).target with hend | ⟨i, hi⟩
  · -- at the end of the code nothing can be decoded
    have hfin : m.isFinished p.chunk = true := by
      have hsize : p.code.size = Block.size p := Block.size_code p .initial hole 0
      simp [isFinished, hend, p.size_chunk, hsize]
    rw [execute_of_isFinished hfin] at hfault
    cases hfault
    exact absurd rfl (hcause _)
  · exact ⟨i.instruction, (mem_instructions_iff h.fits).2 ⟨i, hi, rfl⟩⟩

/-- The first fault of a program whose evaluation fails. -/
theorem Program.Accepted.exists_fault {p : Program} {types : Types} {why : Failure}
    (h : p.Accepted types) (heval : Block.eval (fun _ => none) p = .error why) :
    ∃ n left m f t, advance p.chunk n (.ofChunk p.chunk) = (.fault f, left, m) ∧
      why.Causes p.layout f.cause ∧ (∃ i, (f.offset, .ok i) ∈ p.chunk.instructions) ∧
      why ≠ .stuck ∧ Block.culprit (fun _ => none) p = some t ∧ f.line = some t.line := by
  have hwhy : why ≠ .stuck := by
    have hsafe := h.safe
    rw [heval] at hsafe
    exact hsafe
  have hplace : Place p.chunk p.layout .initial (fun _ => none) hole none :=
    ⟨h.room, fun name ty hty => (by cases hty), fun stop hstop => (by cases hstop)⟩
  have hfails := Block.fails_culprit p hplace h.grammatical h.check List.prefix_rfl (holds_code h.fits)
    [] _ _ p.laid_ofChunk
  beta_reduce at hfails
  rw [heval] at hfails
  obtain ⟨f, hcrash, hcause, t, ht, hline⟩ := hfails hwhy
  have hdecode : ∀ e, f.cause ≠ .decode e := by
    intro e he
    cases why with
    | overflow op => cases hcause.symm.trans he
    | unset name => cases hcause.2.symm.trans he
    | stuck => exact hcause
  obtain ⟨hlineAt, hinstruction⟩ := h.mem_of_crashes hcrash hdecode
  obtain ⟨n, m, hrun⟩ := hcrash.advance hdecode
  exact ⟨n, _, m, f, t, hrun, hcause, hinstruction, hwhy, ht, hlineAt.trans hline⟩

/-- A fault of a program whose evaluation comes to its end. -/
theorem Program.Accepted.exists_result {p : Program} {types : Types} {r : Flow × Store}
    (h : p.Accepted types) (heval : Block.eval (fun _ => none) p = .ok r) :
    r.1 = .next ∧ ∃ n stop left m, advance p.chunk n (.ofChunk p.chunk) = (stop, left, m) ∧
      stop ≠ .outOfFuel ∧ ∀ f, stop = .fault f →
        r.2 Token.outputName = none ∧ f.cause = .uninitializedSlot Chunk.outputSlot ∧
          f.offset = p.chunk.size ∧ f.line = none := by
  have hsim := h.simulates
  rw [heval] at hsim
  obtain ⟨m, hsteps, hflow, hip, hlaid⟩ := hsim
  have hfin : m.isFinished p.chunk = true := by simp [isFinished, hip]
  obtain ⟨n, hn⟩ := hsteps.advance_result hfin
  have hshows := shows_result hlaid
  refine ⟨hflow, n, _, _, m, hn, hshows.ne_outOfFuel, fun f hf => ?_⟩
  rw [hf] at hshows
  refine ⟨?_, ?_⟩
  · cases hout : r.2 Token.outputName with
    | none => rfl
    | some v =>
      rw [hout] at hshows
      exact hshows.elim
  · unfold result at hf
    split at hf
    · cases hf
    · cases hf
      refine ⟨rfl, rfl, ?_⟩
      simp [Fault.of, Chunk.lineAt?, Chunk.size]

/-- Whenever the run of a text faults, be it in one go or on fuel that is given out in any portions, the
fault is blamed on the right place. Either the evaluation of the program has come to its end and `OUTPUT`
holds nothing; then the fault is at the end of the code and has no line. Or the evaluation fails at a
token of the text; then the fault is at an instruction of the code, its line is that of the token, and
the token is the `+` or `*` whose result is too large, or the variable that holds nothing. -/
theorem fault_line {source : String} {chunk : Chunk} (h : compile source = .ok chunk) :
    ∃ (tokens : List Token) (p : Program), Token.scan source = .ok tokens ∧ p.Parses tokens ∧
      ∀ f : Fault,
        ((∃ m, run chunk (.ofChunk chunk) = some (.fault f, m)) ∨
          ∃ m fuel fuel' m', Reached chunk m ∧ m.step chunk fuel = (.fault f, fuel', m')) →
        (∃ σ, Block.eval (fun _ => none) p = .ok (.next, σ) ∧ σ Token.outputName = none ∧
          f.cause = .uninitializedSlot Chunk.outputSlot ∧ f.offset = chunk.size ∧ f.line = none) ∨
        ∃ why, ∃ t ∈ tokens, Block.eval (fun _ => none) p = .error why ∧
          Block.culprit (fun _ => none) p = some t ∧
          (∃ i, (f.offset, .ok i) ∈ chunk.instructions) ∧ f.line = some t.line ∧
          ((∃ op, why = .overflow op ∧ f.cause = .arithmeticOverflow op ∧
              ((op = .add ∧ t.kind = .symbol .plus) ∨ (op = .multiply ∧ t.kind = .symbol .star))) ∨
            ∃ name, why = .unset name ∧ f.cause = .uninitializedSlot (p.layout.slot name) ∧
              (t.kind = .identifier ∨ t.kind = .keyword .output) ∧ t.variableName? = some name) := by
  obtain ⟨tokens, hscan, htokens⟩ := compile_eq_ok_iff.1 h
  obtain ⟨p, types, hp, hparses, rfl⟩ := (compileTokens_eq_ok_iff_of_scan hscan).1 htokens
  refine ⟨tokens, p, hscan, hparses, fun f hf => ?_⟩
  -- all ways to run come to the same fault
  have hsame : ∀ {n left m stop}, advance p.chunk n (.ofChunk p.chunk) = (stop, left, m) →
      stop ≠ .outOfFuel → stop = .fault f := by
    intro n left m stop hrun hstop
    rcases hf with ⟨m', hf⟩ | ⟨m', fuel, fuel', m'', hm', hf⟩
    · rw [run_eq_of_advance hrun hstop] at hf
      cases hf
      rfl
    · exact hm'.fault_eq hf hrun hstop
  cases heval : Block.eval (fun _ => none) p with
  | ok r =>
    obtain ⟨hflow, n, stop, left, m, hrun, hstop, hfault⟩ := hp.exists_result heval
    obtain ⟨flow, σ⟩ := r
    simp only at hflow
    subst hflow
    exact .inl ⟨σ, rfl, hfault f (hsame hrun hstop)⟩
  | error why =>
    obtain ⟨n, left, m, f', t, hrun, hcause, hinstruction, hwhy, ht, hline⟩ := hp.exists_fault heval
    cases hsame hrun (by simp)
    obtain ⟨t', hmem, ht', hat⟩ := Block.culprit_of_eval p hp.grammatical heval hwhy
    cases ht.symm.trans ht'
    obtain ⟨-, finish, -, rfl⟩ := hparses
    have hmem := List.mem_append_left [finish] hmem
    refine .inr ⟨why, t, hmem, rfl, ht, hinstruction, hline, ?_⟩
    cases why with
    | overflow op => exact .inl ⟨op, rfl, hcause, hat⟩
    | unset name => exact .inr ⟨name, rfl, hcause.2, hat.kind_of_scan hscan hmem, hat.2⟩
    | stuck => exact absurd rfl hwhy

/-- A text whose sum becomes too large when the loop is run for the second time. -/
def spreadText : String :=
  "n <- 2305843009213693952
  LOOP 3
  TIMES
    IF n = n
    THEN
      n <- (n
        +
        n) * 1
    END IF
  END LOOP
  OUTPUT <- n"

/-- The line that the fault of a text is blamed on, if the text overflows within a thousand
instructions. -/
def overflowLine? (source : String) : Option Nat :=
  match compile source with
  | .error _ => none
  | .ok chunk =>
    match (step chunk ⟨1000⟩ (.ofChunk chunk)).1 with
    | .fault ⟨.arithmeticOverflow .add, _, line⟩ => line
    | _ => none

theorem fault_line_spreadText : ∃ (chunk : Chunk) (tokens : List Token) (f : Fault) (t : Token),
    compile spreadText = .ok chunk ∧ Token.scan spreadText = .ok tokens ∧
      (step chunk ⟨1000⟩ (.ofChunk chunk)).1 = .fault f ∧ f.line = some 7 ∧
      t ∈ tokens ∧ t.kind = .symbol .plus ∧ t.line = 7 := by
  have hline : overflowLine? spreadText = some 7 := by decide +kernel
  unfold overflowLine? at hline
  split at hline
  · cases hline
  · rename_i chunk hchunk
    split at hline
    · rename_i offset line hfault
      subst hline
      obtain ⟨tokens, p, hscan, -, hblame⟩ := fault_line hchunk
      have hstep := hblame _ (.inr ⟨_, _, _, _, .start, Prod.ext hfault rfl⟩)
      rcases hstep with ⟨σ, -, -, -, -, hnone⟩ | ⟨why, t, ht, -, -, -, hline, hkind⟩
      · cases hnone
      · rcases hkind with ⟨op, -, hcause, ⟨-, hplus⟩ | ⟨rfl, -⟩⟩ | ⟨name, -, hcause, -⟩
        · exact ⟨chunk, tokens, _, t, hchunk, hscan, hfault, rfl, ht, hplus,
            (Option.some.inj hline).symm⟩
        · cases hcause
        · cases hcause
    · cases hline

end BoundedLoop
