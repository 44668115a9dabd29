import BoundedLoop.Proofs.Acceptance
import BoundedLoop.Proofs.Semantics.Budget
import BoundedLoop.Proofs.Simulation.Statement

/-!
# Compiled programs do what they mean

A program that was compiled is run by a machine from the start of its code. The machine always comes
to a stop (`compiled_halts`), and stops as the evaluation of the program says (`run_shows_eval`). On
the way it can only fault for one of the reasons for which an evaluation fails
(`fault_of_reached`).
-/

namespace BoundedLoop

open Machine

/-- A machine that has stopped shows the result of an evaluation. -/
def Stop.Shows (l : Layout) : Except Failure Value → Stop → Prop
  | .ok v, .output v' => v' = v
  | .error why, .fault f => why.Causes l f.cause
  | _, _ => False

namespace Program

variable {p : Program} {types : Types}

theorem size_chunk (p : Program) : p.chunk.size = Block.size p := by
  have hsize : p.code.size = Block.size p := Block.size_code p .initial hole 0
  rw [← hsize]
  simp [chunk, Chunk.size, Fragment.size]

theorem holds_code (hfits : p.code.Fits) : p.chunk.Holds 0 p.code :=
  ⟨hfits, [], [], by simp [chunk], rfl⟩

theorem laid_ofChunk (p : Program) :
    p.layout.Laid (fun _ => none) (Machine.ofChunk p.chunk).slots := by
  refine ⟨by simp [Machine.ofChunk, chunk], fun name hname => ?_⟩
  have hlt := Layout.index_lt hname
  simp [Machine.ofChunk, chunk, hlt]

theorem mem_layout_output (p : Program) : some Token.outputName ∈ p.layout :=
  (Block.prefix_layout p .initial).subset (by simp [Layout.initial])

theorem index_output (p : Program) : p.layout.index Token.outputName = 0 :=
  Layout.index_mono (Block.prefix_layout p .initial) (by simp [Layout.initial])

theorem slot_output (p : Program) : p.layout.slot Token.outputName = Chunk.outputSlot := by
  rw [Layout.slot, p.index_output]
  rfl

/-- From the start of its code the machine simulates the whole program. -/
theorem Accepted.simulates (h : p.Accepted types) :
    Simulates p.chunk p.layout (· ∉ Block.increments 0 p)
      (fun r m => r.1 = .next ∧ m.ip = p.chunk.size ∧ p.layout.Laid r.2 m.slots)
      (.ofChunk p.chunk) (Block.eval (fun _ => none) p) := by
  have hplace : Place p.chunk p.layout .initial (fun _ => none) hole none :=
    ⟨h.room, nofun, nofun⟩
  have hrun := Block.simulates p hplace h.grammatical h.check List.prefix_rfl (holds_code h.fits)
    (fun o _ _ ho => ho) [] _ _ p.laid_ofChunk
  refine Simulates.mono hrun ?_
  rintro ⟨flow, σ⟩ m ⟨hip, -, hlaid, -⟩
  cases flow with
  | abort => cases hip
  | next => exact ⟨rfl, by rw [p.size_chunk, hip, Nat.zero_add], hlaid⟩

theorem Accepted.safe (h : p.Accepted types) : Safe (fun _ => True) (Block.eval (fun _ => none) p) := by
  obtain ⟨-, Γ, hwell⟩ := p.check_iff.1 ⟨types, h.check⟩
  have htyped : Store.Typed Γ fun _ => none := fun name v hv => by cases hv
  have hsafe := Block.safe_eval p htyped hwell
  cases heval : Block.eval (fun _ => none) p with
  | ok r => trivial
  | error f =>
    rw [heval] at hsafe
    exact hsafe

/-- A machine at the end of the code shows what `OUTPUT` holds. -/
theorem shows_result {σ : Store} {m : Machine} (hlaid : p.layout.Laid σ m.slots) :
    (m.result p.chunk).Shows p.layout
      (match σ Token.outputName with
      | some v => .ok v
      | none => .error (.unset Token.outputName)) := by
  have hslot : m.slots[Chunk.outputSlot.toNat]? = some (σ Token.outputName) := by
    have hnamed := hlaid.named _ p.mem_layout_output
    rwa [p.index_output] at hnamed
  unfold result
  rw [hslot]
  cases σ Token.outputName with
  | some v => rfl
  | none => exact ⟨p.mem_layout_output, by rw [p.slot_output]; rfl⟩

/-- With enough budget the machine stops as the evaluation says, and never at the increment of a
counter. -/
theorem Accepted.exists_advance (h : p.Accepted types) :
    ∃ n stop left m, advance p.chunk n (.ofChunk p.chunk) = (stop, left, m) ∧
      stop.Shows p.layout p.eval ∧ ∀ f, stop = .fault f → f.offset ∉ Block.increments 0 p := by
  have hsim := h.simulates
  have hsafe := h.safe
  have heq : p.eval = Block.eval (fun _ => none) p >>= fun r =>
      match r.2 Token.outputName with
      | some v => .ok v
      | none => .error (.unset Token.outputName) := rfl
  rw [heq]
  cases heval : Block.eval (fun _ => none) p with
  | ok r =>
    rw [heval] at hsim
    obtain ⟨m, hsteps, -, hip, hlaid⟩ := hsim
    have hfin : m.isFinished p.chunk = true := by simp [isFinished, hip]
    obtain ⟨n, hn⟩ := hsteps.advance_result hfin
    refine ⟨n, _, _, m, hn, shows_result hlaid, fun f hf hmem => ?_⟩
    -- the only fault here is one at the end of the code
    have hoffset : f.offset = p.chunk.size := by
      unfold result at hf
      split at hf <;> cases hf
      rfl
    have hlt := (Block.increments_bounds p 0 _ hmem).2
    rw [hoffset, p.size_chunk] at hlt
    omega
  | error f =>
    rw [heval] at hsim hsafe
    obtain ⟨fault, hcrash, hcause, hoffset⟩ := hsim hsafe
    have hdecode : ∀ e, fault.cause ≠ .decode e := by
      intro e he
      cases f with
      | overflow op => cases hcause.symm.trans he
      | unset name => cases hcause.2.symm.trans he
      | stuck => exact hcause
    obtain ⟨n, m, hn⟩ := hcrash.advance hdecode
    refine ⟨n, _, _, m, hn, hcause, ?_⟩
    rintro f' ⟨⟩
    exact hoffset

end Program

theorem Stop.Shows.ne_outOfFuel {l : Layout} {r : Except Failure Value} {stop : Stop}
    (h : stop.Shows l r) : stop ≠ .outOfFuel := by
  rintro rfl
  cases r <;> exact h

/-! ### Runs of compiled programs -/

/-- A run without a limit has a result, the one that the evaluation says. -/
theorem Program.Accepted.exists_run {p : Program} {types : Types} (h : p.Accepted types) :
    ∃ stop m, run p.chunk (.ofChunk p.chunk) = some (stop, m) ∧ stop.Shows p.layout p.eval := by
  obtain ⟨n, stop, left, m, hrun, hshows, -⟩ := h.exists_advance
  exact ⟨stop, m, run_eq_of_advance hrun hshows.ne_outOfFuel, hshows⟩

theorem Program.Accepted.find?_scope {p : Program} {types : Types} {tokens : List Token}
    (hp : p.Accepted types) (htokens : Block.tokens p = tokens.takeWhile (·.kind ≠ .eof))
    (name : String) :
    (Draft.ofTokens tokens).compiled.scope.find? name =
      if some name ∈ p.layout then some ⟨types name, p.layout.slot name⟩ else none := by
  rw [hp.scope_compiled htokens, Scope.find?_of]

/-- The run of a compiled text stops as the evaluation of its tree says: with the same `OUTPUT`, or
with a fault for the same reason. The slots in the reasons are those that the compiler has given to
the variables, and that of `OUTPUT` is the first. -/
theorem run_shows_eval {source : String} {chunk : Chunk} (h : compile source = .ok chunk) :
    ∃ (tokens : List Token) (p : Program), Token.scan source = .ok tokens ∧
      (p.Parses tokens ∧ ∀ q : Program, q.Parses tokens → q = p) ∧
      (∀ name v, (Draft.ofTokens tokens).compiled.scope.find? name = some v →
        v.slot = p.layout.slot name) ∧
      p.layout.slot Token.outputName = 0 ∧
      ∃ stop m, run chunk (.ofChunk chunk) = some (stop, m) ∧ stop.Shows p.layout p.eval := by
  obtain ⟨tokens, hscan, htokens⟩ := compile_eq_ok_iff.1 h
  obtain ⟨p, types, hp, hparses, rfl⟩ := (compileTokens_eq_ok_iff_of_scan hscan).1 htokens
  obtain ⟨n, stop, left, m, hrun, hshows, -⟩ := hp.exists_advance
  refine ⟨tokens, p, hscan, ⟨hparses, fun q hq => hq.unique hparses⟩, fun name v hv => ?_,
    p.slot_output, stop, m, run_eq_of_advance hrun hshows.ne_outOfFuel, hshows⟩
  rw [hp.find?_scope ((Program.parses_iff_of_scan hscan).1 hparses).2,
    Option.ite_none_right_eq_some] at hv
  obtain ⟨-, ⟨⟩⟩ := hv
  rfl

theorem run_shows_eval_searchText : ∃ chunk, compile searchText = .ok chunk ∧
    ∃ (tokens : List Token) (p : Program), p.Parses tokens ∧
      ∃ stop m, run chunk (.ofChunk chunk) = some (stop, m) ∧ stop.Shows p.layout p.eval := by
  obtain ⟨chunk, hchunk⟩ := compile_searchText
  obtain ⟨tokens, p, -, hp, -, -, hrun⟩ := run_shows_eval hchunk
  exact ⟨chunk, hchunk, tokens, p, hp.1, hrun⟩

/-- However the fuel is given out, compiled code faults only if a sum or a product is too large, or if
a variable is read that holds nothing: one of those that the compiler has recorded, so no slot of a
loop. There is one addition for each loop that increments its counter, and it never faults. -/
theorem fault_of_reached {tokens : List Token} {chunk : Chunk}
    (h : compileTokens tokens = .ok chunk) :
    ∃ p : Program, (Block.Grammatical false p ∧
        Block.tokens p = tokens.takeWhile (·.kind ≠ .eof)) ∧
      ((Block.increments 0 p).Nodup ∧ (Block.increments 0 p).length = Block.loops p ∧
        ∀ k ∈ Block.increments 0 p, chunk.CountsAt p.layout k) ∧
      ∀ (m m' : Machine) (fuel fuel' : Fuel) (f : Fault), Reached chunk m →
        m.step chunk fuel = (.fault f, fuel', m') →
        f.offset ∉ Block.increments 0 p ∧
          ((∃ op, f.cause = .arithmeticOverflow op) ∨
            ∃ name v, (Draft.ofTokens tokens).compiled.scope.find? name = some v ∧
              f.cause = .uninitializedSlot v.slot ∧
              p.layout[v.slot.toNat]? = some (some name)) := by
  obtain ⟨p, types, hp, htokens, rfl⟩ := compileTokens_eq_ok_iff.1 h
  obtain ⟨n, stop, left, m₀, hrun, hshows, hoffset⟩ := hp.exists_advance
  have hcounts := Block.countsAt_increments hp.room p List.prefix_rfl (Program.holds_code hp.fits)
  refine ⟨p, ⟨hp.grammatical, htokens⟩,
    ⟨Block.nodup_increments p 0, Block.length_increments p 0, hcounts⟩, ?_⟩
  intro m m' fuel fuel' f hm hstep
  obtain rfl := hm.fault_eq hstep hrun hshows.ne_outOfFuel
  refine ⟨hoffset f rfl, ?_⟩
  cases heval : p.eval with
  | ok v =>
    rw [heval] at hshows
    exact hshows.elim
  | error why =>
    rw [heval] at hshows
    cases why with
    | overflow op => exact .inl ⟨op, hshows⟩
    | unset name =>
      obtain ⟨hname, hcause⟩ := hshows
      refine .inr ⟨name, ⟨types name, p.layout.slot name⟩, ?_, hcause, ?_⟩
      · rw [hp.find?_scope htokens, if_pos hname]
      · rw [Layout.toNat_slot hname hp.room]
        exact Layout.getElem?_index hname
    | stuck => exact hshows.elim

/-- A text whose run reads a variable that holds nothing. -/
def unsetText : String :=
  "LOOP 1 TIMES
    IF NO THEN n <- 1 END IF
    OUTPUT <- n + 1
  END LOOP"

theorem exists_fault_unsetText : ∃ chunk f, compile unsetText = .ok chunk ∧
    (step chunk ⟨100⟩ (.ofChunk chunk)).1 = .fault f := by
  have hfault : (match compile unsetText with
    | .ok chunk =>
      match (step chunk ⟨100⟩ (.ofChunk chunk)).1 with
      | .fault _ => true
      | _ => false
    | .error _ => false) = true := by decide +kernel
  split at hfault
  · rename_i chunk hchunk
    split at hfault
    · rename_i f hf
      exact ⟨chunk, f, hchunk, hf⟩
    · cases hfault
  · cases hfault

theorem fault_of_reached_unsetText : ∃ (tokens : List Token) (chunk : Chunk) (f : Fault),
    compileTokens tokens = .ok chunk ∧ (step chunk ⟨100⟩ (.ofChunk chunk)).1 = .fault f ∧
      ((∃ op, f.cause = .arithmeticOverflow op) ∨
        ∃ name v, (Draft.ofTokens tokens).compiled.scope.find? name = some v ∧
          f.cause = .uninitializedSlot v.slot) := by
  obtain ⟨chunk, f, hchunk, hf⟩ := exists_fault_unsetText
  obtain ⟨tokens, -, htokens⟩ := compile_eq_ok_iff.1 hchunk
  obtain ⟨p, -, -, hsafe⟩ := fault_of_reached htokens
  obtain ⟨-, hcause⟩ := hsafe (.ofChunk chunk) _ ⟨100⟩ _ f .start (Prod.ext hf rfl)
  refine ⟨tokens, chunk, f, htokens, hf, hcause.imp_right ?_⟩
  rintro ⟨name, v, hfind, hslot, -⟩
  exact ⟨name, v, hfind, hslot⟩

/-- Compiled code comes to its end or to a fault after a number of instructions, so a run without a
limit has a result. -/
theorem compiled_halts {tokens : List Token} {chunk : Chunk} (h : compileTokens tokens = .ok chunk) :
    ∃ n stop left m, advance chunk n (.ofChunk chunk) = (stop, left, m) ∧ stop ≠ .outOfFuel ∧
      run chunk (.ofChunk chunk) = some (stop, m) := by
  obtain ⟨p, types, hp, -, rfl⟩ := compileTokens_eq_ok_iff.1 h
  obtain ⟨n, stop, left, m, hrun, hshows, -⟩ := hp.exists_advance
  exact ⟨n, stop, left, m, hrun, hshows.ne_outOfFuel, run_eq_of_advance hrun hshows.ne_outOfFuel⟩

/-- Even a loop with the largest count comes to an end. -/
theorem compiled_halts_largest : ∃ (tokens : List Token) (chunk : Chunk),
    Token.scan "LOOP 9223372036854775807 TIMES OUTPUT <- YES END LOOP" = .ok tokens ∧
      compileTokens tokens = .ok chunk ∧
      ∃ n stop left m, advance chunk n (.ofChunk chunk) = (stop, left, m) ∧ stop ≠ .outOfFuel ∧
        run chunk (.ofChunk chunk) = some (stop, m) := by
  have hok : (compile "LOOP 9223372036854775807 TIMES OUTPUT <- YES END LOOP").isOk = true := by
    decide +kernel
  obtain ⟨chunk, hchunk⟩ := Except.isOk_iff.1 hok
  obtain ⟨tokens, hscan, htokens⟩ := compile_eq_ok_iff.1 hchunk
  exact ⟨tokens, chunk, hscan, htokens, compiled_halts htokens⟩

end BoundedLoop
