import BoundedLoop.Proofs.Static.Starts

/-!
# The stack of a running program

What lies on the stack of a machine that runs compiled code depends only on where it is in the code
(`stack_of_reached`). Where a statement begins there is nothing on the stack, however deep the
statement is nested, and neither is there when the run gives its output.
-/

namespace BoundedLoop

open Machine

/-! ### Runs -/

namespace Machine

variable {chunk : Chunk} {m m' : Machine} {n left : Nat}

/-- Only a machine at the end of the code gives an output. -/
theorem isFinished_of_advance {v : Value} (h : advance chunk n m = (.output v, left, m')) :
    m'.isFinished chunk = true := by
  induction n generalizing m with
  | zero =>
    rw [advance] at h
    split at h
    · rename_i hfin
      simp only [Prod.mk.injEq] at h
      rw [← h.2.2]
      exact hfin
    · cases h
  | succ n ih =>
    rw [advance] at h
    split at h
    · rename_i hfin
      simp only [Prod.mk.injEq] at h
      rw [← h.2.2]
      exact hfin
    · split at h
      · exact ih h
      · cases h

/-- A machine that runs a program from its start agrees with the typing of the program. -/
theorem typed_of_steps {p : Program} {types : Types} {Γ : String → Ty} (h : p.Accepted types)
    (htyped : Fragment.Typed (p.typing Γ) 0 p.code) (hsteps : Steps p.chunk (.ofChunk p.chunk) m) :
    m.Typed (p.typing Γ) :=
  (typed_ofChunk (Program.fits_typing h htyped)).steps (Program.fits_typing h htyped) hsteps

/-- With its output a program leaves nothing on the stack. -/
theorem stack_of_output {p : Program} {Γ : String → Ty} {v : Value} (hm : m'.Typed (p.typing Γ))
    (h : advance p.chunk n m = (.output v, left, m')) : m'.stack = [] := by
  have hle : p.chunk.size ≤ m'.ip := by simpa [isFinished] using isFinished_of_advance h
  have hstack := hm.stack
  rw [p.size_chunk] at hle
  rw [Program.stack_of_size_le hle] at hstack
  exact List.map_eq_nil_iff.1 hstack

end Machine

/-- There is one list of types for each offset, such that whatever way a machine has come to an
offset before any fault, its stack holds values of these types there. The list is empty where the code
of a statement begins and at the end of the code, so every run that gives an output has an empty stack
then. -/
theorem stack_of_reached {tokens : List Token} {chunk : Chunk}
    (h : compileTokens tokens = .ok chunk) :
    ∃ (p : Program) (stackAt : Nat → List Ty),
      (Block.Grammatical false p ∧ Block.tokens p = tokens.takeWhile (·.kind ≠ .eof)) ∧
      (∀ m, Reached chunk m → m.stack.map Value.ty = stackAt m.ip) ∧
      (∀ q ∈ Block.starts 0 p, chunk.HasStatement p.layout q ∧ stackAt q.1 = []) ∧
      stackAt chunk.size = [] ∧
      (∀ (m m' : Machine) (fuel fuel' : Fuel) (v : Value), Reached chunk m →
        m.step chunk fuel = (.output v, fuel', m') → m'.stack = []) ∧
      ∀ (m : Machine) (v : Value), run chunk (.ofChunk chunk) = some (.output v, m) →
        m.stack = [] := by
  obtain ⟨p, types, hp, htokens, rfl⟩ := compileTokens_eq_ok_iff.1 h
  obtain ⟨Γ, htyped⟩ := hp.exists_typed
  have hstarts := Block.hasStatement_starts p List.prefix_rfl (Program.holds_code hp.fits)
  refine ⟨p, (p.typing Γ).stack, ⟨hp.grammatical, htokens⟩, ?_, ?_, ?_, ?_, ?_⟩
  · intro m hm
    exact (typed_of_steps hp htyped hm.steps).stack
  · intro q hq
    exact ⟨hstarts q hq, Block.stack_starts p (p.shows_profile Γ) q hq⟩
  · exact Program.stack_of_size_le p.size_chunk.ge
  · intro m m' fuel fuel' v hm hstep
    obtain ⟨left, hadvance⟩ := advance_of_step hstep
    have hsteps := hm.steps.trans (steps_of_advance hadvance nofun)
    exact stack_of_output (typed_of_steps hp htyped hsteps) hadvance
  · intro m v hrun
    obtain ⟨n, stop, left, m₀, hadvance, hshows, -⟩ := hp.exists_advance
    have heq := (run_eq_of_advance hadvance hshows.ne_outOfFuel).symm.trans hrun
    cases heq
    exact stack_of_output (typed_of_steps hp htyped (steps_of_advance hadvance nofun)) hadvance

/-- Whether a text compiles and gives an output within a thousand instructions. -/
def givesOutput (source : String) : Bool :=
  match compile source with
  | .ok chunk =>
    match (step chunk ⟨1000⟩ (.ofChunk chunk)).1 with
    | .output _ => true
    | _ => false
  | .error _ => false

/-- A text whose run leaves a loop by an `ABORT LOOP` and gives an output. -/
theorem stack_of_reached_searchText : ∃ (tokens : List Token) (chunk : Chunk) (v : Value)
    (fuel : Fuel) (m : Machine), compileTokens tokens = .ok chunk ∧
      (Machine.ofChunk chunk).step chunk ⟨1000⟩ = (.output v, fuel, m) ∧ m.stack = [] ∧
      ∃ stackAt : Nat → List Ty, stackAt chunk.size = [] ∧
        ∀ m, Reached chunk m → m.stack.map Value.ty = stackAt m.ip := by
  have hout : givesOutput searchText = true := by decide +kernel
  unfold givesOutput at hout
  split at hout
  · rename_i chunk hchunk
    split at hout
    · rename_i v hv
      obtain ⟨tokens, -, htokens⟩ := compile_eq_ok_iff.1 hchunk
      obtain ⟨p, stackAt, -, hreached, -, hend, houtput, -⟩ := stack_of_reached htokens
      have hstep : step chunk ⟨1000⟩ (.ofChunk chunk) =
          (.output v, (step chunk ⟨1000⟩ (.ofChunk chunk)).2) := Prod.ext hv rfl
      exact ⟨tokens, chunk, v, _, _, htokens, hstep, houtput _ _ _ _ v .start hstep, stackAt, hend,
        hreached⟩
    · cases hout
  · cases hout

end BoundedLoop
