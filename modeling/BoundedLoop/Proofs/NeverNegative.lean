import BoundedLoop.Proofs.Lexing.Numbers
import BoundedLoop.Proofs.LoopCounters

/-!
# Programs from texts hold no negative number

There is no sign in the texts of programs, sums and products are exact, and a loop counts up from zero to
its bound. So a machine that runs the code of a text never holds a negative number, whatever way it has
come (`never_negative`), and what it shows of a number in the end can be read again.
-/

namespace BoundedLoop

open Machine

/-! ### The tests of loops -/

/-- A loop is tested at `test`: its counter and then its bound are loaded, out of two slots that have no
name in the layout `F`, and compared. -/
structure Chunk.TestsAt (c : Chunk) (F : Layout) (test : Nat) (counter bound : UInt8) : Prop where
  nameless : F[counter.toNat]? = some none ∧ F[bound.toNat]? = some none ∧ counter ≠ bound
  counter : c.decode test = .ok (.load counter)
  bound : c.decode (test + 2) = .ok (.load bound)
  less : c.decode (test + 4) = .ok .less

/-- Where the machine begins the test at `test` the counter is at most the bound, and so it is where the two
are compared. -/
structure Machine.TestsBelow (m : Machine) (test : Nat) (counter bound : UInt8) : Prop where
  begins : m.ip = test → ∃ n c : Int64, m.slots[counter.toNat]? = some (some (.number c)) ∧
    m.slots[bound.toNat]? = some (some (.number n)) ∧ c.toInt ≤ n.toInt
  compares : m.ip = test + 4 → ∃ (n c : Int64) (rest : List Value),
    m.stack = .number n :: .number c :: rest ∧ c.toInt ≤ n.toInt

theorem Chunk.LoopAt.testsAt {chunk : Chunk} {l F : Layout} {k size : Nat} (h : chunk.LoopAt l k size)
    (hl : l.addLoop <+: F) : chunk.TestsAt F (k + 16) l.counterSlot l.boundSlot := by
  obtain ⟨line, hhead⟩ := h.head
  have htest := hhead.left.right
  refine ⟨⟨?_, ?_, ?_⟩, htest.decode, htest.tail.decode, htest.tail.tail.decode⟩
  · rw [Layout.toNat_counterSlot h.room]
    exact Layout.getElem?_counter hl
  · rw [Layout.toNat_boundSlot h.room]
    exact Layout.getElem?_bound hl
  · intro heq
    have hcounter := Layout.toNat_counterSlot h.room
    rw [heq, Layout.toNat_boundSlot h.room] at hcounter
    omega

theorem InLoop.testsBelow {l : Layout} {k size : Nat} {m : Machine} (h : InLoop l k size m)
    (hroom : l.addLoop.length ≤ Chunk.maxSlots) : m.TestsBelow (k + 16) l.counterSlot l.boundSlot := by
  constructor
  · intro hip
    rw [Layout.toNat_counterSlot hroom, Layout.toNat_boundSlot hroom]
    cases h with
    | counted _ hcounts hle => exact ⟨_, _, hcounts.counter, hcounts.bound, hle⟩
    | inside hinside => exact absurd hinside.1 (by omega)
    | _ => omega
  · intro hip
    cases h with
    | loadedBoth _ _ hle hstack => exact ⟨_, _, _, hstack, hle⟩
    | inside hinside => exact absurd hinside.1 (by omega)
    | _ => omega

/-! ### Texts -/

/-- What is compiled from a text has a tree whose constants are not negative. -/
theorem exists_program_of_compile {source : String} {chunk : Chunk} (h : compile source = .ok chunk) :
    ∃ (tokens : List Token) (p : Program) (types : Types), Token.scan source = .ok tokens ∧
      p.Parses tokens ∧ p.Accepted types ∧ Token.Constants Value.NonNegative (Block.tokens p) ∧
      chunk = p.chunk := by
  obtain ⟨tokens, hscan, htokens⟩ := compile_eq_ok_iff.1 h
  obtain ⟨p, types, hp, hparses, rfl⟩ := (compileTokens_eq_ok_iff_of_scan hscan).1 htokens
  have hconstants := Token.constants_of_scan hscan
  obtain ⟨-, finish, -, rfl⟩ := id hparses
  exact ⟨_, p, types, hscan, hparses, hp, (Token.constants_append.1 hconstants).1, rfl⟩

/-- A machine that runs the code of a text never holds a negative number, on its stack or in any slot, also
when it has come to rest or has faulted. Wherever it is in a loop, the counter is at most the bound at each
test. So a number that it gives as its output is not negative, and is a constant of the same value if it is
scanned as it is shown. -/
theorem never_negative {source : String} {chunk : Chunk} (h : compile source = .ok chunk) :
    (∀ m, Reached chunk m → m.NonNegative) ∧
    (∀ (m m' : Machine) (fuel fuel' : Fuel) (stop : Stop), Reached chunk m →
      m.step chunk fuel = (stop, fuel', m') → m'.NonNegative) ∧
    (∃ (tokens : List Token) (p : Program), (Token.scan source = .ok tokens ∧ p.Parses tokens) ∧
      ∀ o keyword count times body closer,
        (o, Statement.loop keyword count times body closer) ∈ Block.starts 0 p →
        ∃ counter bound : UInt8, chunk.TestsAt p.layout (o + count.size + 16) counter bound ∧
          ∀ m, Reached chunk m → m.TestsBelow (o + count.size + 16) counter bound) ∧
    ∀ (n : Int64) (m' : Machine), (run chunk (.ofChunk chunk) = some (.output (.number n), m') ∨
        ∃ m fuel fuel', Reached chunk m ∧ m.step chunk fuel = (.output (.number n), fuel', m')) →
      0 ≤ n.toInt ∧ Token.ScansAs (Value.number n).text (.number n) := by
  obtain ⟨tokens, p, types, hscan, hparses, hp, hconstants, rfl⟩ := exists_program_of_compile h
  have hsteps : ∀ m, Steps p.chunk (.ofChunk p.chunk) m → m.NonNegative :=
    fun m hm => hp.nonNegative_of_steps hconstants hm
  refine ⟨fun m hm => hsteps m hm.steps, ?_, ⟨tokens, p, ⟨hscan, hparses⟩, ?_⟩, ?_⟩
  · intro m m' fuel fuel' stop hm hstep
    obtain ⟨left, hadvance⟩ := advance_of_step hstep
    by_cases hstop : stop = .outOfFuel
    · subst hstop
      exact hsteps m' (hm.steps.trans (steps_of_advance hadvance nofun))
    · obtain ⟨m₁, hsteps₁, hrests⟩ := exists_rests_of_advance hadvance hstop
      exact hrests.nonNegative (hsteps m₁ (hm.steps.trans hsteps₁))
  · intro o keyword count times body closer ho
    obtain ⟨l, hl, hloop, hspares⟩ := hp.exists_spares ho
    refine ⟨l.counterSlot, l.boundSlot, hloop.testsAt hl, fun m hm => ?_⟩
    exact (hp.inLoop_of_steps hconstants hl hloop hspares hm.steps).testsBelow hloop.room
  · rintro n m' houtput
    have hadvance : ∃ m k left, Steps p.chunk (.ofChunk p.chunk) m ∧
        advance p.chunk k m = (.output (.number n), left, m') := by
      rcases houtput with hrun | ⟨m, fuel, fuel', hm, hstep⟩
      · obtain ⟨k, left, hadvance, -⟩ := run_eq_some_iff.1 hrun
        exact ⟨_, k, left, Steps.refl _, hadvance⟩
      · obtain ⟨left, hadvance⟩ := advance_of_step hstep
        exact ⟨m, _, left, hm.steps, hadvance⟩
    obtain ⟨m, k, left, hm, hadvance⟩ := hadvance
    obtain ⟨m₁, hsteps₁, hrests⟩ := exists_rests_of_advance hadvance nofun
    have hn : (Value.number n).NonNegative := hrests.nonNegative_output (hsteps m₁ (hm.trans hsteps₁))
    exact ⟨hn, Token.scansAs_text hn⟩

/-- The number that a text outputs within a thousand instructions. -/
def outputNumber? (source : String) : Option Int64 :=
  match compile source with
  | .ok chunk =>
    match (step chunk ⟨1000⟩ (.ofChunk chunk)).1 with
    | .output v => v.number?
    | _ => none
  | .error _ => none

/-- A text that counts the rounds of its loop. -/
def countText : String := "n <- 0 LOOP 2 TIMES n <- n + 1 END LOOP OUTPUT <- n"

theorem never_negative_countText : ∃ (chunk : Chunk) (fuel : Fuel) (m : Machine),
    compile countText = .ok chunk ∧
      (Machine.ofChunk chunk).step chunk ⟨1000⟩ = (.output (.number 2), fuel, m) ∧ m.NonNegative ∧
      Token.ScansAs "2" (.number 2) := by
  have hout : outputNumber? countText = some 2 := by decide +kernel
  unfold outputNumber? at hout
  split at hout
  · rename_i chunk hchunk
    split at hout
    · rename_i v hv
      cases v with
      | number n =>
        cases hout
        obtain ⟨-, hstopped, -, houtput⟩ := never_negative hchunk
        have hstep : step chunk ⟨1000⟩ (.ofChunk chunk) =
            (.output (.number 2), (step chunk ⟨1000⟩ (.ofChunk chunk)).2) := Prod.ext hv rfl
        exact ⟨chunk, _, _, hchunk, hstep, hstopped _ _ _ _ _ .start hstep,
          (houtput 2 _ (.inr ⟨_, _, _, .start, hstep⟩)).2⟩
      | boolean b => cases hout
    · cases hout
  · cases hout

end BoundedLoop
