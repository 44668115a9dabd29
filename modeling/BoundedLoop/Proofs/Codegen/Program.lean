import BoundedLoop.Compile
import BoundedLoop.Proofs.Codegen.Statement
import Mathlib.Data.List.TakeWhile

/-!
# What compiling a program comes to

`compileTokens_eq_ok_iff`: tokens are compiled to a chunk if and only if they have a tree that can be
typed, has few enough slots and has jumps that can be written; the chunk is then its code.
-/

namespace BoundedLoop

namespace CompileM

/-- A program is compiled like a block, up to the end of the input. -/
theorem clean_program : ∀ (bound : Nat) {l : Layout} {types : Types} {d : Draft},
    d.Stands l types → d.loops = [] → (∀ t ∈ d.ahead, t.kind ≠ .eof) → d.ahead.length < bound →
    (program bound).clean d =
      (Read.program bound d.ahead).bind fun p => Block.draft? l types d p.1 p.2
  | 0, _, _, _, _, _, _, hlen => absurd hlen (Nat.not_lt_zero _)
  | bound + 1, l, types, d, hd, hloops, hkinds, hlen => by
    rw [program, clean_peek_bind, Draft.next]
    cases hahead : d.ahead with
    | nil =>
      rw [List.headD_nil, if_pos hd.finish, clean_pure, Read.program, Option.bind_some]
      refine Eq.trans ?_ (Draft.extend?_of_fits hd.room Fragment.fits_nil d types [] []).symm
      rw [hd.extend_nil, ← hahead]
    | cons t ts =>
      rw [List.headD_cons, Read.program]
      rw [hahead] at hkinds hlen
      rw [if_neg (hkinds t List.mem_cons_self), clean_bind, clean_attempt _ hd.sound,
        clean_statement (clean_block bound) hd (by rw [hahead]; exact Nat.le_of_lt_succ hlen),
        hahead, hloops]
      simp only [Option.bind_eq_bind, Option.bind_assoc, Option.pure_def, Option.bind_some,
        List.isEmpty_nil, Bool.not_true]
      refine Option.bind_congr fun p hp => ?_
      obtain ⟨s, ts₁⟩ := p
      have hlen₁ : ts₁.length < (t :: ts).length := Read.length_of_statement hp
      have hkinds₁ : ∀ t ∈ ts₁, t.kind ≠ .eof := by
        intro t' ht'
        rw [(Read.statement_sound (Read.block_sound bound) hp).1] at hkinds
        exact hkinds t' (List.mem_append_right _ ht')
      refine bind_statement fun types' hcheck hroom => ?_
      rw [clean_program bound (hd.extend hroom (s.declares_check hd.declared hcheck))
        (by simp [Draft.extend, hloops, Draft.noteAborts]) hkinds₁
        (by rw [Draft.ahead_extend]; exact Nat.lt_of_lt_of_le hlen₁ (Nat.le_of_lt_succ hlen)),
        Draft.ahead_extend]

/-- Compiling a program records what fails, and does not fail itself. -/
theorem program_eq_ok : ∀ (bound : Nat) (d : Draft), ∃ d', program bound d = .ok () d'
  | 0, d => ⟨d, rfl⟩
  | bound + 1, d => by
    have hstep : program (bound + 1) d =
        (if d.next.kind = .eof then pure () else
          attempt (statement (block bound) bound) >>= fun _ => program bound : CompileM Unit) d := rfl
    rw [hstep]
    split
    · exact ⟨d, rfl⟩
    · show ∃ d', EStateM.bind _ _ d = _
      simp only [EStateM.bind, attempt_apply]
      cases statement (block bound) bound d with
      | ok a d' => exact program_eq_ok bound d'
      | error found d' => exact program_eq_ok bound _

end CompileM

/-! ### Programs -/

def Program.chunk (p : Program) : Chunk := ⟨p.code.cells.toArray, p.layout.length⟩

theorem Program.bytes_chunk (p : Program) :
    p.chunk.bytes = p.code.flatMap fun i => i.instruction.encode := by
  rw [chunk, Chunk.bytes, Fragment.cells, List.map_flatMap]
  simp only [Item.bytes_cells]

theorem Draft.stands_ofTokens (tokens : List Token) :
    (Draft.ofTokens tokens).Stands .initial fun _ => none := by
  refine ⟨⟨?_, ?_, fun name ty h => by cases h⟩, rfl, by decide, rfl⟩
  · simp [Draft.ofTokens, Scope.declare, Scope.of, Layout.names, Layout.initial, Layout.slot,
      Layout.index, Chunk.outputSlot]
  · show (Draft.endOf tokens).kind = .eof
    unfold Draft.endOf
    cases hfind : tokens.find? (·.kind = .eof) with
    | none =>
      unfold Draft.impliedEnd
      split <;> rfl
    | some t => simpa using List.find?_some hfind

/-- A program that can be compiled: a tree of the grammar with the given types, few enough slots and
no jump that is too long. -/
structure Program.Accepted (p : Program) (types : Types) : Prop where
  grammatical : Block.Grammatical false p
  check : Block.check (fun _ => none) p = some types
  room : p.layout.length ≤ Chunk.maxSlots
  fits : p.code.Fits

/-- A clean compilation of tokens is that of their tree. -/
theorem CompileM.clean_ofTokens {tokens : List Token} {d : Draft} :
    (program ((Draft.ofTokens tokens).ahead.length + 1)).clean (Draft.ofTokens tokens) =
        some ((), d) ↔
      ∃ (p : Program) (types : Types), p.Accepted types ∧
        Block.tokens p = tokens.takeWhile (·.kind ≠ .eof) ∧
        d = (Draft.ofTokens tokens).extend p.layout types p.code (Block.aborts 0 p) [] := by
  have hkinds : ∀ t ∈ (Draft.ofTokens tokens).ahead, t.kind ≠ .eof := by
    intro t ht
    simpa using List.mem_takeWhile_imp ht
  rw [clean_program _ (Draft.stands_ofTokens tokens) rfl hkinds (Nat.lt_succ_self _)]
  constructor
  · intro h
    simp only [Option.bind_eq_some_iff, Block.draft?, Draft.extend?] at h
    obtain ⟨⟨p, rest⟩, hread, types, hcheck, h⟩ := h
    split at h
    · rename_i hfits
      cases h
      obtain ⟨htokens, rfl, hgram⟩ := (Read.program_eq_some_iff (Nat.lt_succ_self _)).1 hread
      exact ⟨p, types, ⟨hgram, hcheck, hfits.1, hfits.2⟩, htokens.symm, rfl⟩
    · cases h
  · rintro ⟨p, types, hp, htokens, rfl⟩
    have hread : Read.program ((Draft.ofTokens tokens).ahead.length + 1)
        (Draft.ofTokens tokens).ahead = some (p, []) :=
      (Read.program_eq_some_iff (Nat.lt_succ_self _)).2 ⟨htokens.symm, rfl, hp.grammatical⟩
    rw [hread, Option.bind_some, Block.draft?, hp.check]
    exact Draft.extend?_of_fits hp.room hp.fits _ types _ _

/-- A clean compilation of tokens leaves behind what compiling them does. -/
theorem Draft.compiled_of_clean {tokens : List Token} {d : Draft}
    (h : (CompileM.program ((Draft.ofTokens tokens).ahead.length + 1)).clean
      (Draft.ofTokens tokens) = some ((), d)) : (Draft.ofTokens tokens).compiled = d := by
  obtain ⟨d', hrun⟩ := CompileM.program_eq_ok ((Draft.ofTokens tokens).ahead.length + 1)
    (Draft.ofTokens tokens)
  simp only [CompileM.clean, hrun, Option.ite_none_right_eq_some, Option.some.injEq,
    Prod.mk.injEq, true_and] at h
  simp only [Draft.compiled, EStateM.run, hrun, h.2]

theorem compileTokens_eq_ok_iff_clean {tokens : List Token} {chunk : Chunk} :
    compileTokens tokens = .ok chunk ↔
      ∃ d, (CompileM.program ((Draft.ofTokens tokens).ahead.length + 1)).clean
        (Draft.ofTokens tokens) = some ((), d) ∧ chunk = d.chunk := by
  obtain ⟨d, hrun⟩ := CompileM.program_eq_ok ((Draft.ofTokens tokens).ahead.length + 1)
    (Draft.ofTokens tokens)
  have hcompiled : (Draft.ofTokens tokens).compiled = d := by
    simp only [Draft.compiled, EStateM.run, hrun]
  have hempty : (Draft.ofTokens tokens).diagnostics = #[] := rfl
  simp only [compileTokens, hcompiled, Draft.result, CompileM.clean, hrun, hempty]
  by_cases hd : d.diagnostics = #[]
  · simp [hd, eq_comm]
  · simp [hd]

/-- Tokens are compiled if and only if they have a tree that can be compiled, and what they are
compiled to is the code of the tree. -/
theorem compileTokens_eq_ok_iff {tokens : List Token} {chunk : Chunk} :
    compileTokens tokens = .ok chunk ↔
      ∃ (p : Program) (types : Types), p.Accepted types ∧
        Block.tokens p = tokens.takeWhile (·.kind ≠ .eof) ∧ chunk = p.chunk := by
  have hchunk : ∀ (p : Program) types, ((Draft.ofTokens tokens).extend p.layout types p.code
      (Block.aborts 0 p) []).chunk = p.chunk := by
    intro p types
    simp [Draft.extend, Draft.ofTokens, Chunk.append, Chunk.takeSlot, Chunk.maxSlots, Program.chunk]
  simp only [compileTokens_eq_ok_iff_clean, CompileM.clean_ofTokens]
  constructor
  · rintro ⟨d, ⟨p, types, hp, htokens, rfl⟩, rfl⟩
    exact ⟨p, types, hp, htokens, hchunk p types⟩
  · rintro ⟨p, types, hp, htokens, rfl⟩
    exact ⟨_, ⟨p, types, hp, htokens, rfl⟩, (hchunk p types).symm⟩

/-- The compiler ends with the variables of the tree. -/
theorem Program.Accepted.scope_compiled {p : Program} {types : Types} {tokens : List Token}
    (hp : p.Accepted types) (htokens : Block.tokens p = tokens.takeWhile (·.kind ≠ .eof)) :
    (Draft.ofTokens tokens).compiled.scope = .of p.layout types := by
  rw [Draft.compiled_of_clean (CompileM.clean_ofTokens.2 ⟨p, types, hp, htokens, rfl⟩)]
  rfl

end BoundedLoop
