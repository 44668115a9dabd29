import BoundedLoop.Proofs.AnyCode
import BoundedLoop.Proofs.Correctness
import BoundedLoop.Proofs.Semantics.LongerCode

/-!
# Statements behind a program

Statements that are added behind a program do not change what was there before. If the tokens of a
program are the first ones of a longer program, the trees begin with the same statements
(`Block.eq_append_of_tokens`), as long as no operator stands behind the first program. Then the code of
the longer program begins with that of the first (`Program.extends_append`), and so does its run: it
comes to the place where the first code ends with the same values in the slots, or it faults before
(`appending_keeps_front`).
-/

namespace BoundedLoop

/-! ### Trees -/

/-- A statement is read up to its end, whatever comes behind, unless that is an operator. -/
theorem Statement.append_inj {inLoop : Bool} {s s' : Statement} {rest rest' : List Token}
    (hs : s.Grammatical inLoop) (hs' : s'.Grammatical inLoop) (hrest : NoOperator rest)
    (hrest' : NoOperator rest') (h : s.tokens ++ rest = s'.tokens ++ rest') : s = s' ∧ rest = rest' := by
  have hread := Read.statement_complete s hs hrest (Nat.le_succ _)
  have hread' := Read.statement_complete s' hs' hrest' (Nat.le_succ _)
  rw [h, hread'] at hread
  cases hread
  exact ⟨rfl, rfl⟩

namespace Block

theorem noOperator_tokens {inLoop : Bool} {ss : List Statement} (h : Block.Grammatical inLoop ss) :
    NoOperator (Block.tokens ss) := by
  have happend := @noOperator_tokens_append _ _ [] h (by simp [NoOperator])
  rwa [List.append_nil] at happend

/-- A block whose tokens begin with those of another begins with its statements. -/
theorem eq_append_of_tokens {inLoop : Bool} {more : List Token} (hmore : NoOperator more) :
    ∀ {ss all : List Statement}, Block.Grammatical inLoop ss → Block.Grammatical inLoop all →
      Block.tokens all = Block.tokens ss ++ more →
      ∃ rest, all = ss ++ rest ∧ Block.tokens rest = more := by
  intro ss
  induction ss with
  | nil => exact fun _ _ h => ⟨_, rfl, h⟩
  | cons s ss ih =>
    rintro all ⟨hs, hss⟩ hall h
    rw [Block.tokens, List.append_assoc] at h
    cases all with
    | nil =>
      obtain ⟨t, ts, hts, -⟩ := s.tokens_eq_cons hs
      rw [hts] at h
      cases h
    | cons s' all =>
      obtain ⟨hs', hall⟩ := hall
      obtain ⟨rfl, htokens⟩ := Statement.append_inj hs' hs (noOperator_tokens hall)
        (noOperator_tokens_append hss hmore) h
      obtain ⟨rest, rfl, hrest⟩ := ih hss hall htokens
      exact ⟨rest, rfl, hrest⟩

theorem layout_append (l : Layout) (ss rest : List Statement) :
    Block.layout l (ss ++ rest) = Block.layout (Block.layout l ss) rest := by
  induction ss generalizing l with
  | nil => rfl
  | cons s ss ih => exact ih (s.layout l)

/-- The code of statements does not depend on those that come behind. -/
theorem code_append (l : Layout) (leave : Nat → Int) (offset : Nat) (ss rest : List Statement) :
    Block.code l leave offset (ss ++ rest) = Block.code l leave offset ss ++
      Block.code (Block.layout l ss) leave (offset + Block.size ss) rest := by
  induction ss generalizing l offset with
  | nil => rfl
  | cons s ss ih =>
    rw [List.cons_append, Block.code, ih, Block.code, Block.layout, Block.size, Nat.add_assoc,
      List.append_assoc]

end Block

theorem Program.extends_append (p q : Program) : (p ++ q : Program).chunk.Extends p.chunk where
  cells := by
    have hcode : (p ++ q : Program).code = p.code ++ Block.code p.layout hole (0 + Block.size p) q :=
      Block.code_append .initial hole 0 p q
    show p.code.cells <+: (p ++ q : Program).code.cells
    rw [hcode, Fragment.cells_append]
    exact List.prefix_append _ _
  slotCount := by
    have hlayout : (p ++ q : Program).layout = Block.layout p.layout q :=
      Block.layout_append .initial p q
    show p.layout.length ≤ (p ++ q : Program).layout.length
    rw [hlayout]
    exact (Block.prefix_layout q p.layout).length_le

/-- The code of tokens that begin with those of another program begins with its code. -/
theorem extends_of_compileTokens {front more : List Token} {chunk longer : Chunk}
    (heof : ∀ t ∈ front ++ more, t.kind ≠ .eof) (hmore : NoOperator more)
    (hfront : compileTokens front = .ok chunk) (hboth : compileTokens (front ++ more) = .ok longer) :
    longer.Extends chunk := by
  have hall : ∀ ts : List Token, (∀ t ∈ ts, t.kind ≠ .eof) → ts.takeWhile (·.kind ≠ .eof) = ts := by
    intro ts hts
    exact List.takeWhile_eq_self_iff.2 (by simpa using hts)
  obtain ⟨p, types, hp, hptokens, rfl⟩ := compileTokens_eq_ok_iff.1 hfront
  obtain ⟨r, types', hr, hrtokens, rfl⟩ := compileTokens_eq_ok_iff.1 hboth
  rw [hall _ fun t ht => heof t (List.mem_append_left _ ht)] at hptokens
  rw [hall _ heof, ← hptokens] at hrtokens
  obtain ⟨q, rfl, -⟩ := Block.eq_append_of_tokens hmore hp.grammatical hr.grammatical hrtokens
  exact p.extends_append q

/-! ### Runs -/

namespace Machine

variable {chunk longer : Chunk} {m m' last : Machine} {n k offset : Nat} {stop : Stop}

/-- From the start of its code, the machine comes to `offset` for the first time after `n`
instructions. -/
structure FirstAt (chunk : Chunk) (offset n : Nat) (m : Machine) : Prop where
  after : (ofChunk chunk).after? chunk n = some m
  ip : m.ip = offset
  first : ∀ k < n, ∀ m₁, (ofChunk chunk).after? chunk k = some m₁ → m₁.ip ≠ offset

theorem FirstAt.unique (h : FirstAt chunk offset n m) (h' : FirstAt chunk offset k m') :
    n = k ∧ m = m' := by
  obtain rfl : n = k := by
    rcases Nat.lt_trichotomy n k with hlt | heq | hlt
    · exact absurd h.ip (h'.first n hlt m h.after)
    · exact heq
    · exact absurd h'.ip (h.first k hlt m' h'.after)
  exact ⟨rfl, Option.some.inj (h.after.symm.trans h'.after)⟩

theorem within_of_after? (h : (ofChunk chunk).after? chunk n = some m) : m.Within chunk :=
  Called.start.within.steps (steps_iff_after?.2 ⟨n, h⟩)

/-- A program that comes to its end can only fault there. -/
theorem offset_of_result {f : Fault} (h : m.result chunk = .fault f) : f.offset = chunk.size := by
  unfold result at h
  split at h <;> cases h
  rfl

/-- As long as the machine is on its way through `chunk`, it is not where that ends. -/
theorem ip_ne_size_of_after? (h : (ofChunk chunk).after? chunk k = some last) (hn : n < k)
    (hm : (ofChunk chunk).after? chunk n = some m) : m.ip ≠ chunk.size := by
  rw [Ne, ← (within_of_after? hm).isFinished_iff]
  exact not_isFinished_of_after? h hn hm

/-- Up to where it comes in `chunk`, the machine goes the same way in longer code. -/
theorem exists_of_after?_longer (h : longer.Extends chunk)
    (hlast : (ofChunk chunk).after? chunk k = some last) (hn : n ≤ k)
    (hm : (ofChunk longer).after? longer n = some m') :
    ∃ m, (ofChunk chunk).after? chunk n = some m ∧
      m' = m.widen (longer.slotCount - chunk.slotCount) := by
  rw [← Nat.add_sub_of_le hn, after?_add] at hlast
  obtain ⟨m, hafter, -⟩ := Option.bind_eq_some_iff.1 hlast
  refine ⟨m, hafter, ?_⟩
  rw [ofChunk_eq_widen h, after?_widen h hafter] at hm
  exact (Option.some.inj hm).symm

/-- A machine that comes to the end of `chunk` comes there in longer code, and not before. -/
theorem firstAt_of_isFinished (h : longer.Extends chunk)
    (hlast : (ofChunk chunk).after? chunk k = some last) (hfin : last.isFinished chunk = true) :
    FirstAt longer chunk.size k (last.widen (longer.slotCount - chunk.slotCount)) where
  after := by
    rw [ofChunk_eq_widen h]
    exact after?_widen h hlast
  ip := (within_of_after? hlast).isFinished_iff.1 hfin
  first n hn m₁ hm₁ := by
    obtain ⟨m, hm, rfl⟩ := exists_of_after?_longer h hlast (Nat.le_of_lt hn) hm₁
    rw [ip_widen]
    exact ip_ne_size_of_after? hlast hn hm

/-- One that faults inside `chunk` does so in longer code. -/
theorem stopsAfter_of_extends {f : Fault} (h : longer.Extends chunk)
    (hstops : StopsAfter chunk (ofChunk chunk) k last (.fault f) m)
    (hfin : ¬ last.isFinished chunk = true) (hinside : f.cause.Inside) :
    StopsAfter longer (ofChunk longer) k (last.widen (longer.slotCount - chunk.slotCount)) (.fault f)
      (m.widen (longer.slotCount - chunk.slotCount)) := by
  rw [ofChunk_eq_widen h]
  exact hstops.widen h hfin hinside

/-- So it does not come to the end of `chunk` there. -/
theorem not_firstAt_of_fault {f : Fault} (h : longer.Extends chunk)
    (hstops : StopsAfter chunk (ofChunk chunk) k last (.fault f) m)
    (hfin : ¬ last.isFinished chunk = true) (hinside : f.cause.Inside) :
    ¬ FirstAt longer chunk.size n m' := by
  intro hfirst
  have hn : n ≤ k := by
    refine ((stopsAfter_of_extends h hstops hfin hinside).isSome_after?_iff n).1 ?_
    rw [hfirst.after]
    rfl
  obtain ⟨m₁, hm₁, rfl⟩ := exists_of_after?_longer h hstops.after hn hfirst.after
  have hend : m₁.ip = chunk.size := hfirst.ip
  rcases Nat.lt_or_eq_of_le hn with hlt | rfl
  · exact ip_ne_size_of_after? hstops.after hlt hm₁ hend
  · rw [hstops.after] at hm₁
    cases hm₁
    exact hfin ((within_of_after? hstops.after).isFinished_iff.2 hend)

end Machine

/-- What an evaluation fails for has nothing to do with where the code or the slots end. -/
theorem Stop.Shows.inside {l : Layout} {r : Except Failure Value} {f : Fault}
    (h : (Stop.fault f).Shows l r) : f.cause.Inside := by
  cases r with
  | ok v => exact h.elim
  | error why =>
    cases why with
    | overflow op =>
      have hcause : f.cause = .arithmeticOverflow op := h
      rw [hcause]
      trivial
    | unset name =>
      rw [h.2]
      trivial
    | stuck => exact h.elim

open Machine

/-- Statements behind a program do not change its code: the code of both begins with it, line by line,
and there are as many slots at least. A run of the longer code comes to the place where the code of the
program ends if the run of the program comes to its end, after as many instructions, and then its
slots hold what those of the program hold at its end. If the program faults before, the longer run ends
with the same fault. One of the two is always the case. -/
theorem appending_keeps_front {front more : List Token} {chunk longer : Chunk}
    (heof : ∀ t ∈ front ++ more, t.kind ≠ .eof) (hmore : ∀ t ∈ more.head?, t.kind.binaryOp? = none)
    (hfront : compileTokens front = .ok chunk) (hboth : compileTokens (front ++ more) = .ok longer) :
    (chunk.bytes <+: longer.bytes ∧ chunk.lines <+: longer.lines ∧
      chunk.slotCount ≤ longer.slotCount) ∧
    (∀ n m', FirstAt longer chunk.size n m' → ∃ m, (ofChunk chunk).after? chunk n = some m ∧
      m.isFinished chunk = true ∧ (ofChunk chunk).run chunk = some (m.result chunk, m) ∧
      m'.stack = m.stack ∧ ∀ slot < chunk.slotCount, m'.slots[slot]? = m.slots[slot]?) ∧
    (∀ f m, (ofChunk chunk).run chunk = some (.fault f, m) → f.offset < chunk.size →
      (∃ m', (ofChunk longer).run longer = some (.fault f, m')) ∧
        ∀ n m', ¬ FirstAt longer chunk.size n m') ∧
    ((∃ n m', FirstAt longer chunk.size n m') ∨
      ∃ f m, (ofChunk chunk).run chunk = some (.fault f, m) ∧ f.offset < chunk.size) := by
  have hext := extends_of_compileTokens heof hmore hfront hboth
  refine ⟨⟨hext.cells.map Cell.byte, hext.cells.map Cell.line, hext.slotCount⟩, ?_⟩
  obtain ⟨p, types, hp, -, rfl⟩ := compileTokens_eq_ok_iff.1 hfront
  obtain ⟨stop, m, hrun, hshows⟩ := hp.exists_run
  obtain ⟨k, last, hstops⟩ := run_eq_some_iff_stopsAfter.1 hrun
  have hwithin := within_of_after? hstops.after
  by_cases hfin : last.isFinished p.chunk = true
  · have hfirst := firstAt_of_isFinished hext hstops.after hfin
    obtain ⟨rfl, rfl⟩ := hstops.rests.of_isFinished hfin
    refine ⟨?_, ?_, .inl ⟨_, _, hfirst⟩⟩
    · intro n m' hm'
      obtain ⟨rfl, rfl⟩ := hm'.unique hfirst
      refine ⟨m, hstops.after, hfin, hrun, stack_widen _ _, fun slot hslot => ?_⟩
      exact getElem?_slots_widen (by rwa [hwithin.slots]) _
    · intro f m₁ hfault hlt
      rw [hrun, Option.some.injEq, Prod.mk.injEq] at hfault
      exact absurd (offset_of_result hfault.1) (Nat.ne_of_lt hlt)
  · obtain ⟨f, rfl, hfault⟩ := hstops.rests.exists_fault hfin
    have hoffset : f.offset < p.chunk.size := by
      have hlt := hwithin.isFinished_iff.not.1 hfin
      rw [(placed_of_execute hwithin hfault).1]
      exact Nat.lt_of_le_of_ne hwithin.ip hlt
    refine ⟨?_, ?_, .inr ⟨f, m, hrun, hoffset⟩⟩
    · intro n m' hm'
      exact absurd hm' (not_firstAt_of_fault hext hstops hfin hshows.inside)
    · intro f' m₁ hrun' _
      rw [hrun] at hrun'
      cases hrun'
      exact ⟨⟨_, run_eq_some_iff_stopsAfter.2
          ⟨_, _, stopsAfter_of_extends hext hstops hfin hshows.inside⟩⟩,
        fun n m' => not_firstAt_of_fault hext hstops hfin hshows.inside⟩

/-- The tokens of a loop that is left before its time, with nothing in `OUTPUT`. -/
def leavingTokens : List Token :=
  ((Token.scan "LOOP 3 TIMES
    n <- 6
    ABORT LOOP
  END LOOP").toOption.getD []).dropLast

/-- Statements that go on from there, with a variable of their own. -/
def resultTokens : List Token :=
  ((Token.scan "p <- n OUTPUT <- p").toOption.getD []).dropLast

/-- The code of the loop, which ends with a fault if it is run by itself. -/
def leavingChunk : Chunk := (compileTokens leavingTokens).toOption.getD default

theorem appending_keeps_front_leaving :
    compileTokens leavingTokens = .ok leavingChunk ∧
    ∃ longer, compileTokens (leavingTokens ++ resultTokens) = .ok longer ∧
      leavingChunk.bytes <+: longer.bytes ∧
      ∃ n m', FirstAt longer leavingChunk.size n m' ∧ m'.slots[3]? = some (some (.number 6)) := by
  have htokens : (∀ t ∈ leavingTokens ++ resultTokens, t.kind ≠ .eof) ∧
      (∀ t ∈ resultTokens.head?, t.kind.binaryOp? = none) ∧
      compileTokens leavingTokens = .ok leavingChunk ∧
      (compileTokens (leavingTokens ++ resultTokens)).isOk = true ∧
      leavingChunk.slotCount = 4 ∧ leavingChunk.size = 71 := by decide +kernel
  obtain ⟨heof, hmore, hfront, hok, hcount, hsize⟩ := htokens
  obtain ⟨longer, hboth⟩ := Except.isOk_iff.1 hok
  have hadvance : advance leavingChunk 15 (.ofChunk leavingChunk) =
      (.fault ⟨.uninitializedSlot 0, 71, none⟩, 0,
        ⟨71, [], #[none, some (.number 3), some (.number 0), some (.number 6)]⟩) := by decide +kernel
  have hrun := run_eq_of_advance hadvance (by decide)
  obtain ⟨⟨hbytes, -⟩, hreaches, -, hone⟩ := appending_keeps_front heof hmore hfront hboth
  refine ⟨hfront, longer, hboth, hbytes, ?_⟩
  rcases hone with ⟨n, m', hfirst⟩ | ⟨f, m, hfault, hlt⟩
  · obtain ⟨m, -, -, hm, -, hslots⟩ := hreaches n m' hfirst
    rw [hrun, Option.some.injEq, Prod.mk.injEq] at hm
    obtain ⟨-, rfl⟩ := hm
    exact ⟨n, m', hfirst, hslots 3 (by rw [hcount]; decide)⟩
  · rw [hrun] at hfault
    cases hfault
    rw [hsize] at hlt
    exact absurd hlt (by decide)

end BoundedLoop
