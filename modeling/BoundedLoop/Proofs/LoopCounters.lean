import BoundedLoop.Proofs.Semantics.NonNegative
import BoundedLoop.Proofs.Simulation.Loop
import BoundedLoop.Proofs.StackDiscipline
import BoundedLoop.Proofs.Static.Leads
import BoundedLoop.Proofs.Static.Operands

/-!
# The counter of a loop never passes its bound

`InLoop` says what the slots of a loop hold, one case for each place in the loop. Every step keeps it
(`InLoop.step`), as the code around the loop leads only to its head, and the code of its body leaves its
slots alone (`Program.Accepted.exists_spares`). So it holds throughout a run
(`Program.Accepted.inLoop_of_steps`).
-/

namespace BoundedLoop

open Machine

section Loop

variable {chunk : Chunk} {l : Layout} {k size line line' : Nat} {m m' : Machine}

/-- What is known of the slots of a loop where a machine stands. The head of the loop begins at `k`, and its
body has `size` bytes. From where the bound is stored until the loop is left, the bound is not negative;
from where the counter is set until then, the counter is at most the bound; and below it behind the test. -/
inductive InLoop (l : Layout) (k size : Nat) (m : Machine) : Prop where
  | outside (hip : m.ip ≤ k ∨ k + size + 44 ≤ m.ip)
  | bounded {n : Int64} (hip : m.ip = k + 2 ∨ m.ip = k + 3)
      (hbound : m.slots[l.length]? = some (some (.number n))) (hn : 0 ≤ n.toInt)
  | reset {n : Int64} {rest : List Value} (hip : m.ip = k + 13)
      (hbound : m.slots[l.length]? = some (some (.number n))) (hn : 0 ≤ n.toInt)
      (hstack : m.stack = .number 0 :: rest)
  | counted {n c : Int64}
      (hip : m.ip = k + 15 ∨ m.ip = k + 16 ∨ m.ip = k + size + 40 ∨ m.ip = k + size + 41)
      (hcounts : l.Counts m.slots n c) (hle : c.toInt ≤ n.toInt)
  | loaded {n c : Int64} {rest : List Value} (hip : m.ip = k + 18) (hcounts : l.Counts m.slots n c)
      (hle : c.toInt ≤ n.toInt) (hstack : m.stack = .number c :: rest)
  | loadedBoth {n c : Int64} {rest : List Value} (hip : m.ip = k + 20) (hcounts : l.Counts m.slots n c)
      (hle : c.toInt ≤ n.toInt) (hstack : m.stack = .number n :: .number c :: rest)
  | tested {n c : Int64} {rest : List Value} (hip : m.ip = k + 21) (hcounts : l.Counts m.slots n c)
      (hstack : m.stack = .boolean (c < n) :: rest)
  | inside {n c : Int64} (hip : Extent (k + 24) (size + 1) m.ip) (hcounts : l.Counts m.slots n c)
      (hlt : c < n)
  | reloaded {n c : Int64} {rest : List Value} (hip : m.ip = k + size + 27)
      (hcounts : l.Counts m.slots n c) (hlt : c < n) (hstack : m.stack = .number c :: rest)
  | incrementing {n c : Int64} {rest : List Value} (hip : m.ip = k + size + 37)
      (hcounts : l.Counts m.slots n c) (hlt : c < n) (hstack : m.stack = .number 1 :: .number c :: rest)
  | incremented {n c c' : Int64} {rest : List Value} (hip : m.ip = k + size + 38)
      (hcounts : l.Counts m.slots n c) (hlt : c < n) (hstack : m.stack = .number c' :: rest)
      (hsucc : c'.toInt = c.toInt + 1)

/-- A step that succeeds, where the chunk has an item. -/
theorem Machine.does_of_holds {i : Item} {code : Fragment} {q : Nat} (hold : chunk.Holds q (i :: code))
    (hip : m.ip = q) (h : m.execute chunk = .ok () m') :
    i.instruction.Does ⟨q + i.instruction.size, m.stack, m.slots⟩ m' := by
  obtain ⟨j, hdecode, hdoes⟩ := exists_does_of_execute h
  rw [hip, hold.decode] at hdecode
  cases hdecode
  rw [← hip]
  exact hdoes

/-- The head of a loop stands at `k`, and its foot behind `size` bytes of body. -/
structure Chunk.LoopAt (c : Chunk) (l : Layout) (k size : Nat) : Prop where
  room : l.addLoop.length ≤ Chunk.maxSlots
  head : ∃ line, c.Holds k (Statement.loopHead l line (size + 20))
  foot : ∃ line, c.Holds (k + size + 25) (Statement.loopFoot l line (-(size + 28)))

/-- Behind the bound, the counter is stored. -/
theorem Chunk.LoopAt.counts_store {slots : Array (Option Value)} {n c : Int64} (h : chunk.LoopAt l k size)
    (hbound : slots[l.length]? = some (some (.number n))) (hslot : l.counterSlot.toNat < slots.size) :
    l.Counts (slots.setIfInBounds l.counterSlot.toNat (some (.number c))) n c := by
  rw [Layout.toNat_counterSlot h.room] at hslot ⊢
  constructor
  · rw [Array.getElem?_setIfInBounds_ne (by omega)]
    exact hbound
  · exact Array.getElem?_setIfInBounds_self_of_lt hslot

namespace InLoop

variable {ip : Nat} {stack : List Value} {slots : Array (Option Value)} {n c : Int64}

/-- The bound is stored where the head begins. -/
theorem step_start (hloop : chunk.LoopAt l k size)
    (hnumber : ∀ v, m'.slots[l.length]? = some (some v) → ∃ n, v = .number n ∧ 0 ≤ n.toInt)
    (h : execute chunk ⟨k, stack, slots⟩ = .ok () m') : InLoop l k size m' := by
  obtain ⟨line, hhead⟩ := hloop.head
  have hdoes := does_of_holds hhead.left.left rfl h
  cases hdoes with
  | store v hslot =>
    rw [Layout.toNat_boundSlot hloop.room] at hslot
    have hstored : (slots.setIfInBounds l.boundSlot.toNat (some v))[l.length]? = some (some v) := by
      rw [Layout.toNat_boundSlot hloop.room]
      exact Array.getElem?_setIfInBounds_self_of_lt hslot
    obtain ⟨n, rfl, hn⟩ := hnumber v hstored
    exact .bounded (.inl rfl) hstored hn

/-- The counter starts with zero. -/
theorem step_reset (hloop : chunk.LoopAt l k size) (hbound : slots[l.length]? = some (some (.number n)))
    (hn : 0 ≤ n.toInt) (h : execute chunk ⟨k + 13, .number 0 :: stack, slots⟩ = .ok () m') :
    InLoop l k size m' := by
  obtain ⟨line, hhead⟩ := hloop.head
  have hdoes := does_of_holds hhead.left.left.tail.tail.tail rfl h
  cases hdoes with
  | store _ hslot =>
    exact .counted (.inl rfl) (hloop.counts_store hbound hslot) hn

/-- The jump at the test leaves the loop, or the counter is below the bound. -/
theorem step_tested (hloop : chunk.LoopAt l k size) (hcounts : l.Counts slots n c)
    (h : execute chunk ⟨k + 21, .boolean (c < n) :: stack, slots⟩ = .ok () m') : InLoop l k size m' := by
  obtain ⟨line, hhead⟩ := hloop.head
  have hdistance := Machine.toInt_distance ((Fragment.fits_cons_jump ..).1 hhead.right.fits).1
  have hdoes : (Instruction.jumpIfFalse (Int16.ofInt (size + 20))).Does
      ⟨k + 24, .boolean (c < n) :: stack, slots⟩ m' := does_of_holds hhead.right rfl h
  generalize Int16.ofInt (size + 20) = d at hdistance hdoes
  generalize hb : decide (c < n) = b at hdoes
  cases hdoes with
  | stay => exact .inside ⟨Nat.le_refl _, Nat.le_add_right _ _⟩ hcounts (of_decide_eq_true hb)
  | @leave _ t _ _ _ ht =>
    obtain rfl : t = k + size + 44 := by omega
    exact .outside (.inr (Nat.le_refl _))

/-- The jump behind the body leads to the test. -/
theorem step_back (hloop : chunk.LoopAt l k size) (hcounts : l.Counts slots n c) (hle : c.toInt ≤ n.toInt)
    (h : execute chunk ⟨k + size + 41, stack, slots⟩ = .ok () m') : InLoop l k size m' := by
  obtain ⟨line, hfoot⟩ := hloop.foot
  have hdistance := Machine.toInt_distance ((Fragment.fits_cons_jump ..).1 hfoot.right.fits).1
  have hdoes : (Instruction.jump (Int16.ofInt (-(size + 28)))).Does ⟨k + size + 44, stack, slots⟩ m' :=
    does_of_holds hfoot.right rfl h
  generalize Int16.ofInt (-(size + 28)) = d at hdistance hdoes
  cases hdoes with
  | @jump _ t _ _ _ ht =>
    obtain rfl : t = k + 16 := by omega
    exact .counted (.inr (.inl rfl)) hcounts hle

/-- The counter that is stored is the next one. -/
theorem step_incremented {c' : Int64} (hloop : chunk.LoopAt l k size) (hcounts : l.Counts slots n c)
    (hlt : c < n) (hsucc : c'.toInt = c.toInt + 1)
    (h : execute chunk ⟨k + size + 38, .number c' :: stack, slots⟩ = .ok () m') : InLoop l k size m' := by
  obtain ⟨line, hfoot⟩ := hloop.foot
  have hdoes := does_of_holds hfoot.left.tail.tail.tail rfl h
  cases hdoes with
  | store _ hslot =>
    have hle : c'.toInt ≤ n.toInt := by
      rw [hsucc]
      exact Int.add_one_le_of_lt (Int64.lt_iff_toInt_lt.1 hlt)
    exact .counted (.inr (.inr (.inl rfl))) (hloop.counts_store hcounts.bound hslot) hle

/-- Every step keeps what is known of the slots, if the code outside does not lead into the loop but to where
it begins (`hout`), the body leads to itself or out of the loop and leaves the two slots alone (`hbody`), and
only numbers that are not negative are stored as the bound (`hnumber`). -/
theorem step (hloop : chunk.LoopAt l k size)
    (hout : m.ip < k ∨ k + size + 44 < m.ip → m'.ip ≤ k ∨ k + size + 44 ≤ m'.ip)
    (hbody : k + 25 ≤ m.ip → m.ip < k + size + 25 →
      (Extent (k + 25) size m'.ip ∨ m'.ip = k + size + 45) ∧
        ∀ n c, l.Counts m.slots n c → l.Counts m'.slots n c)
    (hnumber : ∀ v, m'.slots[l.length]? = some (some v) → ∃ n, v = .number n ∧ 0 ≤ n.toInt)
    (h : m.execute chunk = .ok () m') (hm : InLoop l k size m) : InLoop l k size m' := by
  obtain ⟨ip, stack, slots⟩ := m
  obtain ⟨line, hhead⟩ := hloop.head
  obtain ⟨line', hfoot⟩ := hloop.foot
  have hinit := hhead.left.left
  have htest := hhead.left.right
  cases hm with
  | outside hip =>
    rcases Nat.lt_trichotomy ip k with hlt | rfl | hgt
    · exact .outside (hout (.inl hlt))
    · exact step_start hloop hnumber h
    · rcases Nat.lt_or_eq_of_le (hip.resolve_left (Nat.not_le_of_lt hgt)) with hlt | rfl
      · exact .outside (hout (.inr hlt))
      · have hdoes := does_of_holds hfoot.right.tail_jump rfl h
        cases hdoes
        exact .outside (.inr (Nat.le_add_right _ 1))
  | bounded hip hbound hn =>
    rcases hip with rfl | rfl
    · have hdoes := does_of_holds hinit.tail rfl h
      cases hdoes
      exact .bounded (.inr rfl) hbound hn
    · have hdoes := does_of_holds hinit.tail.tail rfl h
      cases hdoes
      exact .reset rfl hbound hn rfl
  | reset hip hbound hn hstack =>
    obtain rfl : ip = _ := hip
    obtain rfl : stack = _ := hstack
    exact step_reset hloop hbound hn h
  | counted hip hcounts hle =>
    rcases hip with rfl | rfl | rfl | rfl
    · have hdoes := does_of_holds hinit.tail.tail.tail.tail rfl h
      cases hdoes
      exact .counted (.inr (.inl rfl)) hcounts hle
    · have hdoes := does_of_holds htest rfl h
      cases hdoes with
      | load hv =>
        rw [Layout.toNat_counterSlot hloop.room, hcounts.counter] at hv
        cases hv
        exact .loaded rfl hcounts hle rfl
    · have hdoes := does_of_holds hfoot.left.tail.tail.tail.tail rfl h
      cases hdoes
      exact .counted (.inr (.inr (.inr rfl))) hcounts hle
    · exact step_back hloop hcounts hle h
  | loaded hip hcounts hle hstack =>
    obtain rfl : ip = _ := hip
    obtain rfl : stack = _ := hstack
    have hdoes := does_of_holds htest.tail rfl h
    cases hdoes with
    | load hv =>
      rw [Layout.toNat_boundSlot hloop.room, hcounts.bound] at hv
      cases hv
      exact .loadedBoth rfl hcounts hle rfl
  | loadedBoth hip hcounts hle hstack =>
    obtain rfl : ip = _ := hip
    obtain rfl : stack = _ := hstack
    have hdoes := does_of_holds htest.tail.tail rfl h
    cases hdoes
    exact .tested rfl hcounts rfl
  | tested hip hcounts hstack =>
    obtain rfl : ip = _ := hip
    obtain rfl : stack = _ := hstack
    exact step_tested hloop hcounts h
  | inside hip hcounts hlt =>
    rcases Nat.lt_or_eq_of_le hip.1 with hbegun | rfl
    · rcases Nat.lt_or_eq_of_le hip.2 with hend | rfl
      · obtain ⟨hleads, hkept⟩ := hbody hbegun (Nat.lt_of_lt_of_eq hend (by omega))
        rcases hleads with hwithin | hleft
        · exact .inside (hwithin.mono (Nat.le_add_right _ 1) (by omega)) (hkept _ _ hcounts) hlt
        · exact .outside (.inr (by omega))
      · have hdoes := does_of_holds hfoot.left (show k + 24 + (size + 1) = k + size + 25 by omega) h
        cases hdoes with
        | load hv =>
          replace hv : slots[l.counterSlot.toNat]? = _ := hv
          rw [Layout.toNat_counterSlot hloop.room, hcounts.counter] at hv
          cases hv
          exact .reloaded rfl hcounts hlt rfl
    · have hdoes := does_of_holds hhead.right.tail_jump rfl h
      cases hdoes
      exact .inside (show Extent (k + 24) (size + 1) (k + 25) from ⟨Nat.le_succ _, by omega⟩) hcounts hlt
  | reloaded hip hcounts hlt hstack =>
    obtain rfl : ip = _ := hip
    obtain rfl : stack = _ := hstack
    have hdoes := does_of_holds hfoot.left.tail rfl h
    cases hdoes
    exact .incrementing rfl hcounts hlt rfl
  | incrementing hip hcounts hlt hstack =>
    obtain rfl : ip = _ := hip
    obtain rfl : stack = _ := hstack
    have hdoes := does_of_holds hfoot.left.tail.tail rfl h
    cases hdoes with
    | add hsum => exact .incremented rfl hcounts hlt rfl hsum
  | incremented hip hcounts hlt hstack hsucc =>
    obtain rfl : ip = _ := hip
    obtain rfl : stack = _ := hstack
    exact step_incremented hloop hcounts hlt hsucc h

end InLoop

/-- How code treats a loop in it: from outside it leads to the head of the loop, or past it, and the body
leads to itself or out of the loop, and stores to neither slot of the loop. -/
structure Fragment.Spares (code : Fragment) (l : Layout) (k size : Nat) : Prop where
  outside : code.Each (fun q i => q < k ∨ k + size + 44 < q →
    ∀ t, i.LeadsTo q t → t ≤ k ∨ k + size + 44 ≤ t) 0
  body : code.Each (fun q i => k + 25 ≤ q → q < k + size + 25 →
    (∀ t, i.LeadsTo q t → Extent (k + 25) size t ∨ t = k + size + 45) ∧ i.Keeps l.addLoop fun _ => True) 0

theorem Layout.Counts.of_does {i : Item} {ip : Nat} {stack : List Value} {slots : Array (Option Value)}
    {n c : Int64} (h : l.Counts slots n c) (hkeeps : i.Keeps l.addLoop fun _ => True)
    (hdoes : i.instruction.Does ⟨ip, stack, slots⟩ m') : l.Counts m'.slots n c := by
  constructor
  · rw [hdoes.getElem?_slots fun slot hslot hj => hkeeps.1 slot hslot ?_]
    · exact h.bound
    · rw [hj]
      exact Layout.getElem?_bound List.prefix_rfl
  · rw [hdoes.getElem?_slots fun slot hslot hj => hkeeps.1 slot hslot ?_]
    · exact h.counter
    · rw [hj]
      exact Layout.getElem?_counter List.prefix_rfl

end Loop

/-! ### Programs -/

namespace Program.Accepted

variable {p : Program} {types : Types} {m m' : Machine}

/-- A program executes the items of its code. -/
theorem exists_item_of_execute (hp : p.Accepted types) (hsteps : Steps p.chunk (.ofChunk p.chunk) m)
    (h : m.execute p.chunk = .ok () m') : ∃ i, (m.ip, i) ∈ p.code.located 0 ∧ i.Fits ∧
      i.instruction.Does ⟨m.ip + i.instruction.size, m.stack, m.slots⟩ m' := by
  obtain ⟨Γ, htyped⟩ := hp.exists_typed
  rcases Fragment.boundary_iff.1 (typed_of_steps hp htyped hsteps).target with hend | ⟨i, hi⟩
  · refine absurd ?_ (not_isFinished_of_execute h)
    rw [isFinished, hend, p.size_chunk, Nat.zero_add]
    exact decide_eq_true (Block.size_code p .initial hole 0).ge
  · obtain ⟨rest, hrest⟩ := (Program.holds_code hp.fits).of_mem_located hi
    exact ⟨i, hi, hrest.fits i List.mem_cons_self, does_of_holds hrest rfl h⟩

/-- A program whose constants are not negative holds no negative number. -/
theorem nonNegative_of_steps (hp : p.Accepted types)
    (hconstants : Token.Constants Value.NonNegative (Block.tokens p))
    (hsteps : Steps p.chunk (.ofChunk p.chunk) m) : m.NonNegative := by
  have hkeeps : p.code.Keeps .initial Value.NonNegative :=
    Block.keeps_code ⟨by decide, by decide⟩ p hp.grammatical hconstants hp.room
  obtain ⟨Γ, htyped⟩ := hp.exists_typed
  refine Machine.nonNegative_of_steps (fun m hm v hv => ?_) hsteps
  rcases Fragment.boundary_iff.1 (typed_of_steps hp htyped hm).target with hend | ⟨i, hi⟩
  · have hle := Chunk.add_size_le_of_decode hv
    have hsize := Block.size_code p .initial hole 0
    rw [hend, p.size_chunk, ← hsize, Nat.zero_add] at hle
    exact absurd hle (by simp [Program.code])
  · rw [(Program.holds_code hp.fits).decode_of_mem hi, Except.ok.injEq] at hv
    exact (hkeeps i (Fragment.mem_of_mem_located hi)).2 v hv

/-- A program spares the loops in it. -/
theorem exists_spares (hp : p.Accepted types) {o : Nat} {keyword times closer : Token} {count : Expression}
    {body : List Statement} (h : (o, .loop keyword count times body closer) ∈ Block.starts 0 p) :
    ∃ l : Layout, l.addLoop <+: p.layout ∧ p.chunk.LoopAt l (o + count.size) (Block.size body) ∧
      p.code.Spares l (o + count.size) (Block.size body) := by
  obtain ⟨inLoop, hgram⟩ := Block.grammatical_starts p 0 hp.grammatical _ h
  obtain ⟨l, leave, hlayout, hcontains⟩ := Block.has_starts (F := p.layout) p List.prefix_rfl _ h
  have havoids := @Block.avoids_code p none .initial hole 0 hp.grammatical nofun nofun _ h
  have hl : l.addLoop <+: p.layout := (Block.prefix_layout body l.addLoop).trans hlayout
  have hroom := Nat.le_trans hl.length_le hp.room
  have hhold := (Program.holds_code hp.fits).of_contains hcontains
  have hcount : p.code.Contains 0 o (count.code l.slot) :=
    hcontains.trans (.left (.left (.left (.refl _ _))))
  have hbody : p.code.Contains 0 (o + count.size + 25) (Block.code l.addLoop
      (jumpDistance (o + count.size + Block.size body + 45)) (o + count.size + 25) body) := by
    refine hcontains.trans (.left (.right ?_))
    rw [Fragment.size_append, count.size_code, Statement.size_loopHead, ← Nat.add_assoc]
    exact .refl _ _
  refine ⟨l, hl, ⟨hroom, ⟨keyword.line, ?_⟩, ⟨closer.line, ?_⟩⟩, ⟨?_, ?_⟩⟩
  · have hhead := hhold.left.left.right
    rwa [count.size_code] at hhead
  · have hfoot := hhold.right
    simp only [Fragment.size_append, count.size_code, Statement.size_loopHead, Block.size_code body,
      ← Nat.add_assoc] at hfoot
    rwa [Nat.add_right_comm _ 25] at hfoot
  · intro q i hi hout t ht
    by_cases hq : q < o ∨ o + count.size + Block.size body + 45 ≤ q
    · have h := havoids q i hi (by simp only [Statement.size]; omega) t ht
      simp only [Statement.size] at h
      omega
    · have hi' := hcount.mem_located hi (by omega) (by rw [count.size_code]; omega)
      have h := count.leads_code l.slot o q i hi' t ht
      exact .inl h.2
  · intro q i hi hq hq'
    have hi' := hbody.mem_located hi hq (by rw [Block.size_code]; omega)
    refine ⟨fun t ht => ?_, ?_⟩
    · have h := Block.leads_code body (some (o + count.size + Block.size body + 45)) hgram.2.2.2.1
        (by rintro stop ⟨⟩; rfl) q i hi' t ht
      exact h.imp_right fun hexit => (Option.some.inj hexit).symm
    · exact Block.keeps_code ⟨trivial, trivial⟩ body hgram.2.2.2.1 (fun _ _ _ _ => trivial)
        (Nat.le_trans hlayout.length_le hp.room) i (Fragment.mem_of_mem_located hi')

/-- What is known of the slots of a loop is known throughout the run. -/
theorem inLoop_of_steps (hp : p.Accepted types)
    (hconstants : Token.Constants Value.NonNegative (Block.tokens p)) {l : Layout} {k size : Nat}
    (hl : l.addLoop <+: p.layout) (hloop : p.chunk.LoopAt l k size) (hspares : p.code.Spares l k size)
    (hsteps : Steps p.chunk (.ofChunk p.chunk) m) : InLoop l k size m := by
  obtain ⟨Γ, htyped⟩ := hp.exists_typed
  induction hsteps with
  | refl => exact .outside (.inl (Nat.zero_le k))
  | @tail m m' hsteps hstep ih =>
    obtain ⟨i, hi, hfits, hdoes⟩ := hp.exists_item_of_execute hsteps hstep
    have hleads : i.LeadsTo m.ip m'.ip := Item.leadsTo_of_instruction hfits hdoes.leadsTo
    refine ih.step hloop (fun hout => hspares.outside _ i hi hout _ hleads) (fun hq hq' => ?_) ?_ hstep
    · obtain ⟨hbody, hkeeps⟩ := hspares.body _ i hi hq hq'
      exact ⟨hbody _ hleads, fun n c hcounts => Layout.Counts.of_does hcounts hkeeps hdoes⟩
    · intro v hv
      have hsteps' := Relation.ReflTransGen.tail hsteps hstep
      have hty : (p.typing Γ).slot l.length = some v.ty := (typed_of_steps hp htyped hsteps').slots _ v hv
      have hnumber : p.layout.slotTy Γ l.boundSlot.toNat = some .number := Layout.slotTy_boundSlot hl hp.room
      rw [Layout.toNat_boundSlot hloop.room] at hnumber
      have hnonneg := (hp.nonNegative_of_steps hconstants hsteps').slots _ v hv
      cases v with
      | number n => exact ⟨n, rfl, hnonneg⟩
      | boolean b => cases hnumber.symm.trans hty

end Program.Accepted

end BoundedLoop
