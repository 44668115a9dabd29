import BoundedLoop.Proofs.Static.Starts

/-!
# Compiled code is well formed

`wellFormed_of_compiled`: what a chunk holds can be decoded from its start to its end, each
instruction comes from one line, slots are those of the chunk, jumps lead to instructions or to the
end, and jumps on a condition lead forward. The only jumps that lead back are those at the ends of the
loops, one for each loop, and they lead to the test of the loop's counter.
-/

namespace BoundedLoop

/-! ### Jumps that lead back -/

/-- The offset and the target of a jump that leads back. -/
def Instruction.back? (offset : Nat) : Instruction → Option (Nat × Int)
  | jump d => if d.toInt < 0 then some (offset, (offset + 3 : Nat) + d.toInt) else none
  | _ => none

def Chunk.backJumps (c : Chunk) : List (Nat × Int) :=
  c.instructions.filterMap fun q => q.2.toOption.bind (Instruction.back? q.1)

def Item.back? (offset : Nat) : Item → Option (Nat × Int)
  | op i _ => i.back? offset
  | jump .always d _ => if d < 0 then some (offset, (offset + 3 : Nat) + d) else none
  | jump .ifFalse _ _ => none

theorem Item.back?_instruction {i : Item} (h : i.Fits) (offset : Nat) :
    i.instruction.back? offset = i.back? offset := by
  cases i with
  | op i line => rfl
  | jump branch d line =>
    have hd : (Int16.ofInt d).toInt = d := Machine.toInt_distance h
    cases branch with
    | always =>
      show (if (Int16.ofInt d).toInt < 0 then
        some (offset, ((offset + 3 : Nat) : Int) + (Int16.ofInt d).toInt) else none) = _
      rw [hd]
      rfl
    | ifFalse => rfl

namespace Fragment

/-- The jumps of code that begins at `k` that lead back. -/
def backJumps (k : Nat) (code : Fragment) : List (Nat × Int) :=
  (code.located k).filterMap fun q => q.2.back? q.1

theorem backJumps_append (k : Nat) (a b : Fragment) :
    backJumps k (a ++ b) = backJumps k a ++ backJumps (k + a.size) b := by
  rw [backJumps, located_append, List.filterMap_append]
  rfl

theorem backJumps_cons_of_none {k : Nat} {i : Item} (code : Fragment) (h : i.back? k = none) :
    backJumps k (i :: code) = backJumps (k + i.instruction.size) code := by
  rw [backJumps, located, List.filterMap_cons, h]
  rfl

theorem backJumps_cons_of_some {k : Nat} {i : Item} (code : Fragment) {q : Nat × Int}
    (h : i.back? k = some q) :
    backJumps k (i :: code) = q :: backJumps (k + i.instruction.size) code := by
  rw [backJumps, located, List.filterMap_cons, h]
  rfl

theorem backJumps_jump {k line : Nat} {d : Int} (code : Fragment) (h : 0 ≤ d) :
    backJumps k (.jump .always d line :: code) = backJumps (k + 3) code := by
  refine backJumps_cons_of_none code (if_neg ?_)
  omega

end Fragment

theorem Program.backJumps_chunk {p : Program} (hfits : p.code.Fits) :
    p.chunk.backJumps = p.code.backJumps 0 := by
  rw [Chunk.backJumps, instructions_chunk hfits, List.filterMap_map, Fragment.backJumps]
  exact List.filterMap_congr fun q hq =>
    Item.back?_instruction (hfits q.2 (Fragment.mem_of_mem_located hq)) q.1

/-! ### Only loops jump back -/

theorem BinaryOp.backJumps_code {op : BinaryOp} {line : Nat} {right : Fragment}
    (h : ∀ k, right.backJumps k = []) (k : Nat) : (op.code line right).backJumps k = [] := by
  cases op with
  | or =>
    rw [BinaryOp.code, Fragment.backJumps_cons_of_none _ rfl, Fragment.backJumps_jump _ (by omega),
      Fragment.backJumps_cons_of_none _ rfl, h]
  | and =>
    rw [BinaryOp.code, Fragment.backJumps_cons_of_none _ rfl, Fragment.backJumps_cons_of_none _ rfl,
      h]
  | _ =>
    show Fragment.backJumps k (right ++ _) = []
    rw [Fragment.backJumps_append, h]
    rfl

theorem Expression.backJumps_code (slot : String → UInt8) (e : Expression) (k : Nat) :
    (e.code slot).backJumps k = [] := by
  induction e generalizing k with
  | constant t v => rfl
  | reference t name => rfl
  | group opening e closing ih => exact ih k
  | negation t e ih =>
    rw [code, Fragment.backJumps_append, ih]
    rfl
  | binary l t op r ihl ihr =>
    rw [code, Fragment.backJumps_append, ihl, BinaryOp.backJumps_code ihr]
    rfl

/-- An arm jumps back only in its body, if it leaves forward. -/
theorem Arms.backJumps_armCode {condition : Expression} {slot : String → UInt8} {body : Fragment}
    {exit : Int} {k line : Nat} (h : 0 ≤ exit) :
    (Arms.armCode line (condition.code slot) body exit).backJumps k =
      body.backJumps (k + condition.size + 4) := by
  have hcode : Arms.armCode line (condition.code slot) body exit = condition.code slot ++
      (.jump .ifFalse (body.size + 4) line :: .op .pop line ::
        (body ++ [.jump .always exit line, .op .pop line])) := by
    simp [Arms.armCode]
  rw [hcode, Fragment.backJumps_append, Expression.backJumps_code, condition.size_code,
    Fragment.backJumps_cons_of_none _ rfl, Fragment.backJumps_cons_of_none _ rfl,
    Fragment.backJumps_append, Fragment.backJumps_jump _ h]
  exact List.append_nil _

theorem Statement.backJumps_loopFoot {l : Layout} {line k : Nat} {back : Int} (h : back < 0) :
    (Statement.loopFoot l line back).backJumps k = [(k + 16, (k + 19 : Nat) + back)] := by
  have hjump : (Item.jump .always back line).back? (k + 16) =
      some (k + 16, ((k + 19 : Nat) : Int) + back) := if_pos h
  have hstep : (Statement.loopStep l line).backJumps k = [] := rfl
  rw [Statement.loopFoot, Fragment.backJumps_append, hstep, Statement.size_loopStep,
    List.nil_append, Fragment.backJumps_cons_of_some _ hjump]
  rfl

/-- Where the jump at the end of a loop stands, and where it leads. -/
def Statement.circuit? : Nat × Statement → Option (Nat × Int)
  | (offset, .loop _ count _ body _) =>
    some (offset + count.size + Block.size body + 41, (offset + count.size + 16 : Nat))
  | _ => none

theorem le_jumpDistance {stop k : Nat} (h : k + 3 ≤ stop) : 0 ≤ jumpDistance stop k := by
  simp only [jumpDistance]
  omega

mutual

theorem Statement.backJumps_code : ∀ (s : Statement) (exit : Option Nat) {l : Layout}
    {leave : Nat → Int} {k : Nat}, s.Grammatical exit.isSome →
    (∀ stop, exit = some stop → leave = jumpDistance stop) → EndsBefore exit (k + s.size) →
    ((s.code l leave k).backJumps k).Perm ((s.starts k).filterMap Statement.circuit?)
  | .assign target name arrow value, exit, l, leave, k, _, _, _ => by
    rw [Statement.code, Fragment.backJumps_append, Expression.backJumps_code]
    exact .nil
  | .choice arms closer, exit, l, leave, k, hgram, hleave, hexit => by
    rw [Statement.starts, List.filterMap_cons_none rfl]
    exact arms.backJumps_code exit _ hgram.1 hleave hexit rfl
  | .loop keyword count times body closer, exit, l, leave, k, hgram, _, _ => by
    have hbody : ((Block.code l.addLoop (jumpDistance (k + count.size + Block.size body + 45))
        (k + count.size + 25) body).backJumps (k + count.size + 25)).Perm
        ((Block.starts (k + count.size + 25) body).filterMap Statement.circuit?) := by
      refine Block.backJumps_code body (some (k + count.size + Block.size body + 45)) hgram.2.2.2.1
        ?_ ?_
      · rintro stop ⟨⟩
        rfl
      · rintro stop ⟨⟩
        omega
    have hhead : (Statement.loopHead l keyword.line (Block.size body + 20)).backJumps
        (k + count.size) = [] := rfl
    have hback : -((Block.size body : Int) + 28) < 0 := by omega
    have htarget : ((k + count.size + 25 + Block.size body + 19 : Nat) : Int) +
        -((Block.size body : Int) + 28) = ((k + count.size + 16 : Nat) : Int) := by
      push_cast
      omega
    have hat : k + count.size + 25 + Block.size body + 16 =
        k + count.size + Block.size body + 41 := by omega
    have hcircuit : Statement.circuit? (k, .loop keyword count times body closer) =
        some (k + count.size + Block.size body + 41, ((k + count.size + 16 : Nat) : Int)) := rfl
    rw [Statement.starts, List.filterMap_cons_some hcircuit]
    simp only [Statement.code, Fragment.backJumps_append, Expression.backJumps_code,
      Fragment.size_append, count.size_code, Statement.size_loopHead, Block.size_code body,
      ← Nat.add_assoc, hhead, List.nil_append, Statement.backJumps_loopFoot hback, htarget, hat]
    exact (List.perm_append_singleton _ _).trans (hbody.cons _)
  | .abort token, exit, l, leave, k, hgram, hleave, hexit => by
    obtain ⟨stop, rfl⟩ := Option.isSome_iff_exists.1 hgram.1
    obtain rfl := hleave stop rfl
    rw [Statement.code, Fragment.backJumps_jump _ (le_jumpDistance (hexit stop rfl))]
    exact .nil

theorem Arms.backJumps_code : ∀ (a : Arms) (exit : Option Nat) (stop : Nat) {l : Layout}
    {leave : Nat → Int} {k : Nat}, a.Grammatical exit.isSome →
    (∀ stop, exit = some stop → leave = jumpDistance stop) → EndsBefore exit (k + a.size) →
    stop = k + a.size →
    ((a.code l leave (jumpDistance stop) k).backJumps k).Perm
      ((a.starts k).filterMap Statement.circuit?)
  | .last keyword condition thenWord body elseWord alternative, exit, stop, l, leave, k, hgram,
      hleave, hexit, hstop => by
    simp only [Arms.size] at hexit hstop
    have hbody := Block.backJumps_code body exit (l := l) (k := k + condition.size + 4) hgram.2.2.2.1
      hleave (hexit.of_le (by omega))
    have hrest := Block.backJumps_code alternative exit (l := Block.layout l body)
      (k := k + condition.size + Block.size body + 8) hgram.2.2.2.2.1 hleave (hexit.of_le (by omega))
    rw [Arms.code, Fragment.backJumps_append, Arms.backJumps_armCode (le_jumpDistance (by omega)),
      Arms.size_armCode, condition.size_code, Block.size_code, Arms.starts, List.filterMap_append,
      ← Nat.add_assoc, ← Nat.add_assoc]
    exact hbody.append hrest
  | .elseIf keyword condition thenWord body elseWord rest, exit, stop, l, leave, k, hgram,
      hleave, hexit, hstop => by
    simp only [Arms.size] at hexit hstop
    have hbody := Block.backJumps_code body exit (l := l) (k := k + condition.size + 4) hgram.2.2.2.1
      hleave (hexit.of_le (by omega))
    have hrest := rest.backJumps_code exit stop (l := Block.layout l body)
      (k := k + condition.size + Block.size body + 8) hgram.2.2.2.2.2 hleave
      (hexit.of_le (by omega)) (by omega)
    rw [Arms.code, Fragment.backJumps_append, Arms.backJumps_armCode (le_jumpDistance (by omega)),
      Arms.size_armCode, condition.size_code, Block.size_code, Arms.starts, List.filterMap_append,
      ← Nat.add_assoc, ← Nat.add_assoc]
    exact hbody.append hrest

theorem Block.backJumps_code : ∀ (ss : List Statement) (exit : Option Nat) {l : Layout}
    {leave : Nat → Int} {k : Nat}, Block.Grammatical exit.isSome ss →
    (∀ stop, exit = some stop → leave = jumpDistance stop) → EndsBefore exit (k + Block.size ss) →
    ((Block.code l leave k ss).backJumps k).Perm ((Block.starts k ss).filterMap Statement.circuit?)
  | [], exit, l, leave, k, _, _, _ => .nil
  | s :: ss, exit, l, leave, k, hgram, hleave, hexit => by
    rw [Block.size, ← Nat.add_assoc] at hexit
    have hs := s.backJumps_code exit (l := l) hgram.1 hleave (hexit.of_le (Nat.le_add_right _ _))
    have hss := Block.backJumps_code ss exit (l := s.layout l) hgram.2 hleave hexit
    rw [Block.code, Fragment.backJumps_append, s.size_code, Block.starts, List.filterMap_append]
    exact hs.append hss

end

/-! ### The circuits of loops -/

/-- A loop with its test at `test` and its jump back at `back`. The test loads the loop's counter first,
and leaves for behind the jump; in front of the jump the same counter is incremented. -/
def Chunk.CirclesAt (c : Chunk) (l : Layout) (test back : Nat) : Prop :=
  ∃ (counter bound : UInt8) (exit : Int16) (start : Nat),
    (l[counter.toNat]? = some none ∧ l[bound.toNat]? = some none ∧ counter ≠ bound) ∧
    (c.decode test = .ok (.load counter) ∧ c.decode (test + 2) = .ok (.load bound) ∧
      c.decode (test + 4) = .ok .less ∧ c.decode (test + 5) = .ok (.jumpIfFalse exit) ∧
      ((test + 8 : Nat) : Int) + exit.toInt = (back + 3 : Nat)) ∧
    back = start + 16 ∧ c.decode start = .ok (.load counter) ∧
      c.decode (start + 2) = .ok (.push (.number 1)) ∧ c.decode (start + 12) = .ok .add ∧
      c.decode (start + 13) = .ok (.store counter)

theorem Statement.circlesAt_of_hasStatement {c : Chunk} {F : Layout} {offset : Nat}
    {keyword times closer : Token} {count : Expression} {body : List Statement}
    (hF : F.length ≤ Chunk.maxSlots)
    (h : c.HasStatement F (offset, .loop keyword count times body closer)) :
    c.CirclesAt F (offset + count.size + 16) (offset + count.size + Block.size body + 41) := by
  obtain ⟨l, leave, hlayout, hold⟩ := h
  have hl : l.addLoop <+: F := (Block.prefix_layout body l.addLoop).trans hlayout
  have hroom : l.addLoop.length ≤ Chunk.maxSlots := Nat.le_trans hl.length_le hF
  have hbound := Layout.toNat_boundSlot hroom
  have hcounter := Layout.toNat_counterSlot hroom
  have hhead := hold.left.left.right
  have hfoot := hold.right
  simp only [Fragment.size_append, count.size_code, Statement.size_loopHead, Block.size_code body,
    ← Nat.add_assoc] at hhead hfoot
  have htest := hhead.left.right
  rw [Statement.size_loopInit] at htest
  have hexit := hhead.right
  simp only [Fragment.size_append, Statement.size_loopInit, Statement.size_loopTest] at hexit
  have hstep := hfoot.left
  have hdistance : (Int16.ofInt (Block.size body + 20)).toInt = Block.size body + 20 :=
    Machine.toInt_distance (hexit.fits _ List.mem_cons_self)
  refine ⟨l.counterSlot, l.boundSlot, Int16.ofInt (Block.size body + 20),
    offset + count.size + 25 + Block.size body, ⟨?_, ?_, ?_⟩,
    ⟨htest.decode, htest.tail.decode, htest.tail.tail.decode, hexit.decode, ?_⟩, by omega,
    hstep.decode, hstep.tail.decode, hstep.tail.tail.decode, hstep.tail.tail.tail.decode⟩
  · rw [hcounter]
    exact Layout.getElem?_counter hl
  · rw [hbound]
    exact Layout.getElem?_bound hl
  · intro heq
    rw [heq] at hcounter
    omega
  · rw [hdistance]
    push_cast
    omega

/-! ### Well-formed chunks -/

/-- What can be said about a chunk by decoding it once, from its start to its end. -/
structure Chunk.WellFormed (c : Chunk) : Prop where
  decodes : ∀ q ∈ c.instructions, ∃ i, q.2 = .ok i
  lines : c.lines.length = c.bytes.length
  line : ∀ o i, (o, .ok i) ∈ c.instructions →
    ∃ line, ∀ j, j < i.size → c.lineAt? (o + j) = some line
  slotCount : c.slotCount ≤ 256
  slot : ∀ o slot, (o, .ok (.load slot)) ∈ c.instructions ∨ (o, .ok (.store slot)) ∈ c.instructions →
    slot.toNat < c.slotCount
  target : ∀ o d, (o, .ok (.jump d)) ∈ c.instructions ∨ (o, .ok (.jumpIfFalse d)) ∈ c.instructions →
    d ≠ -1 ∧ ∃ t : Nat, ((o + 3 : Nat) : Int) + d.toInt = t ∧
      (t = c.size ∨ ∃ i, (t, .ok i) ∈ c.instructions)
  forward : ∀ o d, (o, .ok (.jumpIfFalse d)) ∈ c.instructions → 0 < d.toInt

section Programs

variable {p : Program} {types : Types} {Γ : String → Ty}

theorem Program.mem_instructions_iff (hfits : p.code.Fits) {o : Nat}
    {r : Except DecodeError Instruction} :
    (o, r) ∈ p.chunk.instructions ↔
      ∃ i, (o, i) ∈ p.code.located 0 ∧ r = .ok i.instruction := by
  rw [instructions_chunk hfits, List.mem_map]
  constructor
  · rintro ⟨⟨o', i⟩, hi, heq⟩
    cases heq
    exact ⟨i, hi, rfl⟩
  · rintro ⟨i, hi, rfl⟩
    exact ⟨(o, i), hi, rfl⟩

/-- The instructions of a typed program are typed. -/
theorem Program.typed_of_mem (hfits : p.code.Fits)
    (htyped : Fragment.Typed (p.typing Γ) 0 p.code) {o : Nat} {i : Instruction}
    (h : (o, .ok i) ∈ p.chunk.instructions) : i.Typed (p.typing Γ) o := by
  obtain ⟨item, hitem, heq⟩ := (mem_instructions_iff hfits).1 h
  cases heq
  exact (htyped.of_mem hitem).instruction (hfits item (Fragment.mem_of_mem_located hitem))

/-- Jumps that arrive at a boundary arrive at an instruction or at the end. -/
theorem Program.target_of_lands (hfits : p.code.Fits) {o : Nat} {d : Int}
    (h : (p.typing Γ).Lands o d) :
    ∃ t : Nat, ((o + 3 : Nat) : Int) + d = t ∧
      (t = p.chunk.size ∨ ∃ i, (t, .ok i) ∈ p.chunk.instructions) := by
  obtain ⟨t, ht, hboundary, -⟩ := h
  refine ⟨t, ht, ?_⟩
  rcases Fragment.boundary_iff.1 hboundary with rfl | ⟨i, hi⟩
  · left
    rw [p.size_chunk, Nat.zero_add]
    exact Block.size_code p .initial hole 0
  · exact .inr ⟨i.instruction, (mem_instructions_iff hfits).2 ⟨i, hi, rfl⟩⟩

theorem Layout.lt_of_slotTy {l : Layout} {j : Nat} {ty : Ty} (h : l.slotTy Γ j = some ty) :
    j < l.length := by
  obtain ⟨owner, howner, -⟩ := Option.map_eq_some_iff.1 h
  exact (List.getElem?_eq_some_iff.1 howner).1

theorem Int16.ne_neg_one {d : Int16} (h : d.toInt ≠ -1) : d ≠ -1 := by
  rintro rfl
  exact h (by decide)

theorem Program.Accepted.wellFormed (h : p.Accepted types) : p.chunk.WellFormed := by
  obtain ⟨Γ, htyped⟩ := h.exists_typed
  have hmem := fun {o i} => Program.typed_of_mem (o := o) (i := i) h.fits htyped
  refine ⟨?_, ?_, ?_, h.room, ?_, ?_, ?_⟩
  · rintro ⟨o, r⟩ hq
    obtain ⟨i, -, rfl⟩ := (Program.mem_instructions_iff h.fits).1 hq
    exact ⟨i.instruction, rfl⟩
  · simp [Chunk.lines, Chunk.bytes]
  · intro o i hi
    obtain ⟨item, hitem, heq⟩ := (Program.mem_instructions_iff h.fits).1 hi
    cases heq
    obtain ⟨rest, hrest⟩ := (Program.holds_code h.fits).of_mem_located hitem
    exact ⟨item.line, fun j hj => hrest.lineAt? hj⟩
  · rintro o slot (hi | hi)
    · obtain ⟨ty, hslot, -⟩ := hmem hi
      exact Layout.lt_of_slotTy hslot
    · obtain ⟨ty, rest, hslot, -⟩ := hmem hi
      exact Layout.lt_of_slotTy hslot
  · rintro o d (hi | hi)
    · obtain ⟨hne, hlands⟩ := hmem hi
      exact ⟨Int16.ne_neg_one hne, Program.target_of_lands h.fits hlands⟩
    · obtain ⟨hpos, hlands, -⟩ := hmem hi
      exact ⟨Int16.ne_neg_one (by omega), Program.target_of_lands h.fits hlands⟩
  · intro o d hi
    exact (hmem hi).1

end Programs

/-- Whatever tokens are compiled to is well formed. Its jumps back are those of the loops, one for
each, and each of them leads to where the counter of its loop is loaded for the test. -/
theorem wellFormed_of_compiled {tokens : List Token} {chunk : Chunk}
    (h : compileTokens tokens = .ok chunk) :
    chunk.WellFormed ∧
      ∃ p : Program, (Block.Grammatical false p ∧
          Block.tokens p = tokens.takeWhile (·.kind ≠ .eof)) ∧
        chunk.backJumps.Perm ((Block.starts 0 p).filterMap Statement.circuit?) ∧
        ∀ o keyword count times body closer,
          (o, Statement.loop keyword count times body closer) ∈ Block.starts 0 p →
          chunk.CirclesAt p.layout (o + count.size + 16)
            (o + count.size + Block.size body + 41) := by
  obtain ⟨p, types, hp, htokens, rfl⟩ := compileTokens_eq_ok_iff.1 h
  refine ⟨hp.wellFormed, p, ⟨hp.grammatical, htokens⟩, ?_, ?_⟩
  · rw [Program.backJumps_chunk hp.fits]
    exact Block.backJumps_code p none hp.grammatical nofun nofun
  · intro o keyword count times body closer ho
    have hstarts := Block.hasStatement_starts p List.prefix_rfl (Program.holds_code hp.fits)
    exact Statement.circlesAt_of_hasStatement hp.room (hstarts _ ho)

theorem wellFormed_of_compiled_searchText : ∃ (tokens : List Token) (chunk : Chunk),
    Token.scan searchText = .ok tokens ∧ compileTokens tokens = .ok chunk ∧ chunk.WellFormed ∧
      ∃ p : Program, Block.tokens p = tokens.takeWhile (·.kind ≠ .eof) ∧
        chunk.backJumps.Perm ((Block.starts 0 p).filterMap Statement.circuit?) := by
  obtain ⟨chunk, hchunk⟩ := compile_searchText
  obtain ⟨tokens, hscan, htokens⟩ := compile_eq_ok_iff.1 hchunk
  obtain ⟨hwell, p, hp, hback, -⟩ := wellFormed_of_compiled htokens
  exact ⟨tokens, chunk, hscan, htokens, hwell, p, hp.2, hback⟩

end BoundedLoop
