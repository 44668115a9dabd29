import BoundedLoop.Proofs.Semantics.Does
import BoundedLoop.Proofs.Static.Starts

/-!
# Where code leads

An instruction leads to the one behind it, and a jump to where it jumps (`Item.LeadsTo`). The code of a
statement leads only to itself, to right behind it, or out of the innermost loop around it
(`Statement.leads_code`). From outside, no code leads into the middle of a statement
(`Block.avoids_code`).
-/

namespace BoundedLoop

/-! ### All instructions of a piece of code -/

namespace Fragment

/-- What holds of every instruction of code that begins at `k`, and of the offset of the instruction. -/
def Each (P : Nat → Item → Prop) (k : Nat) (code : Fragment) : Prop :=
  ∀ q i, (q, i) ∈ code.located k → P q i

variable {P P' : Nat → Item → Prop} {k q : Nat} {i : Item} {a b code : Fragment}

@[simp] theorem each_nil : Each P k [] := nofun

@[simp] theorem each_cons : Each P k (i :: code) ↔ P k i ∧ Each P (k + i.instruction.size) code := by
  constructor
  · intro h
    exact ⟨h k i List.mem_cons_self, fun q j hj => h q j (List.mem_cons_of_mem _ hj)⟩
  · rintro ⟨hi, hcode⟩ q j hj
    rcases List.mem_cons.1 hj with hj | hj
    · cases hj
      exact hi
    · exact hcode q j hj

theorem each_append : Each P k (a ++ b) ↔ Each P k a ∧ Each P (k + a.size) b := by
  simp only [Each, located_append, List.mem_append, or_imp, forall_and]

theorem Each.mono (h : Each P k code) (hP : ∀ q i, P q i → P' q i) : Each P' k code :=
  fun q i hi => hP q i (h q i hi)

end Fragment

theorem Item.size_jump (branch : Branch) (d : Int) (line : Nat) :
    (Item.jump branch d line).instruction.size = 3 := by
  cases branch <;> rfl

theorem Arms.each_armCode {P : Nat → Item → Prop} {line k : Nat} {condition body : Fragment} {exit : Int} :
    (Arms.armCode line condition body exit).Each P k ↔
      condition.Each P k ∧ P (k + condition.size) (.jump .ifFalse (body.size + 4) line) ∧
      P (k + condition.size + 3) (.op .pop line) ∧ body.Each P (k + condition.size + 4) ∧
      P (k + condition.size + 4 + body.size) (.jump .always exit line) ∧
      P (k + condition.size + 4 + body.size + 3) (.op .pop line) := by
  have hcode : Arms.armCode line condition body exit = condition ++
      ([.jump .ifFalse (body.size + 4) line, .op .pop line] ++
        (body ++ [.jump .always exit line, .op .pop line])) := by
    simp [Arms.armCode]
  rw [hcode, Fragment.each_append, Fragment.each_append, Fragment.each_append]
  simp only [Fragment.each_cons, Fragment.each_nil, and_true, Item.size_jump, Fragment.size_cons_jump,
    Fragment.size_cons_op, Fragment.size_nil, Instruction.size_pop, Nat.reduceAdd, Nat.add_assoc, and_assoc]

namespace Item

/-- The item at `o` can be followed by that at `t`. -/
def LeadsTo (o t : Nat) : Item → Prop
  | op i _ => i.LeadsTo o t
  | jump .always d _ => (t : Int) = (o + 3 : Nat) + d
  | jump .ifFalse d _ => t = o + 3 ∨ (t : Int) = (o + 3 : Nat) + d

theorem leadsTo_of_instruction {i : Item} {o t : Nat} (h : i.Fits) (ht : i.instruction.LeadsTo o t) :
    i.LeadsTo o t := by
  cases i with
  | op i line => exact ht
  | jump branch d line =>
    have hd : (Int16.ofInt d).toInt = d := Machine.toInt_distance h
    cases branch with
    | always =>
      replace ht : (t : Int) = (o + 3 : Nat) + (Int16.ofInt d).toInt := ht
      rwa [hd] at ht
    | ifFalse =>
      replace ht : t = o + 3 ∨ (t : Int) = (o + 3 : Nat) + (Int16.ofInt d).toInt := ht
      rwa [hd] at ht

end Item

/-! ### What code leads to -/

/-- The `n` bytes from `k` on, and the offset behind them. -/
def Extent (k n t : Nat) : Prop := k ≤ t ∧ t ≤ k + n

/-- All instructions of the code lead to places with `A`. -/
abbrev Fragment.Leads (A : Nat → Prop) (k : Nat) (code : Fragment) : Prop :=
  code.Each (fun q i => ∀ t, i.LeadsTo q t → A t) k

theorem Extent.mono {k k' n n' t : Nat} (h : Extent k n t) (hk : k' ≤ k) (hn : k + n ≤ k' + n') :
    Extent k' n' t :=
  ⟨Nat.le_trans hk h.1, Nat.le_trans h.2 hn⟩

/-- The item leads to the one behind it only. -/
def Item.Straight (i : Item) : Prop :=
  ∀ o t, i.LeadsTo o t → t = o + i.instruction.size

namespace Fragment

variable {A A' : Nat → Prop} {k line : Nat} {i : Item} {a b code : Fragment} {d : Int}

theorem Leads.mono (h : code.Leads A k) (hA : ∀ t, A t → A' t) : code.Leads A' k :=
  Each.mono h fun _ _ hi t ht => hA t (hi t ht)

theorem leads_cons (hi : i.Straight) (hA : A (k + i.instruction.size))
    (hcode : code.Leads A (k + i.instruction.size)) : Leads A k (i :: code) :=
  each_cons.2 ⟨fun t ht => hi k t ht ▸ hA, hcode⟩

theorem leads_jump (hA : ∀ t : Nat, (t : Int) = (k + 3 : Nat) + d → A t)
    (hcode : code.Leads A (k + 3)) : Leads A k (.jump .always d line :: code) :=
  each_cons.2 ⟨hA, hcode⟩

theorem leads_jumpIfFalse (hA : A (k + 3)) (hjump : ∀ t : Nat, (t : Int) = (k + 3 : Nat) + d → A t)
    (hcode : code.Leads A (k + 3)) : Leads A k (.jump .ifFalse d line :: code) := by
  refine each_cons.2 ⟨?_, hcode⟩
  rintro t (rfl | ht)
  · exact hA
  · exact hjump t ht

/-- Code without jumps leads to itself. -/
theorem leads_of_straight (h : ∀ i ∈ code, i.Straight) : code.Leads (Extent k code.size) k := by
  intro q i hi t ht
  have hinside := inside_of_mem_located hi
  rw [h i (mem_of_mem_located hi) q t ht]
  exact ⟨by omega, hinside.2⟩

/-- Code of two parts that lead to themselves. -/
theorem Leads.append (ha : a.Leads (Extent k a.size) k)
    (hb : b.Leads (Extent (k + a.size) b.size) (k + a.size)) :
    (a ++ b).Leads (Extent k (a ++ b).size) k := by
  rw [size_append]
  exact each_append.2 ⟨ha.mono fun t ht => ht.mono (Nat.le_refl _) (by omega),
    hb.mono fun t ht => ht.mono (by omega) (by omega)⟩

end Fragment

theorem BinaryOp.straight_instructions (op : BinaryOp) (line : Nat) :
    ∀ i ∈ op.instructions.map (Item.op · line), i.Straight := by
  cases op <;>
    simp [BinaryOp.instructions, Item.Straight, Item.LeadsTo, Instruction.LeadsTo, Item.instruction]

theorem BinaryOp.leads_code {op : BinaryOp} {line k : Nat} {right : Fragment}
    (h : ∀ k, right.Leads (Extent k right.size) k) :
    (op.code line right).Leads (Extent k (op.code line right).size) k := by
  have hright : ∀ {j n : Nat}, k ≤ j → j + right.size ≤ k + n → right.Leads (Extent k n) j := fun hj hn =>
    (h _).mono fun t ht => ht.mono hj hn
  have hpop : (Item.op .pop line).Straight := fun _ _ => id
  have hone : (Item.op .pop line).instruction.size = 1 := rfl
  cases op with
  | or =>
    have hsize : (or.code line right).size = right.size + 7 := by
      simp only [BinaryOp.code, Fragment.size_cons_jump, Fragment.size_cons_op, Instruction.size_pop]
      omega
    rw [hsize]
    refine Fragment.leads_jumpIfFalse ⟨?_, ?_⟩ (fun t ht => ⟨?_, ?_⟩) <|
      Fragment.leads_jump (fun t ht => ⟨?_, ?_⟩) <| Fragment.leads_cons hpop ⟨?_, ?_⟩ <| hright ?_ ?_
    all_goals omega
  | and =>
    have hsize : (and.code line right).size = right.size + 4 := by
      simp only [BinaryOp.code, Fragment.size_cons_jump, Fragment.size_cons_op, Instruction.size_pop]
      omega
    rw [hsize]
    refine Fragment.leads_jumpIfFalse ⟨?_, ?_⟩ (fun t ht => ⟨?_, ?_⟩) <|
      Fragment.leads_cons hpop ⟨?_, ?_⟩ <| hright ?_ ?_
    all_goals omega
  | _ => exact (h k).append (Fragment.leads_of_straight (BinaryOp.straight_instructions _ line))

theorem Expression.leads_code (slot : String → UInt8) (e : Expression) (k : Nat) :
    (e.code slot).Leads (Extent k e.size) k := by
  rw [← e.size_code slot]
  induction e generalizing k with
  | constant t v => exact Fragment.leads_of_straight (List.forall_mem_singleton.2 fun _ _ => id)
  | reference t name => exact Fragment.leads_of_straight (List.forall_mem_singleton.2 fun _ _ => id)
  | group opening e closing ih => exact ih k
  | negation t e ih =>
    exact (ih k).append (Fragment.leads_of_straight (List.forall_mem_singleton.2 fun _ _ => id))
  | binary l t op r ihl ihr => exact (ihl k).append (BinaryOp.leads_code ihr)

/-! ### Statements -/

/-- Inside the statement at `k`, right behind it, or behind the innermost loop around it. -/
def Reaches (exit : Option Nat) (k n t : Nat) : Prop := Extent k n t ∨ exit = some t

theorem Reaches.mono {exit : Option Nat} {k k' n n' t : Nat} (h : Reaches exit k n t) (hk : k' ≤ k)
    (hn : k + n ≤ k' + n') : Reaches exit k' n' t :=
  h.imp_left fun ht => ht.mono hk hn

theorem Statement.leads_loopHead {l : Layout} {line k size : Nat} :
    (Statement.loopHead l line (size + 20)).Leads (fun t => Extent k 25 t ∨ t = k + size + 44) k := by
  have hstraight : ∀ i ∈ Statement.loopInit l line ++ Statement.loopTest l line, i.Straight := by
    simp [Statement.loopInit, Statement.loopTest, Item.Straight, Item.LeadsTo, Instruction.LeadsTo,
      Item.instruction]
  have hpop : (Item.op .pop line).Straight := fun _ _ => id
  have hone : (Item.op .pop line).instruction.size = 1 := rfl
  refine Fragment.each_append.2 ⟨?_, ?_⟩
  · refine (Fragment.leads_of_straight hstraight).mono fun t ht => .inl (ht.mono (Nat.le_refl _) ?_)
    rw [Fragment.size_append, size_loopInit, size_loopTest]
    omega
  · rw [Fragment.size_append, size_loopInit, size_loopTest]
    refine Fragment.leads_jumpIfFalse (.inl ⟨?_, ?_⟩) (fun t ht => .inr ?_) <|
      Fragment.leads_cons hpop (.inl ⟨?_, ?_⟩) Fragment.each_nil
    all_goals omega

theorem Statement.leads_loopFoot {l : Layout} {line k size : Nat} (test : Nat) (hk : k = test + size + 9) :
    (Statement.loopFoot l line (-(size + 28))).Leads (fun t => Extent k 20 t ∨ t = test) k := by
  have hstraight : ∀ i ∈ Statement.loopStep l line, i.Straight := by
    simp [Statement.loopStep, Item.Straight, Item.LeadsTo, Instruction.LeadsTo, Item.instruction]
  have hpop : (Item.op .pop line).Straight := fun _ _ => id
  have hone : (Item.op .pop line).instruction.size = 1 := rfl
  refine Fragment.each_append.2 ⟨?_, ?_⟩
  · refine (Fragment.leads_of_straight hstraight).mono fun t ht => .inl (ht.mono (Nat.le_refl _) ?_)
    rw [size_loopStep]
    omega
  · rw [size_loopStep]
    refine Fragment.leads_jump (fun t ht => .inr ?_) <|
      Fragment.leads_cons hpop (.inl ⟨?_, ?_⟩) Fragment.each_nil
    all_goals omega

/-- An arm leads to itself, to right behind it, or to the end of its chain, if its body does. -/
theorem Arms.leads_arm {A : Nat → Prop} {condition : Expression} {slot : String → UInt8} {body : Fragment}
    {k line : Nat} {distance : Int} (stop : Nat) (hA : ∀ t, Extent k (condition.size + body.size + 8) t → A t)
    (hstop : A stop) (hbody : body.Leads A (k + condition.size + 4))
    (hdistance : distance = jumpDistance stop (k + condition.size + body.size + 4)) :
    (Arms.armCode line (condition.code slot) body distance).Leads A k := by
  rw [Fragment.Leads, Arms.each_armCode, condition.size_code]
  refine ⟨(condition.leads_code slot k).mono fun t ht => hA t (ht.mono (Nat.le_refl _) (by omega)), ?_, ?_,
    hbody, ?_, ?_⟩
  · rintro t (rfl | ht) <;> exact hA _ ⟨by omega, by omega⟩
  · rintro t rfl
    exact hA _ ⟨by omega, Nat.le_of_lt (by simp only [Instruction.size_pop]; omega)⟩
  · intro t ht
    replace ht : (t : Int) = _ := ht
    rw [hdistance, jumpDistance] at ht
    obtain rfl : t = stop := by omega
    exact hstop
  · rintro t rfl
    exact hA _ ⟨by omega, by simp only [Instruction.size_pop]; omega⟩

/-- An arm of a tree, and what comes behind it. -/
theorem Arms.leads_append {exit : Option Nat} {leave : Nat → Int} {l : Layout} {condition : Expression}
    {body : List Statement} {rest : Fragment} {k line n more : Nat}
    (hbody : (Block.code l leave (k + condition.size + 4) body).Leads
      (Reaches exit (k + condition.size + 4) (Block.size body)) (k + condition.size + 4))
    (hrest : rest.Leads (Reaches exit (k + condition.size + Block.size body + 8) more)
      (k + condition.size + Block.size body + 8))
    (hn : n = condition.size + Block.size body + more + 8) :
    (Arms.armCode line (condition.code l.slot) (Block.code l leave (k + condition.size + 4) body)
      (jumpDistance (k + n) (k + condition.size + Block.size body + 4)) ++ rest).Leads
        (Reaches exit k n) k := by
  have hsize := Block.size_code body l leave (k + condition.size + 4)
  refine Fragment.each_append.2 ⟨?_, ?_⟩
  · refine Arms.leads_arm (k + n) ?_ (.inl ⟨Nat.le_add_right _ _, Nat.le_refl _⟩) ?_ (by rw [hsize])
    · rw [hsize]
      exact fun t ht => .inl (ht.mono (Nat.le_refl _) (by omega))
    · exact hbody.mono fun t ht => ht.mono (by omega) (by omega)
  · rw [Arms.size_armCode, condition.size_code, hsize, ← Nat.add_assoc, ← Nat.add_assoc]
    exact hrest.mono fun t ht => ht.mono (by omega) (by omega)

mutual

/-- The code of a statement leads to itself, to right behind it, or out of the loop around it. -/
theorem Statement.leads_code : ∀ (s : Statement) (exit : Option Nat) {l : Layout} {leave : Nat → Int}
    {k : Nat}, s.Grammatical exit.isSome → (∀ stop, exit = some stop → leave = jumpDistance stop) →
    (s.code l leave k).Leads (Reaches exit k s.size) k
  | .assign target name arrow value, exit, l, leave, k, _, _ => by
    have hstraight : ∀ i ∈ [Item.op (.store ((l.add name).slot name)) target.line, .op .pop target.line],
        i.Straight := by
      simp [Item.Straight, Item.LeadsTo, Instruction.LeadsTo, Item.instruction]
    have hcode := (value.leads_code (l.add name).slot k)
    rw [← value.size_code (l.add name).slot] at hcode
    refine (hcode.append (Fragment.leads_of_straight hstraight)).mono
      fun t ht => .inl (ht.mono (Nat.le_refl _) ?_)
    rw [Fragment.size_append, value.size_code]
    exact Nat.le_refl _
  | .choice arms closer, exit, l, leave, k, hgram, hleave => arms.leads_code exit hgram.1 hleave
  | .loop keyword count times body closer, exit, l, leave, k, hgram, _ => by
    have hbody := Block.leads_code body (some (k + count.size + Block.size body + 45)) (l := l.addLoop)
      (k := k + count.size + 25) hgram.2.2.2.1 (by rintro stop ⟨⟩; rfl)
    rw [Statement.code, Fragment.Leads, Fragment.each_append, Fragment.each_append, Fragment.each_append]
    simp only [Fragment.size_append, count.size_code, Statement.size_loopHead, Block.size_code body,
      ← Nat.add_assoc]
    refine ⟨⟨⟨?_, ?_⟩, ?_⟩, ?_⟩
    · exact (count.leads_code l.slot k).mono fun t ht => .inl (ht.mono (Nat.le_refl _) (by
        simp only [Statement.size]; omega))
    · refine Statement.leads_loopHead.mono fun t ht => .inl ?_
      simp only [Statement.size]
      rcases ht with ht | rfl
      · exact ht.mono (by omega) (by omega)
      · exact ⟨by omega, by omega⟩
    · refine hbody.mono fun t ht => .inl ?_
      simp only [Statement.size]
      rcases ht with ht | ⟨⟨⟩⟩
      · exact ht.mono (by omega) (by omega)
      · exact ⟨by omega, by omega⟩
    · refine (Statement.leads_loopFoot (k + count.size + 16) (by omega)).mono fun t ht => .inl ?_
      simp only [Statement.size]
      rcases ht with ht | rfl
      · exact ht.mono (by omega) (by omega)
      · exact ⟨by omega, by omega⟩
  | .abort token, exit, l, leave, k, hgram, hleave => by
    obtain ⟨stop, rfl⟩ := Option.isSome_iff_exists.1 hgram.1
    obtain rfl := hleave stop rfl
    refine Fragment.leads_jump (fun t ht => .inr ?_) Fragment.each_nil
    rw [jumpDistance] at ht
    obtain rfl : t = stop := by omega
    rfl

theorem Arms.leads_code : ∀ (a : Arms) (exit : Option Nat) {l : Layout} {leave : Nat → Int} {k : Nat},
    a.Grammatical exit.isSome → (∀ stop, exit = some stop → leave = jumpDistance stop) →
    (a.code l leave (jumpDistance (k + a.size)) k).Leads (Reaches exit k a.size) k
  | .last keyword condition thenWord body elseWord alternative, exit, l, leave, k, hgram, hleave =>
    Arms.leads_append (Block.leads_code body exit hgram.2.2.2.1 hleave)
      (Block.leads_code alternative exit hgram.2.2.2.2.1 hleave) rfl
  | .elseIf keyword condition thenWord body elseWord rest, exit, l, leave, k, hgram, hleave => by
    have hrest := rest.leads_code exit (l := Block.layout l body)
      (k := k + condition.size + Block.size body + 8) hgram.2.2.2.2.2 hleave
    have hend : k + condition.size + Block.size body + 8 + rest.size =
        k + (Arms.elseIf keyword condition thenWord body elseWord rest).size := by
      simp only [Arms.size]
      omega
    rw [hend] at hrest
    exact Arms.leads_append (Block.leads_code body exit hgram.2.2.2.1 hleave) hrest rfl

theorem Block.leads_code : ∀ (ss : List Statement) (exit : Option Nat) {l : Layout} {leave : Nat → Int}
    {k : Nat}, Block.Grammatical exit.isSome ss → (∀ stop, exit = some stop → leave = jumpDistance stop) →
    (Block.code l leave k ss).Leads (Reaches exit k (Block.size ss)) k
  | [], exit, l, leave, k, _, _ => Fragment.each_nil
  | s :: ss, exit, l, leave, k, hgram, hleave => by
    rw [Block.code, Block.size, Fragment.Leads, Fragment.each_append, s.size_code]
    exact ⟨(s.leads_code exit hgram.1 hleave).mono fun t ht => ht.mono (Nat.le_refl _) (by omega),
      (Block.leads_code ss exit hgram.2 hleave).mono fun t ht => ht.mono (by omega) (by omega)⟩

end

/-! ### What leads to a statement -/

mutual

/-- The statements in a statement of the grammar are of the grammar. -/
theorem Statement.grammatical_starts : ∀ (s : Statement) {inLoop : Bool} (k : Nat), s.Grammatical inLoop →
    ∀ q ∈ s.starts k, ∃ inLoop, q.2.Grammatical inLoop
  | .assign .., inLoop, k, h => by
    rintro q (_ | ⟨_, ⟨⟩⟩)
    exact ⟨inLoop, h⟩
  | .choice arms closer, inLoop, k, h => by
    rintro q (_ | ⟨_, hq⟩)
    · exact ⟨inLoop, h⟩
    · exact arms.grammatical_starts k h.1 q hq
  | .loop keyword count times body closer, inLoop, k, h => by
    rintro q (_ | ⟨_, hq⟩)
    · exact ⟨inLoop, h⟩
    · exact Block.grammatical_starts body _ h.2.2.2.1 q hq
  | .abort token, inLoop, k, h => by
    rintro q (_ | ⟨_, ⟨⟩⟩)
    exact ⟨inLoop, h⟩

theorem Arms.grammatical_starts : ∀ (a : Arms) {inLoop : Bool} (k : Nat), a.Grammatical inLoop →
    ∀ q ∈ a.starts k, ∃ inLoop, q.2.Grammatical inLoop
  | .last keyword condition thenWord body elseWord alternative, inLoop, k, h => by
    intro q hq
    rcases List.mem_append.1 hq with hq | hq
    · exact Block.grammatical_starts body _ h.2.2.2.1 q hq
    · exact Block.grammatical_starts alternative _ h.2.2.2.2.1 q hq
  | .elseIf keyword condition thenWord body elseWord rest, inLoop, k, h => by
    intro q hq
    rcases List.mem_append.1 hq with hq | hq
    · exact Block.grammatical_starts body _ h.2.2.2.1 q hq
    · exact rest.grammatical_starts _ h.2.2.2.2.2 q hq

theorem Block.grammatical_starts : ∀ (ss : List Statement) {inLoop : Bool} (k : Nat),
    Block.Grammatical inLoop ss → ∀ q ∈ Block.starts k ss, ∃ inLoop, q.2.Grammatical inLoop
  | [], inLoop, k, h => nofun
  | s :: ss, inLoop, k, h => by
    intro q hq
    rcases List.mem_append.1 hq with hq | hq
    · exact s.grammatical_starts k h.1 q hq
    · exact Block.grammatical_starts ss _ h.2 q hq

end

mutual

/-- The statements of a statement are inside it. -/
theorem Statement.inside_starts : ∀ (s : Statement) (k : Nat),
    ∀ q ∈ s.starts k, k ≤ q.1 ∧ q.1 + q.2.size ≤ k + s.size
  | .assign .., k => by
    rintro q (_ | ⟨_, ⟨⟩⟩)
    exact ⟨Nat.le_refl _, Nat.le_refl _⟩
  | .choice arms closer, k => by
    rintro q (_ | ⟨_, hq⟩)
    · exact ⟨Nat.le_refl _, Nat.le_refl _⟩
    · exact arms.inside_starts k q hq
  | .loop keyword count times body closer, k => by
    rintro q (_ | ⟨_, hq⟩)
    · exact ⟨Nat.le_refl _, Nat.le_refl _⟩
    · have hinside := Block.inside_starts body _ q hq
      simp only [Statement.size]
      omega
  | .abort token, k => by
    rintro q (_ | ⟨_, ⟨⟩⟩)
    exact ⟨Nat.le_refl _, Nat.le_refl _⟩

theorem Arms.inside_starts : ∀ (a : Arms) (k : Nat),
    ∀ q ∈ a.starts k, k ≤ q.1 ∧ q.1 + q.2.size ≤ k + a.size
  | .last _ condition _ body _ alternative, k => by
    intro q hq
    simp only [Arms.size]
    rcases List.mem_append.1 hq with hq | hq
    · have hinside := Block.inside_starts body _ q hq
      omega
    · have hinside := Block.inside_starts alternative _ q hq
      omega
  | .elseIf _ condition _ body _ rest, k => by
    intro q hq
    simp only [Arms.size]
    rcases List.mem_append.1 hq with hq | hq
    · have hinside := Block.inside_starts body _ q hq
      omega
    · have hinside := rest.inside_starts _ q hq
      omega

theorem Block.inside_starts : ∀ (ss : List Statement) (k : Nat),
    ∀ q ∈ Block.starts k ss, k ≤ q.1 ∧ q.1 + q.2.size ≤ k + Block.size ss
  | [], k => nofun
  | s :: ss, k => by
    intro q hq
    rw [Block.size]
    rcases List.mem_append.1 hq with hq | hq
    · have hinside := s.inside_starts k q hq
      omega
    · have hinside := Block.inside_starts ss _ q hq
      omega

end

/-- From outside of the `n` bytes at `o`, the item leads to where they begin, or past them. -/
def Item.Avoids (o n q : Nat) (i : Item) : Prop :=
  q < o ∨ o + n ≤ q → ∀ t, i.LeadsTo q t → t ≤ o ∨ o + n ≤ t

theorem Fragment.Leads.avoids {A : Nat → Prop} {code : Fragment} {k o n : Nat} (h : code.Leads A k)
    (hA : ∀ t, A t → t ≤ o ∨ o + n ≤ t) : code.Each (Item.Avoids o n) k :=
  Fragment.Each.mono h fun _ _ hi _ t ht => hA t (hi t ht)

/-- Code avoids itself, as none of it is outside. -/
theorem Fragment.avoids_self {code : Fragment} {k n : Nat} (h : code.size = n) :
    code.Each (Item.Avoids k n) k := by
  intro q i hi hout
  have hinside := Fragment.inside_of_mem_located hi
  have hpos : 0 < i.instruction.size := Nat.lt_of_lt_of_le Nat.one_pos (Nat.le_add_right 1 _)
  omega

/-- An arm avoids what is avoided inside its body. -/
theorem Arms.avoids_arm {condition : Expression} {slot : String → UInt8} {body : Fragment}
    {k line o n : Nat} {distance : Int} (stop : Nat)
    (hbody : body.Each (Item.Avoids o n) (k + condition.size + 4))
    (ho : k + condition.size + 4 ≤ o) (hn : o + n ≤ k + condition.size + 4 + body.size) (hstop : o + n ≤ stop)
    (hdistance : distance = jumpDistance stop (k + condition.size + body.size + 4)) :
    (Arms.armCode line (condition.code slot) body distance).Each (Item.Avoids o n) k := by
  rw [Arms.each_armCode, condition.size_code]
  refine ⟨(condition.leads_code slot k).avoids fun t ht => .inl (Nat.le_trans ht.2 (by omega)), ?_, ?_,
    hbody, ?_, ?_⟩
  · rintro - t (rfl | ht) <;> omega
  · rintro - t rfl
    exact .inl ho
  · intro _ t ht
    replace ht : (t : Int) = _ := ht
    rw [hdistance, jumpDistance] at ht
    omega
  · rintro - t rfl
    exact .inr (Nat.le_trans hn (by omega))

/-- A place behind the code of a statement, or out of the loop around it. -/
theorem Reaches.avoids {exit : Option Nat} {k n t o m : Nat} (h : Reaches exit k n t)
    (hout : k + n ≤ o ∨ o + m ≤ k) (hexit : EndsBefore exit (o + m)) : t ≤ o ∨ o + m ≤ t := by
  rcases h with ht | rfl
  · rcases hout with hle | hle
    · exact .inl (Nat.le_trans ht.2 hle)
    · exact .inr (Nat.le_trans hle ht.1)
  · exact .inr (hexit t rfl)

/-- An arm of a tree and what comes behind it avoid the statements in them. -/
theorem Arms.avoids_append {exit : Option Nat} {leave : Nat → Int} {l : Layout} {condition : Expression}
    {body : List Statement} {rest : Fragment} {starts : List (Nat × Statement)} {k line n more : Nat}
    (hbody : (Block.code l leave (k + condition.size + 4) body).Leads
      (Reaches exit (k + condition.size + 4) (Block.size body)) (k + condition.size + 4))
    (hrest : rest.Leads (Reaches exit (k + condition.size + Block.size body + 8) more)
      (k + condition.size + Block.size body + 8))
    (hn : n = condition.size + Block.size body + more + 8) (hexit : EndsBefore exit (k + n))
    (hinside : ∀ q ∈ starts, k + condition.size + Block.size body + 8 ≤ q.1 ∧
      q.1 + q.2.size ≤ k + condition.size + Block.size body + 8 + more)
    (hbody' : ∀ q ∈ Block.starts (k + condition.size + 4) body,
      (Block.code l leave (k + condition.size + 4) body).Each (Item.Avoids q.1 q.2.size)
        (k + condition.size + 4))
    (hrest' : ∀ q ∈ starts,
      rest.Each (Item.Avoids q.1 q.2.size) (k + condition.size + Block.size body + 8)) :
    ∀ q ∈ Block.starts (k + condition.size + 4) body ++ starts,
      (Arms.armCode line (condition.code l.slot) (Block.code l leave (k + condition.size + 4) body)
        (jumpDistance (k + n) (k + condition.size + Block.size body + 4)) ++ rest).Each
          (Item.Avoids q.1 q.2.size) k := by
  have hsize := Block.size_code body l leave (k + condition.size + 4)
  intro q hq
  rw [Fragment.each_append, Arms.size_armCode, condition.size_code, hsize, ← Nat.add_assoc, ← Nat.add_assoc]
  rcases List.mem_append.1 hq with hq | hq
  · have hin := Block.inside_starts body _ q hq
    refine ⟨Arms.avoids_arm (k + n) (hbody' q hq) hin.1 (by omega) (by omega) (by rw [hsize]), ?_⟩
    exact hrest.avoids fun t ht => ht.avoids (.inr (by omega)) (hexit.of_le (by omega))
  · have hin := hinside q hq
    refine ⟨?_, hrest' q hq⟩
    refine (Arms.leads_arm (A := fun t => t ≤ q.1 ∨ q.1 + q.2.size ≤ t) (k + n) ?_ (.inr (by omega))
      ?_ (by rw [hsize])).avoids fun t ht => ht
    · rw [hsize]
      exact fun t ht => .inl (Nat.le_trans ht.2 (by omega))
    · exact hbody.mono fun t ht => ht.avoids (.inl (by omega)) (hexit.of_le (by omega))

mutual

/-- From outside, the code of a statement leads into no statement in it but to where that begins. -/
theorem Statement.avoids_code : ∀ (s : Statement) (exit : Option Nat) {l : Layout} {leave : Nat → Int}
    {k : Nat}, s.Grammatical exit.isSome → (∀ stop, exit = some stop → leave = jumpDistance stop) →
    EndsBefore exit (k + s.size) → ∀ q ∈ s.starts k, (s.code l leave k).Each (Item.Avoids q.1 q.2.size) k
  | .assign target name arrow value, exit, l, leave, k, _, _, _ => by
    rintro q (_ | ⟨_, ⟨⟩⟩)
    exact Fragment.avoids_self (Statement.size_code ..)
  | .choice arms closer, exit, l, leave, k, hgram, hleave, hexit => by
    rintro q (_ | ⟨_, hq⟩)
    · exact Fragment.avoids_self (Statement.size_code ..)
    · exact arms.avoids_code exit hgram.1 hleave hexit q hq
  | .loop keyword count times body closer, exit, l, leave, k, hgram, _, _ => by
    rintro q (_ | ⟨_, hq⟩)
    · exact Fragment.avoids_self (Statement.size_code ..)
    · have hin := Block.inside_starts body _ q hq
      have hbody := Block.avoids_code body (some (k + count.size + Block.size body + 45)) (l := l.addLoop)
        (k := k + count.size + 25) hgram.2.2.2.1 (by rintro stop ⟨⟩; rfl) (by rintro stop ⟨⟩; omega) q hq
      rw [Statement.code, Fragment.each_append, Fragment.each_append, Fragment.each_append]
      simp only [Fragment.size_append, count.size_code, Statement.size_loopHead, Block.size_code body,
        ← Nat.add_assoc]
      refine ⟨⟨⟨?_, ?_⟩, hbody⟩, ?_⟩
      · exact (count.leads_code l.slot k).avoids fun t ht => .inl (Nat.le_trans ht.2 (by omega))
      · refine Statement.leads_loopHead.avoids fun t ht => ?_
        rcases ht with ht | rfl
        · exact .inl (Nat.le_trans ht.2 (by omega))
        · exact .inr (by omega)
      · refine (Statement.leads_loopFoot (k + count.size + 16) (by omega)).avoids fun t ht => ?_
        rcases ht with ht | rfl
        · exact .inr (Nat.le_trans (by omega) ht.1)
        · exact .inl (by omega)
  | .abort token, exit, l, leave, k, _, _, _ => by
    rintro q (_ | ⟨_, ⟨⟩⟩)
    exact Fragment.avoids_self (Statement.size_code ..)

theorem Arms.avoids_code : ∀ (a : Arms) (exit : Option Nat) {l : Layout} {leave : Nat → Int} {k : Nat},
    a.Grammatical exit.isSome → (∀ stop, exit = some stop → leave = jumpDistance stop) →
    EndsBefore exit (k + a.size) →
    ∀ q ∈ a.starts k, (a.code l leave (jumpDistance (k + a.size)) k).Each (Item.Avoids q.1 q.2.size) k
  | .last keyword condition thenWord body elseWord alternative, exit, l, leave, k, hgram, hleave, hexit => by
    have hexit' := hexit
    simp only [Arms.size] at hexit'
    exact Arms.avoids_append (Block.leads_code body exit hgram.2.2.2.1 hleave)
      (Block.leads_code alternative exit hgram.2.2.2.2.1 hleave) rfl hexit (Block.inside_starts alternative _)
      (Block.avoids_code body exit hgram.2.2.2.1 hleave (hexit'.of_le (by omega)))
      (Block.avoids_code alternative exit hgram.2.2.2.2.1 hleave (hexit'.of_le (by omega)))
  | .elseIf keyword condition thenWord body elseWord rest, exit, l, leave, k, hgram, hleave, hexit => by
    have hexit' := hexit
    simp only [Arms.size] at hexit'
    have hrest := rest.leads_code exit (l := Block.layout l body)
      (k := k + condition.size + Block.size body + 8) hgram.2.2.2.2.2 hleave
    have hrest' := rest.avoids_code exit (l := Block.layout l body)
      (k := k + condition.size + Block.size body + 8) hgram.2.2.2.2.2 hleave (hexit'.of_le (by omega))
    have hend : k + condition.size + Block.size body + 8 + rest.size =
        k + (Arms.elseIf keyword condition thenWord body elseWord rest).size := by
      simp only [Arms.size]
      omega
    rw [hend] at hrest hrest'
    exact Arms.avoids_append (Block.leads_code body exit hgram.2.2.2.1 hleave) hrest rfl hexit
      (rest.inside_starts _)
      (Block.avoids_code body exit hgram.2.2.2.1 hleave (hexit'.of_le (by omega))) hrest'

theorem Block.avoids_code : ∀ (ss : List Statement) (exit : Option Nat) {l : Layout} {leave : Nat → Int}
    {k : Nat}, Block.Grammatical exit.isSome ss → (∀ stop, exit = some stop → leave = jumpDistance stop) →
    EndsBefore exit (k + Block.size ss) →
    ∀ q ∈ Block.starts k ss, (Block.code l leave k ss).Each (Item.Avoids q.1 q.2.size) k
  | [], exit, l, leave, k, _, _, _ => nofun
  | s :: ss, exit, l, leave, k, hgram, hleave, hexit => by
    rw [Block.size, ← Nat.add_assoc] at hexit
    intro q hq
    rw [Block.code, Fragment.each_append, s.size_code]
    rcases List.mem_append.1 hq with hq | hq
    · have hin := s.inside_starts k q hq
      refine ⟨s.avoids_code exit hgram.1 hleave (hexit.of_le (Nat.le_add_right _ _)) q hq, ?_⟩
      exact (Block.leads_code ss exit hgram.2 hleave).avoids fun t ht =>
        ht.avoids (.inr hin.2) (hexit.of_le (by omega))
    · have hin := Block.inside_starts ss _ q hq
      refine ⟨?_, Block.avoids_code ss exit hgram.2 hleave hexit q hq⟩
      exact (s.leads_code exit hgram.1 hleave).avoids fun t ht =>
        ht.avoids (.inl hin.1) (hexit.of_le hin.2)

end

end BoundedLoop
