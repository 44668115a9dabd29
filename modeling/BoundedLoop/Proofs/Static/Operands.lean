import BoundedLoop.Proofs.Codegen.Code

/-!
# What code stores and pushes

The code of a statement stores to variables, and to slots that it takes itself, so the slots of the loops
around it are left alone. It pushes the values of its constants, and the zero and the one that loops count
with. Both are said by `Statement.keeps_code`.
-/

namespace BoundedLoop

/-- The item stores to no slot that a loop has in `l`, and pushes only values with `A`. -/
def Item.Keeps (l : Layout) (A : Value → Prop) (i : Item) : Prop :=
  (∀ slot, i.instruction = .store slot → l[slot.toNat]? ≠ some none) ∧ ∀ v, i.instruction = .push v → A v

abbrev Fragment.Keeps (l : Layout) (A : Value → Prop) (code : Fragment) : Prop := ∀ i ∈ code, i.Keeps l A

/-- The constants among the tokens have `A`. -/
def Token.Constants (A : Value → Prop) (ts : List Token) : Prop := ∀ t ∈ ts, ∀ v, t.value? = some v → A v

/-- What is no loop's slot in a longer layout is none before. -/
theorem Layout.getElem?_ne_mono {l l' : Layout} {j : Nat} (hl : l <+: l') (h : l'[j]? ≠ some none) :
    l[j]? ≠ some none := by
  obtain ⟨more, rfl⟩ := hl
  intro hnone
  exact h ((List.getElem?_append_left (List.getElem?_eq_some_iff.1 hnone).1).trans hnone)

section

variable {A : Value → Prop} {l l' : Layout} {slot : String → UInt8} {line : Nat} {i : Item}
  {ts ts' : List Token}

theorem Token.constants_append :
    Token.Constants A (ts ++ ts') ↔ Token.Constants A ts ∧ Token.Constants A ts' :=
  List.forall_mem_append

theorem Token.constants_cons {t : Token} :
    Token.Constants A (t :: ts) ↔ (∀ v, t.value? = some v → A v) ∧ Token.Constants A ts :=
  List.forall_mem_cons

namespace Item

@[simp] theorem keeps_jump {branch : Branch} {d : Int} : (jump branch d line).Keeps l A := by
  cases branch <;> exact ⟨nofun, nofun⟩

@[simp] theorem keeps_store {slot : UInt8} :
    (op (.store slot) line).Keeps l A ↔ l[slot.toNat]? ≠ some none := by
  simp [Keeps, instruction]

@[simp] theorem keeps_push {v : Value} : (op (.push v) line).Keeps l A ↔ A v := by
  simp [Keeps, instruction]

@[simp] theorem keeps_load {slot : UInt8} : (op (.load slot) line).Keeps l A := ⟨nofun, nofun⟩

@[simp] theorem keeps_pop : (op .pop line).Keeps l A := ⟨nofun, nofun⟩

@[simp] theorem keeps_not : (op .not line).Keeps l A := ⟨nofun, nofun⟩

@[simp] theorem keeps_add : (op .add line).Keeps l A := ⟨nofun, nofun⟩

@[simp] theorem keeps_less : (op .less line).Keeps l A := ⟨nofun, nofun⟩

/-- Slots of loops stay so in longer layouts. -/
theorem Keeps.mono (h : i.Keeps l' A) (hl : l <+: l') : i.Keeps l A :=
  ⟨fun slot hslot => Layout.getElem?_ne_mono hl (h.1 slot hslot), h.2⟩

end Item

theorem Fragment.Keeps.mono {code : Fragment} (h : code.Keeps l' A) (hl : l <+: l') : code.Keeps l A :=
  fun i hi => (h i hi).mono hl

theorem BinaryOp.keeps_code {op : BinaryOp} {right : Fragment} (h : right.Keeps l A) :
    (op.code line right).Keeps l A := by
  have hplain : ∀ i ∈ op.instructions.map (Item.op · line), i.Keeps l A := by
    cases op <;> simp [BinaryOp.instructions, Item.Keeps, Item.instruction]
  cases op with
  | or | and =>
    simp only [BinaryOp.code, Fragment.Keeps, List.forall_mem_cons, Item.keeps_jump, Item.keeps_pop, true_and]
    exact h
  | _ => exact List.forall_mem_append.2 ⟨h, hplain⟩

theorem Expression.keeps_code {e : Expression} {level : Level} (hgram : e.Grammatical level)
    (htokens : Token.Constants A e.tokens) : (e.code slot).Keeps l A := by
  induction e generalizing level with
  | constant t v =>
    exact List.forall_mem_singleton.2 (Item.keeps_push.2 (htokens t List.mem_cons_self v hgram.2))
  | reference t name => exact List.forall_mem_singleton.2 Item.keeps_load
  | group opening e closing ih =>
    rw [tokens, Token.constants_append, Token.constants_cons] at htokens
    exact ih hgram.2.1 htokens.1.2
  | negation t e ih =>
    rw [tokens, Token.constants_cons] at htokens
    exact List.forall_mem_append.2 ⟨ih hgram.2 htokens.2, List.forall_mem_singleton.2 Item.keeps_not⟩
  | binary left t op right ihl ihr =>
    rw [tokens, Token.constants_append, Token.constants_cons] at htokens
    exact List.forall_mem_append.2
      ⟨ihl hgram.2.2.1 htokens.1, BinaryOp.keeps_code (ihr hgram.2.2.2 htokens.2.2)⟩

end

section Statements

variable {A : Value → Prop}

theorem Statement.keeps_assign {l : Layout} {name : String} {value : Fragment} {line : Nat}
    (hl : (l.add name).length ≤ Chunk.maxSlots) (hvalue : value.Keeps (l.add name) A) :
    Fragment.Keeps l A (value ++ [.op (.store ((l.add name).slot name)) line, .op .pop line]) := by
  have hmem := l.mem_add_self name
  have hslot : (l.add name)[((l.add name).slot name).toNat]? ≠ some none := by
    rw [Layout.toNat_slot hmem hl, Layout.getElem?_index hmem]
    exact nofun
  refine Fragment.Keeps.mono (List.forall_mem_append.2 ⟨hvalue, ?_⟩) (l.prefix_add name)
  simpa using hslot

theorem Statement.keeps_loopHead {l : Layout} {line : Nat} {exit : Int} (h0 : A (.number 0))
    (hl : l.addLoop.length ≤ Chunk.maxSlots) : (Statement.loopHead l line exit).Keeps l A := by
  simp [Fragment.Keeps, Statement.loopHead, Statement.loopInit, Statement.loopTest, h0,
    Layout.toNat_boundSlot hl, Layout.toNat_counterSlot hl]

theorem Statement.keeps_loopFoot {l : Layout} {line : Nat} {back : Int} (h1 : A (.number 1))
    (hl : l.addLoop.length ≤ Chunk.maxSlots) : (Statement.loopFoot l line back).Keeps l A := by
  simp [Fragment.Keeps, Statement.loopFoot, Statement.loopStep, h1, Layout.toNat_counterSlot hl]

theorem Arms.keeps_arm {l : Layout} {line : Nat} {condition body rest : Fragment} {exit : Int}
    (hcondition : condition.Keeps l A) (hbody : body.Keeps l A) (hrest : rest.Keeps l A) :
    Fragment.Keeps l A (Arms.armCode line condition body exit ++ rest) := by
  simp only [Fragment.Keeps, Arms.armCode, List.forall_mem_append, List.forall_mem_cons, Item.keeps_jump,
    Item.keeps_pop, true_and]
  exact ⟨⟨⟨hcondition, hbody⟩, List.forall_mem_nil _⟩, hrest⟩

mutual

/-- A statement stores to no slot of a loop around it. It pushes its constants, zero and one. -/
theorem Statement.keeps_code (hA : A (.number 0) ∧ A (.number 1)) : ∀ (s : Statement) {inLoop : Bool}
    {l : Layout} {leave : Nat → Int} {k : Nat}, s.Grammatical inLoop → Token.Constants A s.tokens →
    (s.layout l).length ≤ Chunk.maxSlots → (s.code l leave k).Keeps l A
  | .assign target name arrow value, inLoop, l, leave, k, hgram, htokens, hl => by
    rw [Statement.tokens, Token.constants_cons, Token.constants_cons] at htokens
    exact Statement.keeps_assign hl (value.keeps_code hgram.2.2 htokens.2.2)
  | .choice arms closer, inLoop, l, leave, k, hgram, htokens, hl => by
    rw [Statement.tokens, Token.constants_append] at htokens
    exact arms.keeps_code hA hgram.1 htokens.1 hl
  | .loop keyword count times body closer, inLoop, l, leave, k, hgram, htokens, hl => by
    simp only [Statement.tokens, Token.constants_cons, Token.constants_append] at htokens
    obtain ⟨⟨⟨-, hcount⟩, -, hbody⟩, -⟩ := htokens
    have hl₁ := Nat.le_trans (Block.prefix_layout body l.addLoop).length_le hl
    refine List.forall_mem_append.2 ⟨List.forall_mem_append.2 ⟨List.forall_mem_append.2 ⟨?_, ?_⟩, ?_⟩, ?_⟩
    · exact count.keeps_code hgram.2.1 hcount
    · exact Statement.keeps_loopHead hA.1 hl₁
    · exact (Block.keeps_code hA body hgram.2.2.2.1 hbody hl).mono l.prefix_addLoop
    · exact Statement.keeps_loopFoot hA.2 hl₁
  | .abort token, inLoop, l, leave, k, _, _, _ => List.forall_mem_singleton.2 Item.keeps_jump

theorem Arms.keeps_code (hA : A (.number 0) ∧ A (.number 1)) : ∀ (a : Arms) {inLoop : Bool} {l : Layout}
    {leave done : Nat → Int} {k : Nat}, a.Grammatical inLoop → Token.Constants A a.tokens →
    (a.layout l).length ≤ Chunk.maxSlots → (a.code l leave done k).Keeps l A
  | .last keyword condition thenWord body elseWord alternative, inLoop, l, leave, done, k, hgram, htokens,
      hl => by
    simp only [Arms.tokens, Token.constants_cons, Token.constants_append] at htokens
    obtain ⟨⟨⟨⟨-, hcondition⟩, -, hbody⟩, -⟩, halternative⟩ := htokens
    have hl₁ := Block.prefix_layout alternative (Block.layout l body)
    exact Arms.keeps_arm (condition.keeps_code hgram.2.1 hcondition)
      (Block.keeps_code hA body hgram.2.2.2.1 hbody (Nat.le_trans hl₁.length_le hl))
      ((Block.keeps_code hA alternative hgram.2.2.2.2.1 halternative hl).mono
        (Block.prefix_layout body l))
  | .elseIf keyword condition thenWord body elseWord rest, inLoop, l, leave, done, k, hgram, htokens, hl => by
    simp only [Arms.tokens, Token.constants_cons, Token.constants_append] at htokens
    obtain ⟨⟨⟨-, hcondition⟩, -, hbody⟩, -, hrest⟩ := htokens
    have hl₁ := rest.prefix_layout (Block.layout l body)
    exact Arms.keeps_arm (condition.keeps_code hgram.2.1 hcondition)
      (Block.keeps_code hA body hgram.2.2.2.1 hbody (Nat.le_trans hl₁.length_le hl))
      ((rest.keeps_code hA hgram.2.2.2.2.2 hrest hl).mono (Block.prefix_layout body l))

theorem Block.keeps_code (hA : A (.number 0) ∧ A (.number 1)) : ∀ (ss : List Statement) {inLoop : Bool}
    {l : Layout} {leave : Nat → Int} {k : Nat}, Block.Grammatical inLoop ss →
    Token.Constants A (Block.tokens ss) → (Block.layout l ss).length ≤ Chunk.maxSlots →
    (Block.code l leave k ss).Keeps l A
  | [], inLoop, l, leave, k, _, _, _ => nofun
  | s :: ss, inLoop, l, leave, k, hgram, htokens, hl => by
    rw [Block.tokens, Token.constants_append] at htokens
    have hl₁ := Block.prefix_layout ss (s.layout l)
    exact List.forall_mem_append.2
      ⟨s.keeps_code hA hgram.1 htokens.1 (Nat.le_trans hl₁.length_le hl),
        (Block.keeps_code hA ss hgram.2 htokens.2 hl).mono (s.prefix_layout l)⟩

end

end Statements

end BoundedLoop
