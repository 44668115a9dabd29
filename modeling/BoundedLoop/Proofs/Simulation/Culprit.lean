import BoundedLoop.Proofs.Semantics.Culprit
import BoundedLoop.Proofs.Simulation.Statement
import BoundedLoop.Proofs.Static.Starts

/-!
# Where the code of a failing evaluation crashes

Where an evaluation fails, the machine crashes at an instruction from the line of the token to blame:
this holds for expressions (`Expression.simulates_culprit`), and for statements wherever their parts
stand (`Block.fails_culprit`).
-/

namespace BoundedLoop

open Machine

/-- The byte at `o` comes from the line of the token. -/
def Chunk.FromLineOf (c : Chunk) (culprit : Option Token) (o : Nat) : Prop :=
  ∃ t, culprit = some t ∧ c.lineAt? o = some t.line

theorem Chunk.Holds.lineAt?_start {c : Chunk} {k : Nat} {i : Item} {code : Fragment}
    (h : c.Holds k (i :: code)) : c.lineAt? k = some i.line := by
  have hsize : 0 < i.instruction.size := by
    simp only [Instruction.size]
    omega
  exact h.lineAt? hsize

section Culprits

variable {chunk : Chunk} {F l : Layout} {σ : Store} {slots : Array (Option Value)} {k line : Nat}
  {stack : List Value} {types : Types}

/-- Only the blame for a failure matters. -/
theorem Machine.Simulates.reblame {α : Type} {blamed blamed' : Nat → Prop}
    {post : α → Machine → Prop} {m : Machine} {r : Except Failure α}
    (h : Simulates chunk F blamed post m r)
    (hblamed : ∀ why, r = .error why → ∀ o, blamed o → blamed' o) :
    Simulates chunk F blamed' post m r := by
  cases r with
  | ok a => exact h
  | error why =>
    intro hwhy
    obtain ⟨fault, hcrash, hcause, hoffset⟩ := h hwhy
    exact ⟨fault, hcrash, hcause, hblamed why rfl _ hoffset⟩

/-! ### Expressions -/

theorem BinaryOp.lineAt?_instructions {op : BinaryOp} (hor : op ≠ .or) (hand : op ≠ .and)
    (hold : chunk.Holds k (op.instructions.map (.op · line))) : chunk.lineAt? k = some line := by
  cases op with
  | or => exact absurd rfl hor
  | and => exact absurd rfl hand
  | _ => exact hold.lineAt?_start

/-- The code of an expression pushes its value, or crashes in the line of the token to blame. -/
theorem Expression.simulates_culprit {slot : String → UInt8} (hF : F.length ≤ Chunk.maxSlots)
    (hσ : F.Laid σ slots) {e : Expression} (stack : List Value)
    (hreads : ∀ name ∈ e.reads, some name ∈ F ∧ slot name = F.slot name)
    (hold : chunk.Holds k (e.code slot)) :
    Simulates chunk F (fun o => chunk.lineAt? o = some (e.culprit σ).line)
      (fun v m => m = ⟨k + (e.code slot).size, v :: stack, slots⟩) ⟨k, stack, slots⟩ (e.eval σ) := by
  induction e generalizing k stack with
  | constant t v => exact .steps (steps_push hold) (.ok (by simp [code]))
  | reference t name =>
    obtain ⟨hname, hslot⟩ := hreads name (by simp [reads])
    simp only [code, hslot] at hold ⊢
    exact simulates_reference hF hσ hname hold hold.lineAt?_start
  | group opening e closing ih => exact ih stack hreads hold
  | negation t e ih =>
    simp only [code, Fragment.size_append] at hold ⊢
    refine (ih stack hreads hold.left).bind ?_
    rintro v m rfl
    cases v with
    | number n => exact .stuck
    | boolean b => exact .steps (steps_not hold.right) (.ok rfl)
  | binary l t op r ihl ihr =>
    simp only [reads, List.mem_append] at hreads
    have hl := ihl stack (fun name hn => hreads name (.inl hn)) hold.left
    cases hleft : l.eval σ with
    | error why =>
      rw [hleft] at hl
      rw [eval_binary_of_error hleft, culprit_of_left hleft]
      exact hl
    | ok a =>
      -- from here on only the right operand or the operator is to blame
      have hl : Simulates chunk F (fun o => chunk.lineAt? o = some ((binary l t op r).culprit σ).line)
          (fun v m => m = ⟨k + (l.code slot).size, v :: stack, slots⟩) ⟨k, stack, slots⟩ (l.eval σ) := by
        refine hl.reblame fun why hwhy => ?_
        rw [hleft] at hwhy
        cases hwhy
      have hr : ∀ {k' : Nat} (stack : List Value), chunk.Holds k' (r.code slot) →
          Simulates chunk F (fun o => chunk.lineAt? o = some ((binary l t op r).culprit σ).line)
            (fun v m => m = ⟨k' + (r.code slot).size, v :: stack, slots⟩) ⟨k', stack, slots⟩
            (r.eval σ) := by
        intro k' stack hold'
        refine (ihr stack (fun name hn => hreads name (.inr hn)) hold').reblame fun why hwhy o ho => ?_
        rw [culprit_of_right hleft hwhy]
        exact ho
      simp only [code] at hold
      by_cases hor : op = .or
      · subst hor
        exact simulates_or hold hl (hr stack hold.right.tail_jump.tail_jump.tail)
      · by_cases hand : op = .and
        · subst hand
          exact simulates_and hold hl (hr stack hold.right.tail_jump.tail)
        · obtain ⟨hcode, -⟩ := BinaryOp.code_strict hor hand t.line (r.code slot)
          rw [code, eval_strict hor hand]
          rw [hcode] at hold ⊢
          simp only [Fragment.size_append]
          refine hl.bind ?_
          rintro v m rfl
          have hright := hr (v :: stack) hold.right.left
          cases heval : r.eval σ with
          | error why =>
            rw [heval] at hright
            exact hright
          | ok b =>
            rw [heval] at hright
            obtain ⟨m, hsteps, rfl⟩ := hright
            rw [culprit_of_ok hleft heval, ← Nat.add_assoc k, ← Nat.add_assoc (k + _)]
            exact .steps hsteps (BinaryOp.simulates v b hor hand hold.right.right
              (BinaryOp.lineAt?_instructions hor hand hold.right.right))

theorem Expression.steps_of_eval (stack : List Value) {e : Expression} {v : Value} {ty : Ty}
    {leave : Nat → Int} {exit : Option Nat} (hplace : Place chunk F l types leave exit)
    (hty : e.type? types = some ty) (hl : l <+: F) (hσ : F.Laid σ slots)
    (hold : chunk.Holds k (e.code l.slot)) (h : e.eval σ = .ok v) :
    Steps chunk ⟨k, stack, slots⟩ ⟨k + e.size, v :: stack, slots⟩ := by
  have hreads := Expression.reads_declared hty hplace.declared hl
  have hrun := Expression.simulates_culprit hplace.room hσ stack hreads hold
  rw [h, e.size_code] at hrun
  obtain ⟨m, hsteps, rfl⟩ := hrun
  exact hsteps

/-! ### Statements -/

/-- Where the evaluation fails that belongs to the code at `k`, a machine that comes there crashes in the
line of the token to blame. -/
def Fails (chunk : Chunk) (F : Layout) (k : Nat) {α : Type} (eval : Store → Except Failure α)
    (culprit : Store → Option Token) : Prop :=
  ∀ (stack : List Value) (σ : Store) (slots : Array (Option Value)), F.Laid σ slots →
    Simulates chunk F (chunk.FromLineOf (culprit σ)) (fun _ _ => True) ⟨k, stack, slots⟩ (eval σ)

theorem Expression.fails_culprit (stack : List Value) {e : Expression} {ty : Ty}
    {leave : Nat → Int} {exit : Option Nat} (hplace : Place chunk F l types leave exit)
    (hty : e.type? types = some ty) (hl : l <+: F) (hold : chunk.Holds k (e.code l.slot))
    (hσ : F.Laid σ slots) :
    Simulates chunk F (chunk.FromLineOf (some (e.culprit σ))) (fun _ _ => True) ⟨k, stack, slots⟩
      (e.eval σ) := by
  have hreads := Expression.reads_declared hty hplace.declared hl
  have hrun := Expression.simulates_culprit hplace.room hσ stack hreads hold
  refine (hrun.mono fun _ _ _ => trivial).reblame fun why _ o ho => ?_
  exact ⟨_, rfl, ho⟩

theorem Statement.fails_assign {target arrow : Token} {name : String} {value : Expression}
    {leave : Nat → Int} {exit : Option Nat} {ty : Ty} (hplace : Place chunk F l types leave exit)
    (hty : value.type? types = some ty) (hl : l.add name <+: F)
    (hold : chunk.Holds k (value.code (l.add name).slot)) :
    Fails chunk F k (Statement.assign target name arrow value).eval
      (Statement.assign target name arrow value).culprit := by
  have hplace' : Place chunk F (l.add name) types leave exit :=
    ⟨hplace.room, hplace.declared.mono (l.prefix_add name), hplace.leave⟩
  intro stack σ slots hσ
  exact (value.fails_culprit stack hplace' hty hl hold hσ).bind fun v m _ => .ok trivial

/-- An arm fails in its condition, in its body, or in what comes next. -/
theorem Arms.fails_arm {condition : Expression} {body : Fragment} {leave : Nat → Int} {leaves : Int}
    {exit : Option Nat} {b : Nat} {ty : Ty} {eval eval' : Store → Except Failure (Flow × Store)}
    {culprit culprit' : Store → Option Token} (hplace : Place chunk F l types leave exit)
    (hty : condition.type? types = some ty) (hl : l <+: F) (hb : body.size = b)
    (hold : chunk.Holds k (Arms.armCode line (condition.code l.slot) body leaves))
    (hrun : Fails chunk F (k + condition.size + 4) eval culprit)
    (hrest : Fails chunk F (k + condition.size + b + 8) eval' culprit') :
    Fails chunk F k (fun σ => do
      let b ← (← condition.eval σ).truth
      if b then eval σ else eval' σ) (fun σ =>
        match condition.eval σ with
        | .ok (.boolean b) => if b then culprit σ else culprit' σ
        | _ => some (condition.culprit σ)) := by
  subst hb
  intro stack σ slots hσ
  have hcondition := condition.fails_culprit stack hplace hty hl hold.left.left hσ
  beta_reduce
  cases heval : condition.eval σ with
  | error why =>
    rw [heval] at hcondition
    exact hcondition
  | ok v =>
    have hsteps := Expression.steps_of_eval stack hplace hty hl hσ hold.left.left heval
    have htest := hold.left.right
    have hleave := hold.right
    have hend := hold.size_le
    simp only [Fragment.size_append, Fragment.size_cons_jump, Fragment.size_cons_op,
      Instruction.size_pop, condition.size_code, Arms.size_armCode] at htest hleave hend
    rcases v with n | _ | _
    · exact .stuck
    · have htarget : k + (condition.size + (3 + (1 + body.size))) + 3 ≤ chunk.size := by omega
      have hjump : Steps chunk ⟨k + condition.size, .boolean false :: stack, slots⟩
          ⟨k + (condition.size + (3 + (1 + body.size))) + 3, .boolean false :: stack, slots⟩ :=
        steps_jumpIfFalse_of_false _ htest (by push_cast; omega) htarget
      have hnext : k + (condition.size + (3 + (1 + body.size))) + 3 + 1 =
          k + condition.size + body.size + 8 := by omega
      refine .steps (hsteps.trans (hjump.trans (steps_pop hleave.tail_jump))) ?_
      rw [hnext]
      exact hrest stack σ slots hσ
    · refine .steps (hsteps.trans ((steps_jumpIfFalse_of_true htest).trans
        (steps_pop htest.tail_jump))) ?_
      exact hrun stack σ slots hσ

/-! ### Loops -/

/-- An evaluation that is stuck unless `t` is to blame for its failure. -/
def only {α : Type} (t : Token) (culprit : Option Token) : Except Failure α → Except Failure α
  | .ok a => .ok a
  | .error why => if culprit = some t then .error why else .error .stuck

theorem iterate_only {body : Store → Except Failure (Flow × Store)}
    {culprit : Store → Option Token} {t : Token} {why : Failure} (n : Nat) {σ : Store}
    (h : iterate body n σ = .error why) (ht : iterateCulprit body culprit n σ = some t) :
    iterate (fun σ => only t (culprit σ) (body σ)) n σ = .error why := by
  induction n generalizing σ with
  | zero => cases h
  | succ n ih =>
    simp only [iterate] at h ⊢
    simp only [iterateCulprit] at ht
    cases hσ : body σ with
    | error why' =>
      rw [hσ] at h ht
      cases h
      simp only [only, if_pos ht]
      rfl
    | ok r =>
      obtain ⟨flow, σ'⟩ := r
      rw [hσ] at h ht
      cases flow with
      | next => exact ih h ht
      | abort => cases h

theorem Machine.Simulates.only {α : Type} {culprit : Option Token} {t : Token}
    {post : α → Machine → Prop} {m : Machine} {r : Except Failure α}
    (hrun : Simulates chunk F (fun _ => True) post m r)
    (hfails : Simulates chunk F (chunk.FromLineOf culprit) (fun _ _ => True) m r) :
    Simulates chunk F (chunk.FromLineOf (some t)) post m (only t culprit r) := by
  cases r with
  | ok a => exact hrun
  | error why =>
    simp only [BoundedLoop.only]
    split
    · rename_i ht
      rw [ht] at hfails
      exact hfails
    · exact .stuck

/-- A machine that has stored the count of a loop stands in front of its test. -/
theorem Statement.enters_loop (stack : List Value) {keyword times closer : Token}
    {count : Expression} {n : Int64} {body : List Statement} {leave : Nat → Int}
    {exit : Option Nat} {ty : Ty} (hplace : Place chunk F l types leave exit)
    (hty : count.type? types = some ty) (hl : l.addLoop <+: F) (hσ : F.Laid σ slots)
    (hold : chunk.Holds k ((Statement.loop keyword count times body closer).code l leave k))
    (h : count.eval σ = .ok (.number n)) :
    ∃ slots', Steps chunk ⟨k, stack, slots⟩ ⟨k + count.size + 16, stack, slots'⟩ ∧
      F.Laid σ slots' ∧ l.Counts slots' n 0 := by
  have hsteps := Expression.steps_of_eval stack hplace hty (l.prefix_addLoop.trans hl) hσ
    hold.left.left.left h
  have hhead := hold.left.left.right
  rw [count.size_code, Statement.loopHead, List.append_assoc] at hhead
  have hbound := Layout.getElem?_bound hl
  have hcounter := Layout.getElem?_counter hl
  have hlt := hσ.lt_size hcounter
  have hroom : l.addLoop.length ≤ Chunk.maxSlots := Nat.le_trans hl.length_le hplace.room
  refine ⟨_, hsteps.trans (Statement.steps_loopInit hroom hlt n hhead.left),
    (hσ.hide hbound (.number n)).hide hcounter (.number 0), ?_, by simp [hlt]⟩
  rw [Array.getElem?_setIfInBounds_ne (by omega), Array.getElem?_setIfInBounds_self_of_lt]
  omega

/-- A loop fails in its count, or in its body when it is repeated. -/
theorem Statement.fails_loop {keyword times closer : Token} {count : Expression}
    {body : List Statement} {leave : Nat → Int} {exit : Option Nat} {ty : Ty} {inLoop : Bool}
    (hplace : Place chunk F l types leave exit) (hgram : Block.Grammatical inLoop body)
    (hty : count.type? types = some ty) (hl : l.addLoop <+: F)
    (hold : chunk.Holds k ((Statement.loop keyword count times body closer).code l leave k))
    (hbody : Runs chunk F l.addLoop (fun _ => True) (some (k + count.size + Block.size body + 45))
      (k + count.size + 25) (Block.size body) fun σ => Block.eval σ body)
    (hfails : Fails chunk F (k + count.size + 25) (fun σ => Block.eval σ body)
      fun σ => Block.culprit σ body) :
    Fails chunk F k (Statement.loop keyword count times body closer).eval
      (Statement.loop keyword count times body closer).culprit := by
  intro stack σ slots hσ
  have hcount := count.fails_culprit stack hplace hty (l.prefix_addLoop.trans hl)
    hold.left.left.left hσ
  simp only [Statement.eval, Statement.culprit]
  cases heval : count.eval σ with
  | error why =>
    rw [heval] at hcount
    exact hcount
  | ok v =>
    cases v with
    | boolean b => exact .stuck
    | number n =>
      have hrun : Simulates chunk F (chunk.FromLineOf (iterateCulprit (fun σ => Block.eval σ body)
          (fun σ => Block.culprit σ body) n.toInt.toNat σ)) (fun _ _ => True) ⟨k, stack, slots⟩
          (iterate (fun σ => Block.eval σ body) n.toInt.toNat σ) := by
        cases hiterate : iterate (fun σ => Block.eval σ body) n.toInt.toNat σ with
        | ok σ' => exact .ok trivial
        | error why =>
          intro hwhy
          obtain ⟨t, -, ht, -⟩ := on_iterateCulprit
            (fun σ hσ => Block.culprit_of_eval body hgram hσ hwhy) n.toInt.toNat hiterate
          -- nothing changes if all failures that are blamed on other tokens are left out
          have honly := iterate_only _ hiterate ht
          obtain ⟨slots', hsteps, hσ', hcounts⟩ :=
            Statement.enters_loop stack hplace hty hl hσ hold heval
          have hhead := hold.left.left.right
          have hfoot := hold.right
          simp only [Fragment.size_append, count.size_code, Statement.size_loopHead,
            Block.size_code body, ← Nat.add_assoc] at hhead hfoot
          rw [Statement.loopHead, List.append_assoc] at hhead
          have htest := hhead.right
          rw [Statement.size_loopInit] at htest
          have htimes : (n.toInt - (0 : Int64).toInt).toNat = n.toInt.toNat := by
            rw [Int64.toInt_zero, Int.sub_zero]
          have hend : k + count.size + 16 + 29 + Block.size body =
              k + count.size + Block.size body + 45 := by omega
          have hiterates : Simulates chunk F (chunk.FromLineOf (some t)) _ _
              (iterate (fun σ => only t (Block.culprit σ body) (Block.eval σ body)) n.toInt.toNat σ) :=
            simulates_iterate hplace.room hl htest hfoot (fun σ slots hσ => by
              have hbodyRun := hbody stack σ slots hσ
              rw [Layout.length_addLoop] at hbodyRun
              rw [hend]
              exact hbodyRun.only (hfails stack σ slots hσ)) n.toInt.toNat hσ' hcounts htimes
          rw [honly] at hiterates
          rw [ht]
          exact (Simulates.steps hsteps hiterates) hwhy
      exact hrun.bind fun _ _ _ => .ok trivial

/-! ### All statements -/

/-- Where anything may be blamed. -/
theorem blames_true {k size : Nat} {js : List Nat} : Blames (fun _ => True) k size js :=
  fun _ _ _ _ => trivial

mutual

theorem Statement.fails_culprit : ∀ (s : Statement) {l : Layout} {types types' : Types}
    {leave : Nat → Int} {exit : Option Nat} {k : Nat}, Place chunk F l types leave exit →
    s.Grammatical exit.isSome → s.check types = some types' → s.layout l <+: F →
    chunk.Holds k (s.code l leave k) → Fails chunk F k s.eval s.culprit
  | .assign target name arrow value, l, types, types', leave, exit, k, hplace, _, hcheck, hl, hold => by
    simp only [Statement.check, Option.bind_eq_bind, Option.bind_eq_some_iff] at hcheck
    obtain ⟨ty, hty, -⟩ := hcheck
    exact Statement.fails_assign hplace hty hl hold.left
  | .choice arms closer, l, types, types', leave, exit, k, hplace, hgram, hcheck, hl, hold =>
    arms.fails_culprit hplace hgram.1 hcheck hl hold
  | .loop keyword count times body closer, l, types, types', leave, exit, k, hplace, hgram, hcheck,
      hl, hold => by
    rw [Statement.check_loop, Option.ite_none_right_eq_some] at hcheck
    have hl₁ := (Block.prefix_layout body l.addLoop).trans hl
    have hbody := hold.left.right
    have hend := hold.size_le
    simp only [Fragment.size_append, count.size_code, Statement.size_loopHead, Statement.size_code,
      Statement.size, ← Nat.add_assoc] at hbody hend
    have hplace' : Place chunk F l.addLoop types
        (jumpDistance (k + count.size + Block.size body + 45))
        (some (k + count.size + Block.size body + 45)) := by
      refine ⟨hplace.room, hplace.declared.mono l.prefix_addLoop, ?_⟩
      rintro stop ⟨⟩
      exact ⟨rfl, hend⟩
    exact Statement.fails_loop hplace hgram.2.2.2.1 hcheck.1 hl₁ hold
      (Block.simulates body hplace' hgram.2.2.2.1 hcheck.2 hl hbody blames_true)
      (Block.fails_culprit body hplace' hgram.2.2.2.1 hcheck.2 hl hbody)
  | .abort token, l, types, types', leave, exit, k, hplace, hgram, hcheck, hl, hold => by
    intro stack σ slots hσ
    exact .ok trivial

theorem Arms.fails_culprit : ∀ (a : Arms) {l : Layout} {types types' : Types} {leave done : Nat → Int}
    {exit : Option Nat} {k : Nat}, Place chunk F l types leave exit → a.Grammatical exit.isSome →
    a.check types = some types' → a.layout l <+: F → chunk.Holds k (a.code l leave done k) →
    Fails chunk F k a.eval a.culprit
  | .last keyword condition thenWord body elseWord alternative, l, types, types', leave, done, exit, k,
      hplace, hgram, hcheck, hl, hold => by
    rw [Arms.check_last, Option.bind_eq_some_iff] at hcheck
    obtain ⟨types₁, harm, halt⟩ := hcheck
    simp only [Arms.armCheck, Option.ite_none_right_eq_some] at harm
    obtain ⟨hty, hcheck⟩ := harm
    have hl₁ := (Block.prefix_layout alternative (Block.layout l body)).trans hl
    have hsize := Block.size_code body l leave (k + condition.size + 4)
    obtain ⟨hbody, hrest⟩ := Arms.holds_arms hold
    exact Arms.fails_arm hplace hty ((Block.prefix_layout body l).trans hl₁) hsize hold.left
      (Block.fails_culprit body hplace hgram.2.2.2.1 hcheck hl₁ hbody)
      (Block.fails_culprit alternative (hplace.arm hcheck) hgram.2.2.2.2.1 halt hl hrest)
  | .elseIf keyword condition thenWord body elseWord rest, l, types, types', leave, done, exit, k,
      hplace, hgram, hcheck, hl, hold => by
    rw [Arms.check_elseIf, Option.bind_eq_some_iff] at hcheck
    obtain ⟨types₁, harm, hmore⟩ := hcheck
    simp only [Arms.armCheck, Option.ite_none_right_eq_some] at harm
    obtain ⟨hty, hcheck⟩ := harm
    have hl₁ := (rest.prefix_layout (Block.layout l body)).trans hl
    have hsize := Block.size_code body l leave (k + condition.size + 4)
    obtain ⟨hbody, hrest⟩ := Arms.holds_arms hold
    exact Arms.fails_arm hplace hty ((Block.prefix_layout body l).trans hl₁) hsize hold.left
      (Block.fails_culprit body hplace hgram.2.2.2.1 hcheck hl₁ hbody)
      (rest.fails_culprit (hplace.arm hcheck) hgram.2.2.2.2.2 hmore hl hrest)

/-- Where the code of a block stands, a failure of the block is a crash in the line of the token to
blame. -/
theorem Block.fails_culprit : ∀ (ss : List Statement) {l : Layout} {types types' : Types}
    {leave : Nat → Int} {exit : Option Nat} {k : Nat}, Place chunk F l types leave exit →
    Block.Grammatical exit.isSome ss → Block.check types ss = some types' →
    Block.layout l ss <+: F → chunk.Holds k (Block.code l leave k ss) →
    Fails chunk F k (fun σ => Block.eval σ ss) fun σ => Block.culprit σ ss
  | [], l, types, types', leave, exit, k, hplace, hgram, hcheck, hl, hold => by
    intro stack σ slots hσ
    exact .ok trivial
  | s :: ss, l, types, types', leave, exit, k, hplace, hgram, hcheck, hl, hold => by
    intro stack σ slots hσ
    simp only [Block.check, Option.bind_eq_bind, Option.bind_eq_some_iff] at hcheck
    obtain ⟨types₁, hs, hss⟩ := hcheck
    have hl₁ := (Block.prefix_layout ss (s.layout l)).trans hl
    have hcode := hold.right
    rw [s.size_code] at hcode
    have hfails := s.fails_culprit hplace hgram.1 hs hl₁ hold.left stack σ slots hσ
    have hrun := s.simulates hplace hgram.1 hs hl₁ hold.left blames_true stack σ slots hσ
    beta_reduce at hfails hrun
    simp only [Block.eval, Block.culprit]
    cases heval : s.eval σ with
    | error why =>
      rw [heval] at hfails
      exact hfails
    | ok r =>
      rw [heval] at hrun
      obtain ⟨⟨ip, stack', slots'⟩, hsteps, hip, rfl, hσ', -⟩ := hrun
      obtain ⟨flow, σ'⟩ := r
      cases flow with
      | abort => exact .ok trivial
      | next =>
        simp only at hip
        subst hip
        exact .steps hsteps
          (Block.fails_culprit ss (hplace.next hs) hgram.2 hss hl hcode stack' σ' slots' hσ')

end

end Culprits

end BoundedLoop
