import BoundedLoop.Proofs.Static.Profile

/-!
# Compiled code is typed

`Program.Accepted.exists_typed`: the code of a program that can be compiled is typed by the profile
of the program, so its typing fits its chunk (`Program.fits_typing`). All ways to an offset agree on
the stack there: the two ends of an arm, the two ways out of a loop and the jump back to its test.
-/

namespace BoundedLoop

/-- The types of the slots. The slots of a loop hold numbers. -/
def Layout.slotTy (Γ : String → Ty) (l : Layout) (j : Nat) : Option Ty :=
  l[j]?.map fun owner => owner.elim .number Γ

namespace Layout

variable {Γ : String → Ty} {l F : Layout} {name : String}

theorem slotTy_slot (h : some name ∈ F) (hF : F.length ≤ Chunk.maxSlots) :
    F.slotTy Γ (F.slot name).toNat = some (Γ name) := by
  rw [slotTy, toNat_slot h hF, getElem?_index h]
  rfl

theorem slotTy_boundSlot (h : l.addLoop <+: F) (hF : F.length ≤ Chunk.maxSlots) :
    F.slotTy Γ l.boundSlot.toNat = some .number := by
  rw [slotTy, toNat_boundSlot (Nat.le_trans h.length_le hF), getElem?_bound h]
  rfl

theorem slotTy_counterSlot (h : l.addLoop <+: F) (hF : F.length ≤ Chunk.maxSlots) :
    F.slotTy Γ l.counterSlot.toNat = some .number := by
  rw [slotTy, toNat_counterSlot (Nat.le_trans h.length_le hF), getElem?_counter h]
  rfl

end Layout

/-! ### Where statements begin -/

theorem Expression.getElem?_profile_append (Γ : String → Ty) (e : Expression)
    (more : List (List Ty)) : (e.profile Γ [] ++ more)[0]? = some [] := by
  have h := e.getElem?_profile_zero Γ []
  rw [List.getElem?_append_left (List.getElem?_eq_some_iff.1 h).1, h]

theorem Arms.getElem?_profile_zero (Γ : String → Ty) (a : Arms) : (a.profile Γ)[0]? = some [] := by
  cases a with
  | last keyword condition =>
    simp only [Arms.profile, Arms.armProfile, List.append_assoc]
    exact condition.getElem?_profile_append Γ _
  | elseIf keyword condition =>
    simp only [Arms.profile, Arms.armProfile, List.append_assoc]
    exact condition.getElem?_profile_append Γ _

/-- A statement begins with an empty stack. -/
theorem Statement.getElem?_profile_zero (Γ : String → Ty) (s : Statement) :
    (s.profile Γ)[0]? = some [] := by
  cases s with
  | assign target name arrow value => exact value.getElem?_profile_append Γ _
  | choice arms closer => exact arms.getElem?_profile_zero Γ
  | loop keyword count => exact count.getElem?_profile_append Γ _
  | abort token => rfl

/-- A block begins with an empty stack if it ends with one. -/
theorem CodeTyping.Shows.block_start {T : CodeTyping} {Γ : String → Ty} {k : Nat}
    {ss : List Statement} (h : T.Shows k (Block.profile Γ ss))
    (hend : T.stack (k + Block.size ss) = []) : T.stack k = [] := by
  cases ss with
  | nil => exact hend
  | cons s ss => exact h.left 0 [] (s.getElem?_profile_zero Γ)

/-! ### Statements -/

section Statements

variable {T : CodeTyping} {Γ : String → Ty} {F l : Layout} {types : Types} {leave : Nat → Int}
  {exit : Option Nat} {k line : Nat}

/-- What a statement relies on, apart from its own profile: its variables have the types that they
should have, and an `ABORT LOOP` arrives with an empty stack. -/
structure CodeTyping.Place (T : CodeTyping) (Γ : String → Ty) (F l : Layout) (types : Types)
    (leave : Nat → Int) (exit : Option Nat) : Prop where
  room : F.length ≤ Chunk.maxSlots
  slot : T.slot = F.slotTy Γ
  declared : Declares l types
  leave : ∀ stop, exit = some stop → leave = jumpDistance stop ∧ T.target stop ∧ T.stack stop = []

theorem CodeTyping.Place.of_check {types' : Types} {l' : Layout}
    (h : T.Place Γ F l types leave exit) (hdecl : Declares l' types') :
    T.Place Γ F l' types' leave exit :=
  ⟨h.room, h.slot, hdecl, h.leave⟩

/-- An expression of a statement computes a value of its type. -/
theorem CodeTyping.Place.computes {e : Expression} {ty ty' : Ty}
    (h : T.Place Γ F l types leave exit) (hcheck : e.type? types = some ty')
    (hty : e.HasType Γ ty) (hl : l <+: F) : T.Computes (e.code l.slot) (e.profile Γ) ty := by
  refine Expression.computes hty fun name hname => ?_
  obtain ⟨hmem, hslot⟩ := Expression.reads_declared hcheck h.declared hl name hname
  rw [h.slot, hslot, Layout.slotTy_slot hmem h.room]

/-- Jumps forward to where the stack is the same. -/
theorem CodeTyping.lands_jumpDistance {stop : Nat} (htarget : T.target stop)
    (hstack : T.stack stop = T.stack k) : T.Lands k (jumpDistance stop k) :=
  ⟨stop, by simp only [jumpDistance]; omega, htarget, hstack⟩

theorem jumpDistance_ne {stop k : Nat} (h : k + 3 ≤ stop) : jumpDistance stop k ≠ -1 := by
  simp only [jumpDistance]
  omega

theorem Statement.typed_assign {target arrow : Token} {name : String} {value : Expression} {ty : Ty}
    (hplace : T.Place Γ F l types leave exit) (hcheck : value.type? types = some ty)
    (hty : value.HasType Γ (Γ name)) (hl : l.add name <+: F)
    (hshow : T.Shows k ((Statement.assign target name arrow value).profile Γ))
    (hnext : T.stack (k + (value.size + 3)) = [])
    (hmarks : T.Marks k ((Statement.assign target name arrow value).code l leave k)) :
    ((Statement.assign target name arrow value).code l leave k).Typed T k := by
  have hvalue := (hplace.of_check (hplace.declared.mono (l.prefix_add name))).computes hcheck hty hl
  have hname := l.mem_add_self name
  have hslot : T.slot ((l.add name).slot name).toNat = some (Γ name) := by
    rw [hplace.slot, ← Layout.slot_mono hl hname, Layout.slotTy_slot (hl.subset hname) hplace.room]
  have hlast := hshow.right
  rw [value.length_profile] at hlast
  have h₀ : T.stack (k + value.size) = [Γ name] := hlast 0 _ rfl
  have h₂ : T.stack (k + value.size + 2) = [Γ name] := hlast 2 _ rfl
  rw [Statement.code, Fragment.typed_append, value.size_code]
  refine ⟨hvalue.typed k [] hshow.left ?_ hmarks.left, ⟨Γ name, [], hslot, h₀, h₂⟩, ⟨Γ name, ?_⟩,
    trivial⟩
  · rw [value.size_code, h₀]
  · exact h₂.trans (congrArg _ hnext.symm)

/-- An arm is typed if its body is, and leaves with the empty stack that it begins with. -/
theorem Arms.typed_arm {condition body : Fragment} {guard : List Ty → List (List Ty)}
    {profile : List (List Ty)} {exit : Int} (stop : Nat)
    (hguard : T.Computes condition guard .boolean) (hlength : profile.length = body.size)
    (hshow : T.Shows k (Arms.armProfile (guard []) profile))
    (hmarks : T.Marks k (Arms.armCode line condition body exit))
    (hexit : exit = jumpDistance stop (k + condition.size + body.size + 4))
    (hstop : T.target stop ∧ T.stack stop = [] ∧ k + condition.size + body.size + 8 ≤ stop)
    (hnext : T.stack (k + condition.size + body.size + 8) = [])
    (hbody : T.Shows (k + condition.size + 4) profile →
      T.stack (k + condition.size + 4 + body.size) = [] → T.Marks (k + condition.size + 4) body →
      body.Typed T (k + condition.size + 4) ∧ T.stack (k + condition.size + 4) = []) :
    (Arms.armCode line condition body exit).Typed T k := by
  have htest := hshow.right
  rw [hguard.length] at htest
  have hleave := htest.right.right
  rw [hlength] at hleave
  have h₀ : T.stack (k + condition.size) = [.boolean] := htest.left 0 _ rfl
  have h₃ : T.stack (k + condition.size + 3) = [.boolean] := htest.left 3 _ rfl
  have hjump : T.stack (k + condition.size + 4 + body.size) = [] := hleave 0 _ rfl
  have hdrop : T.stack (k + condition.size + 4 + body.size + 3) = [.boolean] := hleave 3 _ rfl
  have hcode : Arms.armCode line condition body exit = condition ++
      ([.jump .ifFalse (body.size + 4) line, .op .pop line] ++
        (body ++ [.jump .always exit line, .op .pop line])) := by
    simp [Arms.armCode]
  rw [hcode] at hmarks ⊢
  obtain ⟨htyped, hstart⟩ := hbody htest.right.left hjump hmarks.right.right.left
  have hpop : T.target (k + condition.size + 4 + body.size + 3) :=
    hmarks.right.right.right.mid (a := [.jump .always exit line])
  -- a condition that does not hold is dropped behind the body
  have hskip : T.Lands (k + condition.size) (body.size + 4) :=
    ⟨k + condition.size + 4 + body.size + 3, by push_cast; omega, hpop, hdrop.trans h₀.symm⟩
  have hdone : T.Lands (k + condition.size + 4 + body.size) exit := by
    rw [hexit, show k + condition.size + body.size + 4 = k + condition.size + 4 + body.size by omega]
    exact CodeTyping.lands_jumpDistance hstop.1 (hstop.2.1.trans hjump.symm)
  have hfilled : exit ≠ -1 := by
    rw [hexit]
    exact jumpDistance_ne (by omega)
  have hbehind : T.stack (k + condition.size + 4 + body.size + 4) = [] := by
    rw [← hnext]
    congr 1
    omega
  refine Fragment.typed_append.2 ⟨hguard.typed k [] hshow.left h₀ hmarks.left, ?_⟩
  refine ⟨⟨by omega, hskip, h₃.trans h₀.symm, [], h₀⟩,
    ⟨.boolean, h₃.trans (congrArg _ hstart.symm)⟩, ?_⟩
  exact (Fragment.typed_append (a := body)).2 ⟨htyped, ⟨hfilled, hdone⟩,
    ⟨.boolean, hdrop.trans (congrArg _ hbehind.symm)⟩, trivial⟩

/-- An arm of a tree, and what comes behind it. -/
theorem Arms.typed_append {condition : Expression} {body : List Statement} {rest : Fragment}
    {more : List (List Ty)} {stop : Nat} (hplace : T.Place Γ F l types leave exit)
    (hcheck : condition.type? types = some .boolean) (hty : condition.HasType Γ .boolean)
    (hl : l <+: F)
    (hshow : T.Shows k
      (Arms.armProfile (condition.profile Γ []) (Block.profile Γ body) ++ more))
    (hmarks : T.Marks k (Arms.armCode line (condition.code l.slot)
      (Block.code l leave (k + condition.size + 4) body)
      (jumpDistance stop (k + condition.size + Block.size body + 4)) ++ rest))
    (hstop : T.target stop ∧ T.stack stop = [] ∧ k + condition.size + Block.size body + 8 ≤ stop)
    (hbody : T.Shows (k + condition.size + 4) (Block.profile Γ body) →
      T.stack (k + condition.size + 4 + Block.size body) = [] →
      T.Marks (k + condition.size + 4) (Block.code l leave (k + condition.size + 4) body) →
      (Block.code l leave (k + condition.size + 4) body).Typed T (k + condition.size + 4))
    (hrest : T.Shows (k + condition.size + Block.size body + 8) more →
      T.Marks (k + condition.size + Block.size body + 8) rest →
      rest.Typed T (k + condition.size + Block.size body + 8) ∧
        T.stack (k + condition.size + Block.size body + 8) = []) :
    (Arms.armCode line (condition.code l.slot) (Block.code l leave (k + condition.size + 4) body)
      (jumpDistance stop (k + condition.size + Block.size body + 4)) ++ rest).Typed T k := by
  have hsize := Block.size_code body l leave (k + condition.size + 4)
  have hshow₁ := hshow.right
  have hmarks₁ := hmarks.right
  simp only [Arms.length_armProfile, condition.length_profile, Block.length_profile,
    Arms.size_armCode, condition.size_code, hsize, ← Nat.add_assoc] at hshow₁ hmarks₁
  obtain ⟨htyped, hnext⟩ := hrest hshow₁ hmarks₁
  have harm := Arms.typed_arm (k := k) stop (hplace.computes hcheck hty hl)
    ((Block.length_profile Γ body).trans hsize.symm) hshow.left hmarks.left
  simp only [condition.size_code, hsize] at harm
  rw [Fragment.typed_append, Arms.size_armCode, condition.size_code, hsize, ← Nat.add_assoc,
    ← Nat.add_assoc]
  refine ⟨harm trivial hstop hnext fun hshow' hnext' hmarks' => ?_, htyped⟩
  exact ⟨hbody hshow' hnext' hmarks', hshow'.block_start hnext'⟩

/-- What is stored and tested in front of the body of a loop. -/
theorem Statement.typed_loopHead {exit : Int} {stop : Nat}
    (hbound : T.slot l.boundSlot.toNat = some .number)
    (hcounter : T.slot l.counterSlot.toNat = some .number)
    (hshow : T.Shows k Statement.headProfile) (hbody : T.stack (k + 25) = [])
    (hexit : ((k + 24 : Nat) : Int) + exit = stop ∧ 0 < exit)
    (hstop : T.target stop ∧ T.stack stop = [.boolean]) :
    (Statement.loopHead l line exit).Typed T k := by
  have h₀ : T.stack k = [.number] := hshow 0 _ rfl
  have h₂ : T.stack (k + 2) = [.number] := hshow 2 _ rfl
  have h₃ : T.stack (k + 3) = [] := hshow 3 _ rfl
  have h₁₃ : T.stack (k + 13) = [.number] := hshow 13 _ rfl
  have h₁₅ : T.stack (k + 15) = [.number] := hshow 15 _ rfl
  have h₁₆ : T.stack (k + 16) = [] := hshow 16 _ rfl
  have h₁₈ : T.stack (k + 18) = [.number] := hshow 18 _ rfl
  have h₂₀ : T.stack (k + 20) = [.number, .number] := hshow 20 _ rfl
  have h₂₁ : T.stack (k + 21) = [.boolean] := hshow 21 _ rfl
  have h₂₄ : T.stack (k + 24) = [.boolean] := hshow 24 _ rfl
  refine ⟨⟨.number, [], hbound, h₀, h₂⟩, ⟨.number, h₂.trans (congrArg _ h₃.symm)⟩,
    h₁₃.trans (congrArg _ h₃.symm), ⟨.number, [], hcounter, h₁₃, h₁₅⟩,
    ⟨.number, h₁₅.trans (congrArg _ h₁₆.symm)⟩, ⟨.number, hcounter, h₁₈.trans (congrArg _ h₁₆.symm)⟩,
    ⟨.number, hbound, h₂₀.trans (congrArg _ h₁₈.symm)⟩, ⟨[], h₂₀, h₂₁⟩,
    ⟨hexit.2, ⟨stop, hexit.1, hstop.1, hstop.2.trans h₂₁.symm⟩, h₂₄.trans h₂₁.symm, [], h₂₁⟩,
    ⟨.boolean, h₂₄.trans (congrArg _ hbody.symm)⟩, trivial⟩

/-- The counter is incremented, and the jump back arrives with an empty stack. -/
theorem Statement.typed_loopFoot {back : Int} {test : Nat}
    (hcounter : T.slot l.counterSlot.toNat = some .number)
    (hshow : T.Shows k Statement.footProfile) (hnext : T.stack (k + 20) = [])
    (hback : ((k + 19 : Nat) : Int) + back = test ∧ back ≠ -1)
    (htest : T.target test ∧ T.stack test = []) :
    (Statement.loopFoot l line back).Typed T k := by
  have h₀ : T.stack k = [] := hshow 0 _ rfl
  have h₂ : T.stack (k + 2) = [.number] := hshow 2 _ rfl
  have h₁₂ : T.stack (k + 12) = [.number, .number] := hshow 12 _ rfl
  have h₁₃ : T.stack (k + 13) = [.number] := hshow 13 _ rfl
  have h₁₅ : T.stack (k + 15) = [.number] := hshow 15 _ rfl
  have h₁₆ : T.stack (k + 16) = [] := hshow 16 _ rfl
  have h₁₉ : T.stack (k + 19) = [.boolean] := hshow 19 _ rfl
  exact ⟨⟨.number, hcounter, h₂.trans (congrArg _ h₀.symm)⟩, h₁₂.trans (congrArg _ h₂.symm),
    ⟨[], h₁₂, h₁₃⟩, ⟨.number, [], hcounter, h₁₃, h₁₅⟩, ⟨.number, h₁₅.trans (congrArg _ h₁₆.symm)⟩,
    ⟨hback.2, ⟨test, hback.1, htest.1, htest.2.trans h₁₆.symm⟩⟩,
    ⟨.boolean, h₁₉.trans (congrArg _ hnext.symm)⟩, trivial⟩

theorem Statement.typed_loop {keyword times closer : Token} {count : Expression}
    {body : List Statement} {ty : Ty} (hplace : T.Place Γ F l types leave exit)
    (hcheck : count.type? types = some ty) (hty : count.HasType Γ .number) (hl : l.addLoop <+: F)
    (hshow : T.Shows k ((Statement.loop keyword count times body closer).profile Γ))
    (hnext : T.stack (k + (count.size + Block.size body + 45)) = [])
    (hmarks : T.Marks k ((Statement.loop keyword count times body closer).code l leave k))
    (hbody : ∀ leave', T.Place Γ F l.addLoop types leave'
        (some (k + count.size + Block.size body + 45)) →
      T.Shows (k + count.size + 25) (Block.profile Γ body) →
      T.stack (k + count.size + 25 + Block.size body) = [] →
      T.Marks (k + count.size + 25) (Block.code l.addLoop leave' (k + count.size + 25) body) →
      (Block.code l.addLoop leave' (k + count.size + 25) body).Typed T (k + count.size + 25)) :
    ((Statement.loop keyword count times body closer).code l leave k).Typed T k := by
  obtain ⟨hcount, hhead⟩ : T.Shows k (count.profile Γ []) ∧ T.Shows (k + count.size)
      (Statement.headProfile ++ (Block.profile Γ body ++ Statement.footProfile)) :=
    ⟨hshow.left, by simpa only [count.length_profile] using hshow.right⟩
  have hrest : T.Shows (k + count.size + 25) (Block.profile Γ body ++ Statement.footProfile) :=
    hhead.right
  have hfoot : T.Shows (k + count.size + 25 + Block.size body) Statement.footProfile := by
    simpa only [Block.length_profile] using hrest.right
  have htest : T.stack (k + count.size + 16) = [] := hhead.left 16 _ rfl
  have hstep : T.stack (k + count.size + 25 + Block.size body) = [] := hfoot 0 _ rfl
  have hdrop : T.stack (k + count.size + 25 + Block.size body + 19) = [.boolean] := hfoot 19 _ rfl
  have hend : T.stack (k + count.size + 25 + Block.size body + 20) = [] := by
    rw [← hnext]
    congr 1
    omega
  have hbound := Layout.slotTy_boundSlot (Γ := Γ) hl hplace.room
  have hcounter := Layout.slotTy_counterSlot (Γ := Γ) hl hplace.room
  rw [← hplace.slot] at hbound hcounter
  have htarget := hmarks.stop
  have hmarksBody := hmarks.left.right
  have hmarksFoot := hmarks.right
  have hmarksHead := hmarks.left.left.right
  simp only [Fragment.size_append, count.size_code, Statement.size_loopHead, Statement.size_code,
    Statement.size, Block.size_code body, ← Nat.add_assoc] at hmarksHead hmarksBody hmarksFoot htarget
  have htargetTest : T.target (k + count.size + 16) := hmarksHead.left.mid
  have htargetDrop : T.target (k + count.size + 25 + Block.size body + 19) :=
    (hmarksFoot.right).mid (a := [.jump .always (-(Block.size body + 28)) closer.line])
  have hleave : T.Place Γ F l.addLoop types (jumpDistance (k + count.size + Block.size body + 45))
      (some (k + count.size + Block.size body + 45)) := by
    refine ⟨hplace.room, hplace.slot, hplace.declared.mono l.prefix_addLoop, ?_⟩
    rintro stop ⟨⟩
    exact ⟨rfl, htarget, by rw [← hnext, Nat.add_assoc, Nat.add_assoc, ← Nat.add_assoc count.size]⟩
  have hcountTyped := (hplace.computes hcheck hty (l.prefix_addLoop.trans hl)).typed k [] hcount
    (by rw [count.size_code]; exact hhead.left 0 _ rfl) hmarks.left.left.left
  have hheadTyped : (Statement.loopHead l keyword.line (Block.size body + 20)).Typed T
      (k + count.size) :=
    Statement.typed_loopHead hbound hcounter hhead.left (hrest.left.block_start hstep)
      ⟨by push_cast; omega, by omega⟩ ⟨htargetDrop, hdrop⟩
  have hfootTyped : (Statement.loopFoot l closer.line (-(Block.size body + 28))).Typed T
      (k + count.size + 25 + Block.size body) :=
    Statement.typed_loopFoot hcounter hfoot hend ⟨by push_cast; omega, by omega⟩ ⟨htargetTest, htest⟩
  have hbodyTyped := hbody _ hleave hrest.left hstep hmarksBody
  simp only [Statement.code, Fragment.typed_append, Fragment.size_append, count.size_code,
    Statement.size_loopHead, Block.size_code body, ← Nat.add_assoc]
  exact ⟨⟨⟨hcountTyped, hheadTyped⟩, hbodyTyped⟩, hfootTyped⟩

/-- Code ends before the loop around it does. -/
def EndsBefore (exit : Option Nat) (o : Nat) : Prop := ∀ stop, exit = some stop → o ≤ stop

theorem EndsBefore.of_le {o o' : Nat} (h : EndsBefore exit o) (hle : o' ≤ o) :
    EndsBefore exit o' :=
  fun stop hstop => Nat.le_trans hle (h stop hstop)

mutual

theorem Statement.typed_code : ∀ (s : Statement) {l : Layout} {types types' : Types}
    {leave : Nat → Int} {exit : Option Nat} {k : Nat}, T.Place Γ F l types leave exit →
    s.Grammatical exit.isSome → s.check types = some types' → s.WellTyped Γ → s.layout l <+: F →
    T.Shows k (s.profile Γ) → T.stack (k + s.size) = [] → T.Marks k (s.code l leave k) →
    EndsBefore exit (k + s.size) → (s.code l leave k).Typed T k
  | .assign target name arrow value, l, types, types', leave, exit, k, hplace, _, hcheck, hwell, hl,
      hshow, hnext, hmarks, _ => by
    simp only [Statement.check, Option.bind_eq_bind, Option.bind_eq_some_iff] at hcheck
    obtain ⟨ty, hty, -⟩ := hcheck
    exact Statement.typed_assign hplace hty hwell hl hshow hnext hmarks
  | .choice arms closer, l, types, types', leave, exit, k, hplace, hgram, hcheck, hwell, hl, hshow,
      hnext, hmarks, hexit => by
    have htarget := hmarks.stop
    rw [Statement.size_code] at htarget
    exact arms.typed_code hplace hgram.1 hcheck hwell hl hshow htarget hnext hmarks hexit
  | .loop keyword count times body closer, l, types, types', leave, exit, k, hplace, hgram, hcheck,
      hwell, hl, hshow, hnext, hmarks, _ => by
    rw [Statement.check_loop, Option.ite_none_right_eq_some] at hcheck
    have hl₁ := (Block.prefix_layout body l.addLoop).trans hl
    refine Statement.typed_loop hplace hcheck.1 hwell.1 hl₁ hshow hnext hmarks ?_
    intro leave' hplace' hshow' hnext' hmarks'
    refine Block.typed_code body hplace' hgram.2.2.2.1 hcheck.2 hwell.2 hl hshow' hnext' hmarks' ?_
    rintro stop ⟨⟩
    omega
  | .abort token, l, types, types', leave, exit, k, hplace, hgram, _, _, _, hshow, _, _, hexit => by
    obtain ⟨stop, rfl⟩ := Option.isSome_iff_exists.1 hgram.1
    obtain ⟨rfl, htarget, hstack⟩ := hplace.leave stop rfl
    have h₀ : T.stack k = [] := hshow 0 _ rfl
    exact ⟨⟨jumpDistance_ne (hexit stop rfl),
      CodeTyping.lands_jumpDistance htarget (hstack.trans h₀.symm)⟩, trivial⟩

theorem Arms.typed_code : ∀ (a : Arms) {l : Layout} {types types' : Types} {leave : Nat → Int}
    {exit : Option Nat} {k : Nat}, T.Place Γ F l types leave exit → a.Grammatical exit.isSome →
    a.check types = some types' → a.WellTyped Γ → a.layout l <+: F → T.Shows k (a.profile Γ) →
    T.target (k + a.size) → T.stack (k + a.size) = [] →
    T.Marks k (a.code l leave (jumpDistance (k + a.size)) k) → EndsBefore exit (k + a.size) →
    (a.code l leave (jumpDistance (k + a.size)) k).Typed T k
  | .last keyword condition thenWord body elseWord alternative, l, types, types', leave, exit, k,
      hplace, hgram, hcheck, hwell, hl, hshow, htarget, hnext, hmarks, hexit => by
    rw [Arms.check_last, Option.bind_eq_some_iff] at hcheck
    obtain ⟨types₁, harm, halt⟩ := hcheck
    simp only [Arms.armCheck, Option.ite_none_right_eq_some] at harm
    obtain ⟨hty, hcheck⟩ := harm
    have hl₁ := (Block.prefix_layout alternative (Block.layout l body)).trans hl
    have hplace₁ := hplace.of_check (Block.declares_check body hplace.declared hcheck)
    have hend : k + (Arms.last keyword condition thenWord body elseWord alternative).size =
        k + condition.size + Block.size body + 8 + Block.size alternative := by
      simp only [Arms.size]
      omega
    rw [hend] at htarget hnext hexit hmarks ⊢
    refine Arms.typed_append hplace hty hwell.1.1 ((Block.prefix_layout body l).trans hl₁) hshow hmarks
      ⟨htarget, hnext, by omega⟩ (fun hshow' hnext' hmarks' => ?_)
      fun hshow' hmarks' => ⟨?_, hshow'.block_start hnext⟩
    · exact Block.typed_code body hplace hgram.2.2.2.1 hcheck hwell.1.2 hl₁ hshow' hnext' hmarks'
        (hexit.of_le (by omega))
    · exact Block.typed_code alternative hplace₁ hgram.2.2.2.2.1 halt hwell.2 hl hshow' hnext hmarks'
        hexit
  | .elseIf keyword condition thenWord body elseWord rest, l, types, types', leave, exit, k,
      hplace, hgram, hcheck, hwell, hl, hshow, htarget, hnext, hmarks, hexit => by
    rw [Arms.check_elseIf, Option.bind_eq_some_iff] at hcheck
    obtain ⟨types₁, harm, hrest⟩ := hcheck
    simp only [Arms.armCheck, Option.ite_none_right_eq_some] at harm
    obtain ⟨hty, hcheck⟩ := harm
    have hl₁ := (rest.prefix_layout (Block.layout l body)).trans hl
    have hplace₁ := hplace.of_check (Block.declares_check body hplace.declared hcheck)
    -- the whole chain ends where the rest of it does
    have hend : k + (Arms.elseIf keyword condition thenWord body elseWord rest).size =
        k + condition.size + Block.size body + 8 + rest.size := by
      simp only [Arms.size]
      omega
    rw [hend] at htarget hnext hexit hmarks ⊢
    refine Arms.typed_append hplace hty hwell.1.1 ((Block.prefix_layout body l).trans hl₁) hshow hmarks
      ⟨htarget, hnext, by omega⟩ (fun hshow' hnext' hmarks' => ?_)
      fun hshow' hmarks' => ⟨?_, hshow' 0 [] (rest.getElem?_profile_zero Γ)⟩
    · exact Block.typed_code body hplace hgram.2.2.2.1 hcheck hwell.1.2 hl₁ hshow' hnext' hmarks'
        (hexit.of_le (by omega))
    · exact rest.typed_code hplace₁ hgram.2.2.2.2.2 hrest hwell.2 hl hshow' htarget hnext hmarks' hexit

theorem Block.typed_code : ∀ (ss : List Statement) {l : Layout} {types types' : Types}
    {leave : Nat → Int} {exit : Option Nat} {k : Nat}, T.Place Γ F l types leave exit →
    Block.Grammatical exit.isSome ss → Block.check types ss = some types' →
    Block.WellTyped Γ ss → Block.layout l ss <+: F → T.Shows k (Block.profile Γ ss) →
    T.stack (k + Block.size ss) = [] → T.Marks k (Block.code l leave k ss) →
    EndsBefore exit (k + Block.size ss) → (Block.code l leave k ss).Typed T k
  | [], l, types, types', leave, exit, k, _, _, _, _, _, _, _, _, _ => trivial
  | s :: ss, l, types, types', leave, exit, k, hplace, hgram, hcheck, hwell, hl, hshow, hnext, hmarks,
      hexit => by
    simp only [Block.check, Option.bind_eq_bind, Option.bind_eq_some_iff] at hcheck
    obtain ⟨types₁, hs, hss⟩ := hcheck
    have hl₁ := (Block.prefix_layout ss (s.layout l)).trans hl
    have hplace₁ := hplace.of_check (s.declares_check hplace.declared hs)
    have hshow₁ := hshow.right
    have hmarks₁ := hmarks.right
    rw [s.length_profile] at hshow₁
    rw [s.size_code] at hmarks₁
    rw [Block.size, ← Nat.add_assoc] at hnext hexit
    rw [Block.code, Fragment.typed_append, s.size_code]
    exact ⟨s.typed_code hplace hgram.1 hs hwell.1 hl₁ hshow.left (hshow₁.block_start hnext)
        hmarks.left (hexit.of_le (Nat.le_add_right _ _)),
      Block.typed_code ss hplace₁ hgram.2 hss hwell.2 hl hshow₁ hnext hmarks₁ hexit⟩

end

end Statements

/-! ### Programs -/

/-- The typing of a program: the stacks of its profile, and all boundaries of its code. -/
def Program.typing (Γ : String → Ty) (p : Program) : CodeTyping where
  stack o := (Block.profile Γ p).getD o []
  slot := p.layout.slotTy Γ
  target := Fragment.Boundary 0 p.code

namespace Program

variable {Γ : String → Ty} {p : Program} {types : Types}

theorem shows_profile (Γ : String → Ty) (p : Program) : (p.typing Γ).Shows 0 (Block.profile Γ p) := by
  intro j s hj
  simp only [typing, Nat.zero_add, List.getD_eq_getElem?_getD, hj]
  rfl

theorem stack_of_size_le {o : Nat} (ho : Block.size p ≤ o) : (p.typing Γ).stack o = [] := by
  rw [← Block.length_profile Γ p] at ho
  simp only [typing, List.getD_eq_getElem?_getD, List.getElem?_eq_none ho]
  rfl

/-- The code of a program that can be compiled is typed by its profile. -/
theorem Accepted.exists_typed (h : p.Accepted types) :
    ∃ Γ, Fragment.Typed (p.typing Γ) 0 p.code := by
  obtain ⟨-, Γ, hwell⟩ := p.check_iff.1 ⟨types, h.check⟩
  have hplace : (p.typing Γ).Place Γ p.layout .initial (fun _ => none) hole none :=
    ⟨h.room, rfl, nofun, nofun⟩
  exact ⟨Γ, Block.typed_code p hplace h.grammatical h.check hwell List.prefix_rfl
    (p.shows_profile Γ) (stack_of_size_le (by omega)) (fun o ho => ho) nofun⟩

theorem fits_typing (h : p.Accepted types) (htyped : Fragment.Typed (p.typing Γ) 0 p.code) :
    (p.typing Γ).Fits p.chunk := by
  refine CodeTyping.fits_of_holds (holds_code h.fits) ?_ htyped rfl ?_
  · rw [p.size_chunk]
    exact (Block.size_code p .initial hole 0).symm
  · exact (p.shows_profile Γ).block_start (stack_of_size_le (by omega))

end Program

end BoundedLoop
