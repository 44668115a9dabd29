import BoundedLoop.Compile
import Mathlib.Logic.Relation

/-!
# Changes to slots and names

A compilation hands out slots from one counter, to variables that are assigned to for the first time and
to loops, which need two each that no name leads to. `Draft.Edit` is one change to a draft: a loop takes
its slots, a name is given its slot, a name is given its type, or something else happens that touches
neither slots nor names. Beside the draft goes a ledger of the slots that loops have taken, so a loop
that takes one slot where it needs two is no change. `Draft.Edit.effect` says all that a change can do.

What every change preserves holds along all sequences of them (`Draft.Leads`): all slots that were handed
out are different, and each belongs to a name or is in the ledger (`Draft.Booked`), and what a name means
is never taken back (`Draft.Grows`).
-/

namespace BoundedLoop

open CompileM

/-! ### What the changes do -/

namespace CompileM

theorem takeSlot_apply (site : Site) (d : Draft) :
    takeSlot site d =
      match d.chunk.freeSlot? with
      | none => .error ⟨site, .tooManyVariables⟩ d
      | some slot => .ok slot { d with chunk := d.chunk.takeSlot } := by
  show (match d.chunk.freeSlot? with
    | none => fail site .tooManyVariables
    | some slot => (modify fun d => { d with chunk := d.chunk.takeSlot }) >>= fun _ => pure slot :
      CompileM UInt8) d = _
  cases d.chunk.freeSlot? <;> rfl

theorem targetSlot_apply (site : Site) (name : String) (d : Draft) :
    targetSlot site name d =
      match d.scope.find? name with
      | some v => .ok v.slot d
      | none =>
        match d.chunk.freeSlot? with
        | none => .error ⟨site, .tooManyVariables⟩ d
        | some slot =>
          .ok slot { d with chunk := d.chunk.takeSlot, scope := d.scope.declare name slot } := by
  show (match d.scope.find? name with
    | some v => pure v.slot
    | none => takeSlot site >>= fun slot =>
      (modify fun d => { d with scope := d.scope.declare name slot }) >>= fun _ => pure slot :
      CompileM UInt8) d = _
  cases d.scope.find? name with
  | some v => rfl
  | none =>
    show EStateM.bind (takeSlot site) _ d = _
    unfold EStateM.bind
    rw [takeSlot_apply]
    cases d.chunk.freeSlot? <;> rfl

theorem assignType_apply (site : Site) (name : String) (ty : Ty) (d : Draft) :
    assignType site name ty d =
      match d.scope.assign name ty with
      | .ok scope => .ok () { d with scope }
      | .error (.conflict conflict) => .error ⟨site, .typeConflict conflict name⟩ d
      | .error .undeclared => .error ⟨site, .undefinedVariable name⟩ d := by
  show (match d.scope.assign name ty with
    | .ok scope => modify fun d => { d with scope }
    | .error (.conflict conflict) => fail site (.typeConflict conflict name)
    | .error .undeclared => fail site (.undefinedVariable name) : CompileM Unit) d = _
  rcases d.scope.assign name ty with (_ | conflict) | scope <;> rfl

end CompileM

/-- A slot that is handed out is the next one, of which there must be one. -/
theorem Chunk.takeSlot_of_freeSlot? {c : Chunk} {slot : UInt8} (h : c.freeSlot? = some slot) :
    slot.toNat = c.slotCount ∧ c.slotCount < maxSlots ∧
      c.takeSlot.slotCount = c.slotCount + 1 := by
  have hslot := toNat_of_freeSlot? h
  unfold freeSlot? at h
  split at h
  · rename_i hlt
    exact ⟨hslot, hlt, by rw [takeSlot, if_pos hlt]⟩
  · cases h

/-- A type is given to a declared name that has none. -/
theorem Scope.assign_eq_ok {s s' : Scope} {name : String} {ty : Ty} (h : s.assign name ty = .ok s') :
    s' = s ∨ s' = s.setType name ty ∧ ∃ v, s.find? name = some v ∧ v.ty = none := by
  unfold assign at h
  split at h
  · cases h
  · rename_i v hv
    split at h
    · rename_i hty
      cases h
      exact .inr ⟨rfl, v, hv, hty⟩
    · split at h
      · cases h
        exact .inl rfl
      · cases h

namespace Draft

/-- The slots of a loop: one for its bound, and one for its counter unless there was none left. -/
structure LoopSlots where
  bound : UInt8
  counter? : Option UInt8
deriving DecidableEq

/-- The slots that loops have taken, the last one first. -/
def hidden (ledger : List LoopSlots) : List UInt8 :=
  ledger.flatMap fun l => l.counter?.toList ++ [l.bound]

theorem hidden_suffix {ledger ledger' : List LoopSlots} (h : ledger <:+ ledger') :
    hidden ledger <:+ hidden ledger' := by
  obtain ⟨more, rfl⟩ := h
  exact ⟨hidden more, List.flatMap_append.symm⟩

/-- One change to a draft. Beside the draft stand the slots of all loops so far, the last loop first. -/
inductive Edit : List LoopSlots × Draft → List LoopSlots × Draft → Prop where
  /-- whatever touches neither slots nor names -/
  | other {ledger : List LoopSlots} {d d' : Draft}
      (hslots : d'.chunk.slotCount = d.chunk.slotCount) (hscope : d'.scope = d.scope) :
      Edit (ledger, d) (ledger, d')
  | loop {ledger : List LoopSlots} {d d₁ d₂ : Draft} {site : Site} {bound counter : UInt8}
      (hbound : takeSlot site d = .ok bound d₁) (hcounter : takeSlot site d₁ = .ok counter d₂) :
      Edit (ledger, d) (⟨bound, some counter⟩ :: ledger, d₂)
  /-- a loop finds a slot for its bound and none for its counter -/
  | halfLoop {ledger : List LoopSlots} {d d₁ d₂ : Draft} {site : Site} {bound : UInt8} {e : Diagnostic}
      (hbound : takeSlot site d = .ok bound d₁) (hcounter : takeSlot site d₁ = .error e d₂) :
      Edit (ledger, d) (⟨bound, none⟩ :: ledger, d₂)
  | declare {ledger : List LoopSlots} {d d' : Draft} {site : Site} {name : String} {slot : UInt8}
      (h : targetSlot site name d = .ok slot d') : Edit (ledger, d) (ledger, d')
  | assign {ledger : List LoopSlots} {d d' : Draft} {site : Site} {name : String} {ty : Ty}
      (h : assignType site name ty d = .ok () d') : Edit (ledger, d) (ledger, d')

/-- From one point of a compilation to a later one. -/
def Leads : List LoopSlots × Draft → List LoopSlots × Draft → Prop := Relation.ReflTransGen Edit

/-- The points of the compilation of `tokens`. -/
def Occurs (tokens : List Token) (ledger : List LoopSlots) (d : Draft) : Prop :=
  Leads ([], ofTokens tokens) (ledger, d)

/-- From `d` to `d'` the slot is taken, and no name is given. -/
structure Takes (d : Draft) (slot : UInt8) (d' : Draft) : Prop where
  free : d.chunk.freeSlot? = some slot
  slots : d'.chunk.slotCount = d.chunk.slotCount + 1
  scope : d'.scope = d.scope

theorem Takes.of_takeSlot {site : Site} {slot : UInt8} {d d' : Draft}
    (h : takeSlot site d = .ok slot d') : d.Takes slot d' := by
  rw [takeSlot_apply] at h
  split at h
  · cases h
  · rename_i hfree
    cases h
    exact ⟨hfree, (Chunk.takeSlot_of_freeSlot? hfree).2.2, rfl⟩

/-- No slot is refused unless all are taken. -/
theorem full_of_takeSlot {site : Site} {e : Diagnostic} {d d' : Draft}
    (h : takeSlot site d = .error e d') : d' = d ∧ Chunk.maxSlots ≤ d.chunk.slotCount := by
  rw [takeSlot_apply] at h
  split at h
  · rename_i hfree
    cases h
    refine ⟨rfl, ?_⟩
    unfold Chunk.freeSlot? at hfree
    split at hfree
    · cases hfree
    · rename_i hfull
      exact Nat.not_lt.1 hfull
  · cases h

/-- All that a change can do to slots and names. -/
theorem Edit.effect {ledger ledger' : List LoopSlots} {d d' : Draft}
    (h : Edit (ledger, d) (ledger', d')) :
    (ledger' = ledger ∧ d'.chunk.slotCount = d.chunk.slotCount ∧ d'.scope = d.scope) ∨
    (∃ bound d₁ counter, d.Takes bound d₁ ∧ d₁.Takes counter d' ∧
      ledger' = ⟨bound, some counter⟩ :: ledger) ∨
    (∃ bound, d.Takes bound d' ∧ Chunk.maxSlots ≤ d'.chunk.slotCount ∧
      ledger' = ⟨bound, none⟩ :: ledger) ∨
    (∃ name slot, d.chunk.freeSlot? = some slot ∧ ledger' = ledger ∧
      d'.chunk.slotCount = d.chunk.slotCount + 1 ∧ d.scope.find? name = none ∧
      d'.scope = d.scope.declare name slot) ∨
    ∃ name ty v, ledger' = ledger ∧ d'.chunk.slotCount = d.chunk.slotCount ∧
      d.scope.find? name = some v ∧ v.ty = none ∧ d'.scope = d.scope.setType name ty := by
  cases h with
  | other hslots hscope => exact .inl ⟨rfl, hslots, hscope⟩
  | loop hbound hcounter =>
    exact .inr (.inl ⟨_, _, _, .of_takeSlot hbound, .of_takeSlot hcounter, rfl⟩)
  | halfLoop hbound hcounter =>
    obtain ⟨rfl, hfull⟩ := full_of_takeSlot hcounter
    exact .inr (.inr (.inl ⟨_, .of_takeSlot hbound, hfull, rfl⟩))
  | @declare _ _ _ _ name _ h =>
    rw [targetSlot_apply] at h
    split at h
    · cases h
      exact .inl ⟨rfl, rfl, rfl⟩
    · rename_i hnew
      split at h
      · cases h
      · rename_i hfree
        cases h
        exact .inr (.inr (.inr (.inl ⟨name, _, hfree, rfl,
          (Chunk.takeSlot_of_freeSlot? hfree).2.2, hnew, rfl⟩)))
  | @assign _ _ _ _ name ty h =>
    rw [assignType_apply] at h
    split at h
    · rename_i scope hassign
      cases h
      rcases Scope.assign_eq_ok hassign with rfl | ⟨rfl, v, hv, hty⟩
      · exact .inl ⟨rfl, rfl, rfl⟩
      · exact .inr (.inr (.inr (.inr ⟨name, ty, v, rfl, rfl, hv, hty, rfl⟩)))
    · cases h
    · cases h

/-! ### What a name means is never taken back -/

/-- From `d` to `d'` no slot is given back, and every name keeps its slot and its type. -/
structure Grows (d d' : Draft) : Prop where
  slots : d.chunk.slotCount ≤ d'.chunk.slotCount
  kept : ∀ name v, d.scope.find? name = some v → ∃ v', d'.scope.find? name = some v' ∧
    v'.slot = v.slot ∧ ∀ ty, v.ty = some ty → v'.ty = some ty

theorem Grows.refl (d : Draft) : d.Grows d := ⟨Nat.le_refl _, fun _ v hv => ⟨v, hv, rfl, fun _ h => h⟩⟩

theorem Grows.trans {d d' d'' : Draft} (h : d.Grows d') (h' : d'.Grows d'') : d.Grows d'' := by
  refine ⟨Nat.le_trans h.slots h'.slots, ?_⟩
  intro name v hv
  obtain ⟨v₁, hv₁, hslot₁, hty₁⟩ := h.kept name v hv
  obtain ⟨v₂, hv₂, hslot₂, hty₂⟩ := h'.kept name v₁ hv₁
  exact ⟨v₂, hv₂, hslot₂.trans hslot₁, fun ty hty => hty₂ ty (hty₁ ty hty)⟩

theorem Grows.of_scope {d d' : Draft} (hslots : d.chunk.slotCount ≤ d'.chunk.slotCount)
    (hscope : d'.scope = d.scope) : d.Grows d' := by
  refine ⟨hslots, ?_⟩
  intro name v hv
  rw [hscope]
  exact ⟨v, hv, rfl, fun _ h => h⟩

theorem Takes.grows {d d' : Draft} {slot : UInt8} (h : d.Takes slot d') : d.Grows d' :=
  .of_scope (Nat.le.intro h.slots.symm) h.scope

theorem Edit.grows {ledger ledger' : List LoopSlots} {d d' : Draft}
    (h : Edit (ledger, d) (ledger', d')) : d.Grows d' ∧ ledger <:+ ledger' := by
  rcases h.effect with ⟨rfl, hcount, hscope⟩ | ⟨bound, d₁, counter, hbound, hcounter, rfl⟩ |
    ⟨bound, hbound, -, rfl⟩ | ⟨name, slot, -, rfl, hcount, hnew, hscope⟩ |
    ⟨name, ty, v, rfl, hcount, hv, hty, hscope⟩
  · exact ⟨.of_scope (Nat.le_of_eq hcount.symm) hscope, List.suffix_rfl⟩
  · exact ⟨hbound.grows.trans hcounter.grows, List.suffix_cons _ _⟩
  · exact ⟨hbound.grows, List.suffix_cons _ _⟩
  · refine ⟨⟨Nat.le.intro hcount.symm, ?_⟩, List.suffix_rfl⟩
    intro other w hw
    have hne : other ≠ name := by
      rintro rfl
      rw [hnew] at hw
      cases hw
    refine ⟨w, ?_, rfl, fun _ h => h⟩
    rw [hscope, Scope.find?_declare, if_neg hne, hw]
  · refine ⟨⟨Nat.le_of_eq hcount.symm, ?_⟩, List.suffix_rfl⟩
    intro other w hw
    rw [hscope, Scope.find?_setType, hw, Option.map_some]
    by_cases hname : other = name
    · -- the name had no type that could be lost
      subst hname
      rw [hv] at hw
      cases hw
      refine ⟨_, rfl, by rw [if_pos rfl], ?_⟩
      intro ty' hty'
      rw [hty] at hty'
      cases hty'
    · refine ⟨w, by rw [if_neg hname], rfl, fun _ h => h⟩

/-! ### No slot is handed out twice -/

/-- The slot of a declared name. -/
def slotOf? (d : Draft) (name : String) : Option UInt8 := (d.scope.find? name).map Variable.slot

/-- The slots of the variables and those in `hidden` are all different, and they are all the slots that
the counter has passed. -/
structure Booked (d : Draft) (hidden : List UInt8) : Prop where
  output : d.slotOf? Token.outputName = some Chunk.outputSlot
  distinct : ∀ name name' slot, d.slotOf? name = some slot → d.slotOf? name' = some slot →
    name = name'
  below : ∀ name slot, d.slotOf? name = some slot → slot.toNat < d.chunk.slotCount
  room : d.chunk.slotCount ≤ Chunk.maxSlots
  nodup : hidden.Nodup
  hidden_below : ∀ slot ∈ hidden, slot.toNat < d.chunk.slotCount
  apart : ∀ name slot, d.slotOf? name = some slot → slot ∉ hidden
  taken : ∀ slot : UInt8, slot.toNat < d.chunk.slotCount →
    slot ∈ hidden ∨ ∃ name, d.slotOf? name = some slot

theorem slotOf?_ofTokens (tokens : List Token) (name : String) :
    (ofTokens tokens).slotOf? name =
      if name = Token.outputName then some Chunk.outputSlot else none := by
  show ((({} : Scope).declare Token.outputName Chunk.outputSlot).find? name).map Variable.slot = _
  rw [Scope.find?_declare]
  split <;> rfl

theorem booked_ofTokens (tokens : List Token) : (ofTokens tokens).Booked [] := by
  have honly : ∀ name slot, (ofTokens tokens).slotOf? name = some slot →
      name = Token.outputName ∧ slot = Chunk.outputSlot := by
    intro name slot h
    rw [slotOf?_ofTokens] at h
    split at h
    · rename_i hname
      exact ⟨hname, (Option.some.inj h).symm⟩
    · cases h
  have houtput : (ofTokens tokens).slotOf? Token.outputName = some Chunk.outputSlot := by
    rw [slotOf?_ofTokens, if_pos rfl]
  refine ⟨houtput, ?_, ?_, Nat.le_add_left 1 255, List.nodup_nil, by nofun, by nofun, ?_⟩
  · intro name name' slot h h'
    rw [(honly name slot h).1, (honly name' slot h').1]
  · intro name slot h
    rw [(honly name slot h).2]
    exact Nat.zero_lt_one
  · intro slot hlt
    obtain rfl : slot = Chunk.outputSlot := UInt8.toNat_inj.1 (Nat.lt_one_iff.1 hlt)
    exact .inr ⟨_, houtput⟩

namespace Booked

variable {d d' : Draft} {hidden : List UInt8}

/-- Only the slots count. -/
theorem congr (hb : d.Booked hidden) (hcount : d'.chunk.slotCount = d.chunk.slotCount)
    (hslots : ∀ name, d'.slotOf? name = d.slotOf? name) : d'.Booked hidden := by
  obtain ⟨houtput, hdistinct, hbelow, hroom, hnodup, hhidden, hapart, htaken⟩ := hb
  simp only [← hslots, ← hcount] at houtput hdistinct hbelow hroom hhidden hapart htaken
  exact ⟨houtput, hdistinct, hbelow, hroom, hnodup, hhidden, hapart, htaken⟩

theorem hide (hb : d.Booked hidden) {slot : UInt8} (h : d.Takes slot d') :
    d'.Booked (slot :: hidden) := by
  obtain ⟨hfree, hcount, hscope⟩ := h
  have hslots : ∀ name, d'.slotOf? name = d.slotOf? name := fun name => by
    rw [slotOf?, hscope, slotOf?]
  obtain ⟨hslot, hlt, -⟩ := Chunk.takeSlot_of_freeSlot? hfree
  refine ⟨?_, ?_, ?_, ?_, ?_, ?_, ?_, ?_⟩
  · rw [hslots, hb.output]
  · intro name name' taken h h'
    rw [hslots] at h h'
    exact hb.distinct name name' taken h h'
  · intro name taken h
    rw [hslots] at h
    rw [hcount]
    exact Nat.lt_succ_of_lt (hb.below name taken h)
  · rw [hcount]
    exact hlt
  · refine List.nodup_cons.2 ⟨?_, hb.nodup⟩
    intro hmem
    have := hb.hidden_below slot hmem
    omega
  · intro taken hmem
    rcases List.mem_cons.1 hmem with rfl | hmem
    · omega
    · have := hb.hidden_below taken hmem
      omega
  · intro name taken h hmem
    rw [hslots] at h
    rcases List.mem_cons.1 hmem with rfl | hmem
    · have := hb.below name taken h
      omega
    · exact hb.apart name taken h hmem
  · intro taken hlt'
    simp only [hslots, List.mem_cons]
    rcases Nat.lt_or_ge taken.toNat d.chunk.slotCount with hold | hnew
    · exact (hb.taken taken hold).imp_left .inr
    · exact .inl (.inl (UInt8.toNat_inj.1 (by omega)))

theorem declare (hb : d.Booked hidden) {name : String} {slot : UInt8}
    (hnew : d.slotOf? name = none) (hfree : d.chunk.freeSlot? = some slot)
    (hcount : d'.chunk.slotCount = d.chunk.slotCount + 1)
    (hslots : ∀ other, d'.slotOf? other = if other = name then some slot else d.slotOf? other) :
    d'.Booked hidden := by
  obtain ⟨hslot, hlt, -⟩ := Chunk.takeSlot_of_freeSlot? hfree
  -- a slot in use is the new one, or was in use before and is smaller
  have hold : ∀ other taken, d'.slotOf? other = some taken →
      other = name ∧ taken = slot ∨ d.slotOf? other = some taken ∧ taken.toNat < slot.toNat := by
    intro other taken h
    rw [hslots] at h
    split at h
    · rename_i hname
      exact .inl ⟨hname, (Option.some.inj h).symm⟩
    · rw [hslot]
      exact .inr ⟨h, hb.below other taken h⟩
  refine ⟨?_, ?_, ?_, ?_, hb.nodup, ?_, ?_, ?_⟩
  · rw [hslots, if_neg, hb.output]
    rintro rfl
    rw [hb.output] at hnew
    cases hnew
  · intro other other' taken h h'
    rcases hold other taken h with ⟨rfl, rfl⟩ | ⟨h, hltTaken⟩
    · rcases hold other' taken h' with ⟨rfl, -⟩ | ⟨-, hltTaken⟩
      · rfl
      · exact absurd hltTaken (Nat.lt_irrefl _)
    · rcases hold other' taken h' with ⟨-, rfl⟩ | ⟨h', -⟩
      · exact absurd hltTaken (Nat.lt_irrefl _)
      · exact hb.distinct other other' taken h h'
  · intro other taken h
    rcases hold other taken h with ⟨-, rfl⟩ | ⟨-, hltTaken⟩ <;> omega
  · rw [hcount]
    exact hlt
  · intro taken hmem
    have := hb.hidden_below taken hmem
    omega
  · intro other taken h hmem
    rcases hold other taken h with ⟨-, rfl⟩ | ⟨h, -⟩
    · have := hb.hidden_below taken hmem
      omega
    · exact hb.apart other taken h hmem
  · intro taken hlt'
    rcases Nat.lt_or_ge taken.toNat d.chunk.slotCount with hold | hnewest
    · refine (hb.taken taken hold).imp_right ?_
      rintro ⟨other, h⟩
      refine ⟨other, ?_⟩
      rw [hslots, if_neg, h]
      rintro rfl
      rw [hnew] at h
      cases h
    · obtain rfl : taken = slot := UInt8.toNat_inj.1 (by omega)
      exact .inr ⟨name, by rw [hslots, if_pos rfl]⟩

/-- Which slots are hidden can be seen from the draft alone. -/
theorem mem_hidden_iff (hb : d.Booked hidden) {slot : UInt8} :
    slot ∈ hidden ↔ slot.toNat < d.chunk.slotCount ∧ ∀ name, d.slotOf? name ≠ some slot := by
  constructor
  · intro hmem
    exact ⟨hb.hidden_below slot hmem, fun name h => hb.apart name slot h hmem⟩
  · rintro ⟨hlt, hnone⟩
    refine (hb.taken slot hlt).resolve_right ?_
    rintro ⟨name, h⟩
    exact hnone name h

end Booked

theorem Edit.booked {ledger ledger' : List LoopSlots} {d d' : Draft}
    (h : Edit (ledger, d) (ledger', d')) (hb : d.Booked (hidden ledger)) :
    d'.Booked (hidden ledger') := by
  rcases h.effect with ⟨rfl, hcount, hscope⟩ | ⟨bound, d₁, counter, hbound, hcounter, rfl⟩ |
    ⟨bound, hbound, -, rfl⟩ | ⟨name, slot, hfree, rfl, hcount, hnew, hscope⟩ |
    ⟨name, ty, -, rfl, hcount, -, -, hscope⟩
  · exact hb.congr hcount fun name => by rw [slotOf?, hscope, slotOf?]
  · exact (hb.hide hbound).hide hcounter
  · exact hb.hide hbound
  · have hnone : d.slotOf? name = none := by rw [slotOf?, hnew, Option.map_none]
    refine hb.declare hnone hfree hcount ?_
    intro other
    rw [slotOf?, hscope, Scope.find?_declare]
    split <;> rfl
  · refine hb.congr hcount ?_
    intro other
    rw [slotOf?, hscope, Scope.find?_setType, Option.map_map, slotOf?]
    congr 1
    funext v
    show (if other = name then { v with ty := some ty } else v).slot = v.slot
    split <;> rfl

/-- A loop without a counter stands only where all slots are taken. -/
def Complete (p : List LoopSlots × Draft) : Prop :=
  ∀ l ∈ p.1, l.counter? = none → Chunk.maxSlots ≤ p.2.chunk.slotCount

theorem Edit.complete {p q : List LoopSlots × Draft} (h : Edit p q) (hp : Complete p) :
    Complete q := by
  obtain ⟨ledger, d⟩ := p
  obtain ⟨ledger', d'⟩ := q
  have hold : ∀ l ∈ ledger, l.counter? = none → Chunk.maxSlots ≤ d'.chunk.slotCount :=
    fun l hl hnone => Nat.le_trans (hp l hl hnone) h.grows.1.slots
  rcases h.effect with ⟨rfl, -⟩ | ⟨bound, d₁, counter, -, -, rfl⟩ | ⟨bound, -, hfull, rfl⟩ |
    ⟨name, slot, -, rfl, -⟩ | ⟨name, ty, v, rfl, -⟩
  · exact hold
  · exact List.forall_mem_cons.2 ⟨by rintro ⟨⟩, hold⟩
  · exact List.forall_mem_cons.2 ⟨fun _ => hfull, hold⟩
  · exact hold
  · exact hold

section Leads

variable {p q : List LoopSlots × Draft}

theorem Leads.grows (h : Leads p q) : p.2.Grows q.2 ∧ p.1 <:+ q.1 := by
  induction h with
  | refl => exact ⟨.refl _, List.suffix_rfl⟩
  | tail _ hedit ih =>
    obtain ⟨hgrows, hsuffix⟩ := ih
    obtain ⟨hgrows', hsuffix'⟩ := hedit.grows
    exact ⟨hgrows.trans hgrows', hsuffix.trans hsuffix'⟩

theorem Leads.booked (h : Leads p q) (hb : p.2.Booked (hidden p.1)) : q.2.Booked (hidden q.1) := by
  induction h with
  | refl => exact hb
  | tail _ hedit ih => exact hedit.booked ih

theorem Leads.complete (h : Leads p q) (hp : Complete p) : Complete q := by
  induction h with
  | refl => exact hp
  | tail _ hedit ih => exact hedit.complete ih

end Leads

end Draft

end BoundedLoop
