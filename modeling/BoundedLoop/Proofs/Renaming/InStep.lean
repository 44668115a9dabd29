import BoundedLoop.Proofs.Recovery.Compound
import Mathlib.Data.List.Forall2

/-!
# Compilations in step

Two drafts are alike (`Draft.Alike`) if they differ only in what no decision of the compiler rests on:
where tokens stand and how they are spelled, on which lines code was written, what exactly the problems
are as long as their codes are the same, and how variables are called. Names may differ along a relation
that tells as many of them apart on one side as on the other (`NamesMatch`).

Two computations run in step (`CompileM.InStep`) if they take alike drafts to alike drafts, and either
both succeed with the same result or both fail with the same code. This is closed under sequencing and
choice, and all that reads tokens and writes code runs in step with itself.
-/

namespace BoundedLoop

/-! ### Bytes -/

namespace Chunk

theorem bytes_emit (c : Chunk) (i : Instruction) (line : Nat) :
    (c.emit i line).bytes = c.bytes ++ i.encode := by
  rw [bytes, toList_cells_emit, List.map_append, List.map_map, bytes]
  congr 1
  exact List.map_id _

theorem bytes_setByte (c : Chunk) (offset : Nat) (byte : UInt8) :
    (c.setByte offset byte).bytes = c.bytes.set offset byte := by
  refine List.ext_getElem? fun k => ?_
  simp only [bytes, setByte, List.getElem?_map, Array.getElem?_toList, Array.getElem?_modify,
    List.getElem?_set, List.length_map, Array.length_toList]
  by_cases hk : offset = k
  · subst hk
    by_cases hlt : offset < c.cells.size <;> simp [hlt]
  · simp [hk]

end Chunk

/-! ### Names that match -/

/-- Names that are matched are told apart on one side whenever they are on the other. -/
structure NamesMatch (R : String → String → Prop) : Prop where
  output : R Token.outputName Token.outputName
  eq_iff : ∀ {a a' b b' : String}, R a b → R a' b' → (a = a' ↔ b = b')

variable {R : String → String → Prop}

/-- Tokens of the same kind and value, with names that match. -/
structure Token.Alike (R : String → String → Prop) (t t' : Token) : Prop where
  kind : t'.kind = t.kind
  value : t'.value? = t.value?
  name : Option.Rel R t.name? t'.name?

theorem Token.Alike.variableName? {t t' : Token} (hR : NamesMatch R) (h : t.Alike R t') :
    Option.Rel R t.variableName? t'.variableName? := by
  unfold Token.variableName?
  rw [h.kind]
  split
  · exact .some hR.output
  · exact h.name

/-- Matching names mean the same. -/
def Scope.Alike (R : String → String → Prop) (s s' : Scope) : Prop :=
  ∀ name name', R name name' → s'.find? name' = s.find? name

section Scopes

variable {s s' : Scope} {name name' : String}

theorem Scope.Alike.declare (hR : NamesMatch R) (h : s.Alike R s') (hname : R name name')
    (slot : UInt8) : (s.declare name slot).Alike R (s'.declare name' slot) := by
  intro other other' hother
  rw [find?_declare, find?_declare, h other other' hother]
  by_cases heq : other = name
  · rw [if_pos heq, if_pos ((hR.eq_iff hother hname).1 heq)]
  · rw [if_neg heq, if_neg (mt (hR.eq_iff hother hname).2 heq)]

theorem Scope.Alike.setType (hR : NamesMatch R) (h : s.Alike R s') (hname : R name name') (ty : Ty) :
    (s.setType name ty).Alike R (s'.setType name' ty) := by
  intro other other' hother
  rw [find?_setType, find?_setType, h other other' hother]
  simp only [hR.eq_iff hother hname]

/-- A type is given on both sides, or refused for the same reason. -/
theorem Scope.Alike.assign (hR : NamesMatch R) (h : s.Alike R s') (hname : R name name') (ty : Ty) :
    (∃ after after', s.assign name ty = .ok after ∧ s'.assign name' ty = .ok after' ∧
      after.Alike R after') ∨
    ∃ e, s.assign name ty = .error e ∧ s'.assign name' ty = .error e := by
  unfold Scope.assign
  rw [h name name' hname]
  cases s.find? name with
  | none => exact .inr ⟨_, rfl, rfl⟩
  | some v =>
    obtain ⟨_ | expected, slot⟩ := v
    · exact .inl ⟨_, _, rfl, rfl, h.setType hR hname ty⟩
    · by_cases heq : expected = ty
      · exact .inl ⟨_, _, if_pos heq, if_pos heq, h⟩
      · exact .inr ⟨_, if_neg heq, if_neg heq⟩

end Scopes

/-- Drafts that the compiler treats in the same way. -/
structure Draft.Alike (R : String → String → Prop) (d d' : Draft) : Prop where
  ahead : List.Forall₂ (Token.Alike R) d.ahead d'.ahead
  finish : d.finish.Alike R d'.finish
  bytes : d'.chunk.bytes = d.chunk.bytes
  slots : d'.chunk.slotCount = d.chunk.slotCount
  scope : d.scope.Alike R d'.scope
  loops : d'.loops = d.loops
  depth : d'.depth = d.depth
  codes : d'.diagnostics.toList.map (·.code) = d.diagnostics.toList.map (·.code)

namespace Draft.Alike

variable {d d' : Draft}

theorem next (h : d.Alike R d') : d.next.Alike R d'.next := by
  have hahead := h.ahead
  unfold Draft.next
  generalize d.ahead = ts at hahead ⊢
  generalize d'.ahead = ts' at hahead ⊢
  cases hahead with
  | nil => exact h.finish
  | cons ht _ => exact ht

theorem size (h : d.Alike R d') : d'.chunk.size = d.chunk.size := by
  rw [Chunk.size_eq_length_bytes, h.bytes, Chunk.size_eq_length_bytes]

theorem nextLabel (h : d.Alike R d') : d'.chunk.nextLabel = d.chunk.nextLabel := by
  unfold Chunk.nextLabel
  rw [h.size]

theorem reach (h : d.Alike R d') (label : Chunk.Label) :
    d'.chunk.reach label = d.chunk.reach label := by
  unfold Chunk.reach
  rw [h.size]

theorem distanceTo (h : d.Alike R d') (target : Int) :
    d'.chunk.distanceTo target = d.chunk.distanceTo target := by
  unfold Chunk.distanceTo
  rw [h.size]

theorem freeSlot? (h : d.Alike R d') : d'.chunk.freeSlot? = d.chunk.freeSlot? := by
  unfold Chunk.freeSlot?
  rw [h.slots]

/-- Writing the same code on both sides. -/
theorem write (h : d.Alike R d') {c c' : Chunk} (hbytes : c'.bytes = c.bytes)
    (hslots : c'.slotCount = c.slotCount) :
    Draft.Alike R { d with chunk := c } { d' with chunk := c' } :=
  ⟨h.ahead, h.finish, hbytes, hslots, h.scope, h.loops, h.depth, h.codes⟩

/-- Matching names are given the same meaning on both sides. -/
theorem withScope (h : d.Alike R d') {s s' : Scope} (hscope : s.Alike R s') :
    Draft.Alike R { d with scope := s } { d' with scope := s' } :=
  ⟨h.ahead, h.finish, h.bytes, h.slots, hscope, h.loops, h.depth, h.codes⟩

theorem emit (h : d.Alike R d') (i : Instruction) (line line' : Nat) :
    Draft.Alike R { d with chunk := d.chunk.emit i line } { d' with chunk := d'.chunk.emit i line' } := by
  refine h.write ?_ ?_
  · rw [Chunk.bytes_emit, h.bytes, Chunk.bytes_emit]
  · rw [Chunk.slotCount_emit, h.slots, Chunk.slotCount_emit]

theorem setDistance (h : d.Alike R d') (label : Chunk.Label) (distance : Int16) :
    Draft.Alike R { d with chunk := d.chunk.setDistance label distance }
      { d' with chunk := d'.chunk.setDistance label distance } := by
  refine h.write ?_ h.slots
  rw [Chunk.setDistance, Chunk.setDistance]
  simp only [Chunk.bytes_setByte, h.bytes]

theorem takeSlot (h : d.Alike R d') :
    Draft.Alike R { d with chunk := d.chunk.takeSlot } { d' with chunk := d'.chunk.takeSlot } := by
  unfold Chunk.takeSlot
  rw [h.slots]
  split
  · exact h.write h.bytes rfl
  · exact h

end Draft.Alike

namespace CompileM

variable {α β : Type} {m m' : CompileM α} {f f' : α → CompileM β}

/-- The same result on alike drafts, or failures with the same code. -/
inductive OutcomeAlike (R : String → String → Prop) :
    EStateM.Result Diagnostic Draft α → EStateM.Result Diagnostic Draft α → Prop where
  | ok (a : α) {d d' : Draft} (h : d.Alike R d') : OutcomeAlike R (.ok a d) (.ok a d')
  | error {e e' : Diagnostic} (hcode : e'.code = e.code) {d d' : Draft} (h : d.Alike R d') :
      OutcomeAlike R (.error e d) (.error e' d')

/-- The two computations do the same on alike drafts. -/
def InStep (R : String → String → Prop) (m m' : CompileM α) : Prop :=
  ∀ d d', Draft.Alike R d d' → OutcomeAlike R (m d) (m' d')

/-! ### Sequencing and choice -/

theorem inStep_pure (a : α) : InStep R (pure a) (pure a) := fun _ _ hd => .ok a hd

theorem inStep_fail {site site' : Site} {problem problem' : Problem}
    (h : problem'.code = problem.code) :
    InStep R (fail site problem : CompileM α) (fail site' problem') := by
  intro d d' hd
  have hcode : Diagnostic.code ⟨site', problem'⟩ = Diagnostic.code ⟨site, problem⟩ := h
  exact .error hcode hd

theorem InStep.bind (hm : InStep R m m') (hf : ∀ a, InStep R (f a) (f' a)) :
    InStep R (m >>= f) (m' >>= f') := by
  intro d d' hd
  have h := hm d d' hd
  show OutcomeAlike R (EStateM.bind m f d) (EStateM.bind m' f' d')
  unfold EStateM.bind
  generalize m d = r at h ⊢
  generalize m' d' = r' at h ⊢
  cases h with
  | ok a h => exact hf a _ _ h
  | error hcode h => exact .error hcode h

theorem InStep.ite {c c' : Prop} [Decidable c] [Decidable c'] (hc : c' ↔ c) {n n' : CompileM α}
    (hm : InStep R m m') (hn : InStep R n n') :
    InStep R (if c then m else n) (if c' then m' else n') := by
  by_cases h : c
  · rw [if_pos h, if_pos (hc.2 h)]
    exact hm
  · rw [if_neg h, if_neg (mt hc.1 h)]
    exact hn

theorem inStep_modify {g g' : Draft → Draft}
    (h : ∀ d d', Draft.Alike R d d' → (g d).Alike R (g' d')) :
    InStep R (modify g : CompileM PUnit) (modify g') := by
  intro d d' hd
  exact OutcomeAlike.ok PUnit.unit (h d d' hd)

/-- What is done may depend on the draft. -/
theorem inStep_get_bind {f f' : Draft → CompileM β}
    (hf : ∀ d d', Draft.Alike R d d' → InStep R (f d) (f' d')) : InStep R (get >>= f) (get >>= f') :=
  fun d d' hd => hf d d' hd d d' hd

theorem inStep_forM {f f' : β → CompileM PUnit} (hf : ∀ b, InStep R (f b) (f' b)) (l : List β) :
    InStep R (l.forM f) (l.forM f') := by
  induction l with
  | nil => exact inStep_pure _
  | cons b l ih => exact (hf b).bind fun _ => ih

/-! ### Tokens -/

/-- What is done may depend on the token that comes next. -/
theorem inStep_peek_bind {f f' : Token → CompileM β}
    (hf : ∀ t t', Token.Alike R t t' → InStep R (f t) (f' t')) :
    InStep R (peek >>= f) (peek >>= f') :=
  fun d d' hd => hf d.next d'.next hd.next d d' hd

theorem inStep_advance : InStep R advance advance := by
  refine inStep_modify fun d d' hd => ?_
  have htail : List.Forall₂ (Token.Alike R) d.ahead.tail d'.ahead.tail := by
    have hahead := hd.ahead
    generalize d.ahead = ts at hahead ⊢
    generalize d'.ahead = ts' at hahead ⊢
    cases hahead with
    | nil => exact .nil
    | cons _ hts => exact hts
  exact ⟨htail, hd.finish, hd.bytes, hd.slots, hd.scope, hd.loops, hd.depth, hd.codes⟩

theorem inStep_accept (kind : Token.Kind) : InStep R (accept kind) (accept kind) := by
  refine inStep_peek_bind fun t t' ht => .ite (by rw [ht.kind]) ?_ (inStep_pure false)
  exact inStep_advance.bind fun _ => inStep_pure true

section Wanted

variable {t t' : Token} {wanted wanted' : Expectation}

theorem inStep_missing (hwanted : wanted'.code = wanted.code) (ht : t.Alike R t') :
    InStep R (missing wanted t : CompileM α) (missing wanted' t') := by
  refine inStep_fail ?_
  rw [ht.kind]
  split
  · rfl
  · exact hwanted

theorem inStep_expect (kind : Token.Kind) (hwanted : wanted'.code = wanted.code) :
    InStep R (expect kind wanted) (expect kind wanted') :=
  inStep_peek_bind fun _ _ ht => .ite (by rw [ht.kind]) inStep_advance (inStep_missing hwanted ht)

end Wanted

/-! ### Code -/

theorem inStep_emit (i : Instruction) (line line' : Nat) : InStep R (emit i line) (emit i line') :=
  inStep_modify fun _ _ hd => hd.emit i line line'

theorem inStep_reserve (branch : Branch) (line line' : Nat) :
    InStep R (reserve branch line) (reserve branch line') := by
  refine inStep_get_bind fun d d' hd => ?_
  rw [hd.nextLabel]
  refine .bind (inStep_modify fun d d' hd => ?_) fun _ => inStep_pure _
  exact hd.emit _ line line'

theorem inStep_patch (site site' : Site) (label : Chunk.Label) :
    InStep R (patch site label) (patch site' label) := by
  refine inStep_get_bind fun d d' hd => ?_
  rw [hd.reach]
  split
  · exact inStep_fail rfl
  · exact inStep_modify fun _ _ hd => hd.setDistance label _

theorem inStep_jumpBack (site site' : Site) (target line line' : Nat) :
    InStep R (jumpBack site target line) (jumpBack site' target line') := by
  refine inStep_get_bind fun d d' hd => ?_
  rw [hd.distanceTo]
  split
  · exact inStep_fail rfl
  · exact inStep_emit _ line line'

theorem inStep_takeSlot (site site' : Site) : InStep R (takeSlot site) (takeSlot site') := by
  refine inStep_get_bind fun d d' hd => ?_
  rw [hd.freeSlot?]
  split
  · exact inStep_fail rfl
  · exact .bind (inStep_modify fun _ _ hd => hd.takeSlot) fun _ => inStep_pure _

end CompileM

end BoundedLoop
