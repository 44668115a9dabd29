import BoundedLoop.Proofs.Static.Located
import Mathlib.Tactic.IntervalCases

/-!
# Chunks made by edits

An `Edit` is one call on a chunk under construction: it writes a whole instruction, patches a jump or
takes a slot. `Edit.build` makes all the edits of a list from an empty chunk on.

What a chunk decodes to can be told from the edits alone. `Edit.written` lists the instructions that
they write, a jump with the distance that its last patch gives it, and `Edit.extent` is the length of
the chunk; neither looks at any byte. The invariant `Edit.build_eq` says that the chunk is the code of
`written`, whatever is patched and in which order.
-/

namespace BoundedLoop

/-- One call on a chunk under construction. -/
inductive Edit where
  /-- writes an instruction that has no operand -/
  | plain (i : Instruction) (line : Nat) (bare : i.operandBytes = [])
  | push (v : Value) (line : Nat)
  | store (slot : UInt8) (line : Nat)
  | load (slot : UInt8) (line : Nat)
  /-- writes a jump whose target is not known yet -/
  | jump (branch : Branch) (line : Nat)
  | jumpTo (branch : Branch) (target : Int) (line : Nat)
  | patch (label : Chunk.Label)
  | takeSlot
deriving DecidableEq

/-- The answer to an edit. -/
inductive Edit.Answer where
  | done
  | label (label : Chunk.Label)
  | tooFar (e : JumpTooFar)
  | slot (slot : Option UInt8)
deriving DecidableEq

/-- The answer to an edit that may be refused. -/
def Edit.Answer.ofExcept : Except JumpTooFar Unit → Edit.Answer
  | .ok () => .done
  | .error e => .tooFar e

namespace Edit

def perform (c : Chunk) : Edit → Answer × Chunk
  | plain i line _ => (.done, c.writeOpcode i.opcode line)
  | push v line => (.done, c.emit (.push v) line)
  | store slot line => (.done, c.emit (.store slot) line)
  | load slot line => (.done, c.emit (.load slot) line)
  | jump branch line => (.label c.nextLabel, c.reserve branch line)
  | jumpTo branch target line =>
    let outcome := c.emitJumpTo branch target line
    (.ofExcept outcome.answer, outcome.chunk)
  | patch label =>
    let outcome := c.patch label
    (.ofExcept outcome.answer, outcome.chunk)
  | takeSlot => (.slot c.freeSlot?, c.takeSlot)

/-- The answers to edits that are made one after the other, and the chunk that they end with. -/
def performAll (c : Chunk) : List Edit → List Answer × Chunk
  | [] => ([], c)
  | e :: edits =>
    let (answer, c) := e.perform c
    let (answers, c) := performAll c edits
    (answer :: answers, c)

/-- The chunk that edits make. -/
def build (edits : List Edit) : Chunk := (performAll {} edits).2

def answers (edits : List Edit) : List Answer := (performAll {} edits).1

/-- Only labels that an earlier edit gave are patched. -/
def Obtained (edits : List Edit) : Prop :=
  ∀ k label, edits[k]? = some (.patch label) → .label label ∈ answers (edits.take k)

/-! ### What edits write -/

/-- The distance that an edit gives a jump, if the chunk has `n` bytes. -/
def distance? (n : Nat) : Edit → Option Int
  | jumpTo _ target _ => some (target - (n + 3))
  | patch label => some (n - (label.operand + 2))
  | _ => none

/-- The edit asks for a distance that no jump can have. -/
def Fails (n : Nat) (e : Edit) : Prop := ∃ d ∈ e.distance? n, ¬ FitsJump d

instance (n : Nat) (e : Edit) : Decidable (e.Fails n) :=
  inferInstanceAs (Decidable (∃ d ∈ e.distance? n, ¬ FitsJump d))

/-- How many bytes an edit adds to a chunk of `n`. -/
def length (n : Nat) : Edit → Nat
  | plain _ _ _ => 1
  | push _ _ => 10
  | store _ _ | load _ _ => 2
  | jump _ _ => 3
  | e@(jumpTo _ _ _) => if e.Fails n then 0 else 3
  | patch _ | takeSlot => 0

/-- The length of a chunk of `n` bytes after some edits. -/
def extent (n : Nat) (edits : List Edit) : Nat :=
  edits.foldl (fun n e => n + e.length n) n

/-- The length of the chunk when a label was last patched, if it ever was. The first of the edits
finds `n` bytes. -/
def lastPatch? (label : Chunk.Label) : Nat → List Edit → Option Nat
  | _, [] => none
  | n, e :: edits =>
    (lastPatch? label (n + e.length n) edits).or
      (if e = .patch label ∧ ¬ e.Fails n then some n else none)

/-- The distance of the jump of `label` after some edits: from behind its operand to where the chunk
ended when it was last patched, or the placeholder. -/
def landing (label : Chunk.Label) (n : Nat) (edits : List Edit) : Int :=
  match lastPatch? label n edits with
  | some stop => stop - (label.operand + 2)
  | none => -1

/-- The instruction that an edit writes to a chunk of `n` bytes, if it writes one, as it stands when
the `later` edits are made too. -/
def items (n : Nat) (later : List Edit) : Edit → Fragment
  | plain i line _ => [.op i line]
  | push v line => [.op (.push v) line]
  | store slot line => [.op (.store slot) line]
  | load slot line => [.op (.load slot) line]
  | jump branch line => [.jump branch (landing ⟨n + 1⟩ (n + 3) later) line]
  | e@(jumpTo branch target line) =>
    if e.Fails n then [] else [.jump branch (target - (n + 3)) line]
  | patch _ | takeSlot => []

/-- The instructions that edits write behind `n` bytes. -/
def written : Nat → List Edit → Fragment
  | _, [] => []
  | n, e :: edits => e.items n edits ++ written (n + e.length n) edits

/-! ### The edits one by one -/

theorem performAll_concat (c : Chunk) (edits : List Edit) (e : Edit) :
    performAll c (edits ++ [e]) =
      ((performAll c edits).1 ++ [(e.perform (performAll c edits).2).1],
        (e.perform (performAll c edits).2).2) := by
  induction edits generalizing c with
  | nil => rfl
  | cons e' edits ih => simp only [List.cons_append, performAll, ih]

theorem build_concat (edits : List Edit) (e : Edit) :
    build (edits ++ [e]) = (e.perform (build edits)).2 :=
  congrArg Prod.snd (performAll_concat {} edits e)

theorem answers_concat (edits : List Edit) (e : Edit) :
    answers (edits ++ [e]) = answers edits ++ [(e.perform (build edits)).1] :=
  congrArg Prod.fst (performAll_concat {} edits e)

theorem extent_concat (n : Nat) (edits : List Edit) (e : Edit) :
    extent n (edits ++ [e]) = extent n edits + e.length (extent n edits) := by
  simp [extent]

theorem extent_cons (n : Nat) (e : Edit) (edits : List Edit) :
    extent n (e :: edits) = extent (n + e.length n) edits := rfl

theorem fails_patch {n : Nat} {label : Chunk.Label} :
    (patch label).Fails n ↔ ¬ FitsJump (n - (label.operand + 2)) := by
  simp [Fails, distance?]

theorem fails_jumpTo {n : Nat} {branch : Branch} {target : Int} {line : Nat} :
    (jumpTo branch target line).Fails n ↔ ¬ FitsJump (target - (n + 3)) := by
  simp [Fails, distance?]

theorem size_items (n : Nat) (later : List Edit) (e : Edit) :
    (e.items n later).size = e.length n := by
  cases e with
  | plain i line bare =>
    have hsize := i.length_encode
    rw [Instruction.encode, bare] at hsize
    simp [items, length, ← hsize]
  | jumpTo branch target line =>
    simp only [items, length]
    split <;> simp
  | _ => simp [items, length]

theorem size_written (n : Nat) (edits : List Edit) :
    n + (written n edits).size = extent n edits := by
  induction edits generalizing n with
  | nil => rfl
  | cons e edits ih =>
    rw [written, Fragment.size_append, size_items, ← Nat.add_assoc, ih, extent_cons]

/-! ### Distances -/

theorem lastPatch?_concat (label : Chunk.Label) (n : Nat) (edits : List Edit) (e : Edit) :
    lastPatch? label n (edits ++ [e]) =
      (if e = .patch label ∧ ¬ e.Fails (extent n edits) then some (extent n edits) else none).or
        (lastPatch? label n edits) := by
  induction edits generalizing n with
  | nil =>
    rw [List.nil_append, lastPatch?, lastPatch?, lastPatch?, Option.none_or, Option.or_none]
    rfl
  | cons e' edits ih => rw [List.cons_append, lastPatch?, ih, lastPatch?, extent_cons, Option.or_assoc]

/-- An edit that does not patch a label leaves its jump alone. -/
theorem landing_concat_of_fails {label : Chunk.Label} {n : Nat} {edits : List Edit} {e : Edit}
    (h : e = .patch label → e.Fails (extent n edits)) :
    landing label n (edits ++ [e]) = landing label n edits := by
  have hnone : ¬ (e = .patch label ∧ ¬ e.Fails (extent n edits)) := fun he => he.2 (h he.1)
  simp only [landing, lastPatch?_concat, if_neg hnone, Option.none_or]

theorem landing_concat_patch {label : Chunk.Label} {n : Nat} {edits : List Edit}
    (h : FitsJump (extent n edits - (label.operand + 2))) :
    landing label n (edits ++ [.patch label]) = extent n edits - (label.operand + 2) := by
  have hsome : patch label = .patch label ∧ ¬ (patch label).Fails (extent n edits) :=
    ⟨rfl, fun hfails => fails_patch.1 hfails h⟩
  rw [landing, lastPatch?_concat, if_pos hsome]
  rfl

theorem fitsJump_landing (label : Chunk.Label) (n : Nat) (edits : List Edit) :
    FitsJump (landing label n edits) := by
  induction edits using List.reverseRecOn with
  | nil => exact ⟨(by decide : (-32768 : Int) ≤ -1), (by decide : (-1 : Int) ≤ 32767)⟩
  | append_singleton edits e ih =>
    by_cases h : e = .patch label ∧ ¬ e.Fails (extent n edits)
    · obtain ⟨rfl, hfails⟩ := h
      rw [fails_patch, not_not] at hfails
      rwa [landing_concat_patch hfails]
    · rwa [landing_concat_of_fails fun he => not_not.1 fun hf => h ⟨he, hf⟩]

theorem fits_written (n : Nat) (edits : List Edit) : (written n edits).Fits := by
  induction edits generalizing n with
  | nil => exact Fragment.fits_nil
  | cons e edits ih =>
    rw [written, Fragment.fits_append]
    refine ⟨?_, ih _⟩
    cases e with
    | jump branch line => simp [items, fitsJump_landing]
    | jumpTo branch target line =>
      simp only [items]
      split
      · exact Fragment.fits_nil
      · rename_i hfails
        rw [fails_jumpTo, not_not] at hfails
        simpa using hfails
    | _ => simp [items]

/-! ### One more edit -/

/-- The label that an edit gets from a chunk of `n` bytes, if it writes a jump to be patched. -/
def label? (n : Nat) : Edit → Option Chunk.Label
  | jump _ _ => some ⟨n + 1⟩
  | _ => none

theorem label?_eq_some {n : Nat} {e : Edit} {label : Chunk.Label} (h : e.label? n = some label) :
    (∃ branch line, e = .jump branch line) ∧ label = ⟨n + 1⟩ := by
  cases e with
  | jump branch line => exact ⟨⟨branch, line, rfl⟩, (Option.some.inj h).symm⟩
  | _ => cases h

theorem length_of_label? {n : Nat} {e : Edit} {label : Chunk.Label} (h : e.label? n = some label) :
    e.length n = 3 := by
  obtain ⟨⟨branch, line, rfl⟩, -⟩ := label?_eq_some h
  rfl

/-- An edit that does not patch the jump of an instruction leaves that instruction alone. -/
theorem items_concat {n : Nat} {later : List Edit} {e e' : Edit}
    (h : ∀ label, e'.label? n = some label → e = .patch label →
      e.Fails (extent (n + e'.length n) later)) :
    e'.items n (later ++ [e]) = e'.items n later := by
  cases e' with
  | jump branch line =>
    have hsame : landing ⟨n + 1⟩ (n + 3) (later ++ [e]) = landing ⟨n + 1⟩ (n + 3) later :=
      landing_concat_of_fails (h _ rfl)
    simp only [items, hsame]
  | _ => rfl

/-- An edit that patches none of the jumps in front of it only adds what it writes. A label at `n` or
before it belongs to none of them. -/
theorem written_concat {n : Nat} {edits : List Edit} {e : Edit}
    (h : ∀ label, e = .patch label → label.operand ≤ n ∨ e.Fails (extent n edits)) :
    written n (edits ++ [e]) = written n edits ++ e.items (extent n edits) [] := by
  induction edits generalizing n with
  | nil => simp [written, extent]
  | cons e' edits ih =>
    have htail : written (n + e'.length n) (edits ++ [e]) =
        written (n + e'.length n) edits ++ e.items (extent n (e' :: edits)) [] := by
      refine ih fun label he => (h label he).imp_left fun hle => ?_
      exact Nat.le_trans hle (Nat.le_add_right n _)
    have hhead : e'.items n (edits ++ [e]) = e'.items n edits := by
      refine items_concat fun label hlabel he => (h label he).resolve_left ?_
      obtain ⟨-, rfl⟩ := label?_eq_some hlabel
      exact Nat.not_succ_le_self n
    rw [List.cons_append, written, hhead, htail, written, List.append_assoc]

/-- The labels that edits get, the first of which finds `n` bytes. -/
def labels : Nat → List Edit → List Chunk.Label
  | _, [] => []
  | n, e :: edits => (e.label? n).toList ++ labels (n + e.length n) edits

theorem labels_concat (n : Nat) (edits : List Edit) (e : Edit) :
    labels n (edits ++ [e]) = labels n edits ++ (e.label? (extent n edits)).toList := by
  induction edits generalizing n with
  | nil => simp [labels, extent]
  | cons e' edits ih => rw [List.cons_append, labels, ih, labels, extent_cons, List.append_assoc]

theorem lt_of_mem_labels {n : Nat} {edits : List Edit} {label : Chunk.Label}
    (h : label ∈ labels n edits) : n < label.operand := by
  induction edits generalizing n with
  | nil => simp [labels] at h
  | cons e edits ih =>
    rcases List.mem_append.1 h with hhere | hlater
    · obtain ⟨-, rfl⟩ := label?_eq_some (Option.mem_toList.1 hhere)
      exact Nat.lt_succ_self n
    · exact Nat.lt_of_le_of_lt (Nat.le_add_right n _) (ih hlater)

/-- A patch changes the distance of one jump among the written instructions. -/
theorem written_concat_patch {n : Nat} {edits : List Edit} {label : Chunk.Label}
    (h : label ∈ labels n edits) (hfits : FitsJump (extent n edits - (label.operand + 2))) :
    ∃ (a : Fragment) (branch : Branch) (old : Int) (line : Nat) (b : Fragment),
      written n edits = a ++ .jump branch old line :: b ∧
      label.operand = n + a.size + 1 ∧
      written n (edits ++ [.patch label]) =
        a ++ .jump branch (extent n edits - (label.operand + 2)) line :: b := by
  induction edits generalizing n with
  | nil => simp [labels] at h
  | cons e edits ih =>
    rcases List.mem_append.1 h with hhere | hlater
    · -- the jump is the first instruction, and the patch reaches none behind it
      obtain ⟨⟨branch, line, rfl⟩, rfl⟩ := label?_eq_some (Option.mem_toList.1 hhere)
      have htail : written (n + 3) (edits ++ [.patch ⟨n + 1⟩]) = written (n + 3) edits := by
        rw [written_concat]
        · exact List.append_nil _
        · rintro label ⟨⟩
          exact .inl (Nat.le_add_right (n + 1) 2)
      refine ⟨[], branch, landing ⟨n + 1⟩ (n + 3) edits, line, written (n + 3) edits, rfl, rfl, ?_⟩
      have hhead : landing ⟨n + 1⟩ (n + 3) (edits ++ [.patch ⟨n + 1⟩]) =
          extent (n + 3) edits - ((n + 1 : Nat) + 2) := landing_concat_patch hfits
      show Item.jump branch (landing ⟨n + 1⟩ (n + 3) (edits ++ [.patch ⟨n + 1⟩])) line ::
        written (n + 3) (edits ++ [.patch ⟨n + 1⟩]) = _
      rw [htail, hhead]
      rfl
    · obtain ⟨a, branch, old, line, b, hold, hlabel, hnew⟩ := ih hlater hfits
      have hhead : e.items n (edits ++ [.patch label]) = e.items n edits := by
        refine items_concat fun label' hlabel' he => ?_
        have hlt := lt_of_mem_labels hlater
        rw [length_of_label? hlabel', patch.inj he, (label?_eq_some hlabel').2] at hlt
        exact absurd hlt (by simp)
      refine ⟨e.items n edits ++ a, branch, old, line, b, ?_, ?_, ?_⟩
      · rw [written, hold, List.append_assoc]
      · rw [Fragment.size_append, size_items, ← Nat.add_assoc]
        exact hlabel
      · rw [List.cons_append, written, hhead, hnew, List.append_assoc]
        rfl

/-! ### The chunk that edits make -/

theorem writeOpcode_eq_emit (c : Chunk) {i : Instruction} (line : Nat) (bare : i.operandBytes = []) :
    c.writeOpcode i.opcode line = c.emit i line := by
  rw [Chunk.emit, Instruction.encode, bare]
  rfl

theorem patch_eq (c : Chunk) (label : Chunk.Label) :
    c.patch label = if FitsJump (c.size - (label.operand + 2)) then
        .ok (c.setDistance label (Int16.ofInt (c.size - (label.operand + 2))))
      else .error (c := c) ⟨Int64.ofInt (c.size - (label.operand + 2))⟩ := by
  have hcast : (c.size : Int) - ((label.operand + 2 : Nat) : Int) = c.size - (label.operand + 2) := by
    omega
  rw [Chunk.patch, Chunk.reach, hcast, CompileM.exactDistance_eq]
  split_ifs <;> rfl

theorem emitJumpTo_eq (c : Chunk) (branch : Branch) (target : Int) (line : Nat) :
    c.emitJumpTo branch target line = if FitsJump (target - (c.size + 3)) then
        .ok (c.append [.jump branch (target - (c.size + 3)) line])
      else .error (c := c) ⟨Int64.ofInt (target - (c.size + 3))⟩ := by
  have hcast : target - ((c.size + 3 : Nat) : Int) = target - (c.size + 3) := by omega
  rw [Chunk.emitJumpTo, Chunk.distanceTo, hcast, CompileM.exactDistance_eq]
  split_ifs
  · exact congrArg Chunk.Outcome.ok (Chunk.emit_eq_append c _ line)
  · rfl

theorem perform_patch {c : Chunk} {label : Chunk.Label}
    (h : FitsJump (c.size - (label.operand + 2))) :
    (patch label).perform c =
      (.done, c.setDistance label (Int16.ofInt (c.size - (label.operand + 2)))) := by
  rw [perform, patch_eq, if_pos h]
  rfl

/-- An edit that is refused says so and changes nothing. -/
theorem perform_of_fails {c : Chunk} {e : Edit} (h : e.Fails c.size) :
    ∃ far, e.perform c = (.tooFar far, c) := by
  cases e with
  | patch label => exact ⟨_, by rw [perform, patch_eq, if_neg (fails_patch.1 h)]; rfl⟩
  | jumpTo branch target line =>
    exact ⟨_, by rw [perform, emitJumpTo_eq, if_neg (fails_jumpTo.1 h)]; rfl⟩
  | _ => simp [Fails, distance?] at h

/-- An edit that neither patches a jump nor takes a slot adds what it writes. -/
theorem perform_eq_append {c : Chunk} {e : Edit} (hslot : e ≠ .takeSlot)
    (hpatch : ∀ label, e = .patch label → e.Fails c.size) :
    (e.perform c).2 = c.append (e.items c.size []) := by
  cases e with
  | plain i line bare => exact (writeOpcode_eq_emit c line bare).trans (c.emit_eq_append i line)
  | push v line => exact c.emit_eq_append (.push v) line
  | store slot line => exact c.emit_eq_append (.store slot) line
  | load slot line => exact c.emit_eq_append (.load slot) line
  | jump branch line => exact c.reserve_eq_append branch line
  | jumpTo branch target line =>
    by_cases hfails : (jumpTo branch target line).Fails c.size
    · obtain ⟨far, hfar⟩ := perform_of_fails hfails
      rw [hfar, items, if_pos hfails, Chunk.append_nil]
    · have hfits := hfails
      rw [fails_jumpTo, not_not] at hfits
      rw [perform, emitJumpTo_eq, if_pos hfits, items, if_neg hfails]
  | patch label =>
    obtain ⟨far, hfar⟩ := perform_of_fails (hpatch label rfl)
    rw [hfar, items, Chunk.append_nil]
  | takeSlot => exact absurd rfl hslot

/-- An edit takes a slot, adds what it writes, or gives a jump its distance. -/
theorem perform_cases (c : Chunk) (e : Edit) :
    (e = .takeSlot ∧ (e.perform c).2 = c.takeSlot) ∨
    (e ≠ .takeSlot ∧ (∀ label, e = .patch label → e.Fails c.size) ∧
      (e.perform c).2 = c.append (e.items c.size [])) ∨
    ∃ label, e = .patch label ∧ FitsJump (c.size - (label.operand + 2)) ∧
      (e.perform c).2 = c.setDistance label (Int16.ofInt (c.size - (label.operand + 2))) := by
  by_cases hslot : e = .takeSlot
  · subst hslot
    exact .inl ⟨rfl, rfl⟩
  by_cases hpatch : ∀ label, e = .patch label → e.Fails c.size
  · exact .inr (.inl ⟨hslot, hpatch, perform_eq_append hslot hpatch⟩)
  · push Not at hpatch
    obtain ⟨label, rfl, hfits⟩ := hpatch
    rw [fails_patch, not_not] at hfits
    exact .inr (.inr ⟨label, rfl, hfits, congrArg Prod.snd (perform_patch hfits)⟩)

theorem size_takeSlot (c : Chunk) : c.takeSlot.size = c.size := by
  unfold Chunk.takeSlot
  split <;> rfl

theorem size_perform (c : Chunk) (e : Edit) :
    (e.perform c).2.size = c.size + e.length c.size := by
  rcases perform_cases c e with ⟨rfl, hc⟩ | ⟨-, -, hc⟩ | ⟨label, rfl, -, hc⟩
  · rw [hc]
    exact size_takeSlot c
  · rw [hc, Chunk.size_append, size_items]
  · rw [hc, Chunk.size_setDistance]
    rfl

theorem size_build (edits : List Edit) : (build edits).size = extent 0 edits := by
  induction edits using List.reverseRecOn with
  | nil => rfl
  | append_singleton edits e ih => rw [build_concat, size_perform, ih, extent_concat]

theorem Answer.ofExcept_ne_label (answer : Except JumpTooFar Unit) (label : Chunk.Label) :
    ofExcept answer ≠ .label label := by
  cases answer <;> exact fun h => by cases h

theorem label?_of_perform {c : Chunk} {e : Edit} {label : Chunk.Label}
    (h : (e.perform c).1 = .label label) : e.label? c.size = some label := by
  cases e with
  | jump branch line => exact congrArg some (Answer.label.inj h)
  | jumpTo _ _ _ | patch _ => exact absurd h (Answer.ofExcept_ne_label _ label)
  | _ => cases h

theorem mem_labels {edits : List Edit} {label : Chunk.Label} (h : .label label ∈ answers edits) :
    label ∈ labels 0 edits := by
  induction edits using List.reverseRecOn with
  | nil => simp [answers, performAll] at h
  | append_singleton edits e ih =>
    rw [labels_concat, List.mem_append]
    rw [answers_concat, List.mem_append, List.mem_singleton] at h
    refine h.imp ih fun hlast => ?_
    rw [Option.mem_toList, ← size_build]
    exact label?_of_perform hlast.symm

theorem Obtained.of_concat {edits : List Edit} {e : Edit} (h : Obtained (edits ++ [e])) :
    Obtained edits := by
  intro k label hk
  have hlt : k < edits.length := (List.getElem?_eq_some_iff.1 hk).1
  have hmem := h k label (by rwa [List.getElem?_append_left hlt])
  rwa [List.take_append_of_le_length hlt.le] at hmem

theorem Obtained.mem_labels {edits : List Edit} {label : Chunk.Label}
    (h : Obtained (edits ++ [.patch label])) : label ∈ labels 0 edits := by
  have hmem := h edits.length label (by simp)
  rw [List.take_left'] at hmem
  · exact Edit.mem_labels hmem
  · rfl

theorem slotCount_takeSlot (c : Chunk) (n : Nat) (h : c.slotCount = min n Chunk.maxSlots) :
    c.takeSlot.slotCount = min (n + 1) Chunk.maxSlots := by
  unfold Chunk.takeSlot
  split
  · show c.slotCount + 1 = _
    omega
  · omega

theorem slotCount_perform {c : Chunk} {e : Edit} (h : e ≠ .takeSlot) :
    (e.perform c).2.slotCount = c.slotCount := by
  rcases perform_cases c e with ⟨rfl, -⟩ | ⟨-, -, hc⟩ | ⟨label, rfl, -, hc⟩
  · exact absurd rfl h
  · rw [hc, Chunk.slotCount_append]
  · rw [hc]
    rfl

/-- A chunk under construction holds the code that the edits have written so far. -/
theorem build_eq {edits : List Edit} (h : Obtained edits) :
    ∃ slots, build edits = ({ slotCount := slots } : Chunk).append (written 0 edits) := by
  induction edits using List.reverseRecOn with
  | nil => exact ⟨0, (Chunk.append_nil _).symm⟩
  | append_singleton edits e ih =>
    obtain ⟨slots, hbuild⟩ := ih h.of_concat
    have hcases := perform_cases (build edits) e
    rw [build_concat]
    rcases hcases with ⟨rfl, hc⟩ | ⟨-, hpatch, hc⟩ | ⟨label, rfl, hfits, hc⟩ <;> rw [hc]
    · have hsame : written 0 (edits ++ [.takeSlot]) = written 0 edits := by
        rw [written_concat (by rintro label ⟨⟩)]
        exact List.append_nil _
      rw [hbuild, hsame]
      unfold Chunk.takeSlot
      split
      · exact ⟨slots + 1, rfl⟩
      · exact ⟨slots, rfl⟩
    · rw [size_build] at hpatch ⊢
      refine ⟨slots, ?_⟩
      rw [written_concat fun label he => .inr (hpatch label he), hbuild, Chunk.append_append]
    · rw [size_build] at hfits ⊢
      obtain ⟨a, branch, old, line, b, hold, hlabel, hnew⟩ :=
        written_concat_patch h.mem_labels hfits
      have hoperand : label = ⟨({ slotCount := slots } : Chunk).size + a.size + 1⟩ :=
        congrArg Chunk.Label.mk hlabel
      have hset := ({ slotCount := slots } : Chunk).setDistance_append a b branch old
        (extent 0 edits - (label.operand + 2)) line
      rw [← hoperand, ← hold, ← hbuild, ← hnew] at hset
      exact ⟨slots, hset⟩

theorem slotCount_build (edits : List Edit) :
    (build edits).slotCount = min (edits.count .takeSlot) Chunk.maxSlots := by
  induction edits using List.reverseRecOn with
  | nil => rfl
  | append_singleton edits e ih =>
    rw [build_concat]
    by_cases hslot : e = .takeSlot
    · subst hslot
      rw [List.count_append, List.count_singleton_self]
      exact slotCount_takeSlot _ _ ih
    · rw [slotCount_perform hslot, ih, List.count_append, List.count_singleton,
        if_neg (by simpa using hslot)]
      rfl

/-- The slot that an answer tells of. -/
def Answer.slot? : Answer → Option (Option UInt8)
  | .slot s => some s
  | _ => none

theorem Answer.slot?_ofExcept (answer : Except JumpTooFar Unit) : (ofExcept answer).slot? = none := by
  cases answer <;> rfl

theorem slot?_perform {c : Chunk} {e : Edit} (h : e ≠ .takeSlot) : (e.perform c).1.slot? = none := by
  cases e with
  | jumpTo _ _ _ | patch _ => exact Answer.slot?_ofExcept _
  | takeSlot => exact absurd rfl h
  | _ => rfl

/-- Slots are given out one after the other, until all are taken. -/
theorem slots_answers (edits : List Edit) :
    (answers edits).filterMap Answer.slot? = (List.range (edits.count .takeSlot)).map fun k =>
      if k < Chunk.maxSlots then some (UInt8.ofNat k) else none := by
  induction edits using List.reverseRecOn with
  | nil => rfl
  | append_singleton edits e ih =>
    rw [answers_concat, List.filterMap_append, ih, List.count_append]
    by_cases hslot : e = .takeSlot
    · subst hslot
      have hfree : (build edits).freeSlot? = if edits.count .takeSlot < Chunk.maxSlots then
          some (UInt8.ofNat (edits.count .takeSlot)) else none := by
        rw [Chunk.freeSlot?, slotCount_build]
        by_cases hlt : edits.count .takeSlot < Chunk.maxSlots
        · rw [Nat.min_eq_left hlt.le]
        · rw [Nat.min_eq_right (Nat.not_lt.1 hlt), if_neg (Nat.lt_irrefl _), if_neg hlt]
      rw [List.count_singleton_self, List.range_succ, List.map_append, List.map_singleton, ← hfree]
      rfl
    · rw [List.count_singleton, if_neg (by simpa using hslot), Nat.add_zero, List.filterMap_cons,
        slot?_perform hslot]
      exact List.append_nil _

/-! ### Reading the chunk back -/

end Edit

/-- An item is read back as the instruction `i`. The distance of a jump is read back as it is meant,
not only in its last 16 bits. -/
def Item.ReadAs : Item → Instruction → Prop
  | .op j _, i => i = j
  | .jump branch distance _, i => ∃ operand : Int16, i = branch.over operand ∧ operand.toInt = distance

theorem Item.readAs_instruction {i : Item} (h : i.Fits) : i.ReadAs i.instruction := by
  cases i with
  | op j line => rfl
  | jump branch distance line => exact ⟨_, rfl, Machine.toInt_distance h⟩

namespace Edit

/-- What an edit does to a chunk besides writing: an edit is refused if its distance is too long, and
then changes nothing; a patch touches nothing but the two bytes of the operand. -/
structure Careful (e : Edit) (c : Chunk) : Prop where
  refused : (∃ far, (e.perform c).1 = .tooFar far) ↔ e.Fails c.size
  unchanged : e.Fails c.size → (e.perform c).2 = c
  slotCount : ∀ label, e = .patch label → (e.perform c).2.slotCount = c.slotCount
  lines : ∀ label, e = .patch label → (e.perform c).2.lines = c.lines
  bytes : ∀ label, e = .patch label → ∀ k, k ≠ label.operand → k ≠ label.operand + 1 →
    (e.perform c).2.byteAt? k = c.byteAt? k

theorem fails_of_tooFar {e : Edit} {c : Chunk} {far : JumpTooFar}
    (h : (e.perform c).1 = .tooFar far) : e.Fails c.size := by
  cases e with
  | jumpTo branch target line =>
    rw [perform, emitJumpTo_eq] at h
    rw [fails_jumpTo]
    intro hfits
    rw [if_pos hfits] at h
    cases h
  | patch label =>
    rw [fails_patch]
    intro hfits
    rw [perform_patch hfits] at h
    cases h
  | _ => cases h

theorem byteAt?_setByte_of_ne {c : Chunk} {offset k : Nat} (byte : UInt8) (h : k ≠ offset) :
    (c.setByte offset byte).byteAt? k = c.byteAt? k := by
  simp only [Chunk.setByte, Chunk.byteAt?, Array.getElem?_modify, if_neg h.symm]

theorem lines_setByte (c : Chunk) (offset : Nat) (byte : UInt8) :
    (c.setByte offset byte).lines = c.lines := by
  apply List.ext_getElem?
  intro k
  have := c.lineAt?_setByte offset byte k
  simpa [Chunk.lineAt?, Chunk.lines] using this

theorem careful (e : Edit) (c : Chunk) : e.Careful c where
  refused := by
    refine ⟨fun ⟨far, hfar⟩ => fails_of_tooFar hfar, fun h => ?_⟩
    obtain ⟨far, hfar⟩ := perform_of_fails h
    exact ⟨far, congrArg Prod.fst hfar⟩
  unchanged h := by
    obtain ⟨far, hfar⟩ := perform_of_fails h
    rw [hfar]
  slotCount label he := slotCount_perform (by rw [he]; exact fun h => by cases h)
  lines label he := by
    subst he
    rw [perform, patch_eq]
    split
    · exact (lines_setByte _ _ _).trans (lines_setByte _ _ _)
    · rfl
  bytes label he k hhigh hlow := by
    subst he
    rw [perform, patch_eq]
    split
    · exact (byteAt?_setByte_of_ne _ hlow).trans (byteAt?_setByte_of_ne _ hhigh)
    · rfl

/-- What edits write is read back, in order and each instruction at its offset; what is refused
changes nothing, and slots are given out in order. -/
theorem instructions_build {edits : List Edit} (h : Obtained edits) :
    List.Forall₂ (fun wanted found => found.1 = wanted.1 ∧
        ∃ i, found.2 = Except.ok i ∧ wanted.2.ReadAs i)
      ((written 0 edits).located 0) (build edits).instructions ∧
    (∀ k, (build (edits.take k)).size = extent 0 (edits.take k)) ∧
    (∀ (e : Edit) (c : Chunk), e.Careful c) ∧
    (answers edits).filterMap Answer.slot? = ((List.range (edits.count .takeSlot)).map fun k =>
      if k < Chunk.maxSlots then some (UInt8.ofNat k) else none) ∧
    (build edits).slotCount = min (edits.count .takeSlot) Chunk.maxSlots := by
  refine ⟨?_, fun k => size_build _, careful, slots_answers edits, slotCount_build edits⟩
  obtain ⟨slots, hbuild⟩ := build_eq h
  have hholds : (build edits).Holds 0 (written 0 edits) := by
    refine ⟨fits_written 0 edits, [], [], ?_, rfl⟩
    simp [hbuild, Chunk.append]
  have hsize : (build edits).size = 0 + (written 0 edits).size := by
    rw [size_build, size_written]
  rw [Chunk.instructions, hholds.instructionsFrom hsize, List.forall₂_map_right_iff,
    List.forall₂_same]
  intro p hp
  obtain ⟨a, b, hcode, -⟩ := Fragment.mem_located_iff.1 hp
  refine ⟨rfl, _, rfl, Item.readAs_instruction (fits_written 0 edits _ ?_)⟩
  rw [hcode]
  exact List.mem_append_right _ List.mem_cons_self

/-- A jump that is patched twice, one that never is, and one back to the start. -/
def twicePatched : List Edit :=
  [.jump .ifFalse 1, .push (.number Int64.minValue) 1, .patch ⟨1⟩, .plain .pop 2 rfl, .patch ⟨1⟩,
    .jump .always 2, .jumpTo .always 0 3, .jumpTo .always 40000 3, .takeSlot]

theorem obtained_twicePatched : Obtained twicePatched := by
  intro k label hk
  have hlt : k < 9 := (List.getElem?_eq_some_iff.1 hk).1
  interval_cases k <;> cases hk <;> decide

theorem instructions_build_twicePatched :
    (written 0 twicePatched).located 0 = [(0, .jump .ifFalse 11 1),
      (3, .op (.push (.number Int64.minValue)) 1), (13, .op .pop 2), (14, .jump .always (-1) 2),
      (17, .jump .always (-20) 3)] ∧
    List.Forall₂ (fun wanted found => found.1 = wanted.1 ∧
        ∃ i, found.2 = Except.ok i ∧ wanted.2.ReadAs i)
      ((written 0 twicePatched).located 0) (build twicePatched).instructions ∧
    (build twicePatched).slotCount = 1 := by
  obtain ⟨hread, -, -, -, hslots⟩ := instructions_build obtained_twicePatched
  exact ⟨by decide, hread, hslots⟩

end Edit

end BoundedLoop
