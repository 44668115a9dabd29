import BoundedLoop.Proofs.Bookkeeping.Compiling
import BoundedLoop.Proofs.Recovery

/-!
# Slots and types are kept in order

At every point of a compilation the slots of variables and loops are all different, and what a name means
is never taken back, however many statements fail (`booked_throughout`). The points are those that
changes lead to, `Draft.Occurs`, and compiling is a sequence of such changes.
-/

namespace BoundedLoop

open CompileM

theorem Scope.assign_ne_undeclared {s : Scope} {name : String} {v : Variable} (h : s.find? name = some v)
    (ty : Ty) : s.assign name ty ≠ .error .undeclared := by
  intro hassign
  unfold assign at hassign
  rw [h] at hassign
  simp only at hassign
  split at hassign
  · cases hassign
  · split at hassign <;> cases hassign

open Draft

theorem Draft.compiled_eq_leaves (d : Draft) :
    d.compiled = (program (d.ahead.length + 1)).leaves d := by
  unfold compiled leaves EStateM.run
  cases program (d.ahead.length + 1) d <;> rfl

theorem exists_occurs_compiled (tokens : List Token) :
    ∃ ledger, Occurs tokens ledger (ofTokens tokens).compiled := by
  obtain ⟨more, hleads⟩ := edits_program ((ofTokens tokens).ahead.length + 1) [] (ofTokens tokens)
  rw [compiled_eq_leaves]
  exact ⟨more ++ [], hleads⟩

/-- At every point of a compilation, `OUTPUT` has the slot 0, and all slots of variables and loops are
different and come from one counter that stays within its limit; the loops are those compiled so far, and
each has two slots, unless all slots were taken. From then on no name changes its slot or its type, and
no loop leaves the ledger. Every part of the compiler, whether it fails or not, leads from such points to
such points.

A loop takes one slot for its bound and one for its counter, and its code uses these two; once it has
them, both are in the ledger for good, and whoever looks at the draft later finds them among the hidden
ones. When a type is given to a name, the name is declared. -/
theorem booked_throughout (tokens : List Token) :
    (∃ ledger, Occurs tokens ledger (ofTokens tokens).compiled) ∧
    (∀ n, Edits (program n) ∧ Edits (block n) ∧ Edits (attempt (statement (block n) n)) ∧
      Edits (statement (block n) n)) ∧
    (∀ n token, Edits (ifStatement (block n) n token) ∧ Edits (loopStatement (block n) token) ∧
      Edits (abortLoop token) ∧ Edits (assignment token)) ∧
    Edits expression ∧
    (∀ ledger d, Occurs tokens ledger d → d.Booked (hidden ledger) ∧
      (∀ l ∈ ledger, l.counter? = none → d.chunk.slotCount = Chunk.maxSlots) ∧
      ∀ ledger' d', Leads (ledger, d) (ledger', d') →
        Occurs tokens ledger' d' ∧ d.Grows d' ∧ ledger <:+ ledger') ∧
    (∀ n keyword,
      (loopStatement (block n) keyword = do
        openStatement
        loopBound
        let bound ← takeSlot keyword.toSite
        let counter ← takeSlot keyword.toSite
        emit (.store bound) keyword.line
        emit .pop keyword.line
        emit (.push (.number 0)) keyword.line
        emit (.store counter) keyword.line
        emit .pop keyword.line
        let test := (← get).chunk.size
        emit (.load counter) keyword.line
        emit (.load bound) keyword.line
        emit .less keyword.line
        let exit ← reserve .ifFalse keyword.line
        emit .pop keyword.line
        enterLoop
        block n
        let closer ← peek
        expect (.keyword .endLoop) .endLoop
        closeStatement
        emit (.load counter) closer.line
        emit (.push (.number 1)) closer.line
        emit .add closer.line
        emit (.store counter) closer.line
        emit .pop closer.line
        jumpBack keyword.toSite test closer.line
        patch keyword.toSite exit
        emit .pop closer.line
        let aborts ← leaveLoop
        aborts.forM (patch keyword.toSite)) ∧
      ∀ d bound counter d₁,
        (do
          openStatement
          loopBound
          let bound ← takeSlot keyword.toSite
          let counter ← takeSlot keyword.toSite
          return (bound, counter)) d = .ok (bound, counter) d₁ →
        ∀ ledger, Leads (ledger, d) (⟨bound, some counter⟩ :: ledger, d₁) ∧
          (∃ more, Leads (⟨bound, some counter⟩ :: ledger, d₁)
            (more ++ ⟨bound, some counter⟩ :: ledger, (loopStatement (block n) keyword).leaves d)) ∧
          (Occurs tokens ledger d → ∀ ledger₂ d₂,
            Leads (⟨bound, some counter⟩ :: ledger, d₁) (ledger₂, d₂) →
            ∀ ledger', Occurs tokens ledger' d₂ → bound ∈ hidden ledger' ∧ counter ∈ hidden ledger')) ∧
    ∀ target name, target.variableName? = some name →
      (assignment target = do
        let (slot, ty) ← assignedValue target name
        assignType target.toSite name ty
        emit (.store slot) target.line
        emit .pop target.line) ∧
      ∀ d slot ty d', assignedValue target name d = .ok (slot, ty) d' →
        d'.slotOf? name = some slot ∧ d'.scope.assign name ty ≠ .error .undeclared := by
  have hbooked : ∀ ledger d, Occurs tokens ledger d → d.Booked (hidden ledger) :=
    fun _ _ hoccurs => hoccurs.booked (booked_ofTokens tokens)
  refine ⟨exists_occurs_compiled tokens, ?_, ?_, edits_of_readsOn, ?_, ?_, ?_⟩
  · intro n
    have hstatement : Edits (statement (block n) n) := edits_statement (edits_block n)
    exact ⟨edits_program n, edits_block n, hstatement.attempt, hstatement⟩
  · intro n token
    exact ⟨edits_ifStatement (edits_block n) token, edits_loopStatement (edits_block n) token,
      edits_abortLoop token, edits_assignment token⟩
  · intro ledger d hoccurs
    have hb := hbooked ledger d hoccurs
    refine ⟨hb, ?_, ?_⟩
    · intro l hl hnone
      exact Nat.le_antisymm hb.room (hoccurs.complete (by rintro _ ⟨⟩) l hl hnone)
    · intro ledger' d' hleads
      exact ⟨hoccurs.trans hleads, hleads.grows⟩
  · intro n keyword
    refine ⟨rfl, ?_⟩
    intro d bound counter d₁ hslots ledger
    have htaken : Leads (ledger, d) (⟨bound, some counter⟩ :: ledger, d₁) :=
      leads_of_loopSlots hslots ledger
    refine ⟨htaken, leads_loopStatement (edits_block n) hslots ledger, ?_⟩
    intro hoccurs ledger₂ d₂ hlater ledger' hoccurs'
    have hb₂ := hbooked ledger₂ d₂ (hoccurs.trans (htaken.trans hlater))
    have hkept : ∀ slot ∈ [counter, bound], slot ∈ hidden ledger' := by
      intro slot hslot
      rw [(hbooked ledger' d₂ hoccurs').mem_hidden_iff, ← hb₂.mem_hidden_iff]
      exact (hidden_suffix hlater.grows.2).mem (List.mem_append_left (hidden ledger) hslot)
    exact ⟨hkept bound (by simp), hkept counter (by simp)⟩
  · intro target name hname
    refine ⟨assignment_eq hname, ?_⟩
    intro d slot ty d' h
    have hslot := slotOf?_of_assignedValue h
    obtain ⟨v, hv, -⟩ := Option.map_eq_some_iff.1 hslot
    exact ⟨hslot, Scope.assign_ne_undeclared hv ty⟩

/-- Behind the word `LOOP` of a text whose statements fail. -/
def brokenStart : Draft :=
  let start := ofTokens (Nests.tokens brokenNests ++ [brokenEnd])
  { start with ahead := start.ahead.tail }

/-- The loop takes the slots 1 and 2 and keeps them to its end, and `Y` keeps the slot 3 although its
assignment fails. -/
theorem booked_throughout_brokenText : ∃ ledger d,
    Occurs (Nests.tokens brokenNests ++ [brokenEnd]) ledger d ∧ d.Booked (hidden ledger) ∧
    1 ∈ hidden ledger ∧ 2 ∈ hidden ledger ∧ d.slotOf? "Y" = some 3 ∧ d.chunk.slotCount = 4 ∧
    (3 : UInt8) ∉ hidden ledger := by
  obtain ⟨-, -, -, -, hbooked, hloop, -⟩ :=
    booked_throughout (Nests.tokens brokenNests ++ [brokenEnd])
  have hstart : Occurs (Nests.tokens brokenNests ++ [brokenEnd]) [] brokenStart :=
    .single (.other rfl rfl)
  obtain ⟨-, hslots⟩ := hloop 20 (tokenAt 1 (.keyword .loop) "LOOP")
  obtain ⟨htaken, ⟨more, hrest⟩, hkept⟩ := hslots brokenStart 1 2 _ rfl []
  have hoccurs := hstart.trans (htaken.trans hrest)
  obtain ⟨hbound, hcounter⟩ := hkept hstart _ _ hrest _ hoccurs
  obtain ⟨hb, -⟩ := hbooked _ _ hoccurs
  have hslot : ((loopStatement (block 20) (tokenAt 1 (.keyword .loop) "LOOP")).leaves
      brokenStart).slotOf? "Y" = some 3 := by
    decide +kernel
  exact ⟨_, _, hoccurs, hb, hbound, hcounter, hslot, by decide +kernel, hb.apart _ _ hslot⟩

end BoundedLoop
