import BoundedLoop.Proofs.Renaming.Parts
import Mathlib.Data.Set.Function
import Mathlib.Logic.Equiv.Basic

/-!
# Spelling, places and names do not matter

What a compilation comes to depends on the kinds of the tokens, on their constants, and on which names
are the same. Tokens that are renamed (`Token.Renamed`), in whatever spelling and wherever they stand,
are compiled to the same bytes with as many slots, or refused with the same codes in the same order
(`compiles_alike_of_renamed`).
-/

namespace BoundedLoop

/-! ### Renaming -/

/-- Another name in place of a name. Values and labels stay. -/
def Token.Literal.rename (ρ : String → String) : Literal → Literal
  | .value v => .value v
  | .name n => .name (ρ n)
  | .label l => .label l

/-- The two tokens stand for the same, up to the change of names by `ρ`. -/
structure Token.Renamed (ρ : String → String) (t t' : Token) : Prop where
  kind : t'.kind = t.kind
  literal : t'.literal = t.literal.map (Literal.rename ρ)

instance (ρ : String → String) (t t' : Token) : Decidable (t.Renamed ρ t') :=
  decidable_of_iff (t'.kind = t.kind ∧ t'.literal = t.literal.map (Token.Literal.rename ρ))
    ⟨fun h => ⟨h.1, h.2⟩, fun h => ⟨h.kind, h.literal⟩⟩

/-- The names that `tokens` carry, and `OUTPUT`. -/
def Token.namesOf (tokens : List Token) : Set String :=
  { name | name = outputName ∨ ∃ t ∈ tokens, t.name? = some name }

variable {R : String → String → Prop} {ρ : String → String} {tokens tokens' : List Token}

theorem Token.Renamed.value? {t t' : Token} (h : t.Renamed ρ t') : t'.value? = t.value? := by
  unfold Token.value?
  rw [h.literal]
  rcases t.literal with _ | (_ | _ | _) <;> rfl

theorem Token.Renamed.name? {t t' : Token} (h : t.Renamed ρ t') : t'.name? = t.name?.map ρ := by
  unfold Token.name?
  rw [h.literal]
  rcases t.literal with _ | (_ | _ | _) <;> rfl

theorem Token.Renamed.alike {t t' : Token} (h : t.Renamed ρ t')
    (hname : ∀ name, t.name? = some name → R name (ρ name)) : t.Alike R t' := by
  refine ⟨h.kind, h.value?, ?_⟩
  rw [h.name?]
  cases hn : t.name? with
  | none => exact .none
  | some name => exact .some (hname name hn)

theorem forall₂_alike_of_renamed (h : List.Forall₂ (Token.Renamed ρ) tokens tokens')
    (hnames : ∀ t ∈ tokens, ∀ name, t.name? = some name → R name (ρ name)) :
    List.Forall₂ (Token.Alike R) tokens tokens' := by
  induction h with
  | nil => exact .nil
  | cons ht _ ih =>
    refine .cons (ht.alike (hnames _ List.mem_cons_self)) (ih ?_)
    intro t hmem
    exact hnames t (List.mem_cons_of_mem _ hmem)

/-- Each of the given names, with the one that it is changed to. -/
def ChangedBy (ρ : String → String) (names : Set String) (name name' : String) : Prop :=
  name ∈ names ∧ name' = ρ name

theorem namesMatch_of_injOn {names : Set String} (hinj : Set.InjOn ρ names)
    (hmem : Token.outputName ∈ names) (houtput : ρ Token.outputName = Token.outputName) :
    NamesMatch (ChangedBy ρ names) := by
  refine ⟨⟨hmem, houtput.symm⟩, ?_⟩
  rintro a a' b b' ⟨ha, rfl⟩ ⟨ha', rfl⟩
  exact (hinj.eq_iff ha ha').symm

/-! ### Alike from start to end -/

theorem forall₂_takeWhile (h : List.Forall₂ (Token.Alike R) tokens tokens') :
    List.Forall₂ (Token.Alike R) (tokens.takeWhile (·.kind ≠ .eof))
      (tokens'.takeWhile (·.kind ≠ .eof)) := by
  induction h with
  | nil => exact .nil
  | @cons t t' _ _ ht _ ih =>
    rw [List.takeWhile_cons, List.takeWhile_cons, ht.kind]
    split
    · exact .cons ht ih
    · exact .nil

theorem rel_find?_eof (h : List.Forall₂ (Token.Alike R) tokens tokens') :
    Option.Rel (Token.Alike R) (tokens.find? (·.kind = .eof)) (tokens'.find? (·.kind = .eof)) := by
  induction h with
  | nil => exact .none
  | @cons t t' _ _ ht _ ih =>
    rw [List.find?_cons, List.find?_cons, ht.kind]
    split
    · exact .some ht
    · exact ih

namespace Draft

theorem impliedEnd_eq (tokens : List Token) :
    impliedEnd tokens =
      { (impliedEnd tokens) with kind := .eof, literal := none } := by
  unfold impliedEnd
  split <;> rfl

theorem alike_endOf (h : List.Forall₂ (Token.Alike R) tokens tokens') :
    (endOf tokens).Alike R (endOf tokens') := by
  have hfind := rel_find?_eof h
  unfold endOf
  generalize tokens.find? (·.kind = .eof) = first at hfind ⊢
  generalize tokens'.find? (·.kind = .eof) = first' at hfind ⊢
  cases hfind with
  | some ht => exact ht
  | none =>
    show (impliedEnd tokens).Alike R (impliedEnd tokens')
    rw [impliedEnd_eq tokens, impliedEnd_eq tokens']
    exact ⟨rfl, rfl, .none⟩

theorem alike_ofTokens (hR : NamesMatch R) (h : List.Forall₂ (Token.Alike R) tokens tokens') :
    (ofTokens tokens).Alike R (ofTokens tokens') := by
  refine ⟨forall₂_takeWhile h, alike_endOf h, rfl, rfl, ?_, rfl, rfl, rfl⟩
  have hempty : ({} : Scope).Alike R {} := fun _ _ _ => rfl
  exact hempty.declare hR hR.output Chunk.outputSlot

theorem Alike.compiled {d d' : Draft} (hR : NamesMatch R) (h : d.Alike R d') :
    d.compiled.Alike R d'.compiled := by
  have hprogram := CompileM.inStep_program hR (d.ahead.length + 1) d d' h
  unfold Draft.compiled EStateM.run
  rw [← h.ahead.length_eq]
  generalize CompileM.program (d.ahead.length + 1) d = r at hprogram ⊢
  generalize CompileM.program (d.ahead.length + 1) d' = r' at hprogram ⊢
  cases hprogram with
  | ok a h => exact h
  | error hcode h => exact h

end Draft

/-- Tokens that differ in their spelling and their places, and in their names only as far as `ρ` changes
them without making two of them the same, are compiled to the same code or refused for the same
reasons. -/
theorem compiles_alike_of_renamed (hinj : Set.InjOn ρ (Token.namesOf tokens))
    (houtput : ρ Token.outputName = Token.outputName)
    (h : List.Forall₂ (Token.Renamed ρ) tokens tokens') :
    (∃ chunk chunk', compileTokens tokens = .ok chunk ∧ compileTokens tokens' = .ok chunk' ∧
      chunk'.bytes = chunk.bytes ∧ chunk'.slotCount = chunk.slotCount) ∨
    ∃ found found', compileTokens tokens = .error found ∧ compileTokens tokens' = .error found' ∧
      found'.map (·.code) = found.map (·.code) := by
  have hR := namesMatch_of_injOn hinj (.inl rfl) houtput
  have halike : List.Forall₂ (Token.Alike (ChangedBy ρ (Token.namesOf tokens))) tokens tokens' := by
    refine forall₂_alike_of_renamed h ?_
    intro t ht name hname
    exact ⟨.inr ⟨t, ht, hname⟩, rfl⟩
  have hend := (Draft.alike_ofTokens hR halike).compiled hR
  unfold compileTokens Draft.result
  have hempty : (Draft.ofTokens tokens').compiled.diagnostics.isEmpty =
      (Draft.ofTokens tokens).compiled.diagnostics.isEmpty := by
    have hcodes := congrArg List.isEmpty hend.codes
    simpa using hcodes
  rw [hempty]
  split
  · exact .inl ⟨_, _, rfl, rfl, hend.bytes, hend.slots⟩
  · exact .inr ⟨_, _, rfl, rfl, hend.codes⟩

/-- The tokens of a text with two variables. -/
def pairTokens : List Token :=
  (Token.scan "x <- 1 LOOP 9 TIMES y <- x x <- y + x END LOOP OUTPUT <- y").toOption.getD []

/-- The same with the variables exchanged, on more lines and in other letters. -/
def exchangedTokens : List Token :=
  (Token.scan "y <- 1
    Loop 9 times
      x <- y
      y <- x + y
    End Loop
    output <- x").toOption.getD []

theorem compiles_alike_of_renamed_exchanged : ∃ chunk chunk', pairTokens.length = 19 ∧
    List.Forall₂ (Token.Renamed (Equiv.swap "x" "y")) pairTokens exchangedTokens ∧
    compileTokens pairTokens = .ok chunk ∧ compileTokens exchangedTokens = .ok chunk' ∧
    chunk'.bytes = chunk.bytes ∧ chunk'.slotCount = chunk.slotCount := by
  have hrenamed : List.Forall₂ (Token.Renamed (Equiv.swap "x" "y")) pairTokens exchangedTokens := by
    decide +kernel
  have hok : (compileTokens pairTokens).isOk = true := by decide +kernel
  rcases compiles_alike_of_renamed (Equiv.swap "x" "y").injective.injOn (by decide) hrenamed with
    ⟨chunk, chunk', hcompiled⟩ | ⟨found, -, hfound, -⟩
  · exact ⟨chunk, chunk', by decide +kernel, hrenamed, hcompiled⟩
  · rw [hfound] at hok
    cases hok

end BoundedLoop
