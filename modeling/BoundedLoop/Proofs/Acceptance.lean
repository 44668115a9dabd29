import BoundedLoop.Proofs.Codegen.Program
import BoundedLoop.Proofs.Syntax.Rules
import Mathlib.Data.Finset.Card

/-!
# Which texts are compiled

The tokens of a text are compiled if and only if they have a tree of the grammar that keeps the rules
for variables and types, needs at most 256 slots and has no jump that is too long
(`compileTokens_isOk_iff`). How many slots a tree needs can be counted without laying them out
(`Program.length_layout`).
-/

namespace BoundedLoop

/-! ### The end of the input -/

theorem Except.isOk_iff {ε α : Type} {r : Except ε α} : r.isOk = true ↔ ∃ a, r = .ok a := by
  cases r with
  | ok a => simp [Except.isOk, Except.toBool]
  | error e => simp [Except.isOk, Except.toBool]

theorem Except.map_eq_ok_iff {ε α β : Type} {f : α → β} {r : Except ε α} {b : β} :
    f <$> r = .ok b ↔ ∃ a, r = .ok a ∧ f a = b := by
  cases r with
  | ok a => simp [Functor.map, Except.map]
  | error e => simp [Functor.map, Except.map]

/-- `tokens` end with `last`, and no token in front of it ends the input. -/
def Token.EndBy (last : Token) (tokens : List Token) : Prop :=
  ∃ body, tokens = body ++ [last] ∧ ∀ t ∈ body, t.kind ≠ .eof

theorem Token.endBy_of_map_cons {last t : Token} {r : Except ScanError (List Token)}
    {tokens : List Token} (h : (t :: ·) <$> r = .ok tokens)
    (ih : ∀ {tokens}, r = .ok tokens → EndBy last tokens) (ht : t.kind ≠ .eof) :
    EndBy last tokens := by
  obtain ⟨tokens', htokens, rfl⟩ := Except.map_eq_ok_iff.1 h
  obtain ⟨body, rfl, hbody⟩ := ih htokens
  exact ⟨t :: body, rfl, List.forall_mem_cons.2 ⟨ht, hbody⟩⟩

theorem Token.endBy_of_ofLexemes {last : Token} {ls : List Lexeme} {tokens : List Token}
    (h : ofLexemes last ls = .ok tokens) : EndBy last tokens := by
  fun_induction ofLexemes last ls generalizing tokens with
  | case1 =>
    cases h
    exact ⟨[], rfl, fun t ht => absurd ht List.not_mem_nil⟩
  | case3 l rest s _ ih => exact endBy_of_map_cons h ih nofun
  | case4 l rest n _ ih => exact endBy_of_map_cons h ih nofun
  | case5 l rest content _ ih => exact endBy_of_map_cons h ih nofun
  | case6 l rest _ _ ih => exact endBy_of_map_cons h ih nofun
  | case7 l rest _ k _ ih => exact endBy_of_map_cons h ih nofun
  | case8 l rest _ b _ ih => exact endBy_of_map_cons h ih nofun
  | case11 l _ stem _ next rest k _ ih => exact endBy_of_map_cons h ih nofun
  | _ => cases h

/-- The tokens of a text end with the only one that ends the input. -/
theorem Token.endBy_of_scan {source : String} {tokens : List Token} (h : scan source = .ok tokens) :
    ∃ last, last.kind = .eof ∧ EndBy last tokens :=
  ⟨_, rfl, endBy_of_ofLexemes h⟩

/-- The trees of a text are the trees of all its tokens but the last. -/
theorem Program.parses_iff_of_scan {source : String} {tokens : List Token} {p : Program}
    (h : Token.scan source = .ok tokens) :
    p.Parses tokens ↔
      Block.Grammatical false p ∧ Block.tokens p = tokens.takeWhile (·.kind ≠ .eof) := by
  obtain ⟨last, hlast, body, rfl, hbody⟩ := Token.endBy_of_scan h
  have htake : (body ++ [last]).takeWhile (·.kind ≠ .eof) = body := by
    rw [List.takeWhile_append_of_pos (by simpa using hbody)]
    simp [hlast]
  rw [htake]
  refine and_congr_right fun _ => ⟨?_, ?_⟩
  · rintro ⟨finish, -, heq⟩
    exact (List.append_inj' heq rfl).1.symm
  · rintro rfl
    exact ⟨last, hlast, rfl⟩

/-! ### Counting slots -/

def Event.assigned? : Event → Option String
  | read _ => none
  | assigned name => some name

/-- The variables that a block assigns to, as often as it does. -/
def Block.assigned (ss : List Statement) : List String :=
  (Block.events ss).filterMap Event.assigned?

namespace Layout

/-- From `l` to `l'` the variables assigned in `es` have got slots, and each of the loops two. -/
structure Grows (l l' : Layout) (es : List Event) (loops : Nat) : Prop where
  mem : ∀ name, some name ∈ l' ↔ some name ∈ l ∨ .assigned name ∈ es
  nodup : l.names.Nodup → l'.names.Nodup
  count : l'.count none = l.count none + 2 * loops

theorem Grows.trans {l l₁ l₂ : Layout} {a b : List Event} {m n : Nat} (h : Grows l l₁ a m)
    (h' : Grows l₁ l₂ b n) : Grows l l₂ (a ++ b) (m + n) := by
  refine ⟨fun name => ?_, fun hn => h'.nodup (h.nodup hn), ?_⟩
  · rw [h'.mem, h.mem, List.mem_append, or_assoc]
  · rw [h'.count, h.count]
    omega

theorem grows_read (l : Layout) (names : List String) : Grows l l (names.map .read) 0 :=
  ⟨fun name => by simp, id, rfl⟩

theorem grows_add (l : Layout) (name : String) : Grows l (l.add name) [.assigned name] 0 := by
  by_cases h : some name ∈ l
  · rw [add_of_mem h]
    refine ⟨fun other => ?_, id, rfl⟩
    rw [List.mem_singleton, Event.assigned.injEq]
    constructor
    · exact .inl
    · rintro (hm | rfl)
      · exact hm
      · exact h
  · refine ⟨fun other => ?_, fun hn => ?_, ?_⟩
    · simp [add_of_not_mem h]
    · rw [names_add_of_not_mem h]
      exact List.nodup_cons.2 ⟨fun hm => h (mem_names.1 hm), hn⟩
    · simp [add_of_not_mem h]

theorem grows_addLoop (l : Layout) : Grows l l.addLoop [] 1 :=
  ⟨fun name => by simp [mem_addLoop], fun hn => by simpa [names, addLoop] using hn,
    by simp [addLoop]⟩

theorem length_eq (l : Layout) : l.length = l.names.length + l.count none := by
  rw [names, List.length_reverse]
  induction l with
  | nil => rfl
  | cons owner l ih =>
    cases owner with
    | none => simp only [List.length_cons, List.filterMap_cons, List.count_cons_self, id, ih]; omega
    | some name => simp [ih]; omega

end Layout

mutual

theorem Statement.grows_layout : ∀ (s : Statement) (l : Layout),
    l.Grows (s.layout l) s.events s.loops
  | .assign target name arrow value, l => (l.grows_read value.reads).trans (l.grows_add name)
  | .choice arms closer, l => arms.grows_layout l
  | .loop keyword count times body closer, l => by
    have h := (l.grows_read count.reads).trans
      (l.grows_addLoop.trans (Block.grows_layout body l.addLoop))
    rwa [Nat.zero_add] at h
  | .abort token, l => l.grows_read []

theorem Arms.grows_layout : ∀ (a : Arms) (l : Layout), l.Grows (a.layout l) a.events a.loops
  | .last keyword condition thenWord body elseWord alternative, l => by
    have h := ((l.grows_read condition.reads).trans (Block.grows_layout body l)).trans
      (Block.grows_layout alternative _)
    rwa [Nat.zero_add] at h
  | .elseIf keyword condition thenWord body elseWord rest, l => by
    have h := ((l.grows_read condition.reads).trans (Block.grows_layout body l)).trans
      (rest.grows_layout _)
    rwa [Nat.zero_add] at h

theorem Block.grows_layout : ∀ (ss : List Statement) (l : Layout),
    l.Grows (Block.layout l ss) (Block.events ss) (Block.loops ss)
  | [], l => l.grows_read []
  | s :: ss, l => (s.grows_layout l).trans (Block.grows_layout ss _)

end

theorem Block.mem_assigned {ss : List Statement} {name : String} :
    name ∈ Block.assigned ss ↔ .assigned name ∈ Block.events ss := by
  rw [Block.assigned, List.mem_filterMap]
  constructor
  · rintro ⟨e, he, heq⟩
    cases e with
    | read other => cases heq
    | assigned other =>
      cases heq
      exact he
  · exact fun h => ⟨_, h, rfl⟩

/-- `OUTPUT` and each other variable take one slot, and each loop takes two. -/
theorem Program.length_layout (p : Program) :
    p.layout.length =
      1 + ((Block.assigned p).toFinset.erase Token.outputName).card + 2 * Block.loops p := by
  have hgrows := Block.grows_layout p .initial
  have hnodup : p.layout.names.Nodup := hgrows.nodup (by decide)
  have hnames : p.layout.names.toFinset =
      insert Token.outputName ((Block.assigned p).toFinset.erase Token.outputName) := by
    ext name
    have hmem : some name ∈ p.layout ↔ name = Token.outputName ∨ .assigned name ∈ Block.events p :=
      (hgrows.mem name).trans (by simp [Layout.initial])
    rw [List.mem_toFinset, Layout.mem_names, Finset.mem_insert, Finset.mem_erase,
      List.mem_toFinset, Block.mem_assigned]
    by_cases hname : name = Token.outputName
    · simpa [hname] using hmem
    · simpa [hname] using hmem
  have hcount : p.layout.count none = 2 * Block.loops p := by
    have h := hgrows.count
    rwa [show (Layout.initial.count none) = 0 from rfl, Nat.zero_add] at h
  rw [Layout.length_eq, hcount, ← List.toFinset_card_of_nodup hnodup, hnames,
    Finset.card_insert_of_notMem (Finset.notMem_erase _ _)]
  omega

/-! ### Accepted texts -/

/-- What makes a tree of the grammar a program that can be compiled. -/
structure Program.Legal (p : Program) : Prop where
  /-- every variable is read behind the end of an assignment to it -/
  ordered : ∀ before name after, Block.events p = before ++ .read name :: after →
    .assigned name ∈ before
  /-- there is one type for each variable that fits all its uses -/
  typed : ∃ Γ : String → Ty, Block.WellTyped Γ p
  /-- `OUTPUT`, the other variables and the loops find slots -/
  slots : 1 + ((Block.assigned p).toFinset.erase Token.outputName).card + 2 * Block.loops p ≤ 256
  /-- every distance of a jump can be written -/
  jumps : p.code.Fits

theorem Program.accepted_iff (p : Program) :
    (∃ types, p.Accepted types) ↔ Block.Grammatical false p ∧ p.Legal := by
  have hroom : p.layout.length ≤ Chunk.maxSlots ↔
      1 + ((Block.assigned p).toFinset.erase Token.outputName).card + 2 * Block.loops p ≤ 256 := by
    rw [p.length_layout, Chunk.maxSlots]
  constructor
  · rintro ⟨types, h⟩
    obtain ⟨hord, htyped⟩ := p.check_iff.1 ⟨types, h.check⟩
    refine ⟨h.grammatical, ?_, htyped, hroom.1 h.room, h.fits⟩
    exact fun before name after heq => (hord before name after heq).resolve_left id
  · rintro ⟨hgram, h⟩
    obtain ⟨types, hcheck⟩ := p.check_iff.2
      ⟨fun before name after heq => .inr (h.ordered before name after heq), h.typed⟩
    exact ⟨types, hgram, hcheck, hroom.2 h.slots, h.jumps⟩

theorem compileTokens_eq_ok_iff_of_scan {source : String} {tokens : List Token} {chunk : Chunk}
    (h : Token.scan source = .ok tokens) :
    compileTokens tokens = .ok chunk ↔
      ∃ (p : Program) (types : Types), p.Accepted types ∧ p.Parses tokens ∧ chunk = p.chunk := by
  rw [compileTokens_eq_ok_iff]
  refine exists_congr fun p => exists_congr fun types => and_congr_right fun hp => ?_
  rw [Program.parses_iff_of_scan h]
  simp only [hp.grammatical, true_and]

theorem compile_eq_ok_iff {source : String} {chunk : Chunk} :
    compile source = .ok chunk ↔
      ∃ tokens, Token.scan source = .ok tokens ∧ compileTokens tokens = .ok chunk := by
  unfold compile
  cases Token.scan source with
  | error e => simp
  | ok tokens =>
    simp only [Except.ok.injEq, exists_eq_left']
    cases compileTokens tokens <;> simp [Except.mapError]

/-- The tokens of a text are compiled if and only if they have a tree that is legal; there is no other
tree then, and what they are compiled to is its code. -/
theorem compileTokens_isOk_iff {source : String} {tokens : List Token}
    (h : Token.scan source = .ok tokens) :
    ((∃ chunk, compileTokens tokens = .ok chunk) ↔
      ∃ p : Program, (p.Parses tokens ∧ ∀ q : Program, q.Parses tokens → q = p) ∧ p.Legal) ∧
    ∀ chunk (p : Program), compileTokens tokens = .ok chunk → p.Parses tokens → chunk = p.chunk := by
  refine ⟨⟨?_, ?_⟩, ?_⟩
  · rintro ⟨chunk, hchunk⟩
    obtain ⟨p, types, hp, hparses, -⟩ := (compileTokens_eq_ok_iff_of_scan h).1 hchunk
    exact ⟨p, ⟨hparses, fun q hq => hq.unique hparses⟩, (p.accepted_iff.1 ⟨types, hp⟩).2⟩
  · rintro ⟨p, ⟨hparses, -⟩, hlegal⟩
    obtain ⟨types, hp⟩ := p.accepted_iff.2 ⟨hparses.1, hlegal⟩
    exact ⟨p.chunk, (compileTokens_eq_ok_iff_of_scan h).2 ⟨p, types, hp, hparses, rfl⟩⟩
  · intro chunk p hchunk hparses
    obtain ⟨q, types, -, hq, rfl⟩ := (compileTokens_eq_ok_iff_of_scan h).1 hchunk
    rw [hq.unique hparses]

/-- A text with statements of all kinds. -/
def searchText : String :=
  "n <- 0
  LOOP 9 TIMES
    IF n * 2 < 6 and not (n = 5) THEN n <- n + 1
    ELSE IF n = 3 THEN ABORT LOOP
    END IF
  END LOOP
  OUTPUT <- n"

theorem compile_searchText : ∃ chunk, compile searchText = .ok chunk := by
  have hok : (compile searchText).isOk = true := by decide +kernel
  exact Except.isOk_iff.1 hok

theorem compileTokens_isOk_searchText : ∃ tokens, Token.scan searchText = .ok tokens ∧
    ∃ p : Program, (p.Parses tokens ∧ ∀ q : Program, q.Parses tokens → q = p) ∧ p.Legal := by
  obtain ⟨chunk, hchunk⟩ := compile_searchText
  obtain ⟨tokens, hscan, htokens⟩ := compile_eq_ok_iff.1 hchunk
  exact ⟨tokens, hscan, (compileTokens_isOk_iff hscan).1.1 ⟨chunk, htokens⟩⟩

end BoundedLoop
