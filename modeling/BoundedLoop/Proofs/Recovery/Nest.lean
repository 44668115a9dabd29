import BoundedLoop.Compile.Recovery
import BoundedLoop.Proofs.Syntax.Tree

/-!
# Nested tokens

A `Nest` is a token that neither opens nor closes anything, or an `IF` or a `LOOP` with all that
stands up to its own closer. It says nothing about what stands in between: any tokens will do, as
long as they are nested themselves.

Skipping a failed statement counts openers and closers, so it respects nests. In a statement that is
still open it passes over whole nests (`Nests.skipFailed_append`), and outside of one it stops in front
of a nest, or where the nests end (`Nests.exists_skipFailed`).
-/

namespace BoundedLoop

/-- Whether a token of this kind neither opens nor closes a block, nor ends the input. -/
def Token.Kind.isPlain : Token.Kind → Bool
  | .keyword .ifWord | .keyword .loop | .keyword .elseWord | .keyword .endIf | .keyword .endLoop
  | .keyword .endProcedure | .eof => false
  | _ => true

mutual

inductive Nest where
  | plain (t : Token)
  | choice (keyword : Token) (body : List Nest) (more : Branches) (closer : Token)
  | loop (keyword : Token) (body : List Nest) (closer : Token)

/-- What stands between the first body of an `IF` and its closer. -/
inductive Branches where
  | none
  | otherwise (elseWord : Token) (body : List Nest)
  | elseIf (elseWord keyword : Token) (body : List Nest) (more : Branches)

end

mutual

def Nest.tokens : Nest → List Token
  | .plain t => [t]
  | .choice keyword body more closer =>
    keyword :: (Nests.tokens body ++ (more.tokens ++ [closer]))
  | .loop keyword body closer => keyword :: (Nests.tokens body ++ [closer])

def Branches.tokens : Branches → List Token
  | .none => []
  | .otherwise elseWord body => elseWord :: Nests.tokens body
  | .elseIf elseWord keyword body more =>
    elseWord :: keyword :: (Nests.tokens body ++ more.tokens)

def Nests.tokens : List Nest → List Token
  | [] => []
  | n :: ns => n.tokens ++ Nests.tokens ns

end

mutual

/-- The plain tokens that stand in no loop. -/
def Nest.free : Nest → List Token
  | .plain t => [t]
  | .choice _ body more _ => Nests.free body ++ more.free
  | .loop .. => []

def Branches.free : Branches → List Token
  | .none => []
  | .otherwise _ body => Nests.free body
  | .elseIf _ _ body more => Nests.free body ++ more.free

def Nests.free : List Nest → List Token
  | [] => []
  | n :: ns => n.free ++ Nests.free ns

end

/-- Nests that do not begin with an `IF`. -/
def Nests.BeginNoChoice : List Nest → Prop
  | .choice .. :: _ => False
  | _ => True

mutual

/-- Every token is of the kind that it should be. The body of an `ELSE` does not begin with an `IF`,
which would go on with the open statement. -/
def Nest.WellNested : Nest → Prop
  | .plain t => t.kind.isPlain = true
  | .choice keyword body more closer =>
    keyword.kind = .keyword .ifWord ∧ Nests.WellNested body ∧ more.WellNested ∧
      closer.kind = .keyword .endIf
  | .loop keyword body closer =>
    keyword.kind = .keyword .loop ∧ Nests.WellNested body ∧ closer.kind = .keyword .endLoop

def Branches.WellNested : Branches → Prop
  | .none => True
  | .otherwise elseWord body =>
    elseWord.kind = .keyword .elseWord ∧ Nests.WellNested body ∧ Nests.BeginNoChoice body
  | .elseIf elseWord keyword body more =>
    elseWord.kind = .keyword .elseWord ∧ keyword.kind = .keyword .ifWord ∧ Nests.WellNested body ∧
      more.WellNested

def Nests.WellNested : List Nest → Prop
  | [] => True
  | n :: ns => n.WellNested ∧ Nests.WellNested ns

end

instance Nests.decidableBeginNoChoice : ∀ ns : List Nest, Decidable (BeginNoChoice ns)
  | .choice .. :: _ => .isFalse id
  | .plain _ :: _ | .loop .. :: _ | [] => .isTrue trivial

mutual

instance Nest.decidableWellNested : ∀ n : Nest, Decidable n.WellNested
  | .plain t => inferInstanceAs (Decidable (t.kind.isPlain = true))
  | .choice keyword body more closer =>
    have := Nests.decidableWellNested body
    have := more.decidableWellNested
    inferInstanceAs (Decidable (keyword.kind = .keyword .ifWord ∧ Nests.WellNested body ∧
      more.WellNested ∧ closer.kind = .keyword .endIf))
  | .loop keyword body closer =>
    have := Nests.decidableWellNested body
    inferInstanceAs (Decidable (keyword.kind = .keyword .loop ∧ Nests.WellNested body ∧
      closer.kind = .keyword .endLoop))

instance Branches.decidableWellNested : ∀ bs : Branches, Decidable bs.WellNested
  | .none => .isTrue trivial
  | .otherwise elseWord body =>
    have := Nests.decidableWellNested body
    inferInstanceAs (Decidable (elseWord.kind = .keyword .elseWord ∧ Nests.WellNested body ∧
      Nests.BeginNoChoice body))
  | .elseIf elseWord keyword body more =>
    have := Nests.decidableWellNested body
    have := more.decidableWellNested
    inferInstanceAs (Decidable (elseWord.kind = .keyword .elseWord ∧
      keyword.kind = .keyword .ifWord ∧ Nests.WellNested body ∧ more.WellNested))

instance Nests.decidableWellNested : ∀ ns : List Nest, Decidable (Nests.WellNested ns)
  | [] => .isTrue trivial
  | n :: ns =>
    have := n.decidableWellNested
    have := Nests.decidableWellNested ns
    inferInstanceAs (Decidable (n.WellNested ∧ Nests.WellNested ns))

end

namespace Nests

theorem tokens_append : ∀ a b : List Nest, tokens (a ++ b) = tokens a ++ tokens b
  | [], b => rfl
  | n :: a, b => by
    rw [List.cons_append, tokens, tokens, tokens_append a b, List.append_assoc]

theorem free_append : ∀ a b : List Nest, free (a ++ b) = free a ++ free b
  | [], b => rfl
  | n :: a, b => by
    rw [List.cons_append, free, free, free_append a b, List.append_assoc]

theorem wellNested_append : ∀ {a b : List Nest}, WellNested (a ++ b) ↔ WellNested a ∧ WellNested b
  | [], b => by simp [WellNested]
  | n :: a, b => by
    rw [List.cons_append, WellNested, WellNested, wellNested_append, and_assoc]

end Nests

mutual

theorem Nest.kind_ne_eof : ∀ {n : Nest}, n.WellNested → ∀ t ∈ n.tokens, t.kind ≠ .eof
  | .plain t, hn, t', ht' => by
    have hplain : t.kind.isPlain = true := hn
    rw [List.mem_singleton.1 ht']
    intro hk
    rw [hk] at hplain
    cases hplain
  | .choice keyword body more closer, ⟨hkeyword, hbody, hmore, hcloser⟩, t, ht => by
    simp only [Nest.tokens, List.mem_cons, List.mem_append, List.not_mem_nil, or_false] at ht
    rcases ht with rfl | ht | ht | rfl
    · simp [hkeyword]
    · exact Nests.kind_ne_eof hbody t ht
    · exact Branches.kind_ne_eof hmore t ht
    · simp [hcloser]
  | .loop keyword body closer, ⟨hkeyword, hbody, hcloser⟩, t, ht => by
    simp only [Nest.tokens, List.mem_cons, List.mem_append, List.not_mem_nil, or_false] at ht
    rcases ht with rfl | ht | rfl
    · simp [hkeyword]
    · exact Nests.kind_ne_eof hbody t ht
    · simp [hcloser]

theorem Branches.kind_ne_eof : ∀ {bs : Branches}, bs.WellNested → ∀ t ∈ bs.tokens, t.kind ≠ .eof
  | .none, _, t, ht => by cases ht
  | .otherwise elseWord body, ⟨helse, hbody, _⟩, t, ht => by
    rcases List.mem_cons.1 ht with rfl | ht
    · simp [helse]
    · exact Nests.kind_ne_eof hbody t ht
  | .elseIf elseWord keyword body more, ⟨helse, hkeyword, hbody, hmore⟩, t, ht => by
    simp only [Branches.tokens, List.mem_cons, List.mem_append] at ht
    rcases ht with rfl | rfl | ht | ht
    · simp [helse]
    · simp [hkeyword]
    · exact Nests.kind_ne_eof hbody t ht
    · exact Branches.kind_ne_eof hmore t ht

theorem Nests.kind_ne_eof :
    ∀ {ns : List Nest}, Nests.WellNested ns → ∀ t ∈ Nests.tokens ns, t.kind ≠ .eof
  | [], _, t, ht => by cases ht
  | n :: ns, hns, t, ht => by
    rcases List.mem_append.1 ht with ht | ht
    · exact Nest.kind_ne_eof hns.1 t ht
    · exact Nests.kind_ne_eof hns.2 t ht

end

mutual

theorem Nest.free_sublist : ∀ n : Nest, n.free.Sublist n.tokens
  | .plain _ => .refl _
  | .choice keyword body more _ =>
    ((Nests.free_sublist body).append
      (more.free_sublist.trans (List.sublist_append_left _ _))).cons keyword
  | .loop .. => List.nil_sublist _

theorem Branches.free_sublist : ∀ bs : Branches, bs.free.Sublist bs.tokens
  | .none => .refl _
  | .otherwise elseWord body => (Nests.free_sublist body).cons elseWord
  | .elseIf elseWord keyword body more =>
    (((Nests.free_sublist body).append more.free_sublist).cons keyword).cons elseWord

theorem Nests.free_sublist : ∀ ns : List Nest, (Nests.free ns).Sublist (Nests.tokens ns)
  | [] => .refl _
  | n :: ns => n.free_sublist.append (Nests.free_sublist ns)

end

/-! ### How nests begin -/

/-- No plain token comes next. -/
def EndsPlain (ts : List Token) : Prop := ∀ t ∈ ts.head?, t.kind.isPlain = false

/-- Some token comes next, and it is no `IF`. -/
def BeginsNoIf (ts : List Token) : Prop :=
  ∃ t rest, ts = t :: rest ∧ t.kind ≠ .keyword .ifWord

theorem Token.Kind.isPlain_of_closesBlock {k : Kind} (h : k.closesBlock = true) :
    k.isPlain = false := by
  cases k with
  | keyword w => cases w <;> simp_all [isPlain, closesBlock]
  | _ => cases h

theorem Token.Kind.closesBlock_of_isPlain {k : Kind} (h : k.isPlain = true) :
    k.closesBlock = false := by
  cases hc : k.closesBlock with
  | false => rfl
  | true =>
    rw [isPlain_of_closesBlock hc] at h
    cases h

theorem BeginsNoIf.of_tokens {ns : List Nest} {rest : List Token} (hns : Nests.WellNested ns)
    (hbegin : Nests.BeginNoChoice ns) (hrest : BeginsNoIf rest) :
    BeginsNoIf (Nests.tokens ns ++ rest) := by
  cases ns with
  | nil => exact hrest
  | cons n ns =>
    cases n with
    | plain t =>
      refine ⟨t, Nests.tokens ns ++ rest, rfl, fun hk => ?_⟩
      have hplain : t.kind.isPlain = true := hns.1
      rw [hk] at hplain
      cases hplain
    | choice => exact hbegin.elim
    | loop keyword body closer =>
      refine ⟨keyword, _, rfl, ?_⟩
      rw [hns.1.1]
      decide

/-- Reading plain tokens takes plain nests. -/
theorem Nests.exists_of_read {ns : List Nest} {tail used rest : List Token}
    (hns : WellNested ns) (htail : EndsPlain tail) (hused : ∀ t ∈ used, t.kind.isPlain = true)
    (h : tokens ns ++ tail = used ++ rest) :
    ∃ ns', ns = used.map .plain ++ ns' ∧ rest = tokens ns' ++ tail := by
  induction used generalizing ns with
  | nil => exact ⟨ns, rfl, h.symm⟩
  | cons t used ih =>
    have ht := hused t List.mem_cons_self
    -- the first nest begins with `t`, so it is plain
    cases ns with
    | nil =>
      have hhead := htail t (by rw [show tail = t :: (used ++ rest) from h]; rfl)
      rw [ht] at hhead
      cases hhead
    | cons n ns =>
      cases n with
      | plain t' =>
        obtain ⟨rfl, hread⟩ := List.cons.inj h
        obtain ⟨ns', rfl, hrest⟩ := ih hns.2 (fun t ht => hused t (List.mem_cons_of_mem _ ht)) hread
        exact ⟨ns', rfl, hrest⟩
      | choice keyword =>
        obtain ⟨rfl, -⟩ := List.cons.inj h
        rw [hns.1.1] at ht
        cases ht
      | loop keyword =>
        obtain ⟨rfl, -⟩ := List.cons.inj h
        rw [hns.1.1] at ht
        cases ht

/-! ### Skipping -/

section Skipping

variable {base depth : Nat} {t : Token} {rest : List Token}

theorem skipFailed_plain (ht : t.kind.isPlain = true) :
    skipFailed base depth (t :: rest) =
      if t.kind = .keyword .abortLoop ∧ depth = base then rest else skipFailed base depth rest := by
  rw [skipFailed.eq_def]
  cases hk : t.kind with
  | keyword w => cases w <;> simp_all [Token.Kind.isPlain]
  | _ => simp_all [Token.Kind.isPlain]

theorem skipFailed_opener (ht : t.kind = .keyword .ifWord ∨ t.kind = .keyword .loop) :
    skipFailed base depth (t :: rest) = skipFailed base (depth + 1) rest := by
  rcases ht with ht | ht
  all_goals
    rw [skipFailed.eq_def]
    simp only [ht]

/-- The closer of a statement that is open. -/
theorem skipFailed_closer (ht : t.kind = .keyword .endIf ∨ t.kind = .keyword .endLoop)
    (h : base < depth + 1) :
    skipFailed base (depth + 1) (t :: rest) =
      if depth = base then rest else skipFailed base depth rest := by
  rcases ht with ht | ht
  all_goals
    rw [skipFailed.eq_def]
    simp only [ht, if_pos h, Nat.add_sub_cancel]

theorem skipFailed_else (ht : t.kind = .keyword .elseWord) (h : base < depth)
    (hrest : BeginsNoIf rest) : skipFailed base depth (t :: rest) = skipFailed base depth rest := by
  obtain ⟨follower, behind, rfl, hne⟩ := hrest
  rw [skipFailed.eq_def]
  simp only [ht, if_pos h, if_neg hne]

theorem skipFailed_elseIf {keyword : Token} (ht : t.kind = .keyword .elseWord)
    (hkeyword : keyword.kind = .keyword .ifWord) (h : base < depth) :
    skipFailed base depth (t :: keyword :: rest) = skipFailed base depth rest := by
  rw [skipFailed.eq_def]
  simp only [ht, if_pos h, if_pos hkeyword]

/-- In a block, skipping ends in front of the closer of the block. -/
theorem skipFailed_stop (hbase : 0 < base) (ht : t.kind.closesBlock = true) :
    skipFailed base base (t :: rest) = t :: rest := by
  rw [skipFailed.eq_def]
  cases hk : t.kind with
  | keyword w => cases w <;> simp_all [Token.Kind.closesBlock]
  | _ => simp_all [Token.Kind.closesBlock]

theorem beginsNoIf_closer (ht : t.kind = .keyword .endIf) (rest : List Token) :
    BeginsNoIf (t :: rest) :=
  ⟨t, rest, rfl, by rw [ht]; decide⟩

-- depths count from the statement that failed, so all that is nested in it is passed over
mutual

theorem Nest.skipFailed_append : ∀ (n : Nest) {depth : Nat} {rest : List Token}, n.WellNested →
    base < depth → skipFailed base depth (n.tokens ++ rest) = skipFailed base depth rest
  | .plain t, depth, rest, hn, h => by
    rw [Nest.tokens, List.singleton_append, skipFailed_plain hn, if_neg]
    rintro ⟨-, rfl⟩
    exact Nat.lt_irrefl _ h
  | .choice keyword body more closer, depth, rest, hn, h => by
    obtain ⟨hkeyword, hbody, hmore, hcloser⟩ := hn
    simp only [Nest.tokens, List.cons_append, List.append_assoc, List.nil_append]
    rw [skipFailed_opener (.inl hkeyword), Nests.skipFailed_append body hbody (by omega),
      more.skipFailed_append hmore (by omega) (beginsNoIf_closer hcloser rest),
      skipFailed_closer (.inl hcloser) (by omega), if_neg (by omega)]
  | .loop keyword body closer, depth, rest, hn, h => by
    obtain ⟨hkeyword, hbody, hcloser⟩ := hn
    simp only [Nest.tokens, List.cons_append, List.append_assoc, List.nil_append]
    rw [skipFailed_opener (.inr hkeyword), Nests.skipFailed_append body hbody (by omega),
      skipFailed_closer (.inr hcloser) (by omega), if_neg (by omega)]

theorem Branches.skipFailed_append : ∀ (bs : Branches) {depth : Nat} {rest : List Token},
    bs.WellNested → base < depth → BeginsNoIf rest →
    skipFailed base depth (bs.tokens ++ rest) = skipFailed base depth rest
  | .none, depth, rest, _, _, _ => rfl
  | .otherwise elseWord body, depth, rest, hbs, h, hrest => by
    obtain ⟨helse, hbody, hbegin⟩ := hbs
    rw [Branches.tokens, List.cons_append, skipFailed_else helse h (.of_tokens hbody hbegin hrest),
      Nests.skipFailed_append body hbody h]
  | .elseIf elseWord keyword body more, depth, rest, hbs, h, hrest => by
    obtain ⟨helse, hkeyword, hbody, hmore⟩ := hbs
    simp only [Branches.tokens, List.cons_append, List.append_assoc]
    rw [skipFailed_elseIf helse hkeyword h, Nests.skipFailed_append body hbody h,
      more.skipFailed_append hmore h hrest]

theorem Nests.skipFailed_append : ∀ (ns : List Nest) {depth : Nat} {rest : List Token},
    Nests.WellNested ns → base < depth →
    skipFailed base depth (Nests.tokens ns ++ rest) = skipFailed base depth rest
  | [], depth, rest, _, _ => rfl
  | n :: ns, depth, rest, hns, h => by
    rw [Nests.tokens, List.append_assoc, n.skipFailed_append hns.1 h,
      Nests.skipFailed_append ns hns.2 h]

end

/-- From the inside of an `IF` skipping leads right behind its closer. -/
theorem skipFailed_choice {body : List Nest} {more : Branches} {closer : Token}
    (hbody : Nests.WellNested body) (hmore : more.WellNested)
    (hcloser : closer.kind = .keyword .endIf) (rest : List Token) :
    skipFailed base (base + 1) (Nests.tokens body ++ (more.tokens ++ closer :: rest)) = rest := by
  rw [Nests.skipFailed_append body hbody (by omega),
    more.skipFailed_append hmore (by omega) (beginsNoIf_closer hcloser rest),
    skipFailed_closer (.inl hcloser) (by omega), if_pos rfl]

/-- From the inside of a `LOOP` skipping leads right behind its closer. -/
theorem skipFailed_loop {body : List Nest} {closer : Token} (hbody : Nests.WellNested body)
    (hcloser : closer.kind = .keyword .endLoop) (rest : List Token) :
    skipFailed base (base + 1) (Nests.tokens body ++ closer :: rest) = rest := by
  rw [Nests.skipFailed_append body hbody (by omega), skipFailed_closer (.inr hcloser) (by omega),
    if_pos rfl]

/-- What follows the statements of a block at depth `base`: its closer, or nothing outside of all
blocks. -/
def EndsBlock (base : Nat) (tail : List Token) : Prop :=
  tail = [] ∨ 0 < base ∧ BeginsWithCloser tail

theorem EndsBlock.endsPlain {tail : List Token} (h : EndsBlock base tail) : EndsPlain tail := by
  rcases h with rfl | ⟨-, t, rest, rfl, hc⟩
  · intro t ht
    cases ht
  · intro t' ht'
    cases ht'
    exact Token.Kind.isPlain_of_closesBlock hc

/-- At the depth of the block skipping ends in front of one of its nests, and passes over the first of
them at least. -/
theorem Nests.exists_skipFailed {tail : List Token} (htail : EndsBlock base tail) :
    ∀ {ns : List Nest}, WellNested ns → ∃ used ns', ns = used ++ ns' ∧ (ns ≠ [] → used ≠ []) ∧
      skipFailed base base (tokens ns ++ tail) = tokens ns' ++ tail
  | [], _ => by
    refine ⟨[], [], rfl, fun h => h, ?_⟩
    rcases htail with rfl | ⟨hbase, t, rest, rfl, hc⟩
    · rfl
    · exact skipFailed_stop hbase hc
  | .plain t :: ns, hns => by
    obtain ⟨used, ns', rfl, -, hskip⟩ := exists_skipFailed htail hns.2
    rw [tokens, Nest.tokens, List.append_assoc, List.singleton_append, skipFailed_plain hns.1]
    split
    · exact ⟨[.plain t], used ++ ns', rfl, fun _ => nofun, rfl⟩
    · exact ⟨.plain t :: used, ns', rfl, fun _ => nofun, hskip⟩
  | .choice keyword body more closer :: ns, hns => by
    refine ⟨[.choice keyword body more closer], ns, rfl, fun _ => nofun, ?_⟩
    obtain ⟨hkeyword, hbody, hmore, hcloser⟩ := hns.1
    simp only [tokens, Nest.tokens, List.cons_append, List.append_assoc, List.nil_append]
    rw [skipFailed_opener (.inl hkeyword), skipFailed_choice hbody hmore hcloser]
  | .loop keyword body closer :: ns, hns => by
    refine ⟨[.loop keyword body closer], ns, rfl, fun _ => nofun, ?_⟩
    obtain ⟨hkeyword, hbody, hcloser⟩ := hns.1
    simp only [tokens, Nest.tokens, List.cons_append, List.append_assoc, List.nil_append]
    rw [skipFailed_opener (.inr hkeyword), skipFailed_loop hbody hcloser]

end Skipping

end BoundedLoop
