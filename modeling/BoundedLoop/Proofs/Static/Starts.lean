import BoundedLoop.Proofs.Static.TypedCode

/-!
# Where statements begin

`Block.starts` lists all statements of a block, also those inside other statements, each with the
offset at which its code begins. The code of each of them is there (`Block.hasStatement_starts`), and
the stack is empty there (`Block.stack_starts`).
-/

namespace BoundedLoop

mutual

/-- A statement and all statements in it, each with the offset of its code. -/
def Statement.starts (offset : Nat) : Statement → List (Nat × Statement)
  | .assign target name arrow value => [(offset, .assign target name arrow value)]
  | .choice arms closer => (offset, .choice arms closer) :: arms.starts offset
  | .loop keyword count times body closer =>
    (offset, .loop keyword count times body closer) ::
      Block.starts (offset + count.size + 25) body
  | .abort token => [(offset, .abort token)]

def Arms.starts (offset : Nat) : Arms → List (Nat × Statement)
  | .last _ condition _ body _ alternative =>
    Block.starts (offset + condition.size + 4) body ++
      Block.starts (offset + condition.size + Block.size body + 8) alternative
  | .elseIf _ condition _ body _ rest =>
    Block.starts (offset + condition.size + 4) body ++
      rest.starts (offset + condition.size + Block.size body + 8)

def Block.starts (offset : Nat) : List Statement → List (Nat × Statement)
  | [] => []
  | s :: ss => s.starts offset ++ Block.starts (offset + s.size) ss

end

/-! ### Code inside code -/

/-- The part stands at `o` in code that begins at `k`. -/
def Fragment.Contains (k : Nat) (code : Fragment) (o : Nat) (part : Fragment) : Prop :=
  ∃ a b, code = a ++ (part ++ b) ∧ o = k + a.size

namespace Fragment.Contains

variable {k o o' : Nat} {a b code part part' : Fragment}

theorem refl (k : Nat) (code : Fragment) : Contains k code k code :=
  ⟨[], [], (List.append_nil code).symm, rfl⟩

theorem left (h : Contains k a o part) : Contains k (a ++ b) o part := by
  obtain ⟨before, behind, rfl, rfl⟩ := h
  exact ⟨before, behind ++ b, by simp only [List.append_assoc], rfl⟩

theorem right (h : Contains (k + a.size) b o part) : Contains k (a ++ b) o part := by
  obtain ⟨before, behind, rfl, rfl⟩ := h
  refine ⟨a ++ before, behind, by rw [List.append_assoc], ?_⟩
  rw [size_append, Nat.add_assoc]

theorem trans (h : Contains k code o part) (h' : Contains o part o' part') : Contains k code o' part' := by
  obtain ⟨before, behind, rfl, rfl⟩ := h
  exact (h'.left (b := behind)).right

/-- What begins inside the part belongs to it. -/
theorem mem_located (h : Contains k code o part) {q : Nat} {i : Item} (hi : (q, i) ∈ code.located k)
    (ho : o ≤ q) (hq : q < o + part.size) : (q, i) ∈ part.located o := by
  have hpos : 0 < i.instruction.size := Nat.lt_of_lt_of_le Nat.one_pos (Nat.le_add_right 1 _)
  obtain ⟨before, behind, rfl, rfl⟩ := h
  rw [located_append, located_append, List.mem_append, List.mem_append] at hi
  rcases hi with hi | hi | hi
  · have hinside := inside_of_mem_located hi
    omega
  · exact hi
  · have hinside := inside_of_mem_located hi
    omega

end Fragment.Contains

theorem Chunk.Holds.of_contains {c : Chunk} {k o : Nat} {code part : Fragment} (h : c.Holds k code)
    (hpart : code.Contains k o part) : c.Holds o part := by
  obtain ⟨before, behind, rfl, rfl⟩ := hpart
  exact h.right.left

/-- The code of a statement is in the chunk, at its offset, and uses slots as `F` lays them out. -/
def Chunk.HasStatement (c : Chunk) (F : Layout) (q : Nat × Statement) : Prop :=
  ∃ l leave, q.2.layout l <+: F ∧ c.Holds q.1 (q.2.code l leave q.1)

section Starts

variable {c : Chunk} {F : Layout} {T : CodeTyping} {Γ : String → Ty}

theorem Arms.holds_arms {k line : Nat} {l : Layout} {leave : Nat → Int} {condition : Expression}
    {body : List Statement} {rest : Fragment} {exit : Int}
    (h : c.Holds k (Arms.armCode line (condition.code l.slot)
      (Block.code l leave (k + condition.size + 4) body) exit ++ rest)) :
    c.Holds (k + condition.size + 4) (Block.code l leave (k + condition.size + 4) body) ∧
      c.Holds (k + condition.size + Block.size body + 8) rest := by
  have hbody := Arms.holds_body h.left
  have hrest := h.right
  simp only [Arms.size_armCode, condition.size_code, Block.size_code body, ← Nat.add_assoc]
    at hbody hrest
  exact ⟨hbody, hrest⟩

theorem Arms.shows_arms {k : Nat} {condition : Expression} {body : List Statement}
    {more : List (List Ty)}
    (h : T.Shows k (Arms.armProfile (condition.profile Γ []) (Block.profile Γ body) ++ more)) :
    T.Shows (k + condition.size + 4) (Block.profile Γ body) ∧
      T.Shows (k + condition.size + Block.size body + 8) more := by
  have hbody : T.Shows (k + condition.size + 4) (Block.profile Γ body) := by
    have h := h.left.right
    rw [condition.length_profile] at h
    exact h.right.left
  have hmore := h.right
  simp only [Arms.length_armProfile, condition.length_profile, Block.length_profile,
    ← Nat.add_assoc] at hmore
  exact ⟨hbody, hmore⟩

/-- The code of the statement stands at its offset, and uses slots as `F` lays them out. -/
def Fragment.HasStatement (F : Layout) (k : Nat) (code : Fragment) (q : Nat × Statement) : Prop :=
  ∃ l leave, q.2.layout l <+: F ∧ code.Contains k q.1 (q.2.code l leave q.1)

theorem Fragment.HasStatement.of_contains {k o : Nat} {code part : Fragment} {q : Nat × Statement}
    (h : part.HasStatement F o q) (hpart : code.Contains k o part) : code.HasStatement F k q := by
  obtain ⟨l, leave, hl, hq⟩ := h
  exact ⟨l, leave, hl, hpart.trans hq⟩

theorem Arms.contains_arms {k line : Nat} {l : Layout} {leave : Nat → Int} {condition : Expression}
    {body : List Statement} {rest : Fragment} {exit : Int} {code : Fragment}
    (hcode : code = Arms.armCode line (condition.code l.slot)
      (Block.code l leave (k + condition.size + 4) body) exit ++ rest) :
    code.Contains k (k + condition.size + 4) (Block.code l leave (k + condition.size + 4) body) ∧
      code.Contains k (k + condition.size + Block.size body + 8) rest := by
  subst hcode
  constructor
  · have hbody := Fragment.Contains.refl (k + condition.size + 4)
      (Block.code l leave (k + condition.size + 4) body)
    refine .left (.left (.right ?_))
    rw [condition.size_code]
    exact .right (a := [_, _]) hbody
  · have hrest := Fragment.Contains.refl (k + condition.size + Block.size body + 8) rest
    refine Fragment.Contains.right ?_
    rw [Arms.size_armCode, condition.size_code, Block.size_code]
    simpa only [← Nat.add_assoc] using hrest

mutual

theorem Statement.has_starts : ∀ (s : Statement) {l : Layout} {leave : Nat → Int} {k : Nat},
    s.layout l <+: F → ∀ q ∈ s.starts k, (s.code l leave k).HasStatement F k q
  | .assign .., l, leave, k, hl => by
    rintro q (_ | ⟨_, ⟨⟩⟩)
    exact ⟨l, leave, hl, .refl _ _⟩
  | .choice arms closer, l, leave, k, hl => by
    rintro q (_ | ⟨_, hq⟩)
    · exact ⟨l, leave, hl, .refl _ _⟩
    · exact arms.has_starts hl q hq
  | .loop keyword count times body closer, l, leave, k, hl => by
    rintro q (_ | ⟨_, hq⟩)
    · exact ⟨l, leave, hl, .refl _ _⟩
    · have hbody : (Block.code l.addLoop (jumpDistance (k + count.size + Block.size body + 45))
          (k + count.size + 25) body).HasStatement F (k + count.size + 25) q :=
        Block.has_starts body hl q hq
      refine hbody.of_contains (.left (.right ?_))
      rw [Fragment.size_append, count.size_code, Statement.size_loopHead, ← Nat.add_assoc]
      exact .refl _ _
  | .abort token, l, leave, k, hl => by
    rintro q (_ | ⟨_, ⟨⟩⟩)
    exact ⟨l, leave, hl, .refl _ _⟩

theorem Arms.has_starts : ∀ (a : Arms) {l : Layout} {leave done : Nat → Int} {k : Nat},
    a.layout l <+: F → ∀ q ∈ a.starts k, (a.code l leave done k).HasStatement F k q
  | .last _ condition _ body _ alternative, l, leave, done, k, hl => by
    intro q hq
    have hl₁ := (Block.prefix_layout alternative (Block.layout l body)).trans hl
    obtain ⟨hbody, hrest⟩ := Arms.contains_arms (k := k) rfl
    rcases List.mem_append.1 hq with hq | hq
    · exact (Block.has_starts body hl₁ q hq).of_contains hbody
    · exact (Block.has_starts alternative hl q hq).of_contains hrest
  | .elseIf _ condition _ body _ rest, l, leave, done, k, hl => by
    intro q hq
    have hl₁ := (rest.prefix_layout (Block.layout l body)).trans hl
    obtain ⟨hbody, hrest⟩ := Arms.contains_arms (k := k) rfl
    rcases List.mem_append.1 hq with hq | hq
    · exact (Block.has_starts body hl₁ q hq).of_contains hbody
    · exact (rest.has_starts hl q hq).of_contains hrest

theorem Block.has_starts : ∀ (ss : List Statement) {l : Layout} {leave : Nat → Int} {k : Nat},
    Block.layout l ss <+: F → ∀ q ∈ Block.starts k ss, (Block.code l leave k ss).HasStatement F k q
  | [], l, leave, k, hl => nofun
  | s :: ss, l, leave, k, hl => by
    intro q hq
    rcases List.mem_append.1 hq with hq | hq
    · exact (s.has_starts ((Block.prefix_layout ss (s.layout l)).trans hl) q hq).of_contains
        (.left (.refl _ _))
    · have hss : (Block.code (s.layout l) leave (k + s.size) ss).HasStatement F (k + s.size) q :=
        Block.has_starts ss hl q hq
      refine hss.of_contains (.right ?_)
      rw [s.size_code]
      exact .refl _ _

end

theorem Block.hasStatement_starts (ss : List Statement) {l : Layout} {leave : Nat → Int} {k : Nat}
    (hl : Block.layout l ss <+: F) (h : c.Holds k (Block.code l leave k ss)) :
    ∀ q ∈ Block.starts k ss, c.HasStatement F q := by
  intro q hq
  obtain ⟨l', leave', hl', hcontains⟩ := Block.has_starts ss hl q hq
  exact ⟨l', leave', hl', h.of_contains hcontains⟩

mutual

/-- Where a statement begins the stack is empty. -/
theorem Statement.stack_starts : ∀ (s : Statement) {k : Nat}, T.Shows k (s.profile Γ) →
    ∀ q ∈ s.starts k, T.stack q.1 = []
  | .assign target name arrow value, k, h => by
    rintro q (_ | ⟨_, ⟨⟩⟩)
    exact h 0 [] ((Statement.assign target name arrow value).getElem?_profile_zero Γ)
  | .choice arms closer, k, h => by
    rintro q (_ | ⟨_, hq⟩)
    · exact h 0 [] ((Statement.choice arms closer).getElem?_profile_zero Γ)
    · exact arms.stack_starts h q hq
  | .loop keyword count times body closer, k, h => by
    rintro q (_ | ⟨_, hq⟩)
    · exact h 0 [] ((Statement.loop keyword count times body closer).getElem?_profile_zero Γ)
    · have hbody := h.right
      rw [count.length_profile] at hbody
      exact Block.stack_starts body hbody.right.left q hq
  | .abort token, k, h => by
    rintro q (_ | ⟨_, ⟨⟩⟩)
    exact h 0 [] rfl

theorem Arms.stack_starts : ∀ (a : Arms) {k : Nat}, T.Shows k (a.profile Γ) →
    ∀ q ∈ a.starts k, T.stack q.1 = []
  | .last _ condition _ body _ alternative, k, h => by
    intro q hq
    obtain ⟨hbody, hrest⟩ := Arms.shows_arms h
    rcases List.mem_append.1 hq with hq | hq
    · exact Block.stack_starts body hbody q hq
    · exact Block.stack_starts alternative hrest q hq
  | .elseIf _ condition _ body _ rest, k, h => by
    intro q hq
    obtain ⟨hbody, hrest⟩ := Arms.shows_arms h
    rcases List.mem_append.1 hq with hq | hq
    · exact Block.stack_starts body hbody q hq
    · exact rest.stack_starts hrest q hq

theorem Block.stack_starts : ∀ (ss : List Statement) {k : Nat}, T.Shows k (Block.profile Γ ss) →
    ∀ q ∈ Block.starts k ss, T.stack q.1 = []
  | [], k, h => by
    rintro q ⟨⟩
  | s :: ss, k, h => by
    intro q hq
    have hrest := h.right
    rw [s.length_profile] at hrest
    rcases List.mem_append.1 hq with hq | hq
    · exact s.stack_starts h.left q hq
    · exact Block.stack_starts ss hrest q hq

end

end Starts

end BoundedLoop
