import BoundedLoop.Proofs.Codegen.Fragment

/-!
# The code of a tree

`Statement.code` is the code of a statement: what is written for it, with all its jumps led to where
they go. It depends on the layout of the slots in front of the statement, and on the offset at which
it begins.

The jump of an `ABORT LOOP` depends on where its loop ends, and the jumps that leave the arms of an
`IF` on where the `IF` ends; `leave` and `done` give their distances by their offsets. As long as
these are not known the jumps are holes of distance -1, and `Chunk.land` fills the holes at given
offsets (`Block.land_aborts`, `Arms.land_exits`).
-/

namespace BoundedLoop

/-! ### Layouts -/

mutual

/-- The layout behind a statement. -/
def Statement.layout (l : Layout) : Statement → Layout
  | .assign _ name _ _ => l.add name
  | .choice arms _ => arms.layout l
  | .loop _ _ _ body _ => Block.layout l.addLoop body
  | .abort _ => l

def Arms.layout (l : Layout) : Arms → Layout
  | .last _ _ _ body _ alternative => Block.layout (Block.layout l body) alternative
  | .elseIf _ _ _ body _ rest => rest.layout (Block.layout l body)

def Block.layout (l : Layout) : List Statement → Layout
  | [] => l
  | s :: ss => Block.layout (s.layout l) ss

end

def Program.layout (p : Program) : Layout := Block.layout .initial p

mutual

theorem Statement.prefix_layout : ∀ (s : Statement) (l : Layout), l <+: s.layout l
  | .assign _ name _ _, l => l.prefix_add name
  | .choice arms _, l => arms.prefix_layout l
  | .loop _ _ _ body _, l => l.prefix_addLoop.trans (Block.prefix_layout body l.addLoop)
  | .abort _, _ => List.prefix_rfl

theorem Arms.prefix_layout : ∀ (a : Arms) (l : Layout), l <+: a.layout l
  | .last _ _ _ body _ alternative, l =>
    (Block.prefix_layout body l).trans (Block.prefix_layout alternative _)
  | .elseIf _ _ _ body _ rest, l => (Block.prefix_layout body l).trans (rest.prefix_layout _)

theorem Block.prefix_layout : ∀ (ss : List Statement) (l : Layout), l <+: Block.layout l ss
  | [], _ => List.prefix_rfl
  | s :: ss, l => (s.prefix_layout l).trans (Block.prefix_layout ss _)

end

/-! ### Expressions -/

/-- The instructions of an operator that follow the code of both operands. -/
def BinaryOp.instructions : BinaryOp → List Instruction
  | or | and => []
  | equal => [.equal]
  | less => [.less]
  | lessEqual => [.greater, .not]
  | greater => [.greater]
  | greaterEqual => [.less, .not]
  | plus => [.add]
  | star => [.multiply]

/-- The code that follows that of the left operand. `and` and `or` jump over `right`, the code of
the right operand, if the left one decides. -/
def BinaryOp.code (op : BinaryOp) (line : Nat) (right : Fragment) : Fragment :=
  match op with
  | or =>
    .jump .ifFalse 3 line :: .jump .always (right.size + 1) line :: .op .pop line :: right
  | and => .jump .ifFalse (right.size + 1) line :: .op .pop line :: right
  | _ => right ++ op.instructions.map (.op · line)

/-- The code of an expression, for variables in the given slots. -/
def Expression.code (slot : String → UInt8) : Expression → Fragment
  | constant t v => [.op (.push v) t.line]
  | reference t name => [.op (.load (slot name)) t.line]
  | group _ e _ => e.code slot
  | negation t e => e.code slot ++ [.op .not t.line]
  | binary l t op r => l.code slot ++ op.code t.line (r.code slot)

/-- The variables that an expression reads, from left to right. -/
def Expression.reads : Expression → List String
  | constant _ _ => []
  | reference _ name => [name]
  | group _ e _ => e.reads
  | negation _ e => e.reads
  | binary l _ _ r => l.reads ++ r.reads

/-- The number of bytes of the code of an expression. -/
def Expression.size (e : Expression) : Nat := (e.code fun _ => 0).size

theorem BinaryOp.size_code_congr (op : BinaryOp) {line : Nat} {a b : Fragment}
    (h : a.size = b.size) : (op.code line a).size = (op.code line b).size := by
  cases op <;> simp [code, h]

theorem Expression.size_code (slot : String → UInt8) (e : Expression) :
    (e.code slot).size = e.size := by
  unfold size
  induction e with
  | constant t v => rfl
  | reference t name => rfl
  | group opening e closing ih => exact ih
  | negation t e ih => simp only [code, Fragment.size_append, ih]
  | binary l t op r ihl ihr =>
    simp only [code, Fragment.size_append, ihl, op.size_code_congr ihr]

/-! ### Statements -/

mutual

/-- The number of bytes of the code of a statement. -/
def Statement.size : Statement → Nat
  | .assign _ _ _ value => value.size + 3
  | .choice arms _ => arms.size
  | .loop _ count _ body _ => count.size + Block.size body + 45
  | .abort _ => 3

def Arms.size : Arms → Nat
  | .last _ condition _ body _ alternative =>
    condition.size + Block.size body + Block.size alternative + 8
  | .elseIf _ condition _ body _ rest => condition.size + Block.size body + rest.size + 8

def Block.size : List Statement → Nat
  | [] => 0
  | s :: ss => s.size + Block.size ss

end

/-- The distance of a jump at `offset` to `target`. -/
def jumpDistance (target offset : Nat) : Int := (target : Int) - ((offset + 3 : Nat) : Int)

/-- The distance of all jumps whose target is not known. -/
def hole (_ : Nat) : Int := -1

/-- The code of an arm, up to where the next one begins. -/
def Arms.armCode (line : Nat) (condition body : Fragment) (exit : Int) : Fragment :=
  condition ++ .jump .ifFalse (body.size + 4) line :: .op .pop line :: body ++
    [.jump .always exit line, .op .pop line]

/-- The code that stores the count and the counter of a loop. -/
def Statement.loopInit (l : Layout) (line : Nat) : Fragment :=
  [.op (.store l.boundSlot) line, .op .pop line, .op (.push (.number 0)) line,
    .op (.store l.counterSlot) line, .op .pop line]

/-- The code that compares the counter of a loop with its count. -/
def Statement.loopTest (l : Layout) (line : Nat) : Fragment :=
  [.op (.load l.counterSlot) line, .op (.load l.boundSlot) line, .op .less line]

/-- The code between the count and the body of a loop. -/
def Statement.loopHead (l : Layout) (line : Nat) (exit : Int) : Fragment :=
  loopInit l line ++ loopTest l line ++ [.jump .ifFalse exit line, .op .pop line]

/-- The code that increments the counter of a loop. -/
def Statement.loopStep (l : Layout) (line : Nat) : Fragment :=
  [.op (.load l.counterSlot) line, .op (.push (.number 1)) line, .op .add line,
    .op (.store l.counterSlot) line, .op .pop line]

/-- The code behind the body of a loop: the counter is incremented, then comes the jump back. -/
def Statement.loopFoot (l : Layout) (line : Nat) (back : Int) : Fragment :=
  loopStep l line ++ [.jump .always back line, .op .pop line]

mutual

/-- The code of a statement that begins at `offset`. `leave` gives the distance of a jump out of the
innermost loop. -/
def Statement.code (l : Layout) (leave : Nat → Int) (offset : Nat) : Statement → Fragment
  | .assign target name _ value =>
    value.code (l.add name).slot ++
      [.op (.store ((l.add name).slot name)) target.line, .op .pop target.line]
  | .choice arms _ => arms.code l leave (jumpDistance (offset + arms.size)) offset
  | .loop keyword count _ body closer =>
    count.code l.slot ++ Statement.loopHead l keyword.line (Block.size body + 20) ++
      Block.code l.addLoop (jumpDistance (offset + count.size + Block.size body + 45))
        (offset + count.size + 25) body ++
      Statement.loopFoot l closer.line (-(Block.size body + 28))
  | .abort token => [.jump .always (leave offset) token.line]

/-- The code of arms. `done` gives the distance of a jump out of them. -/
def Arms.code (l : Layout) (leave done : Nat → Int) (offset : Nat) : Arms → Fragment
  | .last keyword condition _ body _ alternative =>
    Arms.armCode keyword.line (condition.code l.slot)
        (Block.code l leave (offset + condition.size + 4) body)
        (done (offset + condition.size + Block.size body + 4)) ++
      Block.code (Block.layout l body) leave (offset + condition.size + Block.size body + 8)
        alternative
  | .elseIf keyword condition _ body _ rest =>
    Arms.armCode keyword.line (condition.code l.slot)
        (Block.code l leave (offset + condition.size + 4) body)
        (done (offset + condition.size + Block.size body + 4)) ++
      rest.code (Block.layout l body) leave done (offset + condition.size + Block.size body + 8)

def Block.code (l : Layout) (leave : Nat → Int) (offset : Nat) : List Statement → Fragment
  | [] => []
  | s :: ss => s.code l leave offset ++ Block.code (s.layout l) leave (offset + s.size) ss

end

def Program.code (p : Program) : Fragment := Block.code .initial hole 0 p

theorem Arms.size_armCode (line : Nat) (condition body : Fragment) (exit : Int) :
    (Arms.armCode line condition body exit).size = condition.size + body.size + 8 := by
  simp [Arms.armCode]
  omega

@[simp] theorem Statement.size_loopInit (l : Layout) (line : Nat) :
    (Statement.loopInit l line).size = 16 := rfl

@[simp] theorem Statement.fits_loopInit (l : Layout) (line : Nat) :
    (Statement.loopInit l line).Fits := by
  simp [Statement.loopInit]

@[simp] theorem Statement.size_loopTest (l : Layout) (line : Nat) :
    (Statement.loopTest l line).size = 5 := rfl

@[simp] theorem Statement.fits_loopTest (l : Layout) (line : Nat) :
    (Statement.loopTest l line).Fits := by
  simp [Statement.loopTest]

@[simp] theorem Statement.size_loopStep (l : Layout) (line : Nat) :
    (Statement.loopStep l line).size = 16 := rfl

@[simp] theorem Statement.fits_loopStep (l : Layout) (line : Nat) :
    (Statement.loopStep l line).Fits := by
  simp [Statement.loopStep]

@[simp] theorem Statement.size_loopHead (l : Layout) (line : Nat) (exit : Int) :
    (Statement.loopHead l line exit).size = 25 := by
  simp [Statement.loopHead]

@[simp] theorem Statement.size_loopFoot (l : Layout) (line : Nat) (back : Int) :
    (Statement.loopFoot l line back).size = 20 := by
  simp [Statement.loopFoot]

mutual

theorem Statement.size_code : ∀ (s : Statement) (l : Layout) (leave : Nat → Int) (offset : Nat),
    (s.code l leave offset).size = s.size
  | .assign target name arrow value, l, leave, offset => by
    simp [Statement.code, Statement.size, value.size_code]
  | .choice arms closer, l, leave, offset => arms.size_code l leave _ offset
  | .loop keyword count times body closer, l, leave, offset => by
    have hbody := Block.size_code body l.addLoop
      (jumpDistance (offset + count.size + Block.size body + 45)) (offset + count.size + 25)
    simp only [Statement.code, Statement.size, Fragment.size_append, count.size_code, hbody,
      Statement.size_loopHead, Statement.size_loopFoot]
    omega
  | .abort token, l, leave, offset => by
    simp [Statement.code, Statement.size]

theorem Arms.size_code : ∀ (a : Arms) (l : Layout) (leave done : Nat → Int) (offset : Nat),
    (a.code l leave done offset).size = a.size
  | .last keyword condition thenWord body elseWord alternative, l, leave, done, offset => by
    simp only [Arms.code, Arms.size, Fragment.size_append, Arms.size_armCode,
      condition.size_code, Block.size_code body, Block.size_code alternative]
    omega
  | .elseIf keyword condition thenWord body elseWord rest, l, leave, done, offset => by
    simp only [Arms.code, Arms.size, Fragment.size_append, Arms.size_armCode,
      condition.size_code, Block.size_code body, rest.size_code]
    omega

theorem Block.size_code : ∀ (ss : List Statement) (l : Layout) (leave : Nat → Int) (offset : Nat),
    (Block.code l leave offset ss).size = Block.size ss
  | [], _, _, _ => rfl
  | s :: ss, l, leave, offset => by
    simp only [Block.code, Block.size, Fragment.size_append, s.size_code, Block.size_code ss]

end

/-! ### Filling holes -/

mutual

/-- The offsets of the jumps that leave the innermost loop around a statement. -/
def Statement.aborts (offset : Nat) : Statement → List Nat
  | .assign .. => []
  | .choice arms _ => arms.aborts offset
  | .loop .. => []
  | .abort _ => [offset]

def Arms.aborts (offset : Nat) : Arms → List Nat
  | .last _ condition _ body _ alternative =>
    Block.aborts (offset + condition.size + 4) body ++
      Block.aborts (offset + condition.size + Block.size body + 8) alternative
  | .elseIf _ condition _ body _ rest =>
    Block.aborts (offset + condition.size + 4) body ++
      rest.aborts (offset + condition.size + Block.size body + 8)

def Block.aborts (offset : Nat) : List Statement → List Nat
  | [] => []
  | s :: ss => s.aborts offset ++ Block.aborts (offset + s.size) ss

end

/-- The offsets of the jumps that leave the arms of an `IF`. -/
def Arms.exits (offset : Nat) : Arms → List Nat
  | .last _ condition _ body _ _ => [offset + condition.size + Block.size body + 4]
  | .elseIf _ condition _ body _ rest =>
    (offset + condition.size + Block.size body + 4) ::
      rest.exits (offset + condition.size + Block.size body + 8)

/-- Leads the jumps at `offsets` to `stop`. -/
def Chunk.land (stop : Nat) (offsets : List Nat) (c : Chunk) : Chunk :=
  offsets.foldl (fun c k => c.setDistance ⟨k + 1⟩ (Int16.ofInt (jumpDistance stop k))) c

theorem Chunk.land_append (stop : Nat) (ks ks' : List Nat) (c : Chunk) :
    c.land stop (ks ++ ks') = (c.land stop ks).land stop ks' := by
  simp [land]

theorem Chunk.land_cons (stop k : Nat) (ks : List Nat) (c : Chunk) :
    c.land stop (k :: ks) = (c.land stop [k]).land stop ks := rfl

theorem Chunk.land_singleton (stop k : Nat) (c : Chunk) (a b : Fragment) (branch : Branch) (d : Int)
    (line : Nat) (hk : k = c.size + a.size) :
    (c.append (a ++ .jump branch d line :: b)).land stop [k] =
      c.append (a ++ .jump branch (jumpDistance stop k) line :: b) := by
  subst hk
  exact setDistance_append c a b branch d _ line

theorem Block.size_code_congr (ss : List Statement) (l : Layout) (leave leave' : Nat → Int)
    (k : Nat) : (Block.code l leave k ss).size = (Block.code l leave' k ss).size := by
  rw [Block.size_code, Block.size_code]

/-- Filling holes in the body of an arm and in what follows the arm. -/
theorem Chunk.land_arm {stop line : Nat} {c : Chunk} {a b condition body body' rest rest' : Fragment}
    {exit : Int} {js js' : List Nat} (hsize : body.size = body'.size)
    (hbody : ∀ b, (c.append (a ++ (condition ++
        [.jump .ifFalse (body.size + 4) line, .op .pop line]) ++ body ++ b)).land stop js =
      c.append (a ++ (condition ++
        [.jump .ifFalse (body.size + 4) line, .op .pop line]) ++ body' ++ b))
    (hrest : (c.append (a ++ Arms.armCode line condition body' exit ++ rest ++ b)).land stop js' =
      c.append (a ++ Arms.armCode line condition body' exit ++ rest' ++ b)) :
    (c.append (a ++ (Arms.armCode line condition body exit ++ rest) ++ b)).land stop (js ++ js') =
      c.append (a ++ (Arms.armCode line condition body' exit ++ rest') ++ b) := by
  simp only [Arms.armCode, hsize, List.append_assoc, List.cons_append, List.nil_append]
    at hbody hrest ⊢
  rw [Chunk.land_append, hbody, hrest]

/-- Filling the hole of the jump out of an arm. -/
theorem Chunk.land_exit (stop line : Nat) (c : Chunk) (a b condition body rest : Fragment) (d : Int)
    {k : Nat} (hk : k = c.size + a.size + condition.size + body.size + 4) :
    (c.append (a ++ (Arms.armCode line condition body d ++ rest) ++ b)).land stop [k] =
      c.append (a ++ (Arms.armCode line condition body (jumpDistance stop k) ++ rest) ++ b) := by
  have h := Chunk.land_singleton stop k c
    (a ++ condition ++ .jump .ifFalse (body.size + 4) line :: .op .pop line :: body)
    (.op .pop line :: (rest ++ b)) .always d line
    (by simp only [Fragment.size_append, Fragment.size_cons_jump, Fragment.size_cons_op,
          Instruction.size_pop]; omega)
  simpa only [Arms.armCode, List.append_assoc, List.cons_append, List.nil_append] using h

mutual

theorem Statement.land_aborts : ∀ (s : Statement) (l : Layout) (stop k : Nat) (c : Chunk)
    (a b : Fragment), k = c.size + a.size →
    (c.append (a ++ s.code l hole k ++ b)).land stop (s.aborts k) =
      c.append (a ++ s.code l (jumpDistance stop) k ++ b)
  | .assign .., _, _, _, _, _, _, _ => rfl
  | .choice arms closer, l, stop, k, c, a, b, hk => arms.land_aborts l _ stop k c a b hk
  | .loop .., _, _, _, _, _, _, _ => rfl
  | .abort token, l, stop, k, c, a, b, hk => by
    simpa [Statement.code, Statement.aborts] using
      Chunk.land_singleton stop k c a b .always (hole k) token.line hk

theorem Arms.land_aborts : ∀ (arms : Arms) (l : Layout) (done : Nat → Int) (stop k : Nat)
    (c : Chunk) (a b : Fragment), k = c.size + a.size →
    (c.append (a ++ arms.code l hole done k ++ b)).land stop (arms.aborts k) =
      c.append (a ++ arms.code l (jumpDistance stop) done k ++ b)
  | .last keyword condition thenWord body elseWord alternative, l, done, stop, k, c, a, b, hk => by
    refine Chunk.land_arm (Block.size_code_congr body l _ _ _) (fun b => ?_) ?_
    · exact Block.land_aborts body l stop (k + condition.size + 4) c _ b
        (by simp [condition.size_code]; omega)
    · exact Block.land_aborts alternative (Block.layout l body) stop _ c _ b
        (by simp only [Fragment.size_append, Arms.size_armCode, condition.size_code,
              Block.size_code body]; omega)
  | .elseIf keyword condition thenWord body elseWord rest, l, done, stop, k, c, a, b, hk => by
    refine Chunk.land_arm (Block.size_code_congr body l _ _ _) (fun b => ?_) ?_
    · exact Block.land_aborts body l stop (k + condition.size + 4) c _ b
        (by simp [condition.size_code]; omega)
    · exact rest.land_aborts (Block.layout l body) done stop _ c _ b
        (by simp only [Fragment.size_append, Arms.size_armCode, condition.size_code,
              Block.size_code body]; omega)

/-- Once it is known where the loop ends, all its aborts can be led there. -/
theorem Block.land_aborts : ∀ (ss : List Statement) (l : Layout) (stop k : Nat) (c : Chunk)
    (a b : Fragment), k = c.size + a.size →
    (c.append (a ++ Block.code l hole k ss ++ b)).land stop (Block.aborts k ss) =
      c.append (a ++ Block.code l (jumpDistance stop) k ss ++ b)
  | [], _, _, _, _, _, _, _ => rfl
  | s :: ss, l, stop, k, c, a, b, hk => by
    have hs := s.land_aborts l stop k c a (Block.code (s.layout l) hole (k + s.size) ss ++ b) hk
    have hss := Block.land_aborts ss (s.layout l) stop (k + s.size) c
      (a ++ s.code l (jumpDistance stop) k) b
      (by simp only [Fragment.size_append, s.size_code]; omega)
    simp only [List.append_assoc] at hs hss
    simp only [Block.code, Block.aborts, Chunk.land_append, List.append_assoc]
    rw [hs, hss]

end

/-- Once it is known where an `IF` ends, its arms can be left for there. -/
theorem Arms.land_exits : ∀ (arms : Arms) (l : Layout) (leave : Nat → Int) (stop k : Nat)
    (c : Chunk) (a b : Fragment), k = c.size + a.size →
    (c.append (a ++ arms.code l leave hole k ++ b)).land stop (arms.exits k) =
      c.append (a ++ arms.code l leave (jumpDistance stop) k ++ b)
  | .last keyword condition thenWord body elseWord alternative, l, leave, stop, k, c, a, b, hk =>
    Chunk.land_exit stop keyword.line c a b _ _ _ _
      (by rw [condition.size_code, Block.size_code]; omega)
  | .elseIf keyword condition thenWord body elseWord rest, l, leave, stop, k, c, a, b, hk => by
    have hexit := Chunk.land_exit stop keyword.line c a b (condition.code l.slot)
      (Block.code l leave (k + condition.size + 4) body)
      (rest.code (Block.layout l body) leave hole (k + condition.size + Block.size body + 8))
      (hole (k + condition.size + Block.size body + 4))
      (k := k + condition.size + Block.size body + 4)
      (by rw [condition.size_code, Block.size_code]; omega)
    have hrest := rest.land_exits (Block.layout l body) leave stop
      (k + condition.size + Block.size body + 8) c
      (a ++ Arms.armCode keyword.line (condition.code l.slot)
        (Block.code l leave (k + condition.size + 4) body)
        (jumpDistance stop (k + condition.size + Block.size body + 4))) b
      (by simp only [Fragment.size_append, Arms.size_armCode, condition.size_code,
            Block.size_code body]; omega)
    rw [Arms.code, Arms.code, Arms.exits, Chunk.land_cons, hexit, ← List.append_assoc a, hrest,
      List.append_assoc a]

mutual

theorem Statement.fits_code_iff : ∀ (s : Statement) (l : Layout) (stop k : Nat),
    (s.code l (jumpDistance stop) k).Fits ↔
      (s.code l hole k).Fits ∧ ∀ j ∈ s.aborts k, FitsJump (jumpDistance stop j)
  | .assign .., _, _, _ => by simp [Statement.code, Statement.aborts]
  | .choice arms closer, l, stop, k => arms.fits_code_iff l _ stop k
  | .loop .., _, _, _ => by simp [Statement.code, Statement.aborts]
  | .abort token, l, stop, k => by simp [Statement.code, Statement.aborts, hole, FitsJump]

theorem Arms.fits_code_iff : ∀ (arms : Arms) (l : Layout) (done : Nat → Int) (stop k : Nat),
    (arms.code l (jumpDistance stop) done k).Fits ↔
      (arms.code l hole done k).Fits ∧ ∀ j ∈ arms.aborts k, FitsJump (jumpDistance stop j)
  | .last keyword condition thenWord body elseWord alternative, l, done, stop, k => by
    simp only [Arms.code, Arms.armCode, Arms.aborts, Fragment.fits_append, Fragment.fits_cons_jump,
      Fragment.fits_cons_op, Block.size_code body, Block.fits_code_iff body,
      Block.fits_code_iff alternative, List.forall_mem_append]
    tauto
  | .elseIf keyword condition thenWord body elseWord rest, l, done, stop, k => by
    simp only [Arms.code, Arms.armCode, Arms.aborts, Fragment.fits_append, Fragment.fits_cons_jump,
      Fragment.fits_cons_op, Block.size_code body, Block.fits_code_iff body, rest.fits_code_iff,
      List.forall_mem_append]
    tauto

theorem Block.fits_code_iff : ∀ (ss : List Statement) (l : Layout) (stop k : Nat),
    (Block.code l (jumpDistance stop) k ss).Fits ↔
      (Block.code l hole k ss).Fits ∧ ∀ j ∈ Block.aborts k ss, FitsJump (jumpDistance stop j)
  | [], _, _, _ => by simp [Block.code, Block.aborts]
  | s :: ss, l, stop, k => by
    simp only [Block.code, Block.aborts, Fragment.fits_append, s.fits_code_iff,
      Block.fits_code_iff ss, List.forall_mem_append]
    tauto

end

theorem Arms.fits_exits_iff : ∀ (arms : Arms) (l : Layout) (leave : Nat → Int) (stop k : Nat),
    (arms.code l leave (jumpDistance stop) k).Fits ↔
      (arms.code l leave hole k).Fits ∧ ∀ j ∈ arms.exits k, FitsJump (jumpDistance stop j)
  | .last keyword condition thenWord body elseWord alternative, l, leave, stop, k => by
    simp only [Arms.code, Arms.armCode, Arms.exits, Fragment.fits_append, Fragment.fits_cons_jump,
      Fragment.fits_cons_op, Fragment.fits_nil, List.forall_mem_singleton, hole]
    have : FitsJump (-1) := by decide
    tauto
  | .elseIf keyword condition thenWord body elseWord rest, l, leave, stop, k => by
    simp only [Arms.code, Arms.armCode, Arms.exits, Fragment.fits_append, Fragment.fits_cons_jump,
      Fragment.fits_cons_op, Fragment.fits_nil, List.forall_mem_cons, rest.fits_exits_iff, hole]
    have : FitsJump (-1) := by decide
    tauto

end BoundedLoop
