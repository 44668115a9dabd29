import BoundedLoop.Proofs.Recovery.Reading

/-!
# Statements with blocks

An `IF` or a `LOOP` whose tokens are well nested is compiled up to its own closer, or fails at a place
from which skipping leads right behind that closer (`CompileM.endsCompound_ifStatement`,
`CompileM.endsCompound_loopStatement`). There is one exception: a jump can turn out to be too long when the
closer has been read already, and skipping then begins behind the statement (`FailsBefore`).

All this rests on the blocks inside being compiled up to their closers (`ClosesBlocks`).
-/

namespace BoundedLoop

namespace Draft

variable {d d' : Draft}

theorem next_eq {t : Token} {ts : List Token} (hahead : d.ahead = t :: ts) : d.next = t := by
  rw [next, hahead]
  rfl

/-- The draft stands in front of well-nested tokens, which are followed by `tail`. Outside of all loops
an `ABORT LOOP` may be complained about if it stands in no loop. -/
structure Faces (known free : Token → Prop) (d : Draft) (ns : List Nest) (tail : List Token) :
    Prop where
  sound : d.Sound known
  nested : Nests.WellNested ns
  ahead : d.ahead = Nests.tokens ns ++ tail
  aborts : d.loops = [] → ∀ t ∈ Nests.free ns, free t

variable {known free : Token → Prop} {E : Diagnostic → Prop} {ns : List Nest} {tail : List Token}

theorem Follows.loops_eq_nil (h : d.Follows E d') (hloops : d'.loops = []) : d.loops = [] := by
  have hlength := h.loops
  rw [hloops] at hlength
  exact List.eq_nil_of_length_eq_zero hlength.symm

theorem Follows.of_ahead {ts : List Token} (h : Follows E { d with ahead := ts } d') :
    d.Follows E d' :=
  ⟨h.finish, h.depth, h.loops, h.found⟩

theorem Sound.of_cons {t : Token} {ts : List Token} (h : d.Sound known) (hahead : d.ahead = t :: ts) :
    Sound known { d with ahead := ts } :=
  ⟨h.finish, fun t' ht' => h.ahead t' (by rw [hahead]; exact List.mem_cons_of_mem _ ht')⟩

/-- Behind some of the nests the draft faces the other ones. -/
theorem Faces.behind {used : List Nest} (h : d.Faces known free (used ++ ns) tail)
    (hfollows : d.Follows E d') (hahead : d'.ahead = Nests.tokens ns ++ tail) :
    d'.Faces known free ns tail := by
  refine ⟨⟨by rw [hfollows.finish, h.sound.finish], fun t ht => h.sound.ahead t ?_⟩,
    (Nests.wellNested_append.1 h.nested).2, hahead, fun hloops t ht => ?_⟩
  · rw [h.ahead, Nests.tokens_append, List.append_assoc, ← hahead]
    exact List.mem_append_right _ ht
  · refine h.aborts (hfollows.loops_eq_nil hloops) t ?_
    rw [Nests.free_append]
    exact List.mem_append_right _ ht

/-- Plain tokens that are read are nests of their own. -/
theorem Faces.reads (h : d.Faces known free ns tail) (htail : EndsPlain tail)
    (hread : d.ReadsTo (·.kind.isPlain = true) E d') :
    ∃ used ns', ns = List.map Nest.plain used ++ ns' ∧ d.ahead = used ++ d'.ahead ∧
      d'.Faces known free ns' tail := by
  obtain ⟨used, hused, hplain⟩ := hread.ahead
  obtain ⟨ns', rfl, hrest⟩ :=
    Nests.exists_of_read h.nested htail hplain (h.ahead.symm.trans hused)
  exact ⟨used, ns', rfl, hused, h.behind hread.toFollows hrest⟩

end Draft

theorem BeginsWithCloser.endsPlain {ts : List Token} (h : BeginsWithCloser ts) : EndsPlain ts := by
  obtain ⟨t, rest, rfl, hc⟩ := h
  intro t' ht'
  cases ht'
  exact Token.Kind.isPlain_of_closesBlock hc

theorem Branches.WellNested.beginsWithCloser {more : Branches} (h : more.WellNested) {closer : Token}
    (hcloser : closer.kind = .keyword .endIf) (rest : List Token) :
    BeginsWithCloser (more.tokens ++ closer :: rest) := by
  cases more with
  | none => exact .cons hcloser rfl rest
  | otherwise elseWord body => exact .cons h.1 rfl _
  | elseIf elseWord keyword body more => exact .cons h.1 rfl _

namespace CompileM

/-! ### The parts of compound statements -/

/-- Compiles the condition of an arm, and gives the jump over its body. -/
def openArm (keyword : Token) : CompileM Chunk.Label := do
  condition keyword
  let skip ← reserve .ifFalse keyword.line
  emit .pop keyword.line
  return skip

/-- Compiles what stands behind the body of an arm, and gives the jump out of it. -/
def closeArm (keyword : Token) (skip : Chunk.Label) : CompileM Chunk.Label := do
  let exit ← reserve .always keyword.line
  patch keyword.toSite skip
  emit .pop keyword.line
  return exit

/-- Compiles what follows the exit of an arm. -/
def moreBranches (block : CompileM Unit) (bound : Nat) (exit : Chunk.Label) :
    CompileM (List Chunk.Label) := do
  if ← accept (.keyword .elseWord) then
    let follower ← peek
    if ← accept (.keyword .ifWord) then
      let exits ← branches block bound follower
      return exit :: exits
    else
      block
      return [exit]
  else
    return [exit]

theorem branches_succ (block : CompileM Unit) (bound : Nat) (keyword : Token) :
    branches block (bound + 1) keyword = (do
      let skip ← openArm keyword
      block
      let exit ← closeArm keyword skip
      moreBranches block bound exit) := by
  simp only [branches, openArm, closeArm, moreBranches, bind_assoc, pure_bind]

/-- Compiles what stands in front of the body of a loop, and gives its counter, its test and the jump
behind it. -/
def openLoop (keyword : Token) : CompileM (UInt8 × Nat × Chunk.Label) := do
  loopBound
  let bound ← takeSlot keyword.toSite
  let counter ← takeSlot keyword.toSite
  emit (.store bound) keyword.line
  emit .pop keyword.line
  emit (.push (.number 0)) keyword.line
  emit (.store counter) keyword.line
  emit .pop keyword.line
  let test := (← get).chunk.size
  emit (.load counter) keyword.line
  emit (.load bound) keyword.line
  emit .less keyword.line
  let exit ← reserve .ifFalse keyword.line
  emit .pop keyword.line
  return (counter, test, exit)

/-- Compiles what stands behind the body of a loop. -/
def closeLoop (keyword closer : Token) (head : UInt8 × Nat × Chunk.Label) : CompileM Unit := do
  emit (.load head.1) closer.line
  emit (.push (.number 1)) closer.line
  emit .add closer.line
  emit (.store head.1) closer.line
  emit .pop closer.line
  jumpBack keyword.toSite head.2.1 closer.line
  patch keyword.toSite head.2.2
  emit .pop closer.line

theorem loopStatement_eq (block : CompileM Unit) (keyword : Token) :
    loopStatement block keyword = (do
      openStatement
      let head ← openLoop keyword
      enterLoop
      block
      let closer ← peek
      expect (.keyword .endLoop) .endLoop
      closeStatement
      closeLoop keyword closer head
      let aborts ← leaveLoop
      aborts.forM (patch keyword.toSite)) := by
  simp only [loopStatement, openLoop, closeLoop, bind_assoc, pure_bind]

section Parts

variable {α : Type}

/-- The computation reads nothing, and fails only because a jump is too long. -/
abbrev Writes (m : CompileM α) : Prop :=
  Reads (fun _ => False) (fun _ => True) (·.code = .blockIsTooLarge) m

theorem readsPlain_openArm (known free : Token → Prop) (keyword : Token) :
    ReadsPlain known free (openArm keyword) :=
  .bind (readsPlain_condition keyword) fun _ => .bind (.reserve _ _) fun _ =>
    .bind (.emit _ _) fun _ => .pure _

theorem writes_closeArm (keyword : Token) (skip : Chunk.Label) : Writes (closeArm keyword skip) :=
  .bind (.reserve _ _) fun _ => .bind (.patch (fun _ he => he) _ _) fun _ =>
    .bind (.emit _ _) fun _ => .pure _

theorem readsPlain_openLoop (known free : Token → Prop) (keyword : Token) :
    ReadsPlain known free (openLoop keyword) :=
  .bind readsPlain_loopBound fun _ => .bind (readsPlain_takeSlot _) fun _ =>
    .bind (readsPlain_takeSlot _) fun _ => .bind (.emit _ _) fun _ => .bind (.emit _ _) fun _ =>
    .bind (.emit _ _) fun _ => .bind (.emit _ _) fun _ => .bind (.emit _ _) fun _ =>
    .bind .get fun _ => .bind (.emit _ _) fun _ => .bind (.emit _ _) fun _ =>
    .bind (.emit _ _) fun _ => .bind (.reserve _ _) fun _ => .bind (.emit _ _) fun _ => .pure _

theorem writes_closeLoop (keyword closer : Token) (head : UInt8 × Nat × Chunk.Label) :
    Writes (closeLoop keyword closer head) :=
  .bind (.emit _ _) fun _ => .bind (.emit _ _) fun _ => .bind (.emit _ _) fun _ =>
    .bind (.emit _ _) fun _ => .bind (.emit _ _) fun _ =>
    .bind (.jumpBack (fun _ he => he) _ _ _) fun _ => .bind (.patch (fun _ he => he) _ _) fun _ =>
    .emit _ _

theorem writes_forM_patch (site : Site) (labels : List Chunk.Label) :
    Writes (labels.forM (patch site)) :=
  .forM (fun _ => .patch (fun _ he => he) _ _) labels

end Parts

/-! ### Tokens that are sure to come -/

section Next

variable {α : Type} {d : Draft} {t : Token} {ts : List Token} {kind : Token.Kind}
  {ok : α → Draft → Prop} {error : Diagnostic → Draft → Prop}

theorem ends_advance {f : PUnit → CompileM α} (hahead : d.ahead = t :: ts)
    (hf : Ends (f ⟨⟩) { d with ahead := ts } ok error) : Ends (advance >>= f) d ok error := by
  show Ends (f ⟨⟩) { d with ahead := d.ahead.tail } ok error
  rw [hahead]
  exact hf

theorem ends_expect_bind {wanted : Expectation} {f : PUnit → CompileM α}
    (hahead : d.ahead = t :: ts) (ht : t.kind = kind)
    (hf : Ends (f ⟨⟩) { d with ahead := ts } ok error) :
    Ends (expect kind wanted >>= f) d ok error := by
  show Ends ((if d.next.kind = kind then advance else missing wanted d.next) >>= f) d ok error
  rw [Draft.next_eq hahead, if_pos ht]
  exact ends_advance hahead hf

theorem ends_accept_bind {f : Bool → CompileM α} (hahead : d.ahead = t :: ts) (ht : t.kind = kind)
    (hf : Ends (f true) { d with ahead := ts } ok error) : Ends (accept kind >>= f) d ok error := by
  show Ends ((if d.next.kind = kind then advance >>= fun _ => pure true else pure false) >>= f) d
    ok error
  rw [Draft.next_eq hahead, if_pos ht, bind_assoc]
  exact ends_advance hahead hf

theorem ends_accept_bind_of_ne {f : Bool → CompileM α} (hahead : d.ahead = t :: ts)
    (ht : t.kind ≠ kind) (hf : Ends (f false) d ok error) : Ends (accept kind >>= f) d ok error := by
  show Ends ((if d.next.kind = kind then advance >>= fun _ => pure true else pure false) >>= f) d
    ok error
  rw [Draft.next_eq hahead, if_neg ht]
  exact hf

end Next

/-! ### Blocks of nests -/

section Blocks

variable {known free : Token → Prop} {bound : Nat} {d d' : Draft} {rest : List Token}
  {closer : Token}

/-- Compiling a block of well-nested tokens ends in front of its closer. -/
def ClosesBlocks (known free : Token → Prop) (bound : Nat) : Prop :=
  ∀ ⦃d : Draft⦄ ⦃ns : List Nest⦄ ⦃tail : List Token⦄, d.Faces known free ns tail →
    BeginsWithCloser tail → d.ahead.length ≤ bound → 0 < d.depth →
    Ends (block bound) d
      (fun _ d' => d.Follows (Diagnostic.Mild known free) d' ∧ d'.ahead = tail) fun _ _ => False

/-- What is ahead when an `IF` fails in one of its arms: some of its bodies, then its closer. -/
def InsideChoice (closer : Token) (rest ahead : List Token) : Prop :=
  ∃ body more, Nests.WellNested body ∧ Branches.WellNested more ∧
    ahead = Nests.tokens body ++ (more.tokens ++ closer :: rest)

theorem Writes.ends (known free : Token → Prop) {α : Type} {m : CompileM α} (hm : Writes m)
    (hd : d.finish.kind = .eof) :
    Ends m d (fun _ d' => d.Follows (Diagnostic.Mild known free) d' ∧ d'.ahead = d.ahead)
      fun e d' => d.Follows (Diagnostic.Mild known free) d' ∧ d'.ahead = d.ahead ∧
        e.code = .blockIsTooLarge := by
  have hmild : ∀ e : Diagnostic, e.code = .blockIsTooLarge → e.Mild known free :=
    fun e he => .of_code (by rw [he]; rfl)
  refine Ends.mono (hm d ⟨hd, fun _ _ => trivial⟩) (fun _ d' h => ?_) fun e d' h => ?_
  · exact ⟨h.toFollows.mono hmild, h.ahead_eq fun _ _ => not_false⟩
  · exact ⟨h.1.toFollows.mono hmild, h.1.ahead_eq fun _ _ => not_false, h.2⟩

/-- How the arms of an `IF` that began at `start` end: in front of its closer, or with a failure
somewhere inside. -/
def EndsChoice (known free : Token → Prop) (closer : Token) (rest : List Token) (start : Draft)
    {α : Type} (m : CompileM α) (d : Draft) : Prop :=
  Ends m d (fun _ d' => start.Follows (Diagnostic.Mild known free) d' ∧ d'.ahead = closer :: rest)
    fun e d' => start.Follows (Diagnostic.Mild known free) d' ∧ e.Mild known free ∧
      InsideChoice closer rest d'.ahead

theorem EndsChoice.of_follows {start start' : Draft} {α : Type} {m : CompileM α}
    (h : EndsChoice known free closer rest start' m d)
    (hstart : start.Follows (Diagnostic.Mild known free) start') :
    EndsChoice known free closer rest start m d :=
  Ends.mono h (fun _ _ h => ⟨hstart.trans h.1, h.2⟩) fun _ _ h => ⟨hstart.trans h.1, h.2⟩

/-- One arm, if what follows it ends as it should. -/
theorem endsChoice_arm {more : Branches} {n : Nat} {keyword : Token} {body : List Nest}
    (ih : ClosesBlocks known free bound) (hcloser : closer.kind = .keyword .endIf)
    (hd : d.Faces known free body (more.tokens ++ closer :: rest)) (hmore : more.WellNested)
    (hbound : d.ahead.length ≤ bound) (hdepth : 0 < d.depth)
    (hrest : ∀ exit d', d.Follows (Diagnostic.Mild known free) d' → d'.Sound known →
      d'.ahead = more.tokens ++ closer :: rest →
      EndsChoice known free closer rest d' (moreBranches (block bound) n exit) d') :
    EndsChoice known free closer rest d (branches (block bound) (n + 1) keyword) d := by
  have hstop := hmore.beginsWithCloser hcloser rest
  rw [branches_succ]
  refine (readsPlain_openArm known free keyword).ends_bind hd.sound (fun e d₁ h₁ he => ?_)
    fun skip d₁ h₁ _ => ?_
  · obtain ⟨used, body', -, -, hd₁⟩ := hd.reads hstop.endsPlain h₁
    exact ⟨h₁.toFollows, he, body', more, hd₁.nested, hmore, hd₁.ahead⟩
  obtain ⟨used, body', -, hused, hd₁⟩ := hd.reads hstop.endsPlain h₁
  have hlength : d₁.ahead.length ≤ d.ahead.length := by
    rw [hused, List.length_append]
    exact Nat.le_add_left _ _
  refine (ih hd₁ hstop (by omega) (by rw [h₁.depth]; exact hdepth)).ok_bind ?_
  rintro - d₂ ⟨h₂, hahead₂⟩
  have hfollows := h₁.toFollows.trans h₂
  refine Ends.bind ((Writes.ends known free (writes_closeArm keyword skip)
    (by rw [hfollows.finish, hd.sound.finish])).mono (fun _ _ h => h) ?_) ?_
  · rintro e d₃ ⟨h₃, hahead₃, he⟩
    exact ⟨hfollows.trans h₃, .of_code (by rw [he]; rfl), [], more, trivial, hmore,
      hahead₃.trans hahead₂⟩
  · rintro exit d₃ ⟨h₃, hahead₃⟩
    have hfollows := hfollows.trans h₃
    refine (hrest exit d₃ hfollows ⟨?_, fun t ht => ?_⟩ (hahead₃.trans hahead₂)).of_follows hfollows
    · rw [hfollows.finish, hd.sound.finish]
    · rw [hahead₃, hahead₂] at ht
      exact hd.sound.ahead t (by rw [hd.ahead]; exact List.mem_append_right _ ht)

/-- The arms of an `IF` are compiled up to its closer. -/
theorem endsChoice_branches (ih : ClosesBlocks known free bound)
    (hcloser : closer.kind = .keyword .endIf) :
    ∀ (more : Branches) (n : Nat) (keyword : Token) {body : List Nest} {d : Draft},
    d.Faces known free body (more.tokens ++ closer :: rest) → more.WellNested →
    (d.loops = [] → ∀ t ∈ more.free, free t) →
    d.ahead.length ≤ bound → d.ahead.length ≤ n → 0 < d.depth →
    EndsChoice known free closer rest d (branches (block bound) n keyword) d
  | more, 0, keyword, body, d, hd, hmore, hfree, hbound, hn, hdepth => by
    rw [hd.ahead] at hn
    simp at hn
  | .none, n + 1, keyword, body, d, hd, hmore, hfree, hbound, hn, hdepth => by
    refine endsChoice_arm ih hcloser hd hmore hbound hdepth fun exit d₁ h₁ _ hahead₁ => ?_
    refine ends_accept_bind_of_ne hahead₁ (by rw [hcloser]; decide) ?_
    exact ⟨.refl d₁, hahead₁⟩
  | .otherwise elseWord alternative, n + 1, keyword, body, d, hd, hmore, hfree, hbound, hn,
      hdepth => by
    refine endsChoice_arm ih hcloser hd hmore hbound hdepth fun exit d₁ h₁ hd₁ hahead₁ => ?_
    obtain ⟨helse, halternative, hbegin⟩ := hmore
    obtain ⟨t, ts, hnext, hne⟩ :=
      BeginsNoIf.of_tokens halternative hbegin (beginsNoIf_closer hcloser rest)
    have hfaces : Draft.Faces known free
        { d₁ with ahead := Nests.tokens alternative ++ closer :: rest } alternative
        (closer :: rest) :=
      ⟨hd₁.of_cons hahead₁, halternative, rfl, fun hloops => hfree (h₁.loops_eq_nil hloops)⟩
    have hlength : (Nests.tokens alternative ++ closer :: rest).length < d.ahead.length := by
      simp only [hd.ahead, Branches.tokens, List.length_append, List.length_cons]
      omega
    refine ends_accept_bind hahead₁ helse ?_
    refine Ends.peek_bind ?_
    refine ends_accept_bind_of_ne hnext hne ?_
    refine (ih hfaces (.cons hcloser rfl rest) (by simp only; omega)
      (by rw [h₁.depth]; exact hdepth)).ok_bind ?_
    rintro - d₂ ⟨h₂, hahead₂⟩
    exact ⟨h₂.of_ahead, hahead₂⟩
  | .elseIf elseWord keyword' body' more, n + 1, keyword, body, d, hd, hmore, hfree, hbound, hn,
      hdepth => by
    refine endsChoice_arm ih hcloser hd hmore hbound hdepth fun exit d₁ h₁ hd₁ hahead₁ => ?_
    obtain ⟨helse, hkeyword, hbody, hmore⟩ := hmore
    have hfree' : d₁.loops = [] → ∀ t ∈ Nests.free body' ++ more.free, free t :=
      fun hloops => hfree (h₁.loops_eq_nil hloops)
    have hfaces : Draft.Faces known free
        { d₁ with ahead := Nests.tokens body' ++ more.tokens ++ closer :: rest } body'
        (more.tokens ++ closer :: rest) :=
      ⟨(hd₁.of_cons hahead₁).of_cons rfl, hbody, List.append_assoc _ _ _,
        fun hloops t ht => hfree' hloops t (List.mem_append_left _ ht)⟩
    have hlength : (Nests.tokens body' ++ more.tokens ++ closer :: rest).length + 2 ≤
        d.ahead.length := by
      simp only [hd.ahead, Branches.tokens, List.length_append, List.length_cons]
      omega
    refine ends_accept_bind hahead₁ helse ?_
    refine Ends.peek_bind ?_
    refine ends_accept_bind rfl hkeyword ?_
    have hrest := endsChoice_branches ih hcloser more n keyword' hfaces hmore
      (fun hloops t ht => hfree' hloops t (List.mem_append_right _ ht)) (by simp only; omega)
      (by simp only; omega) (by rw [h₁.depth]; exact hdepth)
    have hahead : d₁.Follows (Diagnostic.Mild known free)
        { d₁ with ahead := Nests.tokens body' ++ more.tokens ++ closer :: rest } :=
      ⟨rfl, rfl, rfl, fun _ => .inl⟩
    exact Ends.bind (hrest.of_follows hahead) fun exits d₂ h₂ => h₂

/-- How an `IF` or a `LOOP` in front of `rest` fails. As long as it is open, skipping leads to `rest`.
Once it is closed only a jump can be too long. -/
structure FailsBefore (known free : Token → Prop) (d : Draft) (rest : List Token) (e : Diagnostic)
    (d' : Draft) : Prop where
  finish : d'.finish = d.finish
  loops : d.loops.length ≤ d'.loops.length
  found : ∀ e ∈ d'.diagnostics, e ∈ d.diagnostics ∨ e.Mild known free
  mild : e.Mild known free
  place : d'.depth = d.depth + 1 ∧ skipFailed d.depth d'.depth d'.ahead = rest ∨
    d'.depth = d.depth ∧ d'.ahead = rest ∧ e.code = .blockIsTooLarge

/-- How an `IF` or a `LOOP` that began at `start` ends: behind its closer, or with a failure. -/
def EndsCompound (known free : Token → Prop) (rest : List Token) (start : Draft) (m : CompileM Unit)
    (d : Draft) : Prop :=
  Ends m d (fun _ d' => start.Follows (Diagnostic.Mild known free) d' ∧ d'.ahead = rest)
    (FailsBefore known free start rest)

theorem EndsCompound.advance_bind {t : Token} {ts : List Token} {f : PUnit → CompileM Unit}
    (hahead : d.ahead = t :: ts)
    (h : EndsCompound known free rest { d with ahead := ts } (f ⟨⟩) { d with ahead := ts }) :
    EndsCompound known free rest d (advance >>= f) d := by
  refine ends_advance hahead (Ends.mono h ?_ ?_)
  · rintro - d' ⟨hfollows, hrest⟩
    exact ⟨hfollows.of_ahead, hrest⟩
  · intro e d' h
    exact ⟨h.finish, h.loops, h.found, h.mild, h.place⟩

/-- When a statement is closed, the jumps that lead behind it may still be too long. -/
theorem endsCompound_forM_patch {d₁ : Draft} (hd : d.finish.kind = .eof)
    (hclose : d.Follows (Diagnostic.Mild known free) d₁) (hahead : d₁.ahead = rest) (site : Site)
    (labels : List Chunk.Label) :
    EndsCompound known free rest d (labels.forM (patch site)) d₁ := by
  refine (Writes.ends known free (writes_forM_patch site labels) ?_).mono ?_ ?_
  · rw [hclose.finish, hd]
  · rintro - d₂ ⟨h₂, hahead₂⟩
    exact ⟨hclose.trans h₂, hahead₂.trans hahead⟩
  · rintro e d₂ ⟨h₂, hahead₂, he⟩
    have h := hclose.trans h₂
    exact ⟨h.finish, Nat.le_of_eq h.loops.symm, h.found, .of_code (by rw [he]; rfl),
      .inr ⟨h.depth, hahead₂.trans hahead, he⟩⟩

theorem endsCompound_ifStatement {keyword : Token} {body : List Nest} {more : Branches}
    (ih : ClosesBlocks known free bound) (hcloser : closer.kind = .keyword .endIf)
    (hd : d.Faces known free body (more.tokens ++ closer :: rest)) (hmore : more.WellNested)
    (hfree : d.loops = [] → ∀ t ∈ more.free, free t) (hbound : d.ahead.length ≤ bound) :
    EndsCompound known free rest d (ifStatement (block bound) bound keyword) d := by
  refine Ends.modify_bind ?_
  have hopen : Draft.Faces known free { d with depth := d.depth + 1 } body
      (more.tokens ++ closer :: rest) :=
    ⟨⟨hd.sound.finish, hd.sound.ahead⟩, hd.nested, hd.ahead, hd.aborts⟩
  have hbranches := endsChoice_branches ih hcloser more bound keyword hopen hmore hfree hbound hbound
    (Nat.succ_pos _)
  refine Ends.bind (Ends.mono hbranches (fun _ _ h => h) ?_) ?_
  · rintro e d₁ ⟨h₁, he, body', more', hbody', hmore', hahead₁⟩
    refine ⟨h₁.finish, Nat.le_of_eq h₁.loops.symm, h₁.found, he, .inl ⟨h₁.depth, ?_⟩⟩
    rw [h₁.depth, hahead₁]
    exact skipFailed_choice hbody' hmore' hcloser rest
  · rintro exits d₁ ⟨h₁, hahead₁⟩
    refine ends_expect_bind hahead₁ hcloser ?_
    refine Ends.modify_bind ?_
    have hclose : d.Follows (Diagnostic.Mild known free)
        { d₁ with ahead := rest, depth := d₁.depth - 1 } :=
      ⟨h₁.finish, by simp only [h₁.depth, Nat.add_sub_cancel], h₁.loops, h₁.found⟩
    exact endsCompound_forM_patch hd.sound.finish hclose rfl _ exits

theorem endsCompound_loopStatement {keyword : Token} {body : List Nest}
    (ih : ClosesBlocks known free bound) (hcloser : closer.kind = .keyword .endLoop)
    (hd : d.Faces known (fun _ => True) body (closer :: rest)) (hbound : d.ahead.length ≤ bound) :
    EndsCompound known free rest d (loopStatement (block bound) keyword) d := by
  rw [loopStatement_eq]
  refine Ends.modify_bind ?_
  have hopen : Draft.Faces known (fun _ => True) { d with depth := d.depth + 1 } body
      (closer :: rest) :=
    ⟨⟨hd.sound.finish, hd.sound.ahead⟩, hd.nested, hd.ahead, hd.aborts⟩
  have hstop : BeginsWithCloser (closer :: rest) := .cons hcloser rfl rest
  refine (readsPlain_openLoop known free keyword).ends_bind hopen.sound (fun e d₁ h₁ he => ?_)
    fun head d₁ h₁ _ => ?_
  · obtain ⟨used, body', -, -, hd₁⟩ := hopen.reads hstop.endsPlain h₁
    refine ⟨h₁.finish, Nat.le_of_eq h₁.loops.symm, h₁.found, he, .inl ⟨h₁.depth, ?_⟩⟩
    rw [h₁.depth, hd₁.ahead]
    exact skipFailed_loop hd₁.nested hcloser rest
  obtain ⟨used, body', -, hused, hd₁⟩ := hopen.reads hstop.endsPlain h₁
  have hlength : d₁.ahead.length ≤ d.ahead.length := by
    rw [show d.ahead = used ++ d₁.ahead from hused, List.length_append]
    exact Nat.le_add_left _ _
  -- in the body a loop is open, so no `ABORT LOOP` is complained about
  have henter : Draft.Faces known free { d₁ with loops := [] :: d₁.loops } body' (closer :: rest) :=
    ⟨⟨hd₁.sound.finish, hd₁.sound.ahead⟩, hd₁.nested, hd₁.ahead, nofun⟩
  refine Ends.modify_bind ?_
  refine (ih henter hstop (Nat.le_trans hlength hbound)
    (by rw [h₁.depth]; exact Nat.succ_pos _)).ok_bind ?_
  rintro - d₂ ⟨h₂, hahead₂⟩
  refine Ends.peek_bind ?_
  refine ends_expect_bind hahead₂ hcloser ?_
  refine Ends.modify_bind ?_
  have hclose : Draft.Follows (Diagnostic.Mild known free) { d with loops := [] :: d.loops }
      { d₂ with ahead := rest, depth := d₂.depth - 1 } := by
    refine ⟨h₂.finish.trans h₁.finish, ?_, ?_, fun e he => ?_⟩
    · simp only [h₂.depth, h₁.depth, Nat.add_sub_cancel]
    · simp only [h₂.loops, List.length_cons, h₁.loops]
    · rcases h₂.found e he with he | he
      · exact h₁.found e he
      · exact .inr he
  refine Ends.bind ((Writes.ends known free (writes_closeLoop keyword _ head) ?_).mono
    (fun _ _ h => h) ?_) ?_
  · rw [hclose.finish, hd.sound.finish]
  · rintro e d₃ ⟨h₃, hahead₃, he⟩
    have h := hclose.trans h₃
    refine ⟨h.finish, ?_, h.found, .of_code (by rw [he]; rfl), .inr ⟨h.depth, hahead₃, he⟩⟩
    rw [h.loops]
    exact Nat.le_succ _
  · rintro - d₃ ⟨h₃, hahead₃⟩
    have h := hclose.trans h₃
    have hleave : d.Follows (Diagnostic.Mild known free) { d₃ with loops := d₃.loops.tail } := by
      refine ⟨h.finish, h.depth, ?_, h.found⟩
      rw [List.length_tail, h.loops]
      rfl
    exact endsCompound_forM_patch hd.sound.finish hleave hahead₃ _ _

end Blocks

end CompileM

end BoundedLoop
