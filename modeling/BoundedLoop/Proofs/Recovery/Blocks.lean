import BoundedLoop.Proofs.Codegen.Clean
import BoundedLoop.Proofs.Recovery.Compound

/-!
# Blocks that go on

A statement that is tried, whether it fails or not, takes some of the nests of the block it stands in,
and the rest of the block is faced by the draft as before (`CompileM.ends_attempt`). So a block is
compiled up to its closer (`CompileM.closesBlocks`) and a program up to the end of the input
(`CompileM.ends_program`), and nothing but mild diagnostics is found on the way.
-/

namespace BoundedLoop

/-! ### How statements begin -/

/-- Whether a nest is an `IF` or a `LOOP`. -/
def Nest.isCompound : Nest → Bool
  | .plain _ => false
  | .choice .. | .loop .. => true

/-- A nest begins with a token that closes no block. -/
theorem Nest.WellNested.exists_head {n : Nest} (h : n.WellNested) :
    ∃ t ts, n.tokens = t :: ts ∧ t.kind.closesBlock = false := by
  cases n with
  | plain t => exact ⟨t, [], rfl, Token.Kind.closesBlock_of_isPlain h⟩
  | choice keyword => exact ⟨keyword, _, rfl, by rw [h.1]; rfl⟩
  | loop keyword => exact ⟨keyword, _, rfl, by rw [h.1]; rfl⟩

theorem Nests.length_tokens_pos {ns : List Nest} (h : ns ≠ []) : 0 < (Nests.tokens ns).length := by
  cases ns with
  | nil => exact absurd rfl h
  | cons n ns => cases n <;> simp [Nests.tokens, Nest.tokens]

namespace Draft.Faces

variable {known free : Token → Prop} {d : Draft} {n : Nest} {ns : List Nest} {tail : List Token}

theorem head (h : d.Faces known free (n :: ns) tail) :
    d.Faces known free [n] (Nests.tokens ns ++ tail) := by
  refine ⟨h.sound, ⟨h.nested.1, trivial⟩, ?_, fun hloops t ht => h.aborts hloops t ?_⟩
  · rw [h.ahead]
    simp [Nests.tokens]
  · rw [Nests.free, Nests.free, List.append_nil] at ht
    exact List.mem_append_left _ ht

/-- Where a nest begins no block ends, and neither does the input. -/
theorem next_kind (h : d.Faces known free (n :: ns) tail) :
    d.next.kind.closesBlock = false ∧ d.next.kind ≠ .eof := by
  obtain ⟨t, ts, htokens, hclose⟩ := h.nested.1.exists_head
  have hahead : d.ahead = t :: (ts ++ (Nests.tokens ns ++ tail)) := by
    rw [h.ahead, Nests.tokens, htokens]
    simp
  rw [next_eq hahead]
  refine ⟨hclose, Nest.kind_ne_eof h.nested.1 t ?_⟩
  rw [htokens]
  exact List.mem_cons_self

end Draft.Faces

/-! ### Recording and skipping -/

namespace Draft

variable {d d' : Draft} {e : Diagnostic}

theorem record_eq (d : Draft) (e : Diagnostic) :
    d.record e = { d with diagnostics := (d.record e).diagnostics } := by
  unfold record
  split <;> rfl

theorem mem_record {e' : Diagnostic} (h : e' ∈ (d.record e).diagnostics) :
    e' ∈ d.diagnostics ∨ e' = e := by
  unfold record at h
  split at h
  · exact .inl h
  · exact Array.mem_push.1 h

/-- Recovering from `e`, with which a statement that began at `d` failed. -/
abbrev resumed (d d' : Draft) (e : Diagnostic) : Draft :=
  (d'.record e).recover d.depth d.loops.length

theorem resumed_ahead : (d.resumed d' e).ahead = skipFailed d.depth d'.depth d'.ahead := by
  rw [resumed, record_eq]
  rfl

theorem follows_resumed {E : Diagnostic → Prop} (hfinish : d'.finish = d.finish)
    (hloops : d.loops.length ≤ d'.loops.length)
    (hfound : ∀ e ∈ d'.diagnostics, e ∈ d.diagnostics ∨ E e) (he : E e) :
    d.Follows E (d.resumed d' e) := by
  refine ⟨?_, rfl, ?_, fun e' he' => ?_⟩
  · rw [resumed, record_eq]
    exact hfinish
  · rw [resumed, record_eq]
    simp only [recover, List.length_drop]
    omega
  · rcases mem_record he' with he' | rfl
    · exact hfound e' he'
    · exact .inr he

end Draft

namespace CompileM

variable {known free : Token → Prop} {bound : Nat} {d d' : Draft} {e : Diagnostic}

theorem FailsBefore.follows {rest : List Token} (h : FailsBefore known free d rest e d') :
    d.Follows (Diagnostic.Mild known free) (d.resumed d' e) :=
  Draft.follows_resumed h.finish h.loops h.found h.mild

theorem Ends.attempt {s : CompileM Unit} {ok : Unit → Draft → Prop}
    {error error' : Diagnostic → Draft → Prop} (h : Ends s d ok error)
    (herror : ∀ e d', error e d' → ok () (d.resumed d' e)) : Ends (attempt s) d ok error' := by
  unfold Ends at h ⊢
  rw [attempt_apply]
  cases hs : s d with
  | ok a d' =>
    rw [hs] at h
    exact h
  | error e d' =>
    rw [hs] at h
    exact herror e d' h

/-! ### One statement -/

theorem endsCompound_statement {n : Nest} {rest : List Token} (ih : ClosesBlocks known free bound)
    (hn : n.isCompound = true) (hd : d.Faces known free [n] rest)
    (hbound : d.ahead.length ≤ bound + 1) :
    EndsCompound known free rest d (statement (block bound) bound) d := by
  refine Ends.peek_bind ?_
  cases n with
  | plain t => cases hn
  | choice keyword body more closer =>
    obtain ⟨hkeyword, hbody, hmore, hcloser⟩ := hd.nested.1
    have hahead : d.ahead =
        keyword :: (Nests.tokens body ++ (more.tokens ++ closer :: rest)) := by
      rw [hd.ahead]
      simp [Nests.tokens, Nest.tokens]
    have hfree : d.loops = [] → ∀ t ∈ Nests.free body ++ more.free, free t := by
      intro hloops t ht
      exact hd.aborts hloops t (List.mem_append_left _ ht)
    have hinside : Draft.Faces known free
        { d with ahead := Nests.tokens body ++ (more.tokens ++ closer :: rest) } body
        (more.tokens ++ closer :: rest) :=
      ⟨hd.sound.of_cons hahead, hbody, rfl,
        fun hloops t ht => hfree hloops t (List.mem_append_left _ ht)⟩
    rw [hahead] at hbound
    simp only [Draft.next_eq hahead, hkeyword]
    refine EndsCompound.advance_bind hahead (endsCompound_ifStatement ih hcloser hinside hmore ?_
      (Nat.le_of_succ_le_succ hbound))
    exact fun hloops t ht => hfree hloops t (List.mem_append_right _ ht)
  | loop keyword body closer =>
    obtain ⟨hkeyword, hbody, hcloser⟩ := hd.nested.1
    have hahead : d.ahead = keyword :: (Nests.tokens body ++ closer :: rest) := by
      rw [hd.ahead]
      simp [Nests.tokens, Nest.tokens]
    have hinside : Draft.Faces known (fun _ => True)
        { d with ahead := Nests.tokens body ++ closer :: rest } body (closer :: rest) :=
      ⟨hd.sound.of_cons hahead, hbody, rfl, fun _ _ _ => trivial⟩
    rw [hahead] at hbound
    simp only [Draft.next_eq hahead, hkeyword]
    exact EndsCompound.advance_bind hahead
      (endsCompound_loopStatement ih hcloser hinside (Nat.le_of_succ_le_succ hbound))

theorem ends_plain {t : Token} {ts : List Token} (hd : d.Sound known) (hahead : d.ahead = t :: ts)
    (ht : t.kind.isPlain = true) (hfree : d.loops = [] → free t) :
    Ends (statement (block bound) bound) d
      (fun _ d' => d.PlainTo known free d' ∧ d'.ahead.length < d.ahead.length)
      (fun e d' => d.PlainTo known free d' ∧ e.Mild known free) := by
  have hnext := Draft.next_eq hahead
  have hknown : known t := hd.ahead t (by rw [hahead]; exact List.mem_cons_self)
  have hclose := Token.Kind.closesBlock_of_isPlain ht
  refine Ends.peek_bind ?_
  rw [hnext]
  split
  case h_3 hk =>
    rw [hk] at ht
    cases ht
  case h_4 hk =>
    rw [hk] at ht
    cases ht
  case h_5 hk =>
    show Ends (if d.loops.isEmpty then fail t.toSite .abortOutsideLoop else
      advance >>= fun _ => reserve .always t.line >>= noteAbort) d _ _
    split
    · rename_i hloops
      exact ⟨.refl d, .of_token hknown hclose rfl fun _ => ⟨hfree (List.isEmpty_iff.1 hloops), hk⟩⟩
    · refine ends_advance_bind hd (by rw [hnext]; exact ht) fun _ => ?_
      refine .bind (.reserve _ _) fun label => .modify fun d' => ⟨rfl, rfl, rfl, ?_, rfl⟩
      cases d'.loops <;> rfl
  case h_6 => exact ⟨.refl d, .of_token hknown hclose rfl fun h => by cases h⟩
  case h_7 =>
    have heof : t.kind ≠ .eof := Nest.kind_ne_eof (n := .plain t) ht t List.mem_cons_self
    refine ⟨.refl d, .of_token hknown hclose ?_ fun h => by cases h⟩
    rw [if_neg heof]
    rfl
  all_goals
    exact ends_advance_bind hd (by rw [hnext]; exact ht) fun _ =>
      readsPlain_assignment hknown hclose

/-- The draft has got on with the nests in front of `tail`, and faces those that are left. -/
structure GoesOn (known free : Token → Prop) (tail : List Token) (d d' : Draft) : Prop where
  follows : d.Follows (Diagnostic.Mild known free) d'
  shorter : d'.ahead.length < d.ahead.length
  faces : ∃ ns', d'.Faces known free ns' tail

theorem GoesOn.of_append (used ns : List Nest) {tail : List Token}
    (hd : d.Faces known free (used ++ ns) tail) (hused : used ≠ [])
    (hfollows : d.Follows (Diagnostic.Mild known free) d')
    (hahead : d'.ahead = Nests.tokens ns ++ tail) : GoesOn known free tail d d' := by
  refine ⟨hfollows, ?_, ns, hd.behind hfollows hahead⟩
  have hlength := Nests.length_tokens_pos hused
  rw [hd.ahead, hahead, Nests.tokens_append]
  simp only [List.length_append]
  omega

/-- A statement that is tried takes one nest at least, even if it fails at once. -/
theorem ends_attempt {n : Nest} {ns : List Nest} {tail : List Token}
    (ih : ClosesBlocks known free bound) (hd : d.Faces known free (n :: ns) tail)
    (htail : EndsBlock d.depth tail) (hbound : d.ahead.length ≤ bound + 1) :
    Ends (attempt (statement (block bound) bound)) d (fun _ d' => GoesOn known free tail d d')
      fun _ _ => False := by
  cases hn : n.isCompound with
  | true =>
    have hends := endsCompound_statement ih hn hd.head hbound
    refine Ends.attempt (Ends.mono hends ?_ fun _ _ h => h) ?_
    · rintro - d' ⟨hfollows, hahead⟩
      exact .of_append [n] ns hd nofun hfollows hahead
    · intro e d' h
      rcases h.place with ⟨-, hskip⟩ | ⟨hdepth, hahead, -⟩
      · exact .of_append [n] ns hd nofun h.follows (Draft.resumed_ahead.trans hskip)
      · obtain ⟨used, ns', rfl, -, hskip⟩ := Nests.exists_skipFailed htail hd.nested.2
        refine .of_append (n :: used) ns' hd nofun h.follows ?_
        rw [Draft.resumed_ahead, hdepth, hahead, hskip]
  | false =>
    obtain ⟨t, rfl⟩ : ∃ t, n = .plain t := by
      cases n with
      | plain t => exact ⟨t, rfl⟩
      | choice => cases hn
      | loop => cases hn
    have hfree : d.loops = [] → free t := fun hloops => hd.aborts hloops t List.mem_cons_self
    refine Ends.attempt ((ends_plain hd.sound hd.ahead hd.nested.1 hfree).mono ?_
      fun _ _ h => h) ?_
    · rintro - d' ⟨hread, hshorter⟩
      obtain ⟨-, ns', -, -, hfaces⟩ := hd.reads htail.endsPlain hread
      exact ⟨hread.toFollows, hshorter, ns', hfaces⟩
    · rintro e d' ⟨hread, he⟩
      obtain ⟨used, behind, hns, -, hfaces⟩ := hd.reads htail.endsPlain hread
      obtain ⟨used', ns', rfl, hused', hskip⟩ := Nests.exists_skipFailed htail hfaces.nested
      rw [hns, ← List.append_assoc] at hd
      refine .of_append _ ns' hd ?_
        (Draft.follows_resumed hread.finish (Nat.le_of_eq hread.loops.symm) hread.found he) ?_
      · -- if nothing was read, the first nest is skipped
        intro hnil
        obtain ⟨hused, rfl⟩ := List.append_eq_nil_iff.1 hnil
        rw [hused, List.nil_append] at hns
        exact hused' (by rw [← hns]; nofun) rfl
      · rw [Draft.resumed_ahead, hread.depth, hfaces.ahead, hskip]

/-! ### Blocks and programs -/

theorem closesBlocks (known free : Token → Prop) : ∀ bound, ClosesBlocks known free bound
  | 0, d, ns, tail, hd, htail, hbound, hdepth => by
    obtain ⟨t, rest, rfl, -⟩ := htail
    rw [hd.ahead] at hbound
    simp at hbound
  | bound + 1, d, [], tail, hd, htail, hbound, hdepth => by
    obtain ⟨t, rest, rfl, hclose⟩ := htail
    refine Ends.peek_bind ?_
    rw [Draft.next_eq hd.ahead, if_pos hclose]
    exact ⟨.refl d, hd.ahead⟩
  | bound + 1, d, n :: ns, tail, hd, htail, hbound, hdepth => by
    have ih := closesBlocks known free bound
    refine Ends.peek_bind ?_
    rw [if_neg (by rw [hd.next_kind.1]; nofun), if_neg hd.next_kind.2]
    refine (ends_attempt ih hd (.inr ⟨hdepth, htail⟩) hbound).ok_bind ?_
    rintro - d₁ ⟨hfollows, hshorter, ns', hd₁⟩
    refine (ih hd₁ htail (by omega) (by rw [hfollows.depth]; exact hdepth)).mono ?_ fun _ _ h => h
    rintro - d₂ ⟨hfollows', hahead⟩
    exact ⟨hfollows.trans hfollows', hahead⟩

theorem ends_program : ∀ (bound : Nat) {ns : List Nest} {d : Draft}, d.Faces known free ns [] →
    d.ahead.length ≤ bound →
    Ends (program bound) d (fun _ d' => d.Follows (Diagnostic.Mild known free) d') fun _ _ => False
  | 0, ns, d, hd, hbound => .refl d
  | bound + 1, [], d, hd, hbound => by
    have hnext : d.next = d.finish := by
      rw [Draft.next, hd.ahead]
      rfl
    refine Ends.peek_bind ?_
    rw [hnext, if_pos hd.sound.finish]
    exact .refl d
  | bound + 1, n :: ns, d, hd, hbound => by
    refine Ends.peek_bind ?_
    rw [if_neg hd.next_kind.2]
    refine (ends_attempt (closesBlocks known free bound) hd (.inl rfl) hbound).ok_bind ?_
    rintro - d₁ ⟨hfollows, hshorter, ns', hd₁⟩
    exact (ends_program bound hd₁ (by omega)).mono (fun _ _ h => hfollows.trans h) fun _ _ h => h

end CompileM

end BoundedLoop
