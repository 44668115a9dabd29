import BoundedLoop.Proofs.Lexing.Groups

/-!
# Scanning from left to right

A lexeme is cut off without a look at what comes behind it, except for the one character that ends
it. So it is the same if the text ends anywhere behind it (`Lexeme.cut_append_of_prefix`), and the
first lexemes of a text are all the lexemes of a text that ends with them
(`Lexeme.exists_prefix_allFrom`).

A token is made of one lexeme or of two (`Token.MadeOf`), so the same holds of tokens: a text that
is cut behind one of its tokens has the tokens up to there (`Token.scan_upTo`). And tokens begin in
the order in which they are scanned (`Token.starts_of_scan`).
-/

namespace BoundedLoop

/-! ### Offsets -/

namespace Text

theorem Place.offset_after (p : Place) (cs : List Char) :
    (p.after cs).offset = p.offset + bytes cs := by
  induction cs generalizing p with
  | nil => rfl
  | cons c cs ih =>
    have hadvance : (p.advance c).offset = p.offset + c.utf8Size := by
      unfold advance
      split <;> rfl
    rw [after_cons, ih, hadvance, bytes, Nat.add_assoc]

theorem Place.offset_le_after (p : Place) (cs : List Char) : p.offset ≤ (p.after cs).offset := by
  rw [offset_after]
  exact Nat.le_add_right _ _

/-- The characters of the first `n` bytes, without one that is only partly within them. -/
def takeBytes : Nat → List Char → List Char
  | _, [] => []
  | n, c :: cs => if c.utf8Size ≤ n then c :: takeBytes (n - c.utf8Size) cs else []

theorem takeBytes_append (pre post : List Char) : takeBytes (bytes pre) (pre ++ post) = pre := by
  induction pre with
  | nil =>
    cases post with
    | nil => rfl
    | cons c post =>
      have hpos := c.utf8Size_pos
      show (if c.utf8Size ≤ 0 then _ else []) = []
      rw [if_neg (Nat.not_le_of_lt hpos)]
  | cons c pre ih =>
    rw [List.cons_append, takeBytes, bytes, if_pos (Nat.le_add_right _ _), Nat.add_sub_cancel_left, ih]

/-- The first `n` bytes of a text. -/
def upTo (n : Nat) (source : String) : String :=
  String.ofList (takeBytes n source.toList)

theorem utf8ByteSize_ofList (cs : List Char) : (String.ofList cs).utf8ByteSize = bytes cs := by
  induction cs with
  | nil => rfl
  | cons c cs ih =>
    rw [← List.singleton_append, String.ofList_append, String.utf8ByteSize_append, ih,
      ← String.singleton_eq_ofList, String.utf8ByteSize_singleton]
    rfl

end Text

/-! ### Lexemes -/

namespace Lexeme

/-- What is left of a list may end anywhere: its first elements are the same. -/
theorem takeWhile_append_of_prefix {p : Char → Bool} {cs x : List Char} (h : x <+: cs.dropWhile p) :
    (cs.takeWhile p ++ x).takeWhile p = cs.takeWhile p ∧ (cs.takeWhile p ++ x).dropWhile p = x := by
  have hall : ∀ c ∈ cs.takeWhile p, p c = true := fun _ => List.mem_takeWhile_imp
  have hx : x.takeWhile p = [] ∧ x.dropWhile p = x := by
    cases x with
    | nil => exact ⟨rfl, rfl⟩
    | cons c x =>
      have hc : p c = false := by
        obtain ⟨rest, hrest⟩ := h
        have hhead : (cs.dropWhile p).head? = some c := by rw [← hrest]; rfl
        have := List.head?_dropWhile_not p cs
        rw [hhead] at this
        simpa using this
      rw [List.takeWhile_cons, List.dropWhile_cons, hc]
      exact ⟨rfl, rfl⟩
  rw [List.takeWhile_append_of_pos hall, List.dropWhile_append_of_pos hall, hx.1, hx.2, List.append_nil]
  exact ⟨rfl, rfl⟩

theorem cutNumber_append_of_prefix {c : Char} {cs x : List Char} (h : x <+: (cutNumber c cs).rest) :
    cutNumber c ((cutNumber c cs).more ++ x) =
      ⟨(cutNumber c cs).reading, (cutNumber c cs).more, x⟩ := by
  obtain ⟨htake, hdrop⟩ := takeWhile_append_of_prefix h
  show cutNumber c (cs.takeWhile Char.isDigit ++ x) = _
  unfold cutNumber
  rw [htake, hdrop]

theorem cutWord_append_of_prefix {cs x : List Char} (h : x <+: (cutWord cs).rest) :
    cutWord ((cutWord cs).more ++ x) = ⟨(cutWord cs).reading, (cutWord cs).more, x⟩ := by
  generalize hfound : cutWord cs = found at h ⊢
  unfold cutWord at hfound
  split at hfound
  · rename_i rest hmark
    subst hfound
    have hx : '?' :: x <+: cs.dropWhile continuesWord := by
      rw [hmark]
      exact (List.cons_prefix_cons).2 ⟨rfl, h⟩
    obtain ⟨htake, hdrop⟩ := takeWhile_append_of_prefix hx
    show cutWord (cs.takeWhile continuesWord ++ ['?'] ++ x) = _
    rw [List.append_assoc, List.singleton_append]
    unfold cutWord
    rw [htake, hdrop]
    rfl
  · rename_i hmark
    subst hfound
    obtain ⟨htake, hdrop⟩ := takeWhile_append_of_prefix h
    show cutWord (cs.takeWhile continuesWord ++ x) = _
    unfold cutWord
    rw [htake, hdrop]
    split
    · obtain ⟨rest, hrest⟩ := h
      exact absurd hrest.symm (hmark _)
    · rfl

theorem cutQuoted_append_of_prefix {cs x : List Char} (h : x <+: (cutQuoted cs).rest) :
    cutQuoted ((cutQuoted cs).more ++ x) = ⟨(cutQuoted cs).reading, (cutQuoted cs).more, x⟩ := by
  generalize hfound : cutQuoted cs = found at h ⊢
  unfold cutQuoted at hfound
  split at hfound
  · rename_i quote rest hquote
    subst hfound
    have hx : quote :: x <+: cs.dropWhile (· != '"') := by
      rw [hquote]
      exact (List.cons_prefix_cons).2 ⟨rfl, h⟩
    obtain ⟨htake, hdrop⟩ := takeWhile_append_of_prefix hx
    show cutQuoted (cs.takeWhile (· != '"') ++ [quote] ++ x) = _
    rw [List.append_assoc, List.singleton_append]
    unfold cutQuoted
    rw [htake, hdrop]
  · rename_i hquote
    subst hfound
    obtain rfl := List.prefix_nil.1 h
    show cutQuoted (cs ++ []) = _
    rw [List.append_nil]
    unfold cutQuoted
    rw [hquote]

/-- A lexeme is the same wherever the text behind it ends. -/
theorem cut_append_of_prefix {c : Char} {cs x : List Char} (h : x <+: (cut c cs).rest) :
    cut c ((cut c cs).more ++ x) = ⟨(cut c cs).reading, (cut c cs).more, x⟩ := by
  generalize hfound : cut c cs = found at h ⊢
  unfold cut at hfound
  split at hfound <;> subst hfound
  -- what is left of the text begins with no character that would make the symbol longer
  case h_7 hequal hdash =>
    obtain ⟨rest, rfl⟩ := h
    refine cut.eq_7 x ?_ ?_
    · rintro y rfl
      exact hequal (y ++ rest) rfl
    · rintro y rfl
      exact hdash (y ++ rest) rfl
  case h_8 hequal =>
    obtain ⟨rest, rfl⟩ := h
    refine cut.eq_8 x ?_
    rintro y rfl
    exact hequal (y ++ rest) rfl
  case h_14 => exact cutQuoted_append_of_prefix h
  case h_15 =>
    have hcut : ∀ ds, cut c ds = if c.isDigit then cutNumber c ds
        else if startsWord c then cutWord ds else ⟨.error .invalid, [], ds⟩ := by
      intro ds
      rw [cut.eq_15] <;> intros <;> contradiction
    rw [hcut]
    by_cases hdigit : c.isDigit = true
    · simp only [if_pos hdigit] at h ⊢
      exact cutNumber_append_of_prefix h
    · by_cases hword : startsWord c = true
      · simp only [if_neg hdigit, if_pos hword] at h ⊢
        exact cutWord_append_of_prefix h
      · simp only [if_neg hdigit, if_neg hword]
        rfl
  all_goals rfl

/-- Where lexemes end that begin at `start` or later. -/
def stopOf (start : Nat) (ls : List Lexeme) : Nat :=
  ls.foldl (fun _ l => l.site.span.stop) start

theorem allFrom_separator {p : Text.Place} {c : Char} (h : isSeparator c = true) (cs : List Char) :
    allFrom p (c :: cs) = allFrom (p.advance c) cs := by
  rw [allFrom, if_pos h]

theorem allFrom_cut {p : Text.Place} {c : Char} (h : ¬isSeparator c = true) (cs : List Char) :
    allFrom p (c :: cs) = ⟨(cut c cs).reading, c :: (cut c cs).more, p⟩ ::
      allFrom (p.after (c :: (cut c cs).more)) (cut c cs).rest := by
  rw [allFrom, if_neg h]

/-- The first lexemes of a text are all the lexemes of the text that ends with them. -/
theorem exists_prefix_allFrom (p : Text.Place) (cs : List Char) : ∀ k ≤ (allFrom p cs).length,
    ∃ pre post, cs = pre ++ post ∧ allFrom p pre = (allFrom p cs).take k ∧
      (p.after pre).offset = stopOf p.offset ((allFrom p cs).take k) := by
  fun_induction allFrom p cs with
  | case1 p =>
    intro k _
    rw [List.take_nil]
    exact ⟨[], [], rfl, allFrom.eq_1 p, rfl⟩
  | case2 p c cs hsep ih =>
    intro k hk
    cases k with
    | zero => exact ⟨[], c :: cs, rfl, allFrom.eq_1 p, rfl⟩
    | succ k =>
      obtain ⟨pre, post, rfl, hpre, hstop⟩ := ih (k + 1) hk
      refine ⟨c :: pre, post, rfl, (allFrom_separator hsep pre).trans hpre, hstop.trans ?_⟩
      obtain ⟨l, ls, hls⟩ := List.exists_cons_of_length_pos (Nat.lt_of_lt_of_le (Nat.succ_pos k) hk)
      rw [hls]
      rfl
  | case3 p c cs hsep found ih =>
    intro k hk
    cases k with
    | zero => exact ⟨[], c :: cs, rfl, allFrom.eq_1 p, rfl⟩
    | succ k =>
      obtain ⟨pre, post, hrest, hpre, hstop⟩ := ih k (Nat.le_of_succ_le_succ hk)
      have hbegins : pre <+: (cut c cs).rest := ⟨post, hrest.symm⟩
      refine ⟨c :: ((cut c cs).more ++ pre), post, ?_, ?_, ?_⟩
      · show c :: cs = c :: ((cut c cs).more ++ pre ++ post)
        rw [List.append_assoc, ← hrest, cut_append]
      · rw [allFrom_cut hsep, cut_append_of_prefix hbegins, List.take_succ_cons, ← hpre]
      · rw [← List.cons_append, Text.Place.after_append, hstop, List.take_succ_cons]
        rfl

/-- Lexemes begin one behind the other. -/
theorem starts_allFrom (p : Text.Place) (cs : List Char) :
    (p.offset :: ((allFrom p cs).map (·.site.span.start) ++
      [(p.after cs).offset])).Pairwise (· ≤ ·) := by
  have hback : ∀ {a b : Nat} {l : List Nat}, a ≤ b → (b :: l).Pairwise (· ≤ ·) →
      (a :: l).Pairwise (· ≤ ·) := by
    intro a b l hab h
    obtain ⟨hb, hl⟩ := List.pairwise_cons.1 h
    exact List.pairwise_cons.2 ⟨fun x hx => hab.trans (hb x hx), hl⟩
  fun_induction allFrom p cs with
  | case1 p => exact List.pairwise_pair.2 (Nat.le_refl _)
  | case2 p c cs hsep ih => exact hback (p.offset_le_after [c]) ih
  | case3 p c cs hsep found ih =>
    have hafter : p.after (c :: cs) = (p.after (c :: (cut c cs).more)).after (cut c cs).rest := by
      rw [← Text.Place.after_append, List.cons_append, cut_append]
    have h := hback (p.offset_le_after (c :: (cut c cs).more)) ih
    rw [hafter]
    refine List.pairwise_cons.2 ⟨?_, h⟩
    intro x hx
    rcases List.mem_cons.1 hx with rfl | hx
    · exact Nat.le_refl _
    · exact (List.pairwise_cons.1 h).1 x hx

end Lexeme

/-! ### Tokens -/

namespace Token

/-- The lexemes `used` make the token `t`, whatever follows them. -/
structure MadeOf (used : List Lexeme) (t : Token) : Prop where
  makes : ∀ last rest, ofLexemes last (used ++ rest) = (t :: ·) <$> ofLexemes last rest
  start : used.head?.map (·.site.span.start) = some t.span.start
  stop : ∀ start, Lexeme.stopOf start used = t.span.stop

theorem MadeFrom.madeOf {used : List Lexeme} {t : Token} (h : MadeFrom used t) : MadeOf used t := by
  refine ⟨h.ofLexemes_append, ?_, ?_⟩
  · cases h <;> rfl
  · intro start
    cases h <;> rfl

/-- Lexemes that make tokens, one after the other. The end of the text does not count as one. -/
inductive Scanned : List Lexeme → List Token → Prop where
  | nil : Scanned [] []
  | cons {used ls : List Lexeme} {t : Token} {ts : List Token} (h : MadeOf used t)
      (hs : Scanned ls ts) : Scanned (used ++ ls) (t :: ts)

theorem Grouped.scanned {ls : List Lexeme} {ts : List Token} (h : Grouped ls ts) : Scanned ls ts := by
  induction h with
  | nil => exact .nil
  | cons hmade _ ih => exact .cons hmade.madeOf ih

/-- What is scanned ends with the token that it is closed by, and does not depend on it otherwise. -/
theorem exists_scanned {last : Token} {ls : List Lexeme} {tokens : List Token}
    (h : ofLexemes last ls = .ok tokens) : ∃ ts, tokens = ts ++ [last] ∧ Scanned ls ts := by
  obtain ⟨ts, htokens, hts⟩ := exists_grouped h
  exact ⟨ts, htokens, hts.scanned⟩

/-- Where tokens end that begin at `start` or later. -/
def stopOf (start : Nat) (ts : List Token) : Nat :=
  ts.foldl (fun _ t => t.span.stop) start

namespace Scanned

variable {ls : List Lexeme} {ts : List Token}

theorem ofLexemes_eq (h : Scanned ls ts) (last : Token) : ofLexemes last ls = .ok (ts ++ [last]) := by
  induction h with
  | nil => rfl
  | cons hmade _ ih =>
    rw [hmade.makes, ih]
    rfl

/-- The first tokens are made of the first lexemes. -/
theorem exists_take (h : Scanned ls ts) : ∀ n ≤ ts.length, ∃ k ≤ ls.length,
    Scanned (ls.take k) (ts.take n) ∧
      ∀ start, Lexeme.stopOf start (ls.take k) = stopOf start (ts.take n) := by
  induction h with
  | nil =>
    intro n hn
    obtain rfl := Nat.le_zero.1 hn
    exact ⟨0, Nat.le_refl 0, .nil, fun _ => rfl⟩
  | @cons used ls t ts hmade _ ih =>
    intro n hn
    cases n with
    | zero => exact ⟨0, Nat.zero_le _, .nil, fun _ => rfl⟩
    | succ n =>
      obtain ⟨k, hk, hscanned, hstop⟩ := ih n (Nat.le_of_succ_le_succ hn)
      refine ⟨used.length + k, ?_, ?_, ?_⟩
      · rw [List.length_append]
        exact Nat.add_le_add_left hk _
      · rw [List.take_length_add_append]
        exact .cons hmade hscanned
      · intro start
        rw [List.take_length_add_append, Lexeme.stopOf, List.foldl_append]
        show Lexeme.stopOf (Lexeme.stopOf start used) (ls.take k) = stopOf t.span.stop (ts.take n)
        rw [hmade.stop, hstop]

/-- A token begins where its first lexeme begins. -/
theorem starts (h : Scanned ls ts) :
    (ts.map (·.span.start)).Sublist (ls.map (·.site.span.start)) := by
  induction h with
  | nil => exact .slnil
  | @cons used ls t ts hmade _ ih =>
    have hstart := hmade.start
    cases used with
    | nil => cases hstart
    | cons l used =>
      have hstart : l.site.span.start = t.span.start := Option.some.inj hstart
      rw [List.cons_append, List.map_cons, List.map_cons, hstart, List.map_append]
      exact (ih.trans (List.sublist_append_right _ _)).cons_cons _

end Scanned

variable {source : String} {tokens : List Token}

/-- Tokens begin in the order in which they are scanned, and the end of the text is behind them all. -/
theorem starts_of_scan (h : scan source = .ok tokens) :
    tokens.Pairwise fun t t' => t.span.start ≤ t'.span.start := by
  obtain ⟨ts, rfl, hts⟩ := exists_scanned h
  have hstarts := (List.pairwise_cons.1 (Lexeme.starts_allFrom {} source.toList)).2
  rw [← List.pairwise_map (R := (· ≤ ·)), List.map_append]
  exact hstarts.sublist (hts.starts.append_right _)

/-- A text that is cut behind its `n`th token has the first `n` tokens, and the end right behind
them. -/
theorem scan_upTo (h : scan source = .ok tokens) {n : Nat} (hn : n < tokens.length) :
    (Text.upTo (stopOf 0 (tokens.take n)) source).toList <+: source.toList ∧
    (Text.upTo (stopOf 0 (tokens.take n)) source).utf8ByteSize = stopOf 0 (tokens.take n) ∧
    ∃ p : Text.Place, p.offset = stopOf 0 (tokens.take n) ∧
      scan (Text.upTo (stopOf 0 (tokens.take n)) source) = .ok (tokens.take n ++ [endOf p]) := by
  obtain ⟨ts, rfl, hts⟩ := exists_scanned h
  have hn : n ≤ ts.length := by
    rw [List.length_append, List.length_singleton] at hn
    omega
  rw [List.take_append_of_le_length hn]
  obtain ⟨k, hk, hscanned, hstop⟩ := hts.exists_take n hn
  obtain ⟨pre, post, hsource, hpre, hoffset⟩ := Lexeme.exists_prefix_allFrom {} source.toList k hk
  rw [hstop] at hoffset
  have hbytes : stopOf 0 (ts.take n) = Text.bytes pre := by
    rw [← hoffset, Text.Place.offset_after]
    exact Nat.zero_add _
  have hcut : Text.upTo (stopOf 0 (ts.take n)) source = String.ofList pre := by
    rw [Text.upTo, hsource, hbytes, Text.takeBytes_append]
  rw [hcut, String.toList_ofList]
  refine ⟨⟨post, hsource.symm⟩, ?_, Text.Place.after {} pre, hoffset, ?_⟩
  · rw [Text.utf8ByteSize_ofList, hbytes]
  · unfold scan
    simp only [String.toList_ofList, hpre]
    exact hscanned.ofLexemes_eq _

end Token

end BoundedLoop
