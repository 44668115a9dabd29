import BoundedLoop.Proofs.LeftmostProblem
import BoundedLoop.Proofs.LineLookup
import BoundedLoop.Proofs.Respacing
import BoundedLoop.Proofs.SourceOrder
import BoundedLoop.Proofs.Truncation

/-!
# Where an implied end of the input is

When tokens are compiled without the end of their text, the end of the input is implied behind the last of
them. Its line and column are counted on from where that token begins, by the characters that the token
quotes, and not looked up in the text. So they are those of the end of the token only where it quotes the
text as it stands there, on one line (`Text.StandsAt.position_stop_eq_iff`): a label on two lines is not
quoted on one, and a keyword of two words is always quoted with a single blank between them.

Main statement: `impliedEnd_position`.
-/

namespace BoundedLoop

/-! ### The end of a piece of text -/

namespace Text

variable {source : String} {span : Span} {text : List Char} {line column n : Nat}

theorem length_le_bytes (cs : List Char) : cs.length ≤ bytes cs := by
  induction cs with
  | nil => exact Nat.le_refl 0
  | cons c cs ih =>
    have hsize := c.utf8Size_pos
    rw [List.length_cons, bytes]
    omega

theorem Place.column_after_le {p : Place} (hp : 1 ≤ p.column) (cs : List Char) :
    (p.after cs).column ≤ p.column + cs.length := by
  induction cs generalizing p with
  | nil => exact Nat.le_refl _
  | cons c cs ih =>
    have hadvance : 1 ≤ (p.advance c).column ∧ (p.advance c).column ≤ p.column + 1 := by
      unfold advance
      dsimp only
      split
      · exact ⟨Nat.le_refl _, Nat.le_add_left 1 _⟩
      · exact ⟨Nat.le_add_left 1 _, Nat.le_refl _⟩
    have hrest := ih hadvance.1
    rw [after_cons, List.length_cons]
    omega

/-- Counting `n` columns on leads to the end of a piece of text if it is on one line and has `n`
characters. -/
theorem StandsAt.position_stop_eq_iff (h : StandsAt source span text)
    (hstart : (line, column) = position source span.start) :
    (line, column + n) = position source span.stop ↔ '\n' ∉ text ∧ n = text.length := by
  obtain ⟨behind, hahead, hstop⟩ := h
  obtain ⟨before, hsource, hoffset, hposition⟩ := hahead.exists_place
  have hend : span.stop = (Place.after {} (before ++ text)).offset := by
    rw [hstop, hoffset, Place.after_append, Place.offset_after _ text]
  rw [← List.append_assoc] at hsource
  rw [hposition, Prod.mk_inj] at hstart
  obtain ⟨rfl, rfl⟩ := hstart
  rw [hend, position_after hsource, Place.after_append, Prod.mk_inj, Place.line_after _ text]
  by_cases hline : '\n' ∈ text
  · have hcount : 0 < text.count '\n' := List.count_pos_iff.2 hline
    constructor
    · rintro ⟨hlines, -⟩
      omega
    · exact fun hnot => absurd hline hnot.1
  · rw [Place.column_after_of_not_mem hline, List.count_eq_zero.2 hline]
    constructor
    · rintro ⟨-, hcolumn⟩
      exact ⟨hline, Nat.add_left_cancel hcolumn⟩
    · rintro ⟨-, rfl⟩
      exact ⟨rfl, rfl⟩

/-- There are no more columns than bytes. -/
theorem StandsAt.column_add_length_le (h : StandsAt source span text)
    (hstart : (line, column) = position source span.start) :
    column + text.length ≤ source.utf8ByteSize + 1 := by
  obtain ⟨behind, hahead, -⟩ := h
  obtain ⟨before, hsource, -, hposition⟩ := hahead.exists_place
  obtain rfl : column = (Place.after {} before).column := congrArg Prod.snd (hstart.trans hposition)
  have hcolumn : (Place.after {} before).column ≤ 1 + before.length :=
    Place.column_after_le (p := {}) (Nat.le_refl 1) before
  have hlength := length_le_bytes source.toList
  rw [← utf8ByteSize_eq, hsource, List.length_append, List.length_append] at hlength
  omega

end Text

/-! ### What the last token quotes -/

section Quoted

variable {source : String} {l : Lexeme}

/-- Only a quoted lexeme can go on over the end of a line. -/
theorem Lexeme.lineFeed_not_mem (hl : l ∈ Lexeme.all source) {s : Lexeme.Shape} (hs : l.reading = .ok s)
    (hquoted : s.pattern ≠ .quoted) : '\n' ∉ l.chars :=
  (Lexeme.sound_of_mem_all hl s hs).1.lineFeed_not_mem hquoted

theorem Lexeme.lineFeed_not_mem_upper (hl : l ∈ Lexeme.all source) (hword : l.reading = .ok .word) :
    '\n' ∉ l.upper.toList := by
  have hupper := (Lexeme.sound_of_mem_all hl _ hword).1.sameLetters (.upper l.chars)
  rw [Lexeme.upper, String.toList_ofList]
  exact hupper.lineFeed_not_mem (by simp [Lexeme.Shape.pattern])

theorem Lexeme.length_upper (l : Lexeme) : l.upper.length = l.chars.length := by
  rw [Lexeme.upper, String.length_ofList, List.length_map]

end Quoted

namespace Token

variable {source : String} {t : Token} {used ls : List Lexeme} {ts : List Token}

/-- The token stands for the characters `text` and quotes as many, on as many lines. -/
structure InLineWith (source : String) (t : Token) (text : List Char) : Prop where
  stands : Text.StandsAt source t.span text
  length : t.lexeme.length = text.length
  lines : '\n' ∈ text ↔ '\n' ∈ t.lexeme.toList

theorem inLineWith_of_text {l : Lexeme} (hl : l ∈ Lexeme.all source) (hspan : t.span = l.site.span)
    (hlexeme : t.lexeme = l.text) : t.InLineWith source l.chars := by
  refine ⟨hspan ▸ Lexeme.standsAt_of_mem_all hl, ?_, ?_⟩
  all_goals rw [hlexeme, Lexeme.text]
  · exact String.length_ofList
  · rw [String.toList_ofList]

theorem inLineWith_of_upper {l : Lexeme} (hl : l ∈ Lexeme.all source) (hword : l.reading = .ok .word)
    (hspan : t.span = l.site.span) (hlexeme : t.lexeme = l.upper) : t.InLineWith source l.chars := by
  refine ⟨hspan ▸ Lexeme.standsAt_of_mem_all hl, ?_, ?_⟩
  all_goals rw [hlexeme]
  · exact l.length_upper
  · exact iff_of_false (Lexeme.lineFeed_not_mem hl hword (by simp [Lexeme.Shape.pattern]))
      (Lexeme.lineFeed_not_mem_upper hl hword)

/-- Whatever is no pair is quoted line by line. Only labels go on over the end of a line. -/
theorem MadeFrom.exists_inLineWith (h : MadeFrom used t) (hused : used <:+: Lexeme.all source)
    (hpair : ¬t.IsPair) :
    ∃ text, t.InLineWith source text ∧ (t.kind ≠ .label → '\n' ∉ text) := by
  have hmem : ∀ {l : Lexeme}, used = [l] → l ∈ Lexeme.all source := by
    rintro l rfl
    exact hused.subset List.mem_cons_self
  cases h with
  | @symbol l _ h | @number l _ h | @name l h =>
    exact ⟨l.chars, inLineWith_of_text (hmem rfl) rfl rfl, fun _ =>
      Lexeme.lineFeed_not_mem (hmem rfl) h (by simp [Lexeme.Shape.pattern])⟩
  | @label l =>
    exact ⟨l.chars, inLineWith_of_text (hmem rfl) rfl rfl, fun hkind => absurd rfl hkind⟩
  | @keyword l _ h | @boolean l _ h =>
    exact ⟨l.chars, inLineWith_of_upper (hmem rfl) h rfl rfl, fun _ =>
      Lexeme.lineFeed_not_mem (hmem rfl) h (by simp [Lexeme.Shape.pattern])⟩
  | pair _ _ hnext =>
    exact absurd ⟨_, rfl, Keyword.isPair_of_complete? (completion?_eq_some_iff.1 hnext).2⟩ hpair

/-- The two words of a keyword are quoted as they stand if a single separator is between them that does not
end the line. -/
theorem lineFeed_not_mem_pair_iff {first second : Lexeme} {gap : List Char} {lexeme : String}
    (hfirst : '\n' ∉ first.chars) (hsecond : '\n' ∉ second.chars)
    (hlexeme : lexeme = first.upper ++ " " ++ second.upper) :
    '\n' ∉ first.chars ++ gap ++ second.chars ∧
        lexeme.length = (first.chars ++ gap ++ second.chars).length ↔
      ∃ c, c ≠ '\n' ∧ gap = [c] := by
  have hlength : lexeme.length = (first.chars ++ gap ++ second.chars).length ↔ gap.length = 1 := by
    have hblank : " ".length = 1 := rfl
    rw [hlexeme, String.length_append, String.length_append, Lexeme.length_upper, Lexeme.length_upper, hblank,
      List.length_append, List.length_append]
    omega
  rw [hlength, List.length_eq_one_iff, List.mem_append, List.mem_append, or_iff_right hfirst,
    or_iff_left hsecond]
  constructor
  · rintro ⟨hline, c, rfl⟩
    exact ⟨c, fun hc => hline (List.mem_singleton.2 hc.symm), rfl⟩
  · rintro ⟨c, hc, rfl⟩
    exact ⟨fun hline => hc (List.mem_singleton.1 hline).symm, c, rfl⟩

/-- What the token quotes reaches as far as columns can be counted. -/
theorem Grouped.column_add_length_le (h : Grouped (Lexeme.all source) ts) (ht : t ∈ ts) :
    t.column + t.lexeme.length ≤ source.utf8ByteSize + 1 := by
  obtain ⟨used, hused, hmade⟩ := h.exists_of_mem ht
  have hposition := (h.exists_ahead ht).2.2
  by_cases hpair : t.IsPair
  · obtain ⟨stem, first, gap, second, -, -, -, -, -, hstands, hgap, -, hlexeme⟩ := (h.quotes ht).pair hpair
    have hlength : t.lexeme.length ≤ (first.chars ++ gap ++ second.chars).length := by
      have hblank : " ".length = 1 := rfl
      have hgap := List.length_pos_iff.2 hgap
      rw [hlexeme, String.length_append, String.length_append, Lexeme.length_upper, Lexeme.length_upper,
        hblank, List.length_append, List.length_append]
      omega
    exact Nat.le_trans (Nat.add_le_add_left hlength _) (hstands.column_add_length_le hposition)
  · obtain ⟨text, htext, -⟩ := hmade.exists_inLineWith hused hpair
    rw [htext.length]
    exact htext.stands.column_add_length_le hposition

end Token

/-! ### Compiling without the end -/

namespace Draft

theorem impliedEnd_append (before : List Token) (last : Token) : impliedEnd (before ++ [last]) =
    { span := ⟨last.span.stop, last.span.stop⟩, line := last.line
      column := (last.column + last.lexeme.length) % UInt64.size, kind := .eof, lexeme := "" } := by
  unfold impliedEnd
  rw [List.getLast?_concat]

theorem impliedEnd_kind (ts : List Token) : (impliedEnd ts).kind = .eof := by
  unfold impliedEnd
  split <;> rfl

/-- Leaving the end of the input out is the same as implying it. -/
theorem ofTokens_eq_append_impliedEnd {ts : List Token} (hts : ∀ t ∈ ts, t.kind ≠ .eof) :
    ofTokens ts = ofTokens (ts ++ [impliedEnd ts]) := by
  have hahead : (ts ++ [impliedEnd ts]).takeWhile (·.kind ≠ .eof) = ts.takeWhile (·.kind ≠ .eof) := by
    rw [List.takeWhile_eq_self_iff (l := ts) |>.2 (by simpa using hts)]
    exact ofTokens_ahead hts (impliedEnd_kind ts)
  have hfinish : endOf (ts ++ [impliedEnd ts]) = endOf ts := by
    have hnone : ts.find? (·.kind = .eof) = none := by simpa using hts
    have hend : endOf ts = impliedEnd ts := by
      rw [endOf, hnone]
      rfl
    rw [hend]
    exact ofTokens_finish hts (impliedEnd_kind ts)
  unfold ofTokens
  rw [hahead, hfinish]

theorem ofTokens_finish_eq_impliedEnd {ts : List Token} (hts : ∀ t ∈ ts, t.kind ≠ .eof) :
    (ofTokens ts).finish = impliedEnd ts := by
  rw [ofTokens_eq_append_impliedEnd hts, ofTokens_finish hts (impliedEnd_kind ts)]

end Draft

section Prefix

variable {source : String} {ls : List Lexeme} {ts before : List Token} {last : Token}
  {found : List Diagnostic}

/-- The implied end comes behind all tokens. -/
theorem Token.ascending_impliedEnd (hts : (before ++ [last]).Pairwise fun t t' => t.span.stop ≤ t'.span.start)
    (hspans : ∀ t ∈ before ++ [last], t.span.start < t.span.stop) :
    Ascending (before ++ [last] ++ [Draft.impliedEnd (before ++ [last])]) := by
  refine List.pairwise_append.2 ⟨?_, List.pairwise_singleton _ _, ?_⟩
  · exact hts.imp_of_mem fun ht _ hle => Nat.le_trans (Nat.le_of_lt (hspans _ ht)) hle
  · intro t ht t' ht'
    have hlast := hspans last (by simp)
    rw [List.mem_singleton.1 ht', Draft.impliedEnd_append]
    show t.span.start ≤ last.span.stop
    rcases List.mem_append.1 ht with hbefore | hlast'
    · have hstop := (List.pairwise_append.1 hts).2.2 t hbefore last List.mem_cons_self
      have hstart := hspans t ht
      omega
    · rw [List.mem_singleton.1 hlast']
      exact Nat.le_of_lt hlast

/-- That the input ends too early is said of the implied end. -/
theorem toSite_of_unexpectedEnd (hkinds : ∀ t ∈ before ++ [last], t.kind ≠ .eof)
    (hall : Token.Ascending (before ++ [last] ++ [Draft.impliedEnd (before ++ [last])]))
    (hfound : compileTokens (before ++ [last]) = .error found) {e : Diagnostic} (he : e ∈ found)
    (hcode : e.code = .unexpectedEnd) : e.toSite = (Draft.impliedEnd (before ++ [last])).toSite := by
  have horder := (Draft.inOrder_ofTokens hkinds (Draft.impliedEnd_kind _)).compiled hall rfl
  rw [← Draft.ofTokens_eq_append_impliedEnd hkinds] at horder
  unfold compileTokens Draft.result at hfound
  split at hfound
  · cases hfound
  · cases hfound
    rw [(horder.ended e (Array.mem_toList_iff.1 he) hcode).2, horder.finish_eq]

end Prefix

variable {source : String} {tokens before behind : List Token} {last : Token}

/-- The end of the input that is implied behind the first tokens of a text is said to be where the last of
them ends, as many columns behind its beginning as it has characters to quote, and that the input ends too
early is said of there. In the text, that is where the token ends if it is a keyword of two words with a
single separator between them that does not end the line, or any other token that does not go on over the
end of a line, as only labels can. -/
theorem impliedEnd_position (hscan : Token.scan source = .ok tokens)
    (htokens : tokens = before ++ last :: behind) (hbehind : behind ≠ [])
    (hsize : source.utf8ByteSize < 2 ^ 63) :
    (Draft.ofTokens (before ++ [last])).finish =
      { span := ⟨last.span.stop, last.span.stop⟩, line := last.line
        column := last.column + last.lexeme.length, kind := .eof, lexeme := "" } ∧
    (∀ found, compileTokens (before ++ [last]) = .error found → ∀ e ∈ found, e.code = .unexpectedEnd →
      e.toSite = ⟨⟨last.span.stop, last.span.stop⟩, last.line, last.column + last.lexeme.length⟩) ∧
    (last.IsPair → ∃ first gap second, [first, second] <:+: Lexeme.all source ∧
      Text.StandsAt source last.span (first.chars ++ gap ++ second.chars) ∧
      ((last.line, last.column + last.lexeme.length) = Text.position source last.span.stop ↔
        ∃ c, c ≠ '\n' ∧ gap = [c])) ∧
    (¬last.IsPair →
      ((last.line, last.column + last.lexeme.length) = Text.position source last.span.stop ↔
        '\n' ∉ last.lexeme.toList) ∧
      (last.kind ≠ .label → '\n' ∉ last.lexeme.toList)) := by
  obtain ⟨ts, htokens', hgrouped⟩ := Token.exists_grouped hscan
  obtain ⟨behind, final, rfl⟩ := (List.eq_nil_or_concat' behind).resolve_left hbehind
  obtain rfl : ts = before ++ last :: behind := by
    rw [htokens, ← List.cons_append, ← List.append_assoc] at htokens'
    exact (List.append_inj' htokens' rfl).1.symm
  have hfront : before ++ [last] <+: before ++ last :: behind := ⟨behind, by simp⟩
  have hlast : last ∈ before ++ last :: behind := List.mem_append_right _ List.mem_cons_self
  obtain ⟨used, hused, hmade⟩ := hgrouped.exists_of_mem hlast
  have hposition := (hgrouped.exists_ahead hlast).2.2
  have hkinds : ∀ t ∈ before ++ [last], t.kind ≠ .eof := by
    intro t ht
    obtain ⟨_, -, hmade⟩ := hgrouped.exists_of_mem (hfront.subset ht)
    exact hmade.kind_ne_eof
  have hend := Draft.impliedEnd_append before last
  have hcolumn : last.column + last.lexeme.length < UInt64.size := by
    have hbig : 2 ^ 63 + 1 < UInt64.size := by decide
    have hle := hgrouped.column_add_length_le hlast
    omega
  rw [Nat.mod_eq_of_lt hcolumn] at hend
  refine ⟨?_, ?_, ?_, ?_⟩
  · rw [Draft.ofTokens_finish_eq_impliedEnd hkinds, hend]
  · intro found hfound e he hcode
    have hordered := (hgrouped.ordered (Lexeme.ordered_all source)).sublist hfront.sublist
    have hall := Token.ascending_impliedEnd hordered fun t ht => hgrouped.start_lt_stop (hfront.subset ht)
    rw [toSite_of_unexpectedEnd hkinds hall hfound he hcode, hend]
  · intro hpair
    obtain ⟨stem, first, gap, second, hneighbours, hfirst, -, hsecond, -, hstands, -, -, hlexeme⟩ :=
      (hgrouped.quotes hlast).pair hpair
    refine ⟨first, gap, second, hneighbours, hstands, ?_⟩
    rw [hstands.position_stop_eq_iff hposition]
    have hword : Lexeme.Shape.word.pattern ≠ .quoted := by simp [Lexeme.Shape.pattern]
    exact Token.lineFeed_not_mem_pair_iff
      (Lexeme.lineFeed_not_mem (hneighbours.subset List.mem_cons_self) hfirst hword)
      (Lexeme.lineFeed_not_mem (hneighbours.subset (by simp)) hsecond.1 hword) hlexeme
  · intro hpair
    obtain ⟨text, htext, hlabel⟩ := hmade.exists_inLineWith hused hpair
    refine ⟨?_, fun hkind => mt htext.lines.2 (hlabel hkind)⟩
    rw [htext.stands.position_stop_eq_iff hposition, and_iff_left htext.length, not_congr htext.lines]

/-- A keyword of two words on two lines is said to end on the first of them, and so is the input, which
ends on the second. -/
theorem impliedEnd_position_splitText : ∃ before last behind found,
    Token.scan splitText = .ok (before ++ last :: behind) ∧
    compileTokens (before ++ [last]) = .error found ∧ found.map (·.code) = [.unexpectedEnd] ∧
    (∀ e ∈ found, e.toSite = ⟨⟨31, 31⟩, 1, 32⟩) ∧ Text.position splitText 31 = (2, 3) := by
  have hfacts : (Token.scan splitText).toOption.map (fun tokens =>
      (codesOf (compileTokens (tokens.take 7)),
        (tokens.drop 6).map fun t => (t.span, t.line, t.column, t.lexeme))) =
      some (some [.unexpectedEnd], [(⟨25, 31⟩, 1, 26, "END IF"), (⟨31, 31⟩, 2, 3, "")]) := by decide +kernel
  cases hscan : Token.scan splitText with
  | error e =>
    rw [hscan] at hfacts
    cases hfacts
  | ok tokens =>
    rw [hscan] at hfacts
    obtain ⟨hcodes, hdrop⟩ := Prod.mk.inj (Option.some.inj hfacts)
    obtain ⟨last, behind, htail, hlast, hbehind⟩ := List.map_eq_cons_iff.1 hdrop
    obtain ⟨final, behind, rfl, -, -⟩ := List.map_eq_cons_iff.1 hbehind
    simp only [Prod.mk.injEq] at hlast
    obtain ⟨hspan, hline, hcolumn, hlexeme⟩ := hlast
    have htokens : tokens = tokens.take 6 ++ last :: final :: behind := by
      rw [← htail, List.take_append_drop]
    have htake : tokens.take 7 = tokens.take 6 ++ [last] := by
      rw [List.take_add_one, ← List.head?_drop, htail]
      rfl
    rw [htake] at hcodes
    cases hfound : compileTokens (tokens.take 6 ++ [last]) with
    | ok chunk =>
      rw [hfound] at hcodes
      cases hcodes
    | error found =>
      rw [hfound] at hcodes
      have hcodes : found.map (·.code) = [.unexpectedEnd] := Option.some.inj hcodes
      obtain ⟨-, hsites, -⟩ := impliedEnd_position hscan htokens (List.cons_ne_nil _ _) (by decide)
      refine ⟨tokens.take 6, last, final :: behind, found, congrArg _ htokens, hfound, hcodes, ?_,
        by decide +kernel⟩
      intro e he
      have hcode : e.code = .unexpectedEnd := by
        have hmem := List.mem_map_of_mem (f := (·.code)) he
        rwa [hcodes, List.mem_singleton] at hmem
      rw [hsites found hfound e he hcode, hspan, hline, hcolumn, hlexeme]
      rfl

end BoundedLoop
