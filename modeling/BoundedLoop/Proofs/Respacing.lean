import BoundedLoop.Proofs.Lexing.Tiling
import BoundedLoop.Proofs.Lexing.Words

/-!
# Scanning what tokens quote

The texts that the tokens of a program quote can be written down again, with any separators between them.
That scans, and to tokens of the same kinds, texts and literals (`Token.rescan_content`): a lexeme is read
off as before where a separator follows it (`Lexeme.Longest.of_separator`), and reserved words are so in
upper case too.
-/

namespace BoundedLoop

/-- Texts one behind the other, each behind its gap, and `trail` at the end. -/
def Text.spaced (gaps texts : List (List Char)) (trail : List Char) : List Char :=
  (List.zipWith (· ++ ·) gaps texts).flatten ++ trail

namespace Lexeme

/-! ### Lexemes before a separator -/

namespace Pattern.Matches

theorem not_separator {p : Pattern} {t : List Char} (h : p.Matches t) (hp : p ≠ .quoted) :
    ∀ c ∈ t, isSeparator c = false := by
  cases p with
  | symbol s =>
    obtain rfl : t = s.chars := h
    cases s <;> simp [Symbol.chars, isSeparator]
  | digits => exact fun c hc => not_separator_of_wordChar (.inr (h.2 c hc))
  | word =>
    obtain ⟨c, cs, mark, rfl, hc, hcs, hmark⟩ := h
    refine List.forall_mem_cons.2 ⟨not_separator_of_wordChar (.inl hc), List.forall_mem_append.2 ⟨?_, ?_⟩⟩
    · exact fun d hd => not_separator_of_wordChar (hcs d hd)
    · rcases hmark with rfl | rfl <;> simp [isSeparator]
  | quoted => exact absurd rfl hp

/-- Only a quoted text can go on over the end of a line. -/
theorem lineFeed_not_mem {p : Pattern} {t : List Char} (h : p.Matches t) (hp : p ≠ .quoted) : '\n' ∉ t :=
  fun hmem => absurd (h.not_separator hp '\n' hmem) (by decide)

/-- A quoted text ends with the first quote behind the one that opens it. -/
theorem eq_nil_of_quoted {t more : List Char} (h : quoted.Matches t) (h' : quoted.Matches (t ++ more)) :
    more = [] := by
  obtain ⟨content, rfl, -⟩ := h
  obtain ⟨content', hwhole, hcontent'⟩ := h'
  rw [List.cons_append, List.cons_inj_right] at hwhole
  cases hmore : more using List.reverseRecOn with
  | nil => rfl
  | append_singleton more' d =>
    rw [hmore, ← List.append_assoc] at hwhole
    refine absurd ?_ hcontent'
    rw [← (List.append_inj' hwhole rfl).1]
    simp

end Pattern.Matches

/-- In front of a separator, or at the end, nothing longer matches. -/
theorem Longest.of_separator {p : Pattern} {t behind : List Char} (h : p.Matches t)
    (hbehind : ∀ c ∈ behind.head?, isSeparator c = true) : Longest p t (t ++ behind) := by
  refine ⟨List.prefix_append _ _, h, ?_⟩
  intro q u hu hq
  by_contra hlt
  obtain ⟨more, rfl⟩ := List.prefix_of_prefix_length_le (List.prefix_append t behind) hu (by omega)
  have hmore : more <+: behind := (List.prefix_append_right_inj t).1 hu
  cases more with
  | nil => simp at hlt
  | cons d more =>
    obtain ⟨rest, rfl⟩ := hmore
    have hd : isSeparator d = true := hbehind d rfl
    -- only a quoted text goes on with a separator, and then `t` is quoted too
    by_cases hquoted : q = .quoted
    · subst hquoted
      obtain ⟨c, cs, rfl⟩ := h.exists_cons
      obtain rfl : p = .quoted := hq.begins.unique h.begins (by simp)
      cases h.eq_nil_of_quoted hq
    · rw [hq.not_separator hquoted d (by simp)] at hd
      cases hd

section Write

variable {p : Text.Place} {gap behind : List Char} {ls : List Lexeme} {l : Lexeme}

/-- A lexeme can be put between separators. -/
theorem Tiled.cons_of_separator {s : Shape} {t : List Char} (h : s.pattern.Matches t) (hs : s.Holds t)
    (hgap : ∀ c ∈ gap, isSeparator c = true) (hbehind : ∀ c ∈ behind.head?, isSeparator c = true)
    (hls : Tiled ((p.after gap).after t) behind ls) :
    Tiled p (gap ++ (t ++ behind)) (⟨.ok s, t, p.after gap⟩ :: ls) :=
  .cons (l := ⟨.ok s, t, p.after gap⟩) hgap rfl (.shape (.of_separator h hbehind) hs) hls

/-- The word in upper case, at another place. -/
def raised (l : Lexeme) (p : Text.Place) : Lexeme :=
  ⟨.ok .word, l.chars.map Char.toUpper, p⟩

@[simp] theorem upper_raised (l : Lexeme) (p : Text.Place) : (l.raised p).upper = l.upper := by
  simp [upper, raised, Function.comp_def]

@[simp] theorem lower_raised (l : Lexeme) (p : Text.Place) : (l.raised p).lower = l.lower := by
  exact congrArg String.ofList (Text.SameLetters.upper l.chars)

theorem Tiled.cons_raised (hl : l.Sound) (hword : l.reading = .ok .word)
    (hgap : ∀ c ∈ gap, isSeparator c = true) (hbehind : ∀ c ∈ behind.head?, isSeparator c = true)
    (hls : Tiled ((p.after gap).after l.upper.toList) behind ls) :
    Tiled p (gap ++ (l.upper.toList ++ behind)) (l.raised (p.after gap) :: ls) := by
  rw [upper, String.toList_ofList] at hls ⊢
  exact hls.cons_of_separator (s := .word) ((hl _ hword).1.sameLetters (.upper l.chars)) trivial hgap hbehind

end Write

end Lexeme

namespace Token

/-! ### Tokens behind their gaps -/

/-- What a token says, wherever it stands. -/
def content (t : Token) : Kind × String × Option Literal :=
  (t.kind, t.lexeme, t.literal)

section Write

variable {p : Text.Place} {gap behind trail : List Char} {gaps : List (List Char)} {used ls : List Lexeme}
  {t : Token} {ts : List Token}

/-- What a token quotes can be put between separators, and makes such a token again. -/
theorem MadeFrom.respaced (h : MadeFrom used t) (hused : ∀ l ∈ used, l.Sound)
    (hgap : ∀ c ∈ gap, Lexeme.isSeparator c = true)
    (hbehind : ∀ c ∈ behind.head?, Lexeme.isSeparator c = true)
    (hls : Lexeme.Tiled ((p.after gap).after t.lexeme.toList) behind ls) :
    ∃ used' t', Lexeme.Tiled p (gap ++ (t.lexeme.toList ++ behind)) (used' ++ ls) ∧
      MadeFrom used' t' ∧ t'.content = t.content := by
  have hkept : ∀ {l : Lexeme} {s : Lexeme.Shape}, l.Sound → l.reading = .ok s → l.text = t.lexeme →
      Lexeme.Tiled p (gap ++ (t.lexeme.toList ++ behind)) ([⟨.ok s, l.chars, p.after gap⟩] ++ ls) := by
    rintro l s hl hs htext
    rw [← htext, Lexeme.text, String.toList_ofList] at hls ⊢
    exact hls.cons_of_separator (hl s hs).1 (hl s hs).2 hgap hbehind
  cases h with
  | symbol h => exact ⟨_, _, hkept (hused _ (by simp)) h rfl, .symbol rfl, rfl⟩
  | number h => exact ⟨_, _, hkept (hused _ (by simp)) h rfl, .number rfl, rfl⟩
  | label h => exact ⟨_, _, hkept (hused _ (by simp)) h rfl, .label rfl, rfl⟩
  | name h hword => exact ⟨_, _, hkept (hused _ (by simp)) h rfl, .name rfl hword, rfl⟩
  | @keyword l k h hword =>
    refine ⟨[l.raised (p.after gap)], _, hls.cons_raised (hused l (by simp)) h hgap hbehind,
      .keyword rfl (by rwa [Lexeme.lower_raised]), ?_⟩
    simp [content, Lexeme.reservedToken]
  | @boolean l b h hword =>
    refine ⟨[l.raised (p.after gap)], _, hls.cons_raised (hused l (by simp)) h hgap hbehind,
      .boolean rfl (by rwa [Lexeme.lower_raised]), ?_⟩
    simp [content, Lexeme.reservedToken]
  | @pair l next stem k h hword hnext =>
    obtain ⟨hnextWord, hcomplete⟩ := completion?_eq_some_iff.1 hnext
    have hupper : l.upper = stem.name := Lexeme.ofLower_lower_eq_stem_iff.1 hword
    have hlexeme : (l.pairToken stem next k).lexeme.toList =
        l.upper.toList ++ ([' '] ++ next.upper.toList) := by
      simp [Lexeme.pairToken, hupper]
    have hmade : ∀ q q', MadeFrom [l.raised q, next.raised q']
        ((l.raised q).pairToken stem (next.raised q') k) := by
      intro q q'
      refine .pair rfl (by rwa [Lexeme.lower_raised]) (completion?_eq_some_iff.2 ⟨rfl, ?_⟩)
      rwa [Lexeme.lower_raised]
    rw [hlexeme, Text.Place.after_append, Text.Place.after_append] at hls
    have hsecond := hls.cons_raised (hused next (by simp)) hnextWord (by simp [Lexeme.isSeparator]) hbehind
    have hfirst := hsecond.cons_raised (hused l (by simp)) h hgap (by simp [Lexeme.isSeparator])
    rw [hlexeme, List.append_assoc, List.append_assoc]
    exact ⟨_, _, hfirst, hmade _ _, by simp [content, Lexeme.pairToken]⟩

theorem head?_spaced {texts : List (List Char)} (hgaps : ∀ gap ∈ gaps, ∀ c ∈ gap, Lexeme.isSeparator c = true)
    (hbetween : ∀ gap ∈ gaps, gap ≠ []) (htrail : ∀ c ∈ trail, Lexeme.isSeparator c = true) :
    ∀ c ∈ (Text.spaced gaps texts trail).head?, Lexeme.isSeparator c = true := by
  intro c hc
  cases gaps with
  | nil => exact htrail c (List.mem_of_mem_head? hc)
  | cons gap gaps =>
    cases texts with
    | nil => exact htrail c (List.mem_of_mem_head? hc)
    | cons text texts =>
      obtain ⟨d, gap, rfl⟩ := List.exists_cons_of_ne_nil (hbetween _ List.mem_cons_self)
      obtain rfl : d = c := by simpa [Text.spaced] using hc
      exact hgaps _ List.mem_cons_self d List.mem_cons_self

theorem Grouped.respaced (h : Grouped ls ts) (hls : ∀ l ∈ ls, l.Sound) (hlength : gaps.length = ts.length)
    (hgaps : ∀ gap ∈ gaps, ∀ c ∈ gap, Lexeme.isSeparator c = true) (hbetween : ∀ gap ∈ gaps.tail, gap ≠ [])
    (htrail : ∀ c ∈ trail, Lexeme.isSeparator c = true) (p : Text.Place) : ∃ ls' ts',
    Lexeme.Tiled p (Text.spaced gaps (ts.map (·.lexeme.toList)) trail) ls' ∧ Grouped ls' ts' ∧
      ts'.map content = ts.map content := by
  induction h generalizing gaps p with
  | nil =>
    obtain rfl := List.eq_nil_of_length_eq_zero hlength
    exact ⟨[], [], .done htrail, .nil, rfl⟩
  | @cons used ls t ts hmade hs ih =>
    obtain ⟨gap, gaps, rfl⟩ := List.exists_cons_of_length_eq_add_one hlength
    obtain ⟨hused, hls⟩ := List.forall_mem_append.1 hls
    obtain ⟨hgap, hgaps⟩ := List.forall_mem_cons.1 hgaps
    obtain ⟨ls', ts', htiled, hgrouped, hcontent⟩ := ih hls (Nat.succ.inj hlength) hgaps
      (fun g hg => hbetween g (List.mem_of_mem_tail hg)) ((p.after gap).after t.lexeme.toList)
    obtain ⟨used', t', htiled, hmade', hcontent'⟩ := hmade.respaced hused hgap
      (head?_spaced hgaps hbetween htrail) htiled
    refine ⟨used' ++ ls', t' :: ts', ?_, .cons hmade' hgrouped, ?_⟩
    · simpa [Text.spaced] using htiled
    · rw [List.map_cons, List.map_cons, hcontent', hcontent]

end Write

/-- Written down again with separators between them, the texts of tokens scan to the same content. -/
theorem rescan_content {source : String} {tokens : List Token} (h : scan source = .ok tokens)
    (gaps : List (List Char)) (trail : List Char)
    (hlength : gaps.length = (tokens.filter (·.kind ≠ .eof)).length)
    (hgaps : ∀ gap ∈ gaps, ∀ c ∈ gap, c ∈ [' ', '\t', '\r', '\n', '\x0c'])
    (hbetween : ∀ gap ∈ gaps.tail, gap ≠ [])
    (htrail : ∀ c ∈ trail, c ∈ [' ', '\t', '\r', '\n', '\x0c']) :
    ∃ tokens',
      scan (String.ofList (Text.spaced gaps ((tokens.filter (·.kind ≠ .eof)).map (·.lexeme.toList)) trail)) =
        .ok tokens' ∧ tokens'.map content = tokens.map content := by
  simp only [← Lexeme.Pattern.isSeparator_iff] at hgaps htrail
  obtain ⟨ts, rfl, hts⟩ := exists_grouped h
  have hbody : (ts ++ [endOf (Text.Place.after {} source.toList)]).filter (·.kind ≠ .eof) = ts := by
    rw [List.filter_append, List.filter_eq_self.2 fun t ht => ?_]
    · simp [endOf]
    · obtain ⟨_, -, hmade⟩ := hts.exists_of_mem ht
      exact decide_eq_true hmade.kind_ne_eof
  rw [hbody] at hlength ⊢
  obtain ⟨ls', ts', htiled, hgrouped, hcontent⟩ := hts.respaced (fun _ => Lexeme.sound_of_mem_all) hlength
    hgaps hbetween htrail {}
  have hscan := hgrouped.ofLexemes_eq (endOf (Text.Place.after {}
    (Text.spaced gaps (ts.map (·.lexeme.toList)) trail)))
  rw [← htiled.allFrom_eq] at hscan
  rw [scan, String.toList_ofList]
  refine ⟨_, hscan, ?_⟩
  rw [List.map_append, List.map_append, hcontent]
  rfl

/-- Tokens without separators between them, and a keyword on two lines. -/
def gluedText : String :=
  "N<-1abc\"É\nEND\"end\n\tif x?007yEs"

theorem rescan_content_gluedText : ∃ tokens tokens', scan gluedText = .ok tokens ∧
    scan "N <- 1 abc \"É\nEND\"\t\tEND IF\r\nx? 007 YES\x0c" = .ok tokens' ∧
    tokens'.map content = tokens.map content := by
  have hquoted : (scan gluedText).toOption.map
      (fun tokens => (tokens.filter (·.kind ≠ .eof)).map (·.lexeme.toList)) =
        some (["N", "<-", "1", "abc", "\"É\nEND\"", "END IF", "x?", "007", "YES"].map String.toList) := by
    decide +kernel
  cases hscan : scan gluedText with
  | error e =>
    rw [hscan] at hquoted
    cases hquoted
  | ok tokens =>
    rw [hscan] at hquoted
    have htexts : (tokens.filter (·.kind ≠ .eof)).map (·.lexeme.toList) = _ := Option.some.inj hquoted
    have hlength := congrArg List.length htexts
    rw [List.length_map] at hlength
    obtain ⟨tokens', hscan', hcontent⟩ := rescan_content hscan
      [[], [' '], [' '], [' '], [' '], ['\t', '\t'], ['\r', '\n'], [' '], [' ']] ['\x0c'] hlength.symm
      (by simp) (by simp) (by simp)
    refine ⟨tokens, tokens', rfl, ?_, hcontent⟩
    rw [← hscan', htexts]
    rfl

end Token

end BoundedLoop
