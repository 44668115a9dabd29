import BoundedLoop.Proofs.Lexing.Tiling

/-!
# Longest match

The lexemes of a text tile it: their spans are made of whole characters and lie one behind the other, and
only separators are left over. Each lexeme is the longest front of what is ahead that any pattern matches;
where none does, it is one character, or all the rest behind a quote that is never closed
(`Lexeme.tiles_by_longest_match`).
-/

namespace BoundedLoop.Lexeme

variable {source : String} {l : Lexeme} {ahead : List Char}

/-- How a lexeme and its flaw come about, given all that is ahead of it. -/
structure MatchesAhead (l : Lexeme) (ahead : List Char) : Prop where
  /-- Without a flaw it is the longest match. -/
  longest : ∀ s, l.reading = .ok s → Longest s.pattern l.chars ahead ∧ s.Holds l.chars
  /-- Digits have a flaw exactly if their number is beyond 64 bits. -/
  tooBig : l.reading = .error .numberTooBig ↔
    Pattern.digits.Matches l.chars ∧ Int64.maxValue.toInt < Text.decimal l.chars
  /-- The lexeme is invalid exactly if nothing that is ahead matches. -/
  invalid : l.reading = .error .invalid ↔ Unmatched ahead
  extent : l.reading = .error .invalid → l.chars = if ahead.head? = some '"' then ahead else ahead.take 1
  visible : ∀ c ∈ ahead.head?, c ∉ [' ', '\t', '\r', '\n', '\x0c']

theorem ReadOff.matchesAhead (h : ReadOff ahead l.reading l.chars) : l.MatchesAhead ahead := by
  obtain ⟨reading, chars, place⟩ := l
  have hvisible : ∀ c ∈ ahead.head?, c ∉ [' ', '\t', '\r', '\n', '\x0c'] := by
    intro c hc
    obtain ⟨d, more, rfl, hd⟩ := h.exists_cons
    obtain ⟨behind, rfl⟩ := h.front
    cases hc
    rw [← Pattern.isSeparator_iff, hd]
    exact Bool.false_ne_true
  dsimp only at h
  cases h with
  | @shape s _ hlongest hs =>
    refine ⟨?_, ⟨by simp, ?_⟩, ⟨by simp, ?_⟩, by simp, hvisible⟩
    · rintro s' ⟨⟩
      exact ⟨hlongest, hs⟩
    · rintro ⟨hdigits, hbig⟩
      exact absurd hbig (hs.not_tooBig (hdigits.unique hlongest.matched))
    · exact fun hnone => absurd hnone hlongest.not_unmatched
  | tooBig hlongest hbig =>
    refine ⟨by simp, ⟨fun _ => ⟨hlongest.matched, hbig⟩, fun _ => rfl⟩, ⟨by simp, ?_⟩, by simp, hvisible⟩
    exact fun hnone => absurd hnone hlongest.not_unmatched
  | @stray c rest hahead hsep hquote hnone =>
    refine ⟨by simp, ⟨by simp, ?_⟩, ⟨fun _ => hnone, fun _ => rfl⟩, ?_, hvisible⟩
    · rintro ⟨hdigits, -⟩
      exact absurd hdigits (hnone _ _ ⟨rest, hahead.symm⟩)
    · intro _
      rw [hahead, List.head?_cons, if_neg (by simpa using hquote)]
      rfl
  | @unclosed rest hahead hnone =>
    refine ⟨by simp, ⟨by simp, ?_⟩, ⟨fun _ => hnone, fun _ => rfl⟩, ?_, hvisible⟩
    · rintro ⟨hdigits, -⟩
      exact absurd hdigits (hnone _ _ List.prefix_rfl)
    · intro _
      rw [hahead, List.head?_cons, if_pos rfl]

/-- A lexeme stands at its span, and is read off what is ahead of it. -/
theorem exists_ahead_of_mem_all (hl : l ∈ all source) : ∃ behind,
    Text.Ahead source l.site.span.start (l.chars ++ behind) ∧
      l.site.span.stop = l.site.span.start + Text.bytes l.chars ∧
      ReadOff (l.chars ++ behind) l.reading l.chars := by
  obtain ⟨before, behind, hsource, hplace, hread⟩ := (tiled_allFrom {} source.toList).exists_of_mem hl
  refine ⟨behind, ⟨before, hsource, ?_⟩, Text.Place.offset_after _ _, hread⟩
  show l.place.offset = _
  rw [hplace, Text.Place.offset_after]
  exact Nat.zero_add _

theorem standsAt_of_mem_all (hl : l ∈ all source) : Text.StandsAt source l.site.span l.chars := by
  obtain ⟨behind, hahead, hstop, -⟩ := exists_ahead_of_mem_all hl
  exact ⟨behind, hahead, hstop⟩

theorem start_lt_stop_of_mem_all (hl : l ∈ all source) : l.site.span.start < l.site.span.stop := by
  obtain ⟨behind, -, hstop, hread⟩ := exists_ahead_of_mem_all hl
  obtain ⟨c, more, hchars, -⟩ := hread.exists_cons
  rw [hstop]
  refine Nat.lt_add_of_pos_right (Text.bytes_pos ?_)
  rw [hchars]
  exact List.cons_ne_nil _ _

theorem ordered_all (source : String) :
    (all source).Pairwise fun l l' => l.site.span.stop ≤ l'.site.span.start :=
  (tiled_allFrom {} source.toList).ordered

theorem separatorsOutside_all (source : String) :
    Text.SeparatorsOutside source ((all source).map (·.site.span)) := by
  intro i b hb hout
  rw [Text.toByteArray_getElem?] at hb
  refine (tiled_allFrom {} source.toList).outside hb fun l hl => ?_
  rw [show ({} : Text.Place).offset + i = i from Nat.zero_add i]
  exact hout _ (List.mem_map_of_mem hl)

/-- The lexemes of a text tile it, and each is the longest match where it begins. -/
theorem tiles_by_longest_match (source : String) :
    (∀ l ∈ all source, l.site.span.start < l.site.span.stop ∧
      (⟨l.site.span.start⟩ : String.Pos.Raw).IsValid source ∧
      (⟨l.site.span.stop⟩ : String.Pos.Raw).IsValid source ∧
      Text.StandsAt source l.site.span l.chars) ∧
    (all source).Pairwise (fun l l' => l.site.span.stop ≤ l'.site.span.start) ∧
    Text.SeparatorsOutside source ((all source).map (·.site.span)) ∧
    ∀ l ∈ all source, ∀ ahead, Text.Ahead source l.site.span.start ahead → l.MatchesAhead ahead := by
  refine ⟨?_, ordered_all source, separatorsOutside_all source, ?_⟩
  · intro l hl
    have hstands := standsAt_of_mem_all hl
    obtain ⟨behind, hahead, -⟩ := exists_ahead_of_mem_all hl
    obtain ⟨behind', hstop⟩ := hstands.ahead_stop
    exact ⟨start_lt_stop_of_mem_all hl, hahead.isValid, hstop.isValid, hstands⟩
  · intro l hl ahead hahead
    obtain ⟨behind, hbehind, -, hread⟩ := exists_ahead_of_mem_all hl
    rw [hbehind.unique hahead]
    exact hread.matchesAhead

end BoundedLoop.Lexeme
