import BoundedLoop.Proofs.Lexing.Tiling
import BoundedLoop.Proofs.Lexing.Words

/-!
# Texts with the case of letters changed

`Text.Recased` changes letters from upper to lower case and back, where it is allowed. No pattern tells
the two apart, so such a text is tiled by the same lexemes, but for the letters of words
(`Lexeme.Tiled.recased`). The tokens of reserved words do not depend on them (`Lexeme.Variant`).
-/

namespace BoundedLoop

namespace Text

/-- `cs'` is the text `cs`, which begins at the byte `offset`, with the case of some letters changed; each
of them is at a byte where it may be. -/
inductive Recased (may : Nat → Prop) : Nat → List Char → List Char → Prop where
  | nil {offset : Nat} : Recased may offset [] []
  | keep {offset : Nat} {c : Char} {cs cs' : List Char} (hs : Recased may (offset + c.utf8Size) cs cs') :
      Recased may offset (c :: cs) (c :: cs')
  | change {offset : Nat} {c c' : Char} {cs cs' : List Char} (hmay : may offset)
      (h : c'.toLower = c.toLower) (hs : Recased may (offset + c.utf8Size) cs cs') :
      Recased may offset (c :: cs) (c' :: cs')

namespace Recased

variable {may : Nat → Prop} {offset : Nat} {c c' : Char} {cs cs' ds : List Char}

theorem cons_iff : Recased may offset (c :: cs) (c' :: cs') ↔
    (c' = c ∨ may offset ∧ c'.toLower = c.toLower) ∧ Recased may (offset + c.utf8Size) cs cs' := by
  constructor
  · intro h
    cases h with
    | keep hs => exact ⟨.inl rfl, hs⟩
    | change hmay h hs => exact ⟨.inr ⟨hmay, h⟩, hs⟩
  · rintro ⟨rfl | ⟨hmay, h⟩, hs⟩
    · exact .keep hs
    · exact .change hmay h hs

instance instDecidable [DecidablePred may] :
    (offset : Nat) → (cs cs' : List Char) → Decidable (Recased may offset cs cs')
  | _, [], [] => .isTrue .nil
  | _, [], _ :: _ => .isFalse (by rintro ⟨⟩)
  | _, _ :: _, [] => .isFalse (by rintro ⟨⟩)
  | offset, c :: cs, c' :: cs' =>
    have := instDecidable (offset + c.utf8Size) cs cs'
    decidable_of_iff _ cons_iff.symm

theorem sameLetters (h : Recased may offset cs cs') : SameLetters cs cs' := by
  induction h with
  | nil => rfl
  | keep _ ih => exact congrArg (_ :: ·) ih
  | change _ h _ ih => exact congrArg₂ List.cons h ih

/-- A text is changed part by part. -/
theorem exists_append (h : Recased may offset (cs ++ ds) cs') : ∃ first second, cs' = first ++ second ∧
    Recased may offset cs first ∧ Recased may (offset + bytes cs) ds second := by
  induction cs generalizing offset cs' with
  | nil => exact ⟨[], cs', rfl, .nil, h⟩
  | cons c cs ih =>
    rw [bytes, ← Nat.add_assoc]
    cases h with
    | keep hs =>
      obtain ⟨first, second, rfl, hfirst, hsecond⟩ := ih hs
      exact ⟨c :: first, second, rfl, .keep hfirst, hsecond⟩
    | @change _ _ c' _ _ hmay h hs =>
      obtain ⟨first, second, rfl, hfirst, hsecond⟩ := ih hs
      exact ⟨c' :: first, second, rfl, .change hmay h hfirst, hsecond⟩

/-- Where no letter may be changed, the text is the same. -/
theorem eq_of_not_may (h : Recased may offset cs cs')
    (hnot : ∀ i, (⟨offset, offset + bytes cs⟩ : Span).Covers i → ¬may i) : cs' = cs := by
  induction h with
  | nil => rfl
  | @keep offset c cs cs' _ ih =>
    rw [ih fun i hi => hnot i ⟨?_, ?_⟩]
    · exact Nat.le_trans (Nat.le_add_right _ _) hi.1
    · rw [bytes, ← Nat.add_assoc]
      exact hi.2
  | @change offset c c' cs cs' hmay =>
    refine absurd hmay (hnot offset ⟨Nat.le_refl _, ?_⟩)
    exact Nat.lt_add_of_pos_right (bytes_pos (List.cons_ne_nil c cs))

end Recased

end Text

namespace Lexeme

/-- The longest match is the same but for the case of letters. -/
theorem Longest.sameLetters {p : Pattern} {t ahead ahead' : List Char} (h : Longest p t ahead)
    (hsame : Text.SameLetters ahead ahead') : Longest p (ahead'.take t.length) ahead' := by
  have hlength : (ahead'.take t.length).length = t.length := (hsame.of_prefix h.front).length
  refine ⟨List.take_prefix _ _, h.matched.sameLetters (hsame.of_prefix h.front), ?_⟩
  intro q u hu hq
  have hback := hsame.symm.of_prefix hu
  rw [hlength, ← hback.length]
  exact h.longest q _ (List.take_prefix _ _) (hq.sameLetters hback)

/-- `l'` is `l`, or is a word like `l` but for the case of letters. -/
inductive Variant (may : Nat → Prop) (l' l : Lexeme) : Prop where
  | same (h : l' = l)
  | word (hword : l.reading = .ok .word) (hreading : l'.reading = .ok .word) (hplace : l'.place = l.place)
      (hchars : Text.Recased may l.place.offset l.chars l'.chars)

namespace Variant

variable {may : Nat → Prop} {l' l : Lexeme}

theorem eq_of_ne_word (h : Variant may l' l) (hword : l.reading ≠ .ok .word) : l' = l := by
  cases h with
  | same h => exact h
  | word h => exact absurd h hword

theorem eq_of_not_may (h : Variant may l' l) (hnot : ∀ i, l.site.span.Covers i → ¬may i) : l' = l := by
  obtain ⟨reading, chars, place⟩ := l
  obtain ⟨reading', chars', place'⟩ := l'
  cases h with
  | same h => exact h
  | word hword hreading hplace hchars =>
    dsimp only at hword hreading hplace hchars
    rw [site_span] at hnot
    rw [hchars.eq_of_not_may hnot, hplace, hreading, hword]

theorem reading (h : Variant may l' l) : l'.reading = l.reading := by
  cases h with
  | same h => rw [h]
  | word hword hreading => rw [hword, hreading]

theorem place (h : Variant may l' l) : l'.place = l.place := by
  cases h with
  | same h => rw [h]
  | word _ _ hplace => exact hplace

theorem sameLetters (h : Variant may l' l) : Text.SameLetters l.chars l'.chars := by
  cases h with
  | same h => rw [h]; rfl
  | word _ _ _ hchars => exact hchars.sameLetters

theorem site (h : Variant may l' l) : l'.site = l.site := by
  unfold Lexeme.site Text.Place.site
  rw [h.place, h.sameLetters.after_eq]

theorem lower (h : Variant may l' l) : l'.lower = l.lower :=
  congrArg String.ofList h.sameLetters

theorem upper (h : Variant may l' l) : l'.upper = l.upper :=
  congrArg String.ofList (Text.SameLetters.iff_upper.1 h.sameLetters)

theorem reservedToken (h : Variant may l' l) (kind : Token.Kind) (literal : Option Token.Literal) :
    l'.reservedToken kind literal = l.reservedToken kind literal := by
  unfold Lexeme.reservedToken
  rw [h.site, h.upper]

theorem pairToken {next next' : Lexeme} (h : Variant may l' l) (hnext : Variant may next' next)
    (stem : Stem) (k : Keyword) : l'.pairToken stem next' k = l.pairToken stem next k := by
  unfold Lexeme.pairToken
  rw [h.site, h.place, hnext.site, hnext.upper]

theorem completion? (h : Variant may l' l) (stem : Stem) :
    Token.completion? stem l' = Token.completion? stem l := by
  unfold Token.completion?
  rw [h.reading, h.lower]

end Variant

/-- A lexeme is read off as its variant, unless it is a quoted text that is changed. -/
theorem ReadOff.recased {may : Nat → Prop} {l : Lexeme} {t' rest rest' : List Char}
    (h : ReadOff (l.chars ++ rest) l.reading l.chars) (hok : ∃ s, l.reading = .ok s)
    (ht' : Text.Recased may l.place.offset l.chars t') (hrest' : Text.SameLetters rest rest')
    (hquoted : ∀ content, l.reading = .ok (.quoted content) → t' = l.chars) :
    ReadOff (t' ++ rest') l.reading t' ∧ Variant may { l with chars := t' } l := by
  obtain ⟨reading, chars, place⟩ := l
  obtain ⟨s, rfl⟩ := hok
  dsimp only at h ht' hquoted ⊢
  cases h with
  | shape hlongest hholds =>
    have hlongest' := hlongest.sameLetters (ht'.sameLetters.append hrest')
    rw [List.take_left' ht'.sameLetters.length] at hlongest'
    by_cases hword : s = .word
    · subst hword
      exact ⟨.shape hlongest' trivial, .word rfl rfl rfl ht'⟩
    · have hkept : t' = chars := by
        cases s with
        | word => exact absurd rfl hword
        | quoted content => exact hquoted content rfl
        | _ =>
          refine ht'.sameLetters.eq_of_not_alpha (hlongest.matched.not_alpha ?_ ?_) <;> simp [Shape.pattern]
      subst hkept
      exact ⟨.shape hlongest' hholds, .same rfl⟩

/-- With the case of letters changed, but not in quoted texts, there are the same lexemes but for
these letters. -/
theorem Tiled.recased {may : Nat → Prop} {p : Text.Place} {cs cs' : List Char} {ls : List Lexeme}
    (h : Tiled p cs ls) (hsame : Text.Recased may p.offset cs cs')
    (hok : ∀ l ∈ ls, ∃ s, l.reading = .ok s)
    (hquoted : ∀ l ∈ ls, ∀ content, l.reading = .ok (.quoted content) →
      ∀ i, l.site.span.Covers i → ¬may i) :
    ∃ ls', Tiled p cs' ls' ∧ List.Forall₂ (Variant may) ls' ls := by
  have hgaps : ∀ {gap gap' : List Char}, (∀ c ∈ gap, isSeparator c = true) → Text.SameLetters gap gap' →
      gap' = gap := by
    intro gap gap' hgap hsame
    refine hsame.eq_of_not_alpha fun c hc => ?_
    have hnone : ∀ c ∈ [' ', '\t', '\r', '\n', '\x0c'], c.isAlpha = false := by simp
    exact hnone c (Pattern.isSeparator_iff.1 (hgap c hc))
  induction h generalizing cs' with
  | done hgap =>
    rw [hgaps hgap hsame.sameLetters]
    exact ⟨[], .done hgap, .nil⟩
  | @cons p gap rest l ls hgap hplace hread hs ih =>
    obtain ⟨gap', ahead', rfl, hgap', hahead'⟩ := hsame.exists_append
    obtain ⟨t', rest', rfl, ht', hrest'⟩ := hahead'.exists_append
    obtain rfl := hgaps hgap hgap'.sameLetters
    rw [← Text.Place.offset_after, ← hplace] at ht' hrest'
    rw [← Text.Place.offset_after] at hrest'
    obtain ⟨hok', hok⟩ := List.forall_mem_cons.1 hok
    obtain ⟨hquoted', hquoted⟩ := List.forall_mem_cons.1 hquoted
    obtain ⟨ls', htiled, hvariants⟩ := ih hrest' hok hquoted
    rw [site_span] at hquoted'
    obtain ⟨hread', hvariant⟩ := hread.recased hok' ht' hrest'.sameLetters fun content hcontent =>
      ht'.eq_of_not_may (hquoted' content hcontent)
    rw [← ht'.sameLetters.after_eq] at htiled
    refine ⟨{ l with chars := t' } :: ls', ?_, .cons hvariant hvariants⟩
    exact .cons (l := { l with chars := t' }) hgap hplace hread' htiled

end Lexeme

end BoundedLoop
