import BoundedLoop.Proofs.Recovery
import BoundedLoop.Proofs.Scanning
import BoundedLoop.Proofs.Truncation.Blind

/-!
# Tokens that are cut off, and text that is

The first tokens of a text can be compiled by themselves, with an end of the input that is implied
behind the last of them, or the text can be cut behind the last of them, scanned again and compiled.
Both come to the same (`compiles_alike_of_cut`): the same code, or diagnostics that say the same of
the same bytes. Only the line and the column of the end of the input may differ.
-/

namespace BoundedLoop

/-- A diagnostic without its line and column: its class, the bytes in question and the sentence. -/
def Diagnostic.gist (e : Diagnostic) : Code × Span × String :=
  (e.code, e.span, e.problem.message)

theorem Token.stopOf_eq_getLast? (start : Nat) (ts : List Token) :
    stopOf start ts = (ts.getLast?.map (·.span.stop)).getD start := by
  induction ts generalizing start with
  | nil => rfl
  | cons t ts ih =>
    show stopOf t.span.stop ts = _
    rw [ih, List.getLast?_cons]
    cases ts.getLast? <;> rfl

namespace Draft

/-- The implied end of the input is the end of a text that ends with the last token, but for line
and column. -/
theorem endOf_eq_movedTo {ts : List Token} {p : Text.Place} (hp : p.offset = Token.stopOf 0 ts) :
    Token.endOf p = (impliedEnd ts).movedTo p.line p.column := by
  have hend : Token.endOf p =
      { span := ⟨p.offset, p.offset⟩, line := p.line, column := p.column, kind := .eof,
        lexeme := "" } := rfl
  rw [Token.stopOf_eq_getLast?] at hp
  rw [hend, hp]
  unfold impliedEnd
  cases ts.getLast? <;> rfl

theorem twin_ofTokens {ts : List Token} {p : Text.Place} (hts : ∀ t ∈ ts, t.kind ≠ .eof)
    (hp : p.offset = Token.stopOf 0 ts) : (ofTokens ts).Twin (ofTokens (ts ++ [Token.endOf p])) := by
  have hahead : (ofTokens ts).ahead = ts := by
    show ts.takeWhile (·.kind ≠ .eof) = ts
    exact List.takeWhile_eq_self_iff.2 (by simpa using hts)
  have hfinish : (ofTokens ts).finish = impliedEnd ts := by
    have hnone : ts.find? (·.kind = .eof) = none := by simpa using hts
    show (ts.find? (·.kind = .eof)).getD (impliedEnd ts) = impliedEnd ts
    rw [hnone]
    rfl
  have hstart : ∀ tokens, ofTokens tokens =
      { ahead := (ofTokens tokens).ahead
        finish := (ofTokens tokens).finish
        chunk := ({} : Chunk).takeSlot
        scope := ({} : Scope).declare Token.outputName Chunk.outputSlot } := fun _ => rfl
  have hends : ofTokens (ts ++ [Token.endOf p]) = (ofTokens ts).endingAt p.line p.column #[] := by
    rw [hstart (ts ++ [Token.endOf p]), ofTokens_ahead hts rfl, ofTokens_finish hts rfl,
      endOf_eq_movedTo hp, hstart ts, hahead, hfinish]
  rw [hends]
  refine .mk p.line p.column #[] ?_ rfl
  rw [hfinish]
  unfold impliedEnd
  split <;> rfl

namespace Twin

variable {d d' : Draft}

theorem compiled_twin (h : d.Twin d') : d.compiled.Twin d'.compiled := by
  have houtcome := (CompileM.blind_program (d.ahead.length + 1)).blind d d' h
  unfold compiled EStateM.run
  rw [h.ahead]
  generalize CompileM.program (d.ahead.length + 1) d = r at houtcome ⊢
  generalize CompileM.program (d.ahead.length + 1) d' = r' at houtcome ⊢
  cases houtcome with
  | ok _ h => exact h
  | error _ h => exact h

/-- Twins amount to the same code, or to diagnostics that say the same. -/
theorem result_cases (h : d.Twin d') : (∃ chunk, d.result = .ok chunk ∧ d'.result = .ok chunk) ∨
    ∃ found found', d.result = .error found ∧ d'.result = .error found' ∧
      found'.map Diagnostic.gist = found.map Diagnostic.gist := by
  rcases h with ⟨line, column, found, -, hfound⟩
  have hgists : found.toList.map Diagnostic.gist = d.diagnostics.toList.map Diagnostic.gist := by
    have hgist := congrArg (List.map fun c : Span × Problem => (c.2.code, c.1, c.2.message)) hfound
    rw [List.map_map, List.map_map] at hgist
    exact hgist
  have hempty : found.isEmpty = d.diagnostics.isEmpty := by
    have hlength := congrArg List.length hfound
    rw [List.length_map, List.length_map, Array.length_toList, Array.length_toList] at hlength
    unfold Array.isEmpty
    rw [hlength]
  unfold result
  simp only [hempty]
  by_cases hclean : d.diagnostics.isEmpty = true
  · exact .inl ⟨d.chunk, if_pos hclean, if_pos hclean⟩
  · exact .inr ⟨_, _, if_neg hclean, if_neg hclean, hgists⟩

end Twin

end Draft

variable {source : String} {tokens : List Token} {n : Nat}

/-- Compiling the first tokens of a text is compiling the text up to the last of them. -/
theorem compiles_alike_of_cut (hscan : Token.scan source = .ok tokens) (hn : n < tokens.length)
    {s : String} (hs : s = Text.upTo (Token.stopOf 0 (tokens.take n)) source) :
    s.toList <+: source.toList ∧ s.utf8ByteSize = Token.stopOf 0 (tokens.take n) ∧
    (∃ finish, Token.scan s = .ok (tokens.take n ++ [finish])) ∧
    ((∃ chunk, compileTokens (tokens.take n) = .ok chunk ∧ compile s = .ok chunk) ∨
      ∃ found found', compileTokens (tokens.take n) = .error found ∧
        compile s = .error (.compile found') ∧
        found'.map Diagnostic.gist = found.map Diagnostic.gist) := by
  subst hs
  obtain ⟨hbegins, hsize, p, hp, hcut⟩ := Token.scan_upTo hscan hn
  refine ⟨hbegins, hsize, ⟨_, hcut⟩, ?_⟩
  have hkinds : ∀ t ∈ tokens.take n, t.kind ≠ .eof := by
    obtain ⟨last, -, body, rfl, hbody⟩ := Token.endBy_of_scan hscan
    rw [List.length_append, List.length_singleton] at hn
    rw [List.take_append_of_le_length (Nat.le_of_lt_succ hn)]
    exact fun t ht => hbody t (List.mem_of_mem_take ht)
  have hcompile : compile (Text.upTo (Token.stopOf 0 (tokens.take n)) source) =
      (compileTokens (tokens.take n ++ [Token.endOf p])).mapError .compile := by
    unfold compile
    rw [hcut]
  rw [hcompile]
  unfold compileTokens
  rcases (Draft.twin_ofTokens hkinds hp).compiled_twin.result_cases with
    ⟨chunk, hleft, hright⟩ | ⟨found, found', hleft, hright, hgist⟩
  · rw [hleft, hright]
    exact .inl ⟨chunk, rfl, rfl⟩
  · rw [hleft, hright]
    exact .inr ⟨found, found', rfl, rfl, hgist⟩

/-- A keyword of two words on two lines, at the end of a loop that is not closed. -/
def splitText : String := "LOOP 1 TIMES IF YES THEN END\nIF"

/-- The same text with the rest of the loop behind it. -/
def closedText : String := splitText ++ " OUTPUT <- 1 END LOOP"

/-- The lines that diagnostics are said to be on. -/
def linesOf : Except CompileFailure Chunk → List Nat
  | .error (.compile found) => found.map (·.line)
  | _ => []

/-- A loop that compiles is cut in its body, behind the seventh of its tokens. What is left is refused
either way, but the two ends of the input are on different lines. -/
theorem compiles_alike_of_cut_splitText : ∃ tokens found found',
    Token.scan closedText = .ok tokens ∧ tokens.length = 12 ∧ (compile closedText).isOk ∧
    Text.upTo (Token.stopOf 0 (tokens.take 7)) closedText = splitText ∧
    splitText.utf8ByteSize < closedText.utf8ByteSize ∧
    compileTokens (tokens.take 7) = .error found ∧ compile splitText = .error (.compile found') ∧
    found.map (·.line) = [1] ∧ found'.map (·.line) = [2] ∧
    found'.map Diagnostic.gist = found.map Diagnostic.gist := by
  have hfacts : (Token.scan closedText).toOption.map (fun tokens =>
      (tokens.length, Text.upTo (Token.stopOf 0 (tokens.take 7)) closedText,
        linesOf ((compileTokens (tokens.take 7)).mapError .compile))) =
      some (12, splitText, [1]) := by decide +kernel
  have hlines' : linesOf (compile splitText) = [2] := by decide +kernel
  cases hscan : Token.scan closedText with
  | error e =>
    rw [hscan] at hfacts
    cases hfacts
  | ok tokens =>
    rw [hscan] at hfacts
    obtain ⟨hlength, hcut, hlines⟩ : tokens.length = 12 ∧
        Text.upTo (Token.stopOf 0 (tokens.take 7)) closedText = splitText ∧
        linesOf ((compileTokens (tokens.take 7)).mapError .compile) = [1] := by
      simpa [Except.toOption] using hfacts
    obtain ⟨-, -, -, h⟩ := compiles_alike_of_cut hscan (by rw [hlength]; decide) hcut.symm
    rcases h with ⟨chunk, hchunk, -⟩ | ⟨found, found', hfound, hfound', hgist⟩
    · rw [hchunk] at hlines
      cases hlines
    · rw [hfound] at hlines
      rw [hfound'] at hlines'
      exact ⟨tokens, found, found', rfl, hlength, by decide +kernel, hcut, by decide +kernel, hfound,
        hfound', hlines, hlines', hgist⟩

end BoundedLoop
