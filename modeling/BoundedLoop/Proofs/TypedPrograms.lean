import BoundedLoop.CommandLine.Session
import Mathlib.Data.List.Infix

/-!
# Programs typed one after another

A program is typed in as lines that are not blank and a blank line behind them (`TypedProgram`). The
buffer keeps the lines of all the programs before it, so a blank line processes them together
(`feedAll_lines`): the `k`th blank line of a session prints what the first `k` programs print as one
(`transcript_of_programs`). The first program is on its own, and every later one sees the text of
those in front of it.
-/

namespace BoundedLoop.CommandLine

variable {runToEnd : Chunk → Stop × Machine} {o : Options}

/-! ### Lines -/

theorem rawLines_append {line : List Char} (h : '\n' ∉ line) (begun rest : List Char) :
    rawLines begun (line ++ rest) = rawLines (line.reverse ++ begun) rest := by
  induction line generalizing begun with
  | nil => rfl
  | cons c line ih =>
    have hc : c ≠ '\n' := fun e => h (e ▸ List.mem_cons_self)
    have hline : '\n' ∉ line := fun hmem => h (List.mem_cons_of_mem c hmem)
    rw [List.cons_append, rawLines, if_neg hc, ih hline, List.reverse_cons, List.append_assoc]
    rfl

/-- The line that is read when `line` is typed and ended. -/
def readAs (line : String) : String :=
  typedLine (line ++ "\n").toList

theorem inputLines_append {line : String} (h : '\n' ∉ line.toList) (rest : String) :
    inputLines (line ++ "\n" ++ rest) = readAs line :: inputLines rest := by
  have hsplit : (line ++ "\n" ++ rest).toList = line.toList ++ '\n' :: rest.toList := by
    rw [String.append_assoc, String.toList_append, String.toList_append]
    rfl
  have hended : (line ++ "\n").toList = ('\n' :: (line.toList.reverse ++ [])).reverse := by
    rw [String.toList_append, List.append_nil, List.reverse_cons, List.reverse_reverse]
    rfl
  unfold inputLines
  rw [hsplit, rawLines_append h, rawLines, if_pos rfl, List.map_cons]
  show typedLine _ :: _ = typedLine _ :: _
  rw [hended]

theorem stripLineEnd_append {line : List Char} (h : line.getLast? ≠ some '\r') :
    stripLineEnd (line ++ ['\n']) = line := by
  unfold stripLineEnd
  rw [List.reverse_append, List.reverse_singleton, List.singleton_append]
  rw [List.getLast?_eq_head?_reverse] at h
  split
  · rename_i cs hreverse
    obtain ⟨-, hreverse⟩ := List.cons.inj hreverse
    rw [hreverse] at h
    exact absurd rfl h
  · rename_i hreverse
    obtain ⟨-, rfl⟩ := List.cons.inj hreverse
    exact List.reverse_reverse line
  · rename_i hnone
    exact absurd rfl (hnone _)

/-- A line without backspaces, and without a carriage return at its end, is read as it is. -/
theorem readAs_eq_self {line : String} (hbackspace : Text.backspace ∉ line.toList)
    (hreturn : line.toList.getLast? ≠ some '\r') : readAs line = line := by
  have hended : (line ++ "\n").toList = line.toList ++ ['\n'] := String.toList_append
  unfold readAs typedLine
  rw [hended, stripLineEnd_append hreturn, Text.erase_eq_self hbackspace, String.ofList_toList]

/-! ### Programs -/

/-- A program as it is typed in. What counts for the buffer is the lines that are read. -/
structure TypedProgram where
  lines : List String
  /-- the line that asks to process the program -/
  closing : String
  nonempty : lines ≠ []
  oneLine : ∀ line ∈ lines, '\n' ∉ line.toList
  visible : ∀ line ∈ lines, Text.isBlankText (readAs line) = false
  closingOneLine : '\n' ∉ closing.toList
  closingBlank : Text.isBlankText (readAs closing) = true

namespace TypedProgram

/-- What is typed: every line is ended, the blank one too. -/
def typed (p : TypedProgram) : String :=
  String.join (p.lines.map (· ++ "\n")) ++ (p.closing ++ "\n")

/-- The text of the program: its lines as they are read, each followed by a newline. -/
def source (p : TypedProgram) : String :=
  String.join (p.lines.map (readAs · ++ "\n"))

def readLines (p : TypedProgram) : List String :=
  p.lines.map readAs ++ [readAs p.closing]

theorem source_ne_empty (p : TypedProgram) : p.source ≠ "" := by
  obtain ⟨line, lines, hlines⟩ := List.exists_cons_of_ne_nil p.nonempty
  unfold source
  rw [hlines, List.map_cons, String.join_cons]
  intro hempty
  have hnewline := (String.append_eq_empty_iff.1 (String.append_eq_empty_iff.1 hempty).1).2
  exact absurd hnewline (by decide)

/-- No line has a backspace, or a carriage return at its end. -/
def Plain (p : TypedProgram) : Prop :=
  ∀ line ∈ p.lines, Text.backspace ∉ line.toList ∧ line.toList.getLast? ≠ some '\r'

/-- The text of plain lines is what is typed, without the blank line. -/
theorem Plain.source_eq {p : TypedProgram} (h : p.Plain) :
    p.source = String.join (p.lines.map (· ++ "\n")) := by
  unfold source
  congr 1
  refine List.map_congr_left ?_
  intro line hline
  rw [readAs_eq_self (h line hline).1 (h line hline).2]

theorem inputLines_lines (rest : String) :
    ∀ lines : List String, (∀ line ∈ lines, '\n' ∉ line.toList) →
      inputLines (String.join (lines.map (· ++ "\n")) ++ rest) =
        lines.map readAs ++ inputLines rest := by
  intro lines
  induction lines with
  | nil => exact fun _ => congrArg inputLines String.empty_append
  | cons line lines ih =>
    intro hlines
    rw [List.map_cons, String.join_cons, String.append_assoc,
      inputLines_append (hlines line List.mem_cons_self),
      ih fun other hother => hlines other (List.mem_cons_of_mem line hother)]
    rfl

theorem inputLines_typed (p : TypedProgram) (rest : String) :
    inputLines (p.typed ++ rest) = p.readLines ++ inputLines rest := by
  unfold typed readLines
  rw [String.append_assoc, inputLines_lines _ p.lines p.oneLine, inputLines_append p.closingOneLine,
    List.append_assoc]
  rfl

/-- The lines of a session are those of its programs. -/
theorem inputLines_session (ps : List TypedProgram) :
    inputLines (String.join (ps.map typed)) = ps.flatMap readLines := by
  induction ps with
  | nil => decide
  | cons p ps ih => rw [List.map_cons, String.join_cons, inputLines_typed, ih, List.flatMap_cons]

end TypedProgram

/-! ### The buffer -/

theorem feedAll_visible (b : Buffer) (rest : List String) :
    ∀ lines : List String, (∀ line ∈ lines, Text.isBlankText (readAs line) = false) →
      b.feedAll runToEnd o (lines.map readAs ++ rest) =
        Buffer.feedAll runToEnd o ⟨b.text ++ String.join (lines.map (readAs · ++ "\n"))⟩ rest := by
  intro lines
  induction lines generalizing b with
  | nil =>
    intro _
    rw [List.map_nil, List.map_nil, String.join_nil, String.append_empty]
    rfl
  | cons line lines ih =>
    intro hlines
    have hfeed : b.feed runToEnd o (readAs line) = (⟨b.text ++ readAs line ++ "\n"⟩, "") := by
      unfold Buffer.feed
      rw [hlines line List.mem_cons_self]
      rfl
    rw [List.map_cons, List.cons_append, Buffer.feedAll, hfeed]
    show "" ++ Buffer.feedAll runToEnd o ⟨b.text ++ readAs line ++ "\n"⟩ (lines.map readAs ++ rest) = _
    rw [String.empty_append, ih _ fun other hother => hlines other (List.mem_cons_of_mem line hother),
      List.map_cons, String.join_cons, String.append_assoc, String.append_assoc, String.append_assoc]

/-- One program: its blank line processes the buffer together with it, and the buffer keeps it. -/
theorem feedAll_lines (b : Buffer) (p : TypedProgram) (rest : List String) :
    b.feedAll runToEnd o (p.readLines ++ rest) =
      (process runToEnd o typedName (b.text ++ p.source)).text ++
        Buffer.feedAll runToEnd o ⟨b.text ++ p.source⟩ rest := by
  have hfull : (b.text ++ p.source).isEmpty = false := by
    rw [String.isEmpty_eq_false_iff]
    exact fun hempty => p.source_ne_empty (String.append_eq_empty_iff.1 hempty).2
  have hfeed : Buffer.feed runToEnd o ⟨b.text ++ p.source⟩ (readAs p.closing) =
      (⟨b.text ++ p.source⟩, (process runToEnd o typedName (b.text ++ p.source)).text) := by
    unfold Buffer.feed
    rw [p.closingBlank, hfull]
    rfl
  unfold TypedProgram.readLines
  rw [List.append_assoc, feedAll_visible b _ p.lines p.visible]
  show Buffer.feedAll runToEnd o ⟨b.text ++ p.source⟩ (readAs p.closing :: rest) = _
  rw [Buffer.feedAll, hfeed]

/-- Any number of programs: each blank line processes what the buffer held at first, and all the
programs so far. -/
theorem feedAll_session (b : Buffer) (ps : List TypedProgram) :
    b.feedAll runToEnd o (ps.flatMap TypedProgram.readLines) =
      String.join (ps.inits.tail.map fun before =>
        (process runToEnd o typedName
          (b.text ++ String.join (before.map TypedProgram.source))).text) := by
  induction ps generalizing b with
  | nil => rfl
  | cons p ps ih =>
    -- the beginnings of a session that are not empty: its first program, and that with more behind it
    have hinits : (p :: ps).inits.tail = [p] :: ps.inits.tail.map (p :: ·) := by
      rw [List.inits_cons, List.tail_cons]
      cases ps with
      | nil => rfl
      | cons q qs => rw [List.inits_cons, List.map_cons, List.tail_cons]
    have hgrown : ∀ before : List TypedProgram,
        b.text ++ String.join ((p :: before).map TypedProgram.source) =
        b.text ++ p.source ++ String.join (before.map TypedProgram.source) := by
      intro before
      rw [List.map_cons, String.join_cons, String.append_assoc]
    rw [List.flatMap_cons, feedAll_lines, ih, hinits, List.map_cons, String.join_cons, List.map_map,
      hgrown [], List.map_nil, String.join_nil, String.append_empty]
    simp only [Function.comp_def, hgrown]

/-- A session of typed programs prints, at each blank line, what all the programs so far print as
one text under the name of typed programs, and nothing else. The programs are independent only as
far as that text allows. The text of a plain program is its lines, each followed by a newline. -/
theorem transcript_of_programs {arguments : List String}
    (harguments : Request.ofArguments arguments = .ok (.run o))
    (hfile : o.file = none) (files : Surroundings) (ps : List TypedProgram) :
    transcript runToEnd files (String.join (ps.map TypedProgram.typed)) arguments =
      { out := String.join (ps.inits.tail.map fun before =>
          (process runToEnd o typedName (String.join (before.map TypedProgram.source))).text) } ∧
    ∀ p ∈ ps, p.Plain → p.source = String.join (p.lines.map (· ++ "\n")) := by
  refine ⟨?_, fun p _ hplain => hplain.source_eq⟩
  unfold transcript
  rw [harguments]
  simp only [hfile]
  unfold typedTranscript
  rw [TypedProgram.inputLines_session, feedAll_session]
  simp only [String.empty_append]

/-- A program of one line. -/
def TypedProgram.single (line : String) (honeLine : '\n' ∉ line.toList)
    (hvisible : Text.isBlankText (readAs line) = false) : TypedProgram where
  lines := [line]
  closing := ""
  nonempty := List.cons_ne_nil line []
  oneLine _ hmem := List.mem_singleton.1 hmem ▸ honeLine
  visible _ hmem := List.mem_singleton.1 hmem ▸ hvisible
  closingOneLine := by decide
  closingBlank := by decide +kernel

def yesProgram : TypedProgram := .single "OUTPUT <- YES" (by decide +kernel) (by decide +kernel)

def oneProgram : TypedProgram := .single "OUTPUT <- 1" (by decide +kernel) (by decide +kernel)

/-- Runs a chunk for a while, which is enough for programs of one line. -/
def runAWhile (chunk : Chunk) : Stop × Machine :=
  let (stop, _, m) := Machine.step chunk ⟨9⟩ (.ofChunk chunk)
  (stop, m)

/-- The first diagnostic of a text that does not compile. -/
def firstDiagnostic? (source : String) : Option Diagnostic :=
  match compile source with
  | .error (.compile found) => found.head?
  | _ => none

/-- What is printed about a program with errors starts with a headline, unlike a value. -/
theorem head?_process_of_errors (runToEnd : Chunk → Stop × Machine) (o : Options) (name : String)
    {source : String} (h : (firstDiagnostic? source).isSome = true) :
    (process runToEnd o name source).text.toList.head? = some 'e' := by
  unfold firstDiagnostic? at h
  split at h
  case h_2 => cases h
  rename_i found hcompile
  obtain ⟨d, found, rfl⟩ := List.exists_cons_of_ne_nil (List.isSome_head?.1 h)
  unfold process
  rw [hcompile]
  show (String.join ((d :: found).map (Report.ofDiagnostic name source))).toList.head? = some 'e'
  rw [List.map_cons, String.join_cons]
  unfold Report.ofDiagnostic Report.report
  simp only [List.map_cons, String.join_cons, String.toList_append]
  rfl

/-- Each of two programs prints a value if it is alone. One behind the other, the second one does
not compile. -/
theorem transcript_of_programs_again :
    (transcript runAWhile {} yesProgram.typed []).out = "YES\n" ∧
    (transcript runAWhile {} oneProgram.typed []).out = "1\n" ∧
    (transcript runAWhile {} (String.join [yesProgram.typed, oneProgram.typed]) []).out ≠
      "YES\n" ++ "1\n" := by
  have hout := (@transcript_of_programs runAWhile {} [] rfl rfl {} [yesProgram, oneProgram]).1
  have hyes : (process runAWhile {} typedName yesProgram.source).text = "YES\n" := by decide +kernel
  have hfails : (firstDiagnostic? (yesProgram.source ++ oneProgram.source)).isSome = true := by
    decide +kernel
  refine ⟨by decide +kernel, by decide +kernel, ?_⟩
  rw [List.map_cons, List.map_cons, List.map_nil] at hout
  rw [hout]
  show String.join [(process runAWhile {} typedName (String.join [yesProgram.source])).text,
    (process runAWhile {} typedName (String.join [yesProgram.source, oneProgram.source])).text] ≠ _
  simp only [String.join_cons, String.join_nil, String.append_empty, hyes]
  intro hsame
  have hone := (String.append_right_inj _).1 hsame
  have hhead := head?_process_of_errors runAWhile {} typedName hfails
  rw [hone] at hhead
  exact absurd hhead (by decide +kernel)

end BoundedLoop.CommandLine
