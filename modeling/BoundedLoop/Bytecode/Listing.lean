import BoundedLoop.Bytecode.Decode

/-!
# Listings

A listing is a headline and a line for each item of `Chunk.instructions`: its offset, the source
line unless it is that of the line above, and the instruction. A jump shows its distance and the
offset that it leads to.
-/

namespace BoundedLoop

/-- An instruction that begins at `offset`, as a listing shows it. -/
def Instruction.text (i : Instruction) (offset : Nat) : String :=
  match i with
  | push v => i.opcode.name ++ " " ++ v.text
  | jump d | jumpIfFalse d =>
    let target := ((offset + i.size : Nat) : Int) + d.toInt
    i.opcode.name ++ " " ++ Text.signed d.toInt ++ " -> " ++ Text.zeroPadded 4 target
  | store slot | load slot => i.opcode.name ++ " " ++ toString slot.toNat
  | _ => i.opcode.name

namespace Chunk

def itemText (offset : Nat) : Except DecodeError Instruction → String
  | .ok i => i.text offset
  | .error e => "<" ++ e.message ++ ">"

/-- The column of source lines: a bar stands for the line of the row above. -/
def lineColumn (above : Option Nat) (line : Nat) : String :=
  if above = some line then "   | " else Text.padLeft ' ' 4 (toString line) ++ " "

/-- The rows of a listing, the first of them below a row of line `above`. -/
def rows (c : Chunk) : Option Nat → List (Nat × Except DecodeError Instruction) → List String
  | _, [] => []
  | above, (offset, decoded) :: rest =>
    let line := (c.lineAt? offset).getD 0
    (Text.zeroPadded 4 offset ++ " " ++ lineColumn above line ++ itemText offset decoded ++ "\n")
      :: c.rows (some line) rest

def headline (c : Chunk) : String :=
  "== " ++ toString c.size ++ " bytes, " ++ toString c.slotCount ++ " slots ==\n"

/-- The listing of a chunk, each line ended by a newline. -/
def listing (c : Chunk) : String :=
  c.headline ++ String.join (c.rows none c.instructions)

end Chunk

end BoundedLoop
