/-!
# Files and paths

The files that a command may be given. A path leads from folder to folder, name by name (`follow`),
starting at the root if it begins with a slash and at the working folder otherwise. It has to end at
a file.
-/

namespace BoundedLoop.CommandLine

/-- Why the file at a path cannot be read. -/
inductive ReadError where
  | notFound
  | notADirectory
  | isADirectory
  | nameTooLong
deriving DecidableEq

namespace ReadError

def all : List ReadError := [notFound, notADirectory, isADirectory, nameTooLong]

/-- The number that the operating system has for it. -/
def code : ReadError → Nat
  | notFound => 2
  | notADirectory => 20
  | isADirectory => 21
  | nameTooLong => 36

def ofCode? (n : Nat) : Option ReadError :=
  all.find? (·.code = n)

/-- The words of the operating system for it. -/
def words : ReadError → String
  | notFound => "No such file or directory"
  | notADirectory => "Not a directory"
  | isADirectory => "Is a directory"
  | nameTooLong => "File name too long"

def message (e : ReadError) : String :=
  e.words ++ " (os error " ++ toString e.code ++ ")"

@[simp] theorem ofCode?_code (e : ReadError) : ofCode? e.code = some e := by
  cases e <;> rfl

end ReadError

/-- A file, or a folder of files and folders under their names. -/
inductive FileTree where
  | file (content : String)
  | folder (entries : List (String × FileTree))

namespace FileTree

/-- A single file under the folders whose names lead to it. -/
def nest (content : String) : List String → FileTree
  | [] => .file content
  | name :: names => .folder [(name, nest content names)]

/-- The most bytes that a name may have. -/
def maxName : Nat := 255

/-- The most bytes that a path may have. -/
def maxPath : Nat := 4095

/-- The content of the file to which the names lead from a place in a tree. `around` are the folders
in which the place lies, innermost first. No name and one dot stand for the folder itself, two dots
for the one around it; around the outermost folder there is only itself. -/
def follow (around : List FileTree) : FileTree → List String → Except ReadError String
  | .file content, [] => .ok content
  | .folder _, [] => .error .isADirectory
  | .file _, _ :: _ => .error .notADirectory
  | .folder entries, name :: names =>
    if name = "" ∨ name = "." then follow around (.folder entries) names
    else if name = ".." then
      match around with
      | [] => follow [] (.folder entries) names
      | outer :: around => follow around outer names
    else if maxName < name.utf8ByteSize then .error .nameTooLong
    else
      match entries.lookup name with
      | none => .error .notFound
      | some place => follow (.folder entries :: around) place names

end FileTree

/-- The files within reach of a command. -/
structure Surroundings where
  /-- where a path starts that begins with a slash -/
  root : FileTree := .folder []
  /-- the folders in which the working folder lies, innermost first -/
  around : List FileTree := []
  /-- the working folder -/
  here : FileTree := .folder []

/-- The content of the file at a path. -/
def Surroundings.read (s : Surroundings) (path : String) : Except ReadError String :=
  let names := path.splitOn "/"
  if FileTree.maxPath < path.utf8ByteSize then .error .nameTooLong
  else if path.startsWith "/" then s.root.follow [] names
  else s.here.follow s.around names

end BoundedLoop.CommandLine
