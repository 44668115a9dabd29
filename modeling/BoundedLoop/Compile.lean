import BoundedLoop.Compile.Statement
import BoundedLoop.Token.Scan

/-!
# Compiling programs

`compileTokens` compiles tokens to a chunk, or gives all that is wrong with them. `compile` starts
from the text.
-/

namespace BoundedLoop

/-- What a finished draft amounts to: its code, if no problem was found. -/
def Draft.result (d : Draft) : Except (List Diagnostic) Chunk :=
  if d.diagnostics.isEmpty then .ok d.chunk else .error d.diagnostics.toList

/-- The draft after all tokens have been compiled. A program has no more statements than tokens. -/
def Draft.compiled (d : Draft) : Draft :=
  match (CompileM.program (d.ahead.length + 1)).run d with
  | .ok _ d => d
  | .error _ d => d

/-- Compiles tokens. Those behind the first end of the input do not count. -/
def compileTokens (tokens : List Token) : Except (List Diagnostic) Chunk :=
  (Draft.ofTokens tokens).compiled.result

/-- Why there is no code for a text. -/
inductive CompileFailure where
  | scan (e : ScanError)
  | compile (found : List Diagnostic)
deriving DecidableEq

def CompileFailure.message : CompileFailure → String
  | scan e => e.message
  | compile found => toString found.length ++ " compile error(s)"

/-- Compiles a text. -/
def compile (source : String) : Except CompileFailure Chunk :=
  match Token.scan source with
  | .error e => .error (.scan e)
  | .ok tokens => (compileTokens tokens).mapError .compile

end BoundedLoop
