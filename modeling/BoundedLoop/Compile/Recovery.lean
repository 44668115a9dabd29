import BoundedLoop.Compile.Draft

/-!
# Recovery

A statement that fails is recorded and skipped, and the block that it stands in goes on behind it
(`attempt`). The code that it wrote before it failed stays where it is, and so do the variables that
it declared.
-/

namespace BoundedLoop

/-- The tokens that remain when a failed statement has been skipped. The statement stands in a block
at depth `base`, which is zero outside all blocks, and failed at `depth`.

Statements left open are skipped with their closers. Back at `base` the skipping ends behind the
closer of the failed statement, behind an `ABORT LOOP`, or in front of a closer of the enclosing
block; outside all blocks there is none to close, and a stray closer is skipped too. An
`END PROCEDURE` counts as such a closer at any depth. -/
def skipFailed (base : Nat) : Nat → List Token → List Token
  | _, [] => []
  | depth, token :: rest =>
    match token.kind with
    | .keyword .ifWord | .keyword .loop => skipFailed base (depth + 1) rest
    | .keyword .elseWord =>
      if base < depth then
        -- ELSE IF goes on with the open statement
        match rest with
        | [] => []
        | follower :: behind =>
          if follower.kind = .keyword .ifWord then skipFailed base depth behind
          else skipFailed base depth (follower :: behind)
      else if 0 < base then token :: rest
      else rest
    | .keyword .endIf | .keyword .endLoop =>
      if base < depth then
        if depth - 1 = base then rest else skipFailed base (depth - 1) rest
      else if 0 < base then token :: rest
      else rest
    | .keyword .endProcedure => if 0 < base then token :: rest else rest
    | .keyword .abortLoop => if depth = base then rest else skipFailed base depth rest
    | _ => skipFailed base depth rest

/-- Skips what is left of a failed statement that stood in a block at depth `base`, inside
`loops` loops. -/
def Draft.recover (d : Draft) (base loops : Nat) : Draft :=
  { d with
    ahead := skipFailed base d.depth d.ahead
    depth := base
    loops := d.loops.drop (d.loops.length - loops) }

namespace CompileM

/-- Compiles a statement, or records why it fails and skips it. -/
def attempt (statement : CompileM Unit) : CompileM Unit := do
  let base := (← get).depth
  let loops := (← get).loops.length
  try
    statement
  catch found =>
    modify fun d => (d.record found).recover base loops

end CompileM

end BoundedLoop
