import Circuitry.Program.Error

/-!
# References

A reference stands for the variable at another path, which may be a reference again. A chain of
references is followed for a limited number of hops, so that every cycle ends in an error.
-/

namespace Circuitry.Schema

/-- Follows references from `path`, with `hops` hops left. The errors speak of the path `start`
at which the chain started and of the full number of hops `limit`. Both numbers are natural
numbers in place of words of the machine. -/
def dereferenceFrom (schema : Schema) (start : Path) (limit : Nat) (hops : Nat) (path : Path) :
    Except CompileError (Path × Variable) :=
  match schema.getLeaf? path with
  | none => .error (.unresolvedReference start path)
  | some (.function _ _) => .error (.unresolvedReference start path)
  | some (.reference next) =>
    match hops with
    | 0 => .error (.referenceTooLong start limit)
    | hops + 1 => dereferenceFrom schema start limit hops next
  | some found => .ok (path, found)

/-- The path and the variable at the end of the chain of references that starts at `path`. -/
def dereference (schema : Schema) (path : Path) (limit : Nat) :
    Except CompileError (Path × Variable) :=
  schema.dereferenceFrom path limit limit path

end Circuitry.Schema
