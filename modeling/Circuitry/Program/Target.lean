/-!
# Targets

The shapes of program that can be generated: a stateless program with a structured public input,
or a smart contract with one method over private parameters.
-/

namespace Circuitry

/-- The shape of a generated program. -/
inductive Target where
  | zkProgram
  | smartContract
  deriving Repr, DecidableEq

namespace Target

def id : Target → String
  | .zkProgram => "o1js:zk-program"
  | .smartContract => "o1js:smart-contract"

def all : List Target := [.zkProgram, .smartContract]

def ofId? (name : String) : Option Target :=
  all.find? fun target => target.id == name

end Target

end Circuitry
