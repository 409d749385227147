import Circuitry.Path

/-!
# Identifiers

Paths become identifiers of the generated program: characters that an identifier cannot hold are
replaced by underscores, and the keys are joined by underscores. Two paths may well give the same
identifier; a table of names and their owners notices that.
-/

namespace Circuitry

namespace Identifier

def isPart (c : Char) : Bool :=
  c.isAlphanum || c == '_' || c == '$'

def isStart (c : Char) : Bool :=
  isPart c && !c.isDigit

def isValid (name : String) : Bool :=
  match name.toList with
  | [] => false
  | first :: rest => isStart first && rest.all isPart

/-- A key with an underscore for every character that an identifier cannot hold. -/
def cleaned (key : String) : String :=
  String.ofList (key.toList.map fun c => if isPart c then c else '_')

/-- Keys joined by underscores, behind one more underscore if they start with a digit. -/
def ofKeys (keys : List String) : String :=
  let joined := "_".intercalate (keys.map cleaned)
  if joined.toList.head?.any Char.isDigit then "_" ++ joined else joined

end Identifier

namespace Path

def identifier (path : Path) : String :=
  Identifier.ofKeys path

/-- The field of a public path inside the public input: its identifier without the region. -/
def publicField (path : Path) : String :=
  Identifier.ofKeys path.tail

end Path

structure NameOwners where
  entries : List (String × Path) := []
  deriving Repr, DecidableEq

namespace NameOwners

def empty : NameOwners := ⟨[]⟩

def owner? (owners : NameOwners) (name : String) : Option Path :=
  owners.entries.lookup name

def isTaken (owners : NameOwners) (name : String) : Bool :=
  (owners.owner? name).isSome

/-- Gives a name to a path; an error is the path that owns the name already. -/
def assign (owners : NameOwners) (name : String) (path : Path) : Except Path NameOwners :=
  match owners.owner? name with
  | some owner => .error owner
  | none => .ok ⟨(name, path) :: owners.entries⟩

end NameOwners

end Circuitry
