import Circuitry.Program.Error
import Circuitry.Program.Identifier

/-!
# Names of a generated source

A source uses one name for every declared path: inputs of the program are declared by their schema
paths, and results of commands by the path that is their own name. No two paths share a name.
Giving a name takes it even if it cannot be stored afterwards.
-/

namespace Circuitry

/-- The parameter that holds the public input of a program. -/
def publicAccessor : String := "publicInput"

def typesRoot : String := "VARIABLE_TYPES"

def publicFieldsRoot : String := "PUBLIC_INPUT_NAMES"

/-- The names that a result can never take. -/
def reservedRoots : List String :=
  [Path.privateRegion, Path.publicRegion, typesRoot, publicFieldsRoot, publicAccessor]

/-- Names by their paths, and the paths that own them. -/
structure Names where
  tree : Tree String
  owners : NameOwners

namespace Names

def empty : Names := ⟨.empty, .empty⟩

def get? (names : Names) (path : Path) : Option String :=
  names.tree.getLeaf? path

def contains (names : Names) (path : Path) : Bool :=
  (names.get? path).isSome

/-- Gives a name to a path. The names afterwards come with the result, also when it is an
error. -/
def give (names : Names) (path : Path) (name : String) : Names × Except CompileError Unit :=
  match names.owners.assign name path with
  | .error owner => (names, .error (.nameCollision name owner path))
  | .ok owners =>
    match names.tree.put path name with
    | .error cause => (⟨names.tree, owners⟩, .error (.storing cause))
    | .ok tree => (⟨tree, owners⟩, .ok ())

/-- Gives the result of a command its name, which is also its path. -/
def giveOutput (names : Names) (name : String) : Names × Except CompileError Unit :=
  if reservedRoots.contains name || (names.tree.get? [name]).isSome ||
      names.owners.isTaken name then
    (names, .error (.duplicateOutput name))
  else names.give [name] name

def inputName (target : Target) (path : Path) : String :=
  match target with
  | .zkProgram =>
    if path.isPublic then publicAccessor ++ "." ++ path.publicField else path.identifier
  | .smartContract => path.identifier

def giveInput (target : Target) (names : Names) (path : Path) : Except CompileError Names :=
  match names.give path (inputName target path) with
  | (_, .error e) => .error e
  | (names, .ok ()) => .ok names

/-- The names of the given schema paths on a target. -/
def ofPaths (target : Target) (paths : List Path) : Except CompileError Names :=
  paths.foldlM (giveInput target) empty

end Names

end Circuitry
