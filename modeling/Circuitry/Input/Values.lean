import Circuitry.Conversion.Graph
import Circuitry.Input.Reference
import Circuitry.Program.Constant

/-!
# Input values

A schema and a setup give the input values: the tree of the same shape with a typed value at every
leaf. Literals, setup values and constants are converted first, in the order of their paths. After
that every reference gets the value at the end of its chain; references never convert anything.
-/

namespace Circuitry

abbrev InputValues := Tree Value

def Constant.parse (name : String) : Except CompileError Constant :=
  match Constant.ofName? name with
  | some constant => .ok constant
  | none => .error (.unknownConstant name)

namespace InputValues

def convertAt (converter : Converter) (path : Path) (raw : Json) (chain : Chain) :
    Except CompileError Value :=
  (converter raw chain.links).mapError (.conversionFailed (.leaf path))

/-- The raw value that the setup has at a path; `null` counts as none. -/
def setupValue (setup : Tree Json) (path : Path) : Except CompileError Json :=
  match setup.getLeaf? path with
  | none | some .null => .error (.missingSetup path)
  | some raw => .ok raw

/-- The value of a variable that has one of its own. -/
def ownValue (converter : Converter) (setup : Tree Json) (path : Path) :
    Variable → Except CompileError (Option Value)
  | .static value chain => (convertAt converter path value.toJson chain).map some
  | .constant name => do
    let constant ← Constant.parse name
    (convertAt converter path constant.json constant.chain).map some
  | .setup chain => do
    let raw ← setupValue setup path
    (convertAt converter path raw chain).map some
  | .reference _ | .function _ _ => .ok none

def store (values : InputValues) (path : Path) (value : Value) : Except CompileError InputValues :=
  (values.put path value).mapError .storing

/-- Adds the value of a leaf of the schema, if it has one of its own. -/
def addOwnValue (converter : Converter) (setup : Tree Json) (values : InputValues)
    (leaf : Path × Variable) : Except CompileError InputValues := do
  match ← ownValue converter setup leaf.1 leaf.2 with
  | some value => store values leaf.1 value
  | none => return values

def addReference (schema : Schema) (limit : Nat) (values : InputValues) (path : Path) :
    Except CompileError InputValues := do
  let (terminal, _) ← schema.dereference path limit
  match values.getLeaf? terminal with
  | some value => store values path value
  | none => throw (.unresolvedReference path terminal)

def referencePaths (schema : Schema) : List Path :=
  (schema.leaves.filter fun leaf => leaf.2.isReference).map Prod.fst

/-- The values of a schema and a setup, with at most `limit` hops in a chain of references. -/
def ofSetup (converter : Converter) (limit : Nat) (schema : Schema) (setup : Tree Json) :
    Except CompileError InputValues := do
  let values ← schema.leaves.foldlM (addOwnValue converter setup) Tree.empty
  (referencePaths schema).foldlM (addReference schema limit) values

end InputValues

end Circuitry
