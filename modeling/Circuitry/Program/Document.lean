import Circuitry.Json.Reader
import Circuitry.Program.Command
import Circuitry.Text.Blank

/-!
# Reading programs

A program document has a target, an input schema, commands and options. The input schema is an
object with a private region and perhaps a public one; inside a region, variables are the leaves
and all other objects are groups. Every reader works on the canonical form of its document, so
the order in which members are written makes no difference.
-/

namespace Circuitry

namespace Schema

/-- Whether a key can stand in a placeholder: it is not empty and has no dot, brace or blank. -/
def isKey (key : String) : Bool :=
  !key.toList.isEmpty &&
    !key.toList.any fun c => c == '.' || c == '\x7b' || c == '\x7d' || Text.isBlank c

def leafOf (path : Path) (json : Json) : Except CompileError (Path × Variable) := do
  match ← (Variable.ofJson json).mapError (CompileError.located path) with
  | .function _ _ => throw (.parse (.functionInSchema path))
  | found => return (path, found)

mutual

/-- The variables at and below a path, with their paths. -/
def leavesOf (path : Path) : Json → Except CompileError (List (Path × Variable))
  | .object members =>
    if (Json.object members).isVariable then
      (leafOf path (.object members)).map fun leaf => [leaf]
    else leavesAmong path members
  | other => .error (.parse (.notVariableOrObject path other))

def leavesAmong (path : Path) : List (String × Json) →
    Except CompileError (List (Path × Variable))
  | [] => .ok []
  | (key, json) :: rest => do
    if !isKey key then throw (.parse (.badKey key path))
    let first ← leavesOf (path ++ [key]) json
    return first ++ (← leavesAmong path rest)

end

def regionOf (region : String) (json : Json) : Except CompileError (List (Path × Variable)) :=
  match json with
  | .object members =>
    if json.isVariable then .error (.parse (.regionNotObject region))
    else leavesAmong [region] members
  | _ => .error (.parse (.regionNotObject region))

def regionsOf (members : List (String × Json)) : Except CompileError (List (Path × Variable)) :=
  (members.mapM fun member => regionOf member.1 member.2).map List.flatten

def isRegion (key : String) : Bool :=
  key == Path.privateRegion || key == Path.publicRegion

def ofJson (json : Json) : Except CompileError Schema := do
  let .object members := json.canonical | throw (.parse .schemaNotObject)
  if let some (key, _) := members.find? fun member => !isRegion member.1 then
    throw (.parse (.unsupportedRegion key))
  if (members.lookup Path.privateRegion).isNone then throw (.parse .noPrivateRegion)
  let leaves ← regionsOf members
  (Tree.empty.putAll leaves).mapError .storing

end Schema

namespace Program

def commandsOf : Option Json → Except CompileError (List Command)
  | none => .ok []
  | some (.array items) => items.zipIdx.mapM fun (item, index) => Command.ofJson item index
  | some _ => .error (.parse .commandsNotArray)

def optionsOf : Option Json → Except CompileError (List (String × Json))
  | none | some .null => .ok []
  | some (.object members) => .ok members
  | some _ => .error (.parse .optionsNotObject)

def ofJson (json : Json) : Except CompileError Program := do
  let .object members := json.canonical | throw (.parse .programNotObject)
  let some (.string id) := members.lookup "target" | throw (.parse .targetNotString)
  let target ← Target.parse id
  let some schema := members.lookup "inputSchema" | throw (.parse .noSchema)
  let schema ← Schema.ofJson schema
  let commands ← commandsOf (members.lookup "commands")
  let options ← optionsOf (members.lookup "options")
  return ⟨target, schema, commands, options⟩

def ofText (read : Json.TextReader) (text : String) : Except CompileError Program := do
  ofJson (← (read text).mapError .malformed)

end Program

/-- Reads a setup payload, the raw values of the setup variables by their paths. -/
def setupOfJson (json : Json) : Except CompileError (Tree Json) :=
  match json.canonical with
  | .object members => .ok (Tree.ofJson (.object members))
  | _ => .error (.parse .setupNotObject)

end Circuitry
