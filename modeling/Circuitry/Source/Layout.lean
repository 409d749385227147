import Circuitry.Program.Target
import Circuitry.Source.Expr

/-!
# The layout of generated sources

The text around the statements of a program, for both shapes. A layout does not know names and
types: it is given functions that spell them, which write placeholders for a template.
-/

namespace Circuitry

/-- How a layout spells what belongs to a path. -/
structure Spelling where
  /-- The name of an input or of the result of a command. -/
  name : Path → String
  /-- The type of an input. -/
  type : Path → String
  /-- The field of a public input. -/
  publicField : Path → String

namespace Layout

def imports : List String :=
  ["Bool", "Provable", "CircuitString", "ZkProgram", "Field", "Poseidon", "PublicKey",
    "Signature", "Struct", "UInt64"]

/-- The names that a smart contract imports besides. -/
def contractImports : List String := ["method", "SmartContract"]

def lines {α : Type} (line : α → String) (entries : List α) : String :=
  String.join (entries.map fun entry => line entry ++ "\n")

def preamble (names : List String) : String :=
  "import \x7b\n" ++ lines (fun name => "  " ++ name ++ ",") names ++ "\x7d from \"o1js\";\n\n"

/-- Statements on lines of their own, behind the given number of spaces. -/
def block (spell : Path → String) (indent : Nat) (statements : List Statement) : String :=
  lines (fun statement => String.ofList (List.replicate indent ' ') ++ statement.render spell)
    statements

def zkProgram (spelling : Spelling) (methodName : String) (paths : List Path)
    (statements : List Statement) : String :=
  let publicPaths := paths.filter fun path => path.isPublic
  let privatePaths := paths.filter fun path => !path.isPublic
  preamble imports ++
    "export class PublicInput extends Struct(\x7b\n" ++
    lines (fun path => "  " ++ spelling.publicField path ++ ": " ++ spelling.type path ++ ",")
      publicPaths ++
    "\x7d) \x7b\x7d\n\n" ++
    "export const zkProgram = ZkProgram(\x7b\n" ++
    "  publicInput: PublicInput,\n" ++
    "  methods: \x7b\n" ++
    "    " ++ methodName ++ ": \x7b\n" ++
    "      privateInputs: [\n" ++
    lines (fun path => "        " ++ spelling.type path ++ ",") privatePaths ++
    "      ],\n" ++
    "      method(\n" ++
    "        publicInput,\n" ++
    lines (fun path => "        " ++ spelling.name path ++ ",") privatePaths ++
    "      ) \x7b\n" ++
    block spelling.name 8 statements ++
    "      \x7d\n" ++
    "    \x7d\n" ++
    "  \x7d\n" ++
    "\x7d);\n"

def smartContract (spelling : Spelling) (methodName : String) (paths : List Path)
    (statements : List Statement) : String :=
  preamble (imports ++ contractImports) ++
    "export class ZkSmartContract extends SmartContract \x7b\n" ++
    "  @method " ++ methodName ++ "(\n" ++
    lines (fun path => "    " ++ spelling.name path ++ ": " ++ spelling.type path ++ ",") paths ++
    "  ) \x7b\n" ++
    block spelling.name 4 statements ++
    "  \x7d\n" ++
    "\x7d\n"

def source (target : Target) : Spelling → String → List Path → List Statement → String :=
  match target with
  | .zkProgram => zkProgram
  | .smartContract => smartContract

end Layout

end Circuitry
