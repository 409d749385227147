import Circuitry.Cli.Arguments
import Circuitry.Cli.Files
import Circuitry.Compiler

/-!
# Running the command line

What an invocation produces: a text for the terminal or for a file, or a failure. A failure is
reported by what was being done and by the causes below it, numbered when there are several. A run
goes through a file system that is given as an interface, so that it means the same on real files
and on files that are held in memory.
-/

namespace Circuitry.Cli

/-- What was being done when something failed, and the causes from the outermost to the
innermost. -/
structure Failure where
  context : String
  causes : List String

namespace Failure

/-- A text with its lines after the first behind the given indentation. -/
def indented (indentation text : String) : String :=
  ("\n" ++ indentation).intercalate ((text.toList.splitOn '\n').map String.ofList)

def numbered (cause : String) (index : Nat) : String :=
  let digits := index.repr
  String.ofList (List.replicate (5 - digits.length) ' ') ++ digits ++ ": " ++
    indented "       " cause ++ "\n"

def report (failure : Failure) : String :=
  let head := "Error: " ++ failure.context ++ "\n"
  match failure.causes with
  | [] => head
  | [cause] => head ++ "\nCaused by:\n    " ++ indented "    " cause ++ "\n"
  | causes =>
    head ++ "\nCaused by:\n" ++
      String.join (causes.zipIdx.map fun (cause, index) => numbered cause index)

/-- A refused program or setup as a list of causes. -/
def causesOf (error : CompileError) : List String :=
  match error with
  | .conversionFailed _ cause => [error.message, cause.message]
  | .malformed fault => [error.message, fault.message]
  | _ => [error.message]

def ofCompiler (context : String) (error : CompileError) : Failure :=
  ⟨context, causesOf error⟩

end Failure

structure Output where
  text : String
  file : Option String

abbrev FileReader := String → Except FileError String

def readProgram (read : FileReader) (name : String) : Except Failure Program :=
  let context := "Failed to load program: " ++ Text.quoted name
  match read name with
  | .error e => .error ⟨context, ["I/O error: " ++ e.message, e.message]⟩
  | .ok text => (Program.ofText Json.read text).mapError (Failure.ofCompiler context)

def readJson (read : FileReader) (name : String) : Except Failure Json :=
  match read name with
  | .error e => .error ⟨"Failed to read file: " ++ Text.quoted name, [e.message]⟩
  | .ok text =>
    (Json.read text).mapError fun fault =>
      ⟨"Failed to parse JSON: " ++ Text.quoted name, [fault.message]⟩

def variableLine (types : InputTypes) (leaf : Path × Variable) : String :=
  let token := match types.getLeaf? leaf.1 with
    | some token => token.name
    | none => "?"
  "   - " ++ leaf.1.display ++ " (" ++ leaf.2.kind ++ "): " ++ token ++ "\n"

def commandLine (command : Command) (index : Nat) : String :=
  let name := "   " ++ (index + 1).repr ++ ". " ++ command.operation.operator.key
  match command.out with
  | some out => name ++ " -> " ++ out ++ "\n"
  | none => name ++ "\n"

def describe (program : Program) : Except CompileError String := do
  let leaves := program.schema.leaves
  let limit := ({} : Config).maxReferenceDepth
  let types ← InputTypes.ofPaths program.schema limit (leaves.map Prod.fst)
  return "📋 Target: " ++ program.target.id ++ "\n" ++
    "   Variables: " ++ leaves.length.repr ++ "\n" ++
    String.join (leaves.map (variableLine types)) ++
    "   Commands: " ++ program.commands.length.repr ++ "\n" ++
    String.join (program.commands.zipIdx.map fun (command, index) => commandLine command index)

def Invocation.run (read : FileReader) : Invocation → Except Failure Output
  | .translate program output => do
    let program ← readProgram read program
    let source ← (({} : Compiler).translate program).mapError
      (Failure.ofCompiler "Translation failed")
    return ⟨source, output⟩
  | .input program setup output => do
    let program ← readProgram read program
    let setup ← readJson read setup
    let input ← (({} : Compiler).inputOfProgram program setup).mapError
      (Failure.ofCompiler "Input conversion failed")
    return ⟨input.toJson.pretty ++ "\n", output⟩
  | .info program => do
    let program ← readProgram read program
    let text ← (describe program).mapError fun error =>
      ⟨error.message, (Failure.causesOf error).drop 1⟩
    return ⟨text, none⟩

def writtenLine (name text : String) : String :=
  "✅ Written to " ++ Text.quoted name ++ " (" ++ text.utf8ByteSize.repr ++ " bytes)\n"

def writeFailure (name : String) (error : FileError) : Failure :=
  ⟨"Failed to write output to " ++ Text.quoted name, [error.message]⟩

/-- What can be seen of a run: its exit code, its output and the report of a failure. -/
structure Outcome where
  code : Nat
  stdout : String
  report : String
  deriving Repr, DecidableEq

def Failure.outcome (failure : Failure) : Outcome :=
  ⟨1, "", failure.report⟩

def helpText : String :=
  "Usage: [-v] translate -p FILE [-o FILE] | input -p FILE -s FILE [-o FILE] | info -p FILE\n"

/-- The outcome of arguments that are no invocation. -/
def Stop.outcome : Stop → Outcome
  | .usage => ⟨2, "", helpText⟩
  | .help => ⟨0, helpText, ""⟩

def Invocation.sources : Invocation → List String
  | .translate program _ | .info program => [program]
  | .input program setup _ => [program, setup]

section

variable {m : Type → Type} [Monad m]

/-- Shows an output, or writes it to its file. -/
def Output.deliver (system : FileSystem m) (output : Output) : m Outcome := do
  match output.file with
  | none => return ⟨0, output.text, ""⟩
  | some name =>
    match ← system.write name output.text with
    | .error e => return (writeFailure name e).outcome
    | .ok () => return ⟨0, writtenLine name output.text, ""⟩

/-- Reads the files of an invocation and delivers what it produces from them. -/
def Invocation.perform (system : FileSystem m) (invocation : Invocation) : m Outcome := do
  let contents ← invocation.sources.mapM fun name => return (name, ← system.read name)
  match invocation.run fun name => (contents.lookup name).getD (.error .notFound) with
  | .error failure => return failure.outcome
  | .ok output => output.deliver system

def run (system : FileSystem m) (arguments : List String) : m Outcome :=
  match parse {} arguments with
  | .error stop => return stop.outcome
  | .ok invocation => invocation.perform system

end

end Circuitry.Cli
