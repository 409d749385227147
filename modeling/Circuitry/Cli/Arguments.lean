/-!
# Command line arguments

The command line has three subcommands with options that take a file name, and a flag for
diagnostics that may stand before or after the subcommand. An option is written with one or two
hyphens; its value follows as the next argument, behind an equals sign or, after a short option,
directly. An option that is repeated, unknown, without a value or missing although it is required
is a usage error, and so is every other argument.
-/

namespace Circuitry.Cli

inductive Invocation where
  | translate (program : String) (output : Option String)
  | input (program setup : String) (output : Option String)
  | info (program : String)
  deriving Repr, DecidableEq

/-- Why the arguments are not an invocation. -/
inductive Stop where
  | usage
  | help
  deriving Repr, DecidableEq

inductive Subcommand where
  | translate
  | input
  | info
  deriving Repr, DecidableEq

def Subcommand.name : Subcommand → String
  | .translate => "translate"
  | .input => "input"
  | .info => "info"

def Subcommand.all : List Subcommand := [.translate, .input, .info]

def Subcommand.ofName? (name : String) : Option Subcommand :=
  all.find? fun subcommand => subcommand.name == name

def helpName : String := "help"

inductive FileOption where
  | program
  | setup
  | output
  deriving Repr, DecidableEq

def Subcommand.options : Subcommand → List FileOption
  | .translate => [.program, .output]
  | .input => [.program, .setup, .output]
  | .info => [.program]

def FileOption.long : FileOption → String
  | .program => "program"
  | .setup => "setup"
  | .output => "output"

def FileOption.short : FileOption → Char
  | .program => 'p'
  | .setup => 's'
  | .output => 'o'

structure Settings where
  verbose : Bool := false
  program : Option String := none
  setup : Option String := none
  output : Option String := none

namespace Settings

def setVerbose (settings : Settings) : Except Stop Settings :=
  if settings.verbose then .error .usage else .ok { settings with verbose := true }

def get? (settings : Settings) : FileOption → Option String
  | .program => settings.program
  | .setup => settings.setup
  | .output => settings.output

/-- Sets an option, once and to a value that is not empty. -/
def set (settings : Settings) (option : FileOption) (value : String) : Except Stop Settings :=
  if value.isEmpty || (settings.get? option).isSome then .error .usage
  else
    match option with
    | .program => .ok { settings with program := some value }
    | .setup => .ok { settings with setup := some value }
    | .output => .ok { settings with output := some value }

end Settings

/-- The settings after an argument, and the option that still waits for its value. -/
abbrev Progress := Settings × Option FileOption

def shortNames (options : List FileOption) (settings : Settings) : List Char →
    Except Stop Progress
  | [] => .ok (settings, none)
  | 'v' :: rest => do shortNames options (← settings.setVerbose) rest
  | 'h' :: _ => .error .help
  | c :: rest =>
    match options.find? fun option => option.short == c with
    | none => .error .usage
    | some option =>
      match rest with
      | [] => .ok (settings, some option)
      | '=' :: value => (settings.set option (String.ofList value)).map (·, none)
      | value => (settings.set option (String.ofList value)).map (·, none)

/-- Reads a long name, with a value if there is an equals sign. -/
def longName (options : List FileOption) (settings : Settings) (name : List Char)
    (value : Option (List Char)) : Except Stop Progress :=
  let name := String.ofList name
  match options.find? fun option => option.long == name, value with
  | some option, some value => (settings.set option (String.ofList value)).map (·, none)
  | some option, none => .ok (settings, some option)
  | none, some _ => .error .usage
  | none, none =>
    if name = "verbose" then settings.setVerbose.map (·, none)
    else if name = "help" then .error .help
    else .error .usage

/-- Reads an argument that starts with a hyphen, without its first hyphen. -/
def hyphenArgument (options : List FileOption) (settings : Settings) (rest : List Char) :
    Except Stop Progress :=
  match rest with
  | '-' :: name =>
    match name.dropWhile (· != '=') with
    | _ :: value => longName options settings (name.takeWhile (· != '=')) (some value)
    | [] => longName options settings name none
  | [] => .error .usage
  | short => shortNames options settings short

def settingsOf (options : List FileOption) (settings : Settings) : List String →
    Except Stop Settings
  | [] => .ok settings
  | argument :: rest =>
    match argument.toList with
    | ['-', '-'] => if rest.isEmpty then .ok settings else .error .usage
    | '-' :: chars =>
      match hyphenArgument options settings chars with
      | .error stop => .error stop
      | .ok (settings, none) => settingsOf options settings rest
      | .ok (settings, some option) =>
        match rest with
        | [] => .error .usage
        | value :: rest =>
          if value.toList.head? == some '-' && value != "-" then .error .usage
          else
            match settings.set option value with
            | .error stop => .error stop
            | .ok settings => settingsOf options settings rest
    | _ => .error .usage

def invocationOf (subcommand : Subcommand) (settings : Settings) : Except Stop Invocation :=
  match subcommand, settings.program, settings.setup with
  | .translate, some program, _ => .ok (.translate program settings.output)
  | .input, some program, some setup => .ok (.input program setup settings.output)
  | .info, some program, _ => .ok (.info program)
  | _, _, _ => .error .usage

/-- What asking for help about the given topics comes to: there is help in general and about one
subcommand, and about help itself. -/
def helpOn : List String → Stop
  | [] => .help
  | [topic] =>
    if topic = helpName || (Subcommand.ofName? topic).isSome then .help else .usage
  | _ => .usage

/-- Reads the command line. Before the subcommand only the flag may stand. -/
def parse (settings : Settings) : List String → Except Stop Invocation
  | [] => .error .usage
  | argument :: rest =>
    match Subcommand.ofName? argument with
    | some subcommand => do
      invocationOf subcommand (← settingsOf subcommand.options {} rest)
    | none =>
      match argument.toList with
      | ['-', '-'] => .error .usage
      | '-' :: chars =>
        match hyphenArgument [] settings chars with
        | .ok (settings, _) => parse settings rest
        | .error stop => .error stop
      | _ => .error (if argument = helpName then helpOn rest else .usage)

end Circuitry.Cli
