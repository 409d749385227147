/-!
# Files by name

A file system that is held in memory. Text files lie in and below a working directory; a directory
exists where some file lies below it. Of everything outside only those directories are there that
every system has: the ones above the working directory, the root with the standard directories,
and the null device, which is empty and swallows what is written to it.

A name is a sequence of steps with slashes between them, from the root if it starts with a slash
and from the working directory otherwise. All steps but the last have to lead to directories, and
the first one that does not is what reading and writing fail at.
-/

namespace Circuitry.Cli

inductive FileError where
  | notFound
  | notDirectory
  | isDirectory
  | nameTooLong
  /-- Any other failure, in the words of the system. -/
  | other (text : String)
  deriving Repr, DecidableEq

def FileError.message : FileError → String
  | .notFound => "No such file or directory (os error 2)"
  | .notDirectory => "Not a directory (os error 20)"
  | .isDirectory => "Is a directory (os error 21)"
  | .nameTooLong => "File name too long (os error 36)"
  | .other text => text

def FileError.ofCode? : Nat → Option FileError
  | 2 => some .notFound
  | 20 => some .notDirectory
  | 21 => some .isDirectory
  | 36 => some .nameTooLong
  | _ => none

structure FileSystem (m : Type → Type) where
  read : String → m (Except FileError String)
  write : String → String → m (Except FileError Unit)

/-! ### Places -/

/-- The directory from which a place is counted. -/
inductive Base where
  | root
  /-- The directory so many levels above the working directory, which has the level zero. -/
  | above (levels : Nat)
  deriving Repr, DecidableEq

/-- Where a file or a directory may be: below a base, along the keys of directories. -/
structure Place where
  base : Base
  keys : List String
  deriving Repr, DecidableEq

namespace Place

def root : Place := ⟨.root, []⟩

def working : Place := ⟨.above 0, []⟩

def null : Place := ⟨.root, ["dev", "null"]⟩

/-- The directory that holds a place; the root holds itself. -/
def parent (place : Place) : Place :=
  match place.keys, place.base with
  | [], .root => root
  | [], .above levels => ⟨.above (levels + 1), []⟩
  | keys, base => ⟨base, keys.dropLast⟩

def maxStep : Nat := 255

/-- Where a step leads from a directory: one dot stays there, two dots go to the parent, and a key
goes below. -/
def step (place : Place) (part : String) : Except FileError Place :=
  if part = "." then .ok place
  else if part = ".." then .ok place.parent
  else if part.utf8ByteSize > maxStep then .error .nameTooLong
  else .ok ⟨place.base, place.keys ++ [part]⟩

end Place

/-! ### Names -/

namespace FileName

/-- The number of bytes that a whole name may have. -/
def maxLength : Nat := 4095

def steps (name : String) : List String :=
  ((name.toList.splitOn '/').map String.ofList).filter (· != "")

def start (name : String) : Place :=
  if name.toList.head? == some '/' then .root else .working

/-- Whether a name ends in a slash, and so can only mean a directory. -/
def meansDirectory (name : String) : Bool :=
  name.toList.getLast? == some '/'

end FileName

/-! ### Files -/

/-- Text files by their places. -/
structure Files where
  entries : List (Place × String)

namespace Files

def standardDirectories : List String :=
  ["bin", "boot", "dev", "etc", "home", "lib", "media", "mnt", "opt", "proc", "root", "run",
    "sbin", "srv", "sys", "tmp", "usr", "var"]

/-- The files with the given names, relative to the working directory, and contents. -/
def ofList (files : List (String × String)) : Files :=
  ⟨files.map fun file => (⟨.above 0, (FileName.steps file.1).filter (· != ".")⟩, file.2)⟩

def content? (files : Files) (place : Place) : Option String :=
  if place = .null then some "" else files.entries.lookup place

def isDirectory (files : Files) (place : Place) : Bool :=
  place.keys.isEmpty ||
    (place.base == .root && standardDirectories.any fun key => place.keys == [key]) ||
    files.entries.any fun entry =>
      entry.1.base == place.base && place.keys.isPrefixOf entry.1.keys && place != entry.1

/-- Walks along steps that all have to lead to directories. -/
def walk (files : Files) (place : Place) : List String → Except FileError Place
  | [] => .ok place
  | part :: rest => do
    let next ← place.step part
    if files.isDirectory next then files.walk next rest
    else if (files.content? next).isSome then throw .notDirectory
    else throw .notFound

/-- The directory in which the last step of a name is taken, and that step; the name of the root
has none. -/
def locate (files : Files) (name : String) : Except FileError (Place × Option String) := do
  if name.utf8ByteSize > FileName.maxLength then throw .nameTooLong
  let steps := FileName.steps name
  return (← files.walk (FileName.start name) steps.dropLast, steps.getLast?)

def read (files : Files) (name : String) : Except FileError String := do
  let (directory, some last) ← files.locate name | throw .isDirectory
  let place ← directory.step last
  if files.isDirectory place then throw .isDirectory
  let some content := files.content? place | throw .notFound
  if FileName.meansDirectory name then throw .notDirectory
  return content

/-- Puts a file to a place, instead of the one that is already there. -/
def put (files : Files) (place : Place) (content : String) : Files :=
  ⟨(place, content) :: files.entries.filter fun entry => entry.1 != place⟩

/-- Writes a file. A name that can only mean a directory is refused before its last step is
taken. -/
def write (files : Files) (name content : String) : Except FileError Files := do
  let (directory, some last) ← files.locate name | throw .isDirectory
  if FileName.meansDirectory name then throw .isDirectory
  let place ← directory.step last
  if files.isDirectory place then throw .isDirectory
  return if place = .null then files else files.put place content

/-- Files in memory as a file system. -/
def system : FileSystem (StateM Files) where
  read name := return (← get).read name
  write name content := modifyGet fun files =>
    match files.write name content with
    | .error e => (.error e, files)
    | .ok after => (.ok (), after)

end Files

end Circuitry.Cli
