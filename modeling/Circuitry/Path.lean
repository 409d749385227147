/-!
# Paths

A path is the sequence of keys that leads from the root of a tree to one of its positions.
Input schemas have two regions, told apart by the first key of a path.
-/

namespace Circuitry

/-- The keys from the root of a tree to a position in it. -/
abbrev Path := List String

namespace Path

/-- A path as messages and placeholders spell it: its keys joined by dots. -/
def display (path : Path) : String :=
  ".".intercalate path

def privateRegion : String := "private"

def publicRegion : String := "public"

def isPublic (path : Path) : Bool :=
  path.head? == some publicRegion

end Path

end Circuitry
