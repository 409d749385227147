import Circuitry.Conversion.Error

/-!
# Conversion links

A link is one step of a conversion chain, written as the names of its two nodes with a hyphen
between them. A link may name nodes that the graph does not have. A chain is a list of links that
is never empty.
-/

namespace Circuitry

structure Link where
  source : String
  target : String
  deriving Repr, DecidableEq

namespace Link

/-- Reads a link: two names that are not empty, and one hyphen between them. -/
def parse (text : String) : Except ConversionError Link :=
  match text.toList.splitOn '-' with
  | [source, target] =>
    if source.isEmpty || target.isEmpty then .error (.invalidLink text)
    else .ok ⟨String.ofList source, String.ofList target⟩
  | _ => .error (.invalidLink text)

def display (link : Link) : String :=
  link.source ++ "-" ++ link.target

/-- A node name without its namespace: what follows the last colon. -/
def typeName (name : String) : String :=
  String.ofList (name.toList.reverse.takeWhile (· != ':')).reverse

def sourceType (link : Link) : String :=
  typeName link.source

def targetType (link : Link) : String :=
  typeName link.target

end Link

structure Chain where
  /-- The links before the last one. -/
  init : List Link
  last : Link
  deriving Repr, DecidableEq

namespace Chain

def ofLinks? (links : List Link) : Option Chain :=
  links.getLast?.map fun last => ⟨links.dropLast, last⟩

def links (chain : Chain) : List Link :=
  chain.init ++ [chain.last]

def finalType (chain : Chain) : String :=
  chain.last.targetType

end Chain

end Circuitry
