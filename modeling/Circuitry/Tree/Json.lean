import Circuitry.Json.Basic
import Circuitry.Tree.Basic

/-!
# Trees and JSON

Objects are nodes and everything else is a leaf. In the other direction a tree becomes nested
objects, with its leaves written by a given function.
-/

namespace Circuitry

universe u

namespace RawTree

mutual

def ofJson : Json → RawTree Json
  | .object members => .node (ofMembers members)
  | other => .leaf other

def ofMembers : List (String × Json) → List (String × RawTree Json)
  | [] => []
  | (key, value) :: rest => Keyed.insert key (ofJson value) (ofMembers rest)

end

mutual

theorem ordered_ofJson : (json : Json) → (ofJson json).Ordered
  | .object members => ordered_ofMembers members
  | .null | .bool _ | .number _ | .string _ | .array _ => trivial

theorem ordered_ofMembers : (members : List (String × Json)) →
    (node (ofMembers members)).Ordered
  | [] => ordered_empty
  | (_, value) :: rest => (ordered_ofMembers rest).insert (ordered_ofJson value)

end

variable {α : Type u}

mutual

/-- Nested objects with the leaves written by `write`. -/
def toJson (write : α → Json) : RawTree α → Json
  | .leaf value => write value
  | .node branches => .object (toMembers write branches)

def toMembers (write : α → Json) : List (String × RawTree α) → List (String × Json)
  | [] => []
  | (key, branch) :: rest => (key, branch.toJson write) :: toMembers write rest

end

end RawTree

namespace Tree

def ofJson (json : Json) : Tree Json :=
  ⟨RawTree.ofJson json, RawTree.ordered_ofJson json⟩

/-- Nested objects with the leaves written by `write`. -/
def toJson {α : Type u} (write : α → Json) (tree : Tree α) : Json :=
  tree.raw.toJson write

end Tree

end Circuitry
