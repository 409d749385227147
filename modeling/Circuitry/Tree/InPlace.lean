import Circuitry.Tree.Basic

/-!
# Storing in place

A tree that is updated in place is walked down to the place of a value. Nodes that are missing on
the way are made during the walk, when it is not known yet whether the value will find its place,
and an obstacle ends the walk where it is. So what is left behind has to be said along with the
answer.
-/

namespace Circuitry

universe u

variable {α : Type u}

namespace RawTree

/-- Walks to the path `key :: rest` and stores `value` there. The result is the tree as the walk
leaves it, with all nodes made on the way, and the path of the obstacle if there is one. -/
def storeInPlace (value : α) (key : String) (rest : Path) :
    RawTree α → RawTree α × Except Path Unit
  | .leaf old => (.leaf old, .error [])
  | .node branches =>
    match rest with
    | [] =>
      match branches.lookup key with
      | some (.node _) => (.node branches, .error [key])
      | _ => (.node (Keyed.insert key (.leaf value) branches), .ok ())
    | next :: rest =>
      let (branch, answer) :=
        storeInPlace value next rest ((branches.lookup key).getD (.node []))
      (.node (Keyed.insert key branch branches), answer.mapError (key :: ·))

theorem Ordered.storeInPlace {tree : RawTree α} {value : α} {key : String} {rest : Path}
    (h : tree.Ordered) : (tree.storeInPlace value key rest).1.Ordered := by
  induction rest generalizing tree key with
  | nil =>
    cases tree with
    | leaf _ => exact h
    | node branches =>
      simp only [RawTree.storeInPlace]
      split
      · exact h
      · exact h.insert trivial
  | cons next rest ih =>
    cases tree with
    | leaf _ => exact h
    | node branches =>
      refine h.insert (ih ?_)
      cases hl : branches.lookup key with
      | none => exact ordered_empty
      | some found => exact Ordered.of_lookup h.2 hl

end RawTree

namespace Tree

/-- Stores a value at a path of a tree that is updated in place: the tree afterwards, and whether
the value was stored. -/
def putInPlace (tree : Tree α) (path : Path) (value : α) : Tree α × Except StoreError Unit :=
  match path with
  | [] => (tree, .error .emptyPath)
  | key :: rest =>
    (⟨(tree.raw.storeInPlace value key rest).1, tree.ordered.storeInPlace⟩,
      (tree.raw.storeInPlace value key rest).2.mapError .conflict)

end Tree

end Circuitry
