import Circuitry.Keyed
import Circuitry.Path

/-!
# Trees addressed by paths

Schemas, setup payloads and the values, names and types of inputs are trees with named branches
and values at the leaves. The branches of a node are in strictly increasing order of their keys,
which is part of the type: every enumeration of the leaves is sorted, however the tree was built.

Storing a value creates the nodes on the way to it. It refuses to walk through a leaf and to
replace a node, and says where it met the obstacle.
-/

namespace Circuitry

universe u

/-- A tree whose branches may stand in any order. -/
inductive RawTree (α : Type u) where
  | leaf (value : α)
  | node (branches : List (String × RawTree α))

namespace RawTree

variable {α : Type u}

mutual

/-- At every node the keys increase strictly. -/
def Ordered : RawTree α → Prop
  | .leaf _ => True
  | .node branches => Keyed.Ordered branches ∧ AllOrdered branches

def AllOrdered : List (String × RawTree α) → Prop
  | [] => True
  | (_, branch) :: rest => branch.Ordered ∧ AllOrdered rest

end

def get? (tree : RawTree α) : Path → Option (RawTree α)
  | [] => some tree
  | key :: rest =>
    match tree with
    | .leaf _ => none
    | .node branches => (branches.lookup key).bind fun branch => branch.get? rest

/-- Stores `value` at the path `key :: rest`. An error is the path of the obstacle. -/
def store (value : α) (key : String) (rest : Path) : RawTree α → Except Path (RawTree α)
  | .leaf _ => .error []
  | .node branches =>
    match rest with
    | [] =>
      match branches.lookup key with
      | some (.node _) => .error [key]
      | _ => .ok (.node (Keyed.insert key (.leaf value) branches))
    | next :: rest =>
      match store value next rest ((branches.lookup key).getD (.node [])) with
      | .ok branch => .ok (.node (Keyed.insert key branch branches))
      | .error obstacle => .error (key :: obstacle)

mutual

/-- The leaves with their paths, in the order of the branches. -/
def leaves : RawTree α → List (Path × α)
  | .leaf value => [([], value)]
  | .node branches => leavesOf branches

def leavesOf : List (String × RawTree α) → List (Path × α)
  | [] => []
  | (key, branch) :: rest =>
    branch.leaves.map (fun entry => (key :: entry.1, entry.2)) ++ leavesOf rest

end

mutual

def leafCount : RawTree α → Nat
  | .leaf _ => 1
  | .node branches => leafCountOf branches

def leafCountOf : List (String × RawTree α) → Nat
  | [] => 0
  | (_, branch) :: rest => branch.leafCount + leafCountOf rest

end

/-! ### The order of the branches is kept -/

theorem allOrdered_iff {branches : List (String × RawTree α)} :
    AllOrdered branches ↔ ∀ entry ∈ branches, entry.2.Ordered := by
  induction branches with
  | nil => simp [AllOrdered]
  | cons entry rest ih => obtain ⟨k, t⟩ := entry; simp [AllOrdered, ih]

theorem Ordered.of_lookup {branches : List (String × RawTree α)} {key : String}
    {branch : RawTree α} (h : AllOrdered branches) (hl : branches.lookup key = some branch) :
    branch.Ordered := by
  induction branches with
  | nil => simp at hl
  | cons entry rest ih =>
    obtain ⟨k, t⟩ := entry
    rw [List.lookup_cons] at hl
    split at hl
    · cases hl; exact h.1
    · exact ih h.2 hl

theorem allOrdered_insert {branches : List (String × RawTree α)} {key : String}
    {branch : RawTree α} (h : AllOrdered branches) (hb : branch.Ordered) :
    AllOrdered (Keyed.insert key branch branches) := by
  induction branches with
  | nil => exact ⟨hb, trivial⟩
  | cons entry rest ih =>
    obtain ⟨k, t⟩ := entry
    unfold Keyed.insert
    split
    · exact ⟨hb, h.2⟩
    · split
      · exact ⟨hb, h⟩
      · exact ⟨h.1, ih h.2⟩

theorem Ordered.insert {branches : List (String × RawTree α)} {key : String}
    {branch : RawTree α} (h : (node branches).Ordered) (hb : branch.Ordered) :
    (node (Keyed.insert key branch branches)).Ordered :=
  ⟨Keyed.ordered_insert h.1, allOrdered_insert h.2 hb⟩

theorem ordered_empty : (node [] : RawTree α).Ordered :=
  ⟨List.Pairwise.nil, trivial⟩

theorem Ordered.get? {tree : RawTree α} {path : Path} {found : RawTree α} (h : tree.Ordered)
    (hg : tree.get? path = some found) : found.Ordered := by
  induction path generalizing tree with
  | nil => cases hg; exact h
  | cons key rest ih =>
    cases tree with
    | leaf _ => cases hg
    | node branches =>
      simp only [RawTree.get?, Option.bind_eq_some_iff] at hg
      obtain ⟨branch, hl, hg⟩ := hg
      exact ih (Ordered.of_lookup h.2 hl) hg

theorem Ordered.store {tree result : RawTree α} {value : α} {key : String} {rest : Path}
    (h : tree.Ordered) (hs : tree.store value key rest = .ok result) : result.Ordered := by
  induction rest generalizing tree result key with
  | nil =>
    cases tree with
    | leaf _ => cases hs
    | node branches =>
      simp only [RawTree.store] at hs
      split at hs
      · cases hs
      · cases hs; exact h.insert trivial
  | cons next rest ih =>
    cases tree with
    | leaf _ => cases hs
    | node branches =>
      simp only [RawTree.store] at hs
      split at hs
      · rename_i branch hb
        cases hs
        refine h.insert (ih ?_ hb)
        cases hl : branches.lookup key with
        | none => exact ordered_empty
        | some found => exact Ordered.of_lookup h.2 hl
      · cases hs

end RawTree

/-- A tree with named branches in the order of their keys, and values at its leaves. -/
structure Tree (α : Type u) where
  raw : RawTree α
  ordered : raw.Ordered

inductive StoreError where
  /-- The root itself is no place for a value. -/
  | emptyPath
  /-- There is a leaf where a node is needed, or a node where the leaf should go. -/
  | conflict (path : Path)
  deriving Repr, DecidableEq

def StoreError.message : StoreError → String
  | .emptyPath => "Path must not be empty"
  | .conflict path => s!"Path conflict at {path.display}"

namespace Tree

variable {α : Type u}

def empty : Tree α :=
  ⟨.node [], RawTree.ordered_empty⟩

instance : Inhabited (Tree α) := ⟨empty⟩

/-- The value of a tree that is a single leaf. -/
def value? (tree : Tree α) : Option α :=
  match tree.raw with
  | .leaf value => some value
  | .node _ => none

/-- The keys of the branches of a node. -/
def keys? (tree : Tree α) : Option (List String) :=
  match tree.raw with
  | .leaf _ => none
  | .node branches => some (branches.map Prod.fst)

def get? (tree : Tree α) (path : Path) : Option (Tree α) :=
  match h : tree.raw.get? path with
  | some found => some ⟨found, tree.ordered.get? h⟩
  | none => none

def getLeaf? (tree : Tree α) (path : Path) : Option α :=
  (tree.get? path).bind value?

def put (tree : Tree α) (path : Path) (value : α) : Except StoreError (Tree α) :=
  match path with
  | [] => .error .emptyPath
  | key :: rest =>
    match h : tree.raw.store value key rest with
    | .ok result => .ok ⟨result, tree.ordered.store h⟩
    | .error obstacle => .error (.conflict obstacle)

/-- The leaves with their paths, in increasing order of the paths. -/
def leaves (tree : Tree α) : List (Path × α) :=
  tree.raw.leaves

def leafPaths (tree : Tree α) : List Path :=
  tree.leaves.map Prod.fst

def leafCount (tree : Tree α) : Nat :=
  tree.raw.leafCount

def putAll (tree : Tree α) (entries : List (Path × α)) : Except StoreError (Tree α) :=
  entries.foldlM (fun tree entry => tree.put entry.1 entry.2) tree

end Tree

end Circuitry
