import Circuitry.Proofs.ByteOrder
import Circuitry.Proofs.Tree

/-!
# A tree and the list of its leaves

The enumeration of the leaves says all about a tree but its barren positions.  `Tree.trim` leaves
these out: it keeps the enumeration as it is (`RawTree.leaves_trim`) and has no barren position
(`RawTree.trimmed_trim`).  No leaf stands above another, so the leaves can be stored one by one in
any order, and as trees without barren positions are known by their leaves, the result is the
trimmed tree (`Tree.putAll_leaves`).
-/

namespace Circuitry

universe u

variable {α : Type u}

namespace RawTree

/-! ### Leaving out barren branches -/

mutual

/-- The tree without the branches below which there is no leaf. -/
def trim : RawTree α → RawTree α
  | .leaf value => .leaf value
  | .node branches => .node (trimBranches branches)

def trimBranches : List (String × RawTree α) → List (String × RawTree α)
  | [] => []
  | (key, branch) :: rest =>
    if branch.leafCount = 0 then trimBranches rest else (key, branch.trim) :: trimBranches rest

end

theorem mem_trimBranches {branches : List (String × RawTree α)} {entry : String × RawTree α}
    (h : entry ∈ trimBranches branches) :
    ∃ branch, (entry.1, branch) ∈ branches ∧ branch.leafCount ≠ 0 ∧ entry.2 = branch.trim := by
  induction branches with
  | nil => cases h
  | cons first rest ih =>
    have hrest : entry ∈ trimBranches rest → ∃ branch, (entry.1, branch) ∈ first :: rest ∧
        branch.leafCount ≠ 0 ∧ entry.2 = branch.trim := by
      intro hm
      obtain ⟨branch, hb, hcount, heq⟩ := ih hm
      exact ⟨branch, List.mem_cons_of_mem _ hb, hcount, heq⟩
    rw [trimBranches] at h
    split at h
    · exact hrest h
    · rename_i hcount
      rcases List.mem_cons.mp h with rfl | h
      · exact ⟨first.2, List.mem_cons_self, hcount, rfl⟩
      · exact hrest h

theorem keys_trimBranches (branches : List (String × RawTree α)) :
    ((trimBranches branches).map Prod.fst).Sublist (branches.map Prod.fst) := by
  induction branches with
  | nil => exact List.Sublist.refl _
  | cons first rest ih =>
    rw [trimBranches]
    split
    · exact ih.cons _
    · exact ih.cons_cons _

theorem Ordered.trim {tree : RawTree α} (h : tree.Ordered) : tree.trim.Ordered := by
  induction tree using RawTree.ind with
  | leaf value => trivial
  | node branches ih =>
    refine ⟨h.1.sublist (keys_trimBranches branches), allOrdered_iff.mpr fun entry hm => ?_⟩
    obtain ⟨branch, hb, -, heq⟩ := mem_trimBranches hm
    rw [heq]
    exact ih _ hb (allOrdered_iff.mp h.2 _ hb)

/-- **Trimming keeps the enumeration of the leaves.** -/
theorem leaves_trim (tree : RawTree α) : tree.trim.leaves = tree.leaves := by
  induction tree using RawTree.ind with
  | leaf value => rfl
  | node branches ih =>
    rw [trim, leaves, leaves]
    induction branches with
    | nil => rfl
    | cons first rest ihrest =>
      have hrest := ihrest fun entry hm => ih entry (List.mem_cons_of_mem _ hm)
      rw [trimBranches, leavesOf]
      split
      · rename_i hcount
        have hnone : first.2.leaves = [] := by
          rw [← List.length_eq_zero_iff, length_leaves]
          exact hcount
        rw [hrest, hnone]
        rfl
      · rw [leavesOf, hrest, ih first List.mem_cons_self]

theorem exists_leaf_trim {branch : RawTree α} (h : branch.Ordered) (hcount : branch.leafCount ≠ 0) :
    ∃ below value, branch.trim.get? below = some (.leaf value) := by
  rw [← length_leaves, ← leaves_trim] at hcount
  obtain ⟨⟨below, value⟩, hm⟩ := List.exists_mem_of_length_pos (Nat.pos_of_ne_zero hcount)
  exact ⟨below, value, (mem_leaves h.trim).mp hm⟩

/-- **A trimmed tree has no barren position.** -/
theorem trimmed_trim {tree : RawTree α} (h : tree.Ordered) : tree.trim.Trimmed := by
  induction tree using RawTree.ind with
  | leaf value =>
    intro path found hne hf
    cases path with
    | nil => exact absurd rfl hne
    | cons key rest => cases hf
  | node branches ih =>
    intro path found hne hf
    cases path with
    | nil => exact absurd rfl hne
    | cons key rest =>
      have hordered : Keyed.Ordered (trimBranches branches) :=
        h.1.sublist (keys_trimBranches branches)
      rw [trim, get?_node_cons] at hf
      obtain ⟨kept, hl, hf⟩ := Option.bind_eq_some_iff.mp hf
      obtain ⟨branch, hm, hcount, heq⟩ :=
        mem_trimBranches ((Keyed.lookup_eq_some_iff hordered).mp hl)
      cases heq
      have hb := allOrdered_iff.mp h.2 _ hm
      cases rest with
      | nil =>
        cases hf
        exact exists_leaf_trim hb hcount
      | cons next rest => exact ih _ hm hb _ _ (List.cons_ne_nil _ _) hf

end RawTree

namespace Tree

/-- The tree without the branches below which there is no leaf. -/
def trim (tree : Tree α) : Tree α :=
  ⟨tree.raw.trim, tree.ordered.trim⟩

theorem trimmed_trim (tree : Tree α) : tree.trim.Trimmed :=
  RawTree.trimmed_trim tree.ordered

theorem getLeaf?_trim (tree : Tree α) (path : Path) :
    tree.trim.getLeaf? path = tree.getLeaf? path := by
  apply Option.ext
  intro value
  have hleaves : tree.trim.leaves = tree.leaves := RawTree.leaves_trim tree.raw
  rw [← mem_leaves, ← mem_leaves, hleaves]

/-! ### Storing the leaves again -/

theorem getLeaf?_nil (tree : Tree α) : tree.getLeaf? [] = tree.value? := by
  apply Option.ext
  intro value
  rw [getLeaf?_eq_some, RawTree.get?_nil, value?]
  cases tree.raw with
  | leaf old => simp
  | node branches => simp

/-- **The leaves of a node, stored in any order, make the trimmed tree.** -/
theorem putAll_leaves {tree : Tree α} (hnode : tree.value? = none) {entries : List (Path × α)}
    (hperm : entries.Perm tree.leaves) : empty.putAll entries = .ok tree.trim := by
  have hmem : ∀ path value, (path, value) ∈ entries ↔ tree.getLeaf? path = some value := by
    intro path value
    rw [hperm.mem_iff, mem_leaves]
  have hpaths : ∀ path, path ∈ entries.map Prod.fst ↔ path ∈ tree.leafPaths :=
    fun path => (hperm.map Prod.fst).mem_iff
  obtain ⟨result, hresult⟩ : ∃ result, (empty : Tree α).putAll entries = .ok result := by
    refine exists_putAll_empty ?_ ?_
    · rintro ⟨path, value⟩ hm rfl
      rw [hmem, getLeaf?_nil, hnode] at hm
      cases hm
    · intro p q hp hq
      exact tree.prefixFree_leafPaths p q ((hpaths p).mp hp) ((hpaths q).mp hq)
  rw [hresult]
  refine congrArg Except.ok (ext_getLeaf? (trimmed_empty.putAll hresult) tree.trimmed_trim ?_)
  intro path
  apply Option.ext
  intro value
  have hfun : ∀ p v w, (p, v) ∈ entries → (p, w) ∈ entries → v = w := by
    intro p v w hv hw
    rw [hmem] at hv hw
    exact Option.some.inj (hv.symm.trans hw)
  rw [getLeaf?_putAll hresult hfun, getLeaf?_trim, hmem, getLeaf?_empty]
  simp

/-- **The leaves are listed completely, once each and in order, and the list rebuilds the tree.**
A pair is listed exactly if look-up finds the value at the path.  The paths increase strictly, by
the bytes of their keys, none of them leads through another, and there are as many as the number of
leaves says.  Stored in any order, the leaves of a node make the node again, without its barren
branches. -/
theorem leaves_enumerate_and_rebuild (tree : Tree α) :
    (∀ path value, (path, value) ∈ tree.leaves ↔ tree.getLeaf? path = some value) ∧
      (tree.leaves.map Prod.fst).Pairwise
        (fun p q => p.map Text.Utf8.encode < q.map Text.Utf8.encode) ∧
      (∀ leaf ∈ tree.leaves, ∀ other ∈ tree.leaves, leaf.1 <+: other.1 → leaf = other) ∧
      tree.leaves.length = tree.leafCount ∧
      (tree.value? = none → ∀ entries : List (Path × α), entries.Perm tree.leaves →
        empty.putAll entries = .ok tree.trim) := by
  refine ⟨fun _ _ => mem_leaves, ?_, ?_, RawTree.length_leaves tree.raw, ?_⟩
  · refine (RawTree.pairwise_leaves tree.ordered).imp fun {p q} hlt => ?_
    exact List.map_lt (fun _ _ => Text.Utf8.encode_lt) hlt
  · rintro ⟨p, v⟩ hp ⟨q, w⟩ hq habove
    have hpath : p = q := tree.prefixFree_leafPaths p q (List.mem_map_of_mem hp)
      (List.mem_map_of_mem hq) habove
    subst hpath
    rw [mem_leaves] at hp hq
    rw [Option.some.inj (hp.symm.trans hq)]
  · intro hnode entries hperm
    exact putAll_leaves hnode hperm

end Tree

end Circuitry
