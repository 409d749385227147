import Circuitry.Proofs.Tree
import Circuitry.Tree.InPlace

/-!
# Where a value finds its place

A tree refuses a value for three reasons: the path is that of the root, a leaf stands above the
path, or a node stands at it (`Tree.Refuses`).  Storing meets exactly these (`Tree.put_eq_error`),
and the error names the place.

The walk of an update in place makes nodes before it is known how the walk ends, but none of them is
ever left behind.  Below a new node nothing is in the way (`RawTree.exists_store_empty`), so a walk
that has made one succeeds.  A walk that fails has made none: it has put back every branch where it
was, which is no change (`Keyed.insert_eq_self`).  So the walk leaves the stored tree or the old one
(`RawTree.storeInPlace_eq`).
-/

namespace Circuitry

universe u

theorem Keyed.insert_eq_self {β : Type u} {entries : List (String × β)} {key : String} {value : β}
    (h : Keyed.Ordered entries) (hl : entries.lookup key = some value) :
    Keyed.insert key value entries = entries := by
  refine Keyed.ext_lookup (Keyed.ordered_insert h) h fun other => ?_
  rw [Keyed.lookup_insert]
  by_cases ho : other = key
  · rw [if_pos ho, ho, hl]
  · rw [if_neg ho]

variable {α : Type u}

namespace RawTree

/-! ### Obstacles -/

/-- What is in the way of a value at `path`: a leaf above it, or a node at the path itself. -/
def BlockedAt (tree : RawTree α) (path obstacle : Path) : Prop :=
  (obstacle <+: path ∧ obstacle ≠ path ∧ ∃ found, tree.get? obstacle = some (.leaf found)) ∨
    obstacle = path ∧ ∃ branches, tree.get? path = some (.node branches)

theorem blockedAt_nil {tree : RawTree α} {obstacle : Path} :
    tree.BlockedAt [] obstacle ↔ obstacle = [] ∧ ∃ branches, tree = .node branches := by
  unfold BlockedAt
  constructor
  · rintro (⟨habove, hne, -⟩ | ⟨rfl, branches, h⟩)
    · exact absurd (List.prefix_nil.mp habove) hne
    · exact ⟨rfl, branches, Option.some.inj h⟩
  · rintro ⟨rfl, branches, rfl⟩
    exact .inr ⟨rfl, branches, rfl⟩

theorem blockedAt_leaf_cons {value : α} {key : String} {rest obstacle : Path} :
    (leaf value).BlockedAt (key :: rest) obstacle ↔ obstacle = [] := by
  unfold BlockedAt
  cases obstacle with
  | nil => simp
  | cons first below => simp [RawTree.get?]

theorem blockedAt_node_cons {branches : List (String × RawTree α)} {key : String}
    {rest obstacle : Path} :
    (node branches).BlockedAt (key :: rest) obstacle ↔
      ∃ branch below, branches.lookup key = some branch ∧ obstacle = key :: below ∧
        branch.BlockedAt rest below := by
  unfold BlockedAt
  cases obstacle with
  | nil => simp
  | cons first below =>
    simp only [get?_node_cons, List.cons_prefix_cons, List.cons.injEq, Option.bind_eq_some_iff]
    constructor
    · rintro (⟨⟨rfl, habove⟩, hne, found, branch, hl, hg⟩ | ⟨⟨rfl, rfl⟩, inner, branch, hl, hg⟩)
      · exact ⟨branch, below, hl, ⟨rfl, rfl⟩, .inl ⟨habove, fun h => hne (h ▸ rfl), found, hg⟩⟩
      · exact ⟨branch, below, hl, ⟨rfl, rfl⟩, .inr ⟨rfl, inner, hg⟩⟩
    · rintro ⟨branch, _, hl, ⟨rfl, rfl⟩, ⟨habove, hne, found, hg⟩ | ⟨rfl, inner, hg⟩⟩
      · exact .inl ⟨⟨rfl, habove⟩, fun h => hne (List.cons.inj h).2, found, branch, hl, hg⟩
      · exact .inr ⟨⟨rfl, rfl⟩, inner, branch, hl, hg⟩

theorem exists_store_empty (value : α) (key : String) (rest : Path) :
    ∃ result, (node [] : RawTree α).store value key rest = .ok result :=
  exists_store value trimmed_empty fun _ _ hleaf _ => absurd hleaf get?_empty

/-- **Storing fails exactly at an obstacle**, which it names. -/
theorem store_eq_error {value : α} {key : String} {rest obstacle : Path} {tree : RawTree α} :
    tree.store value key rest = .error obstacle ↔ tree.BlockedAt (key :: rest) obstacle := by
  induction rest generalizing key obstacle tree with
  | nil =>
    cases tree with
    | leaf old => simp [store, blockedAt_leaf_cons, eq_comm]
    | node branches =>
      rw [blockedAt_node_cons, store]
      cases hl : branches.lookup key with
      | none => simp
      | some branch =>
        cases branch with
        | leaf old => simp [blockedAt_nil]
        | node inner => simp [blockedAt_nil, eq_comm]
  | cons next rest ih =>
    cases tree with
    | leaf old => simp [store, blockedAt_leaf_cons, eq_comm]
    | node branches =>
      rw [blockedAt_node_cons, store]
      cases hl : branches.lookup key with
      | none =>
        obtain ⟨result, hresult⟩ := exists_store_empty value next rest
        simp [hresult]
      | some branch =>
        -- The branch is walked on, and its obstacle is reported from here.
        simp only [Option.getD_some, Option.some.injEq, exists_and_left, exists_eq_left', ← ih]
        cases branch.store value next rest with
        | ok result => simp
        | error below => simp [eq_comm]

/-! ### The walk in place -/

/-- **The walk leaves the stored tree, or the tree that was there.** -/
theorem storeInPlace_eq {tree : RawTree α} (h : tree.Ordered) (value : α) (key : String)
    (rest : Path) :
    tree.storeInPlace value key rest =
      match tree.store value key rest with
      | .ok result => (result, .ok ())
      | .error obstacle => (tree, .error obstacle) := by
  induction rest generalizing key tree with
  | nil =>
    cases tree with
    | leaf old => rfl
    | node branches =>
      simp only [storeInPlace, store]
      cases branches.lookup key with
      | none => rfl
      | some branch => cases branch <;> rfl
  | cons next rest ih =>
    cases tree with
    | leaf old => rfl
    | node branches =>
      simp only [storeInPlace, store]
      cases hl : branches.lookup key with
      | none =>
        obtain ⟨result, hresult⟩ := exists_store_empty value next rest
        rw [Option.getD_none, ih ordered_empty next, hresult]
        rfl
      | some branch =>
        rw [Option.getD_some, ih (Ordered.of_lookup h.2 hl) next]
        cases branch.store value next rest with
        | ok result => rfl
        | error obstacle =>
          dsimp only
          rw [Keyed.insert_eq_self h.1 hl]
          rfl

end RawTree

namespace Tree

/-- Why a tree refuses a value at a path. -/
inductive Refuses (tree : Tree α) : Path → StoreError → Prop where
  /-- The root is no place for a value. -/
  | root : tree.Refuses [] .emptyPath
  /-- A leaf stands above the path. -/
  | leaf {path above : Path} {found : α} (habove : above <+: path) (hproper : above ≠ path)
      (hleaf : tree.getLeaf? above = some found) : tree.Refuses path (.conflict above)
  /-- A node stands at the path, with branches or without. -/
  | node {path : Path} {inner : Tree α} (hne : path ≠ []) (hfound : tree.get? path = some inner)
      (hinner : inner.value? = none) : tree.Refuses path (.conflict path)

theorem exists_get?_node {tree : Tree α} {path : Path} :
    (∃ inner, tree.get? path = some inner ∧ inner.value? = none) ↔
      ∃ branches, tree.raw.get? path = some (.node branches) := by
  unfold get?
  split
  · rename_i found h
    cases found with
    | leaf value => simp [h, value?]
    | node branches => simp [h, value?]
  · rename_i h
    simp [h]

theorem refuses_iff {tree : Tree α} {key : String} {rest : Path} {e : StoreError} :
    tree.Refuses (key :: rest) e ↔
      ∃ obstacle, e = .conflict obstacle ∧ tree.raw.BlockedAt (key :: rest) obstacle := by
  constructor
  · intro h
    cases h with
    | leaf habove hproper hleaf =>
      exact ⟨_, rfl, .inl ⟨habove, hproper, _, getLeaf?_eq_some.mp hleaf⟩⟩
    | node hne hfound hinner => exact ⟨_, rfl, .inr ⟨rfl, exists_get?_node.mp ⟨_, hfound, hinner⟩⟩⟩
  · rintro ⟨obstacle, rfl, ⟨habove, hproper, found, hleaf⟩ | ⟨rfl, hnode⟩⟩
    · exact .leaf habove hproper (getLeaf?_eq_some.mpr hleaf)
    · obtain ⟨inner, hfound, hinner⟩ := exists_get?_node.mpr hnode
      exact .node (List.cons_ne_nil _ _) hfound hinner

theorem put_cons_eq_error {tree : Tree α} {key : String} {rest : Path} {value : α}
    {e : StoreError} :
    tree.put (key :: rest) value = .error e ↔
      ∃ obstacle, e = .conflict obstacle ∧ tree.raw.store value key rest = .error obstacle := by
  unfold put
  dsimp only
  split
  · rename_i result hs
    simp [hs]
  · rename_i obstacle hs
    simp [hs, eq_comm]

/-- **A value is refused for the reasons listed and for no other.** -/
theorem put_eq_error {tree : Tree α} {path : Path} {value : α} {e : StoreError} :
    tree.put path value = .error e ↔ tree.Refuses path e := by
  cases path with
  | nil =>
    constructor
    · intro h
      cases h
      exact .root
    · intro h
      cases h with
      | root => rfl
      | leaf habove hproper _ => exact absurd (List.prefix_nil.mp habove) hproper
      | node hne _ _ => exact absurd rfl hne
  | cons key rest =>
    rw [put_cons_eq_error, refuses_iff]
    simp only [RawTree.store_eq_error]

/-- **An update in place stores the value, or changes nothing.** -/
theorem putInPlace_eq (tree : Tree α) (path : Path) (value : α) :
    tree.putInPlace path value =
      match tree.put path value with
      | .ok result => (result, .ok ())
      | .error e => (tree, .error e) := by
  cases path with
  | nil => rfl
  | cons key rest =>
    have hwalk := RawTree.storeInPlace_eq tree.ordered value key rest
    cases hput : tree.put (key :: rest) value with
    | ok result =>
      obtain ⟨_, _, heq, hs⟩ := put_eq_ok.mp hput
      cases heq
      rw [hs] at hwalk
      refine Prod.ext (Tree.ext ?_) ?_
      · exact congrArg Prod.fst hwalk
      · exact congrArg (fun walk => walk.2.mapError StoreError.conflict) hwalk
    | error e =>
      obtain ⟨obstacle, rfl, hs⟩ := put_cons_eq_error.mp hput
      rw [hs] at hwalk
      refine Prod.ext (Tree.ext ?_) ?_
      · exact congrArg Prod.fst hwalk
      · exact congrArg (fun walk => walk.2.mapError StoreError.conflict) hwalk

/-! ### What a stored value changes -/

theorem mem_leafPaths_put {tree result : Tree α} {path : Path} {value : α}
    (h : tree.put path value = .ok result) {other : Path} :
    other ∈ result.leafPaths ↔ other = path ∨ other ∈ tree.leafPaths := by
  rw [mem_leafPaths, mem_leafPaths]
  simp only [getLeaf?_put h]
  by_cases ho : other = path
  · simp [ho]
  · simp [ho]

/-- **One leaf more, unless there was one already.** -/
theorem leafCount_put {tree result : Tree α} {path : Path} {value : α}
    (h : tree.put path value = .ok result) :
    result.leafCount = tree.leafCount + if (tree.getLeaf? path).isSome then 0 else 1 := by
  have hmem : path ∈ tree.leafPaths ↔ (tree.getLeaf? path).isSome = true := by
    rw [mem_leafPaths, Option.isSome_iff_exists]
  rw [← length_leafPaths, ← length_leafPaths]
  by_cases hold : (tree.getLeaf? path).isSome = true
  · rw [if_pos hold, Nat.add_zero]
    refine List.Perm.length_eq ?_
    refine (List.perm_ext_iff_of_nodup result.nodup_leafPaths tree.nodup_leafPaths).mpr ?_
    intro other
    rw [mem_leafPaths_put h]
    refine ⟨fun ho => ?_, .inr⟩
    rcases ho with rfl | ho
    · exact hmem.mpr hold
    · exact ho
  · rw [if_neg hold, ← List.length_cons (a := path)]
    refine List.Perm.length_eq ?_
    have hnew : (path :: tree.leafPaths).Nodup :=
      List.nodup_cons.mpr ⟨fun hm => hold (hmem.mp hm), tree.nodup_leafPaths⟩
    refine (List.perm_ext_iff_of_nodup result.nodup_leafPaths hnew).mpr ?_
    intro other
    rw [mem_leafPaths_put h, List.mem_cons]

theorem get?_put_away {tree result : Tree α} {path other : Path} {value : α}
    (h : tree.put path value = .ok result) (habove : ¬ other <+: path) (hbelow : ¬ path <+: other) :
    result.get? other = tree.get? other := by
  obtain ⟨key, rest, rfl, hs⟩ := put_eq_ok.mp h
  exact get?_congr (RawTree.get?_store_away hs other habove hbelow)

/-- **Storing in place is exact, atomic and local.**  It fails for the reasons that `Refuses` lists,
of which there is at most one, and then the tree is the one before.  If it succeeds the value stands
at its path, everything beside the path is as it was, and there is one leaf more unless the path had
one already.  Storing with a new tree as the result does the same. -/
theorem putInPlace_exact_atomic_local (tree : Tree α) (path : Path) (value : α) :
    let after := (tree.putInPlace path value).1
    let answer := (tree.putInPlace path value).2
    (∀ e, answer = .error e ↔ tree.Refuses path e) ∧
      (∀ e e', tree.Refuses path e → tree.Refuses path e' → e = e') ∧
      (∀ e, answer = .error e → after = tree) ∧
      (answer = .ok () → after.getLeaf? path = some value ∧
        (∀ other, ¬ other <+: path → ¬ path <+: other → after.get? other = tree.get? other) ∧
        after.leafCount = tree.leafCount + if (tree.getLeaf? path).isSome then 0 else 1) ∧
      tree.put path value = answer.map fun _ => after := by
  have hunique : ∀ e e', tree.Refuses path e → tree.Refuses path e' → e = e' := by
    intro e e' he he'
    have hput : tree.put path value = .error e := put_eq_error.mpr he
    rw [put_eq_error.mpr he'] at hput
    exact (Except.error.inj hput).symm
  have hrefuses : ∀ e, tree.put path value = .error e ↔ tree.Refuses path e := fun _ => put_eq_error
  rw [putInPlace_eq]
  cases hput : tree.put path value with
  | error cause =>
    rw [hput] at hrefuses
    refine ⟨fun e => ?_, hunique, fun _ _ => rfl, nofun, rfl⟩
    rw [← hrefuses]
    simp
  | ok result =>
    rw [hput] at hrefuses
    refine ⟨fun e => ?_, hunique, nofun, fun _ => ⟨?_, ?_, leafCount_put hput⟩, rfl⟩
    · rw [← hrefuses]
      simp
    · rw [getLeaf?_put hput, if_pos rfl]
    · intro other habove hbelow
      exact get?_put_away hput habove hbelow

end Tree

end Circuitry
