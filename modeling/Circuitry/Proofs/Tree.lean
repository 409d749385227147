import Circuitry.Proofs.Fallible
import Circuitry.Tree.Basic

/-!
# What a tree holds

A tree is known by its leaves.  This file says so in three steps.

* `get?_store_leaf`, `get?_store_away`: storing a value changes the leaf at its own path
  and nothing else.
* `mem_leaves`: the enumeration of the leaves has exactly the leaves that look-up finds, and no
  leaf stands above another (`leaf_eq_of_above`).
* `ext_leaves`: **two trees without barren positions that have the same leaves are equal.**

A position is barren when no leaf stands at or below it.  Storing never makes one (`Trimmed.store`),
so a tree built by storing is determined by what was stored, and storing fails only where the path
runs through a leaf or a leaf runs through the path (`exists_store`).
-/

namespace Circuitry

universe u v

namespace Keyed

variable {β : Type u}

theorem lookup_insert (key other : String) (value : β) (entries : List (String × β)) :
    (insert key value entries).lookup other
      = if other = key then some value else entries.lookup other := by
  induction entries with
  | nil =>
    by_cases h : other = key
    · simp [insert, h]
    · simp [insert, h, List.lookup_cons, beq_eq_false_iff_ne.mpr h]
  | cons entry rest ih =>
    obtain ⟨k, v⟩ := entry
    unfold insert
    split
    · rename_i hk
      subst hk
      by_cases h : other = key
      · simp [h]
      · simp [List.lookup_cons, h, beq_eq_false_iff_ne.mpr h]
    · rename_i hne
      split
      · by_cases h : other = key
        · simp [h]
        · rw [List.lookup_cons, beq_eq_false_iff_ne.mpr h, if_neg h]
      · by_cases h : other = k
        · subst h
          rw [List.lookup_cons_self, List.lookup_cons_self, if_neg (Ne.symm hne)]
        · rw [List.lookup_cons, List.lookup_cons, beq_eq_false_iff_ne.mpr h, ih]

theorem lookup_eq_some_iff {entries : List (String × β)} (h : Ordered entries) {key : String}
    {value : β} : entries.lookup key = some value ↔ (key, value) ∈ entries := by
  induction entries with
  | nil => simp
  | cons entry rest ih =>
    obtain ⟨k, v⟩ := entry
    have hk : ∀ x ∈ rest.map Prod.fst, k < x := (List.pairwise_cons.mp h).1
    have hrest : Ordered rest := (List.pairwise_cons.mp h).2
    by_cases he : key = k
    · subst he
      rw [List.lookup_cons_self, List.mem_cons]
      constructor
      · intro hv
        cases hv
        exact .inl rfl
      · rintro (hv | hv)
        · cases hv; rfl
        · exact absurd (hk key (List.mem_map_of_mem hv)) (String.lt_irrefl key)
    · rw [List.lookup_cons, beq_eq_false_iff_ne.mpr he, List.mem_cons]
      simp only
      rw [ih hrest]
      constructor
      · exact .inr
      · rintro (hv | hv)
        · cases hv; exact absurd rfl he
        · exact hv

theorem ext_lookup : ∀ {a b : List (String × β)}, Ordered a → Ordered b →
    (∀ key, a.lookup key = b.lookup key) → a = b := by
  intro a b ha hb h
  have hmem : ∀ entry, entry ∈ a ↔ entry ∈ b := by
    rintro ⟨key, value⟩
    rw [← lookup_eq_some_iff ha, ← lookup_eq_some_iff hb, h key]
  have hlt {l : List (String × β)} (hl : Ordered l) : l.Pairwise (fun x y => x.1 < y.1) :=
    List.pairwise_map.mp hl
  have hnodup {l : List (String × β)} (hl : Ordered l) : l.Nodup := by
    refine List.Pairwise.imp ?_ (hlt hl)
    intro x y hxy he
    exact String.lt_irrefl y.1 (he ▸ hxy)
  have hperm : a.Perm b := (List.perm_ext_iff_of_nodup (hnodup ha) (hnodup hb)).mpr hmem
  refine hperm.eq_of_pairwise (fun x y hx hy hxy hyx => ?_) (hlt ha) (hlt hb)
  exact absurd (String.lt_trans hxy hyx) (String.lt_irrefl _)

end Keyed

namespace RawTree

variable {α : Type u} {β : Type v}

/-- Induction on a tree: what holds of all branches of a node holds of the node. -/
@[elab_as_elim]
theorem ind {motive : RawTree α → Prop} (leaf : ∀ value, motive (.leaf value))
    (node : ∀ branches : List (String × RawTree α), (∀ entry ∈ branches, motive entry.2) →
      motive (.node branches)) : ∀ tree, motive tree
  | .leaf value => leaf value
  | .node branches => node branches (all branches)
where
  all : ∀ branches : List (String × RawTree α), ∀ entry ∈ branches, motive entry.2
  | [], _, h => absurd h List.not_mem_nil
  | (_, branch) :: rest, entry, h => by
    rcases List.mem_cons.mp h with rfl | h
    · exact ind leaf node branch
    · exact all rest entry h

/-! ### Looking up -/

@[simp] theorem get?_nil (tree : RawTree α) : tree.get? [] = some tree := rfl

theorem get?_node_cons (branches : List (String × RawTree α)) (key : String) (rest : Path) :
    (node branches).get? (key :: rest)
      = (branches.lookup key).bind fun branch => branch.get? rest := rfl

theorem get?_node_insert (branches : List (String × RawTree α)) (key other : String)
    (branch : RawTree α) (rest : Path) :
    (node (Keyed.insert key branch branches)).get? (other :: rest)
      = if other = key then branch.get? rest else (node branches).get? (other :: rest) := by
  rw [get?_node_cons, Keyed.lookup_insert]
  by_cases h : other = key
  · rw [if_pos h, if_pos h]; rfl
  · rw [if_neg h, if_neg h]; rfl

theorem get?_append (tree : RawTree α) (p q : Path) :
    tree.get? (p ++ q) = (tree.get? p).bind fun found => found.get? q := by
  induction p generalizing tree with
  | nil => rfl
  | cons key rest ih =>
    cases tree with
    | leaf value => rfl
    | node branches =>
      rw [List.cons_append, get?_node_cons, get?_node_cons]
      cases branches.lookup key with
      | none => rfl
      | some branch => exact ih branch

theorem leaf_eq_of_above {tree : RawTree α} {p q : Path} {value : α} {found : RawTree α}
    (hp : tree.get? p = some (.leaf value)) (hq : tree.get? q = some found) (h : p <+: q) :
    p = q := by
  obtain ⟨rest, rfl⟩ := h
  rw [get?_append, hp] at hq
  cases rest with
  | nil => exact (List.append_nil p).symm
  | cons key rest => cases hq

theorem get?_empty {path : Path} {value : α} : (node [] : RawTree α).get? path ≠ some (.leaf value)
    := by
  cases path with
  | nil => intro h; cases h
  | cons key rest => intro h; cases h

/-! ### Storing -/

/-- **Storing a value changes the leaf at its own path and no other.** -/
theorem get?_store_leaf {value : α} : ∀ {key : String} {rest : Path} {tree result : RawTree α},
    tree.store value key rest = .ok result → ∀ (other : Path) (found : α),
    result.get? other = some (.leaf found) ↔
      if other = key :: rest then found = value else tree.get? other = some (.leaf found) := by
  intro key rest
  induction rest generalizing key with
  | nil =>
    intro tree result h other found
    cases tree with
    | leaf old => cases h
    | node branches =>
      simp only [store] at h
      split at h
      · cases h
      · rename_i hold
        cases h
        cases other with
        | nil => simp
        | cons k r =>
          rw [get?_node_insert]
          by_cases hk : k = key
          · subst hk
            cases r with
            | nil => simp [eq_comm]
            | cons k' r' =>
              -- Below the new leaf there is nothing, and below what it replaces there was nothing.
              have hnone : (node branches).get? (k :: k' :: r') = none := by
                rw [get?_node_cons]
                cases hl : branches.lookup k with
                | none => rfl
                | some branch =>
                  cases branch with
                  | leaf _ => rfl
                  | node inner => exact absurd hl (hold inner)
              rw [hnone]
              simp [RawTree.get?]
          · simp [hk]
  | cons next rest ih =>
    intro tree result h other found
    cases tree with
    | leaf old => cases h
    | node branches =>
      simp only [store] at h
      split at h
      · rename_i branch hb
        cases h
        cases other with
        | nil => simp
        | cons k r =>
          rw [get?_node_insert]
          by_cases hk : k = key
          · subst hk
            rw [if_pos rfl, ih hb r found, get?_node_cons]
            cases branches.lookup k with
            | none => simp [get?_empty]
            | some old => simp
          · simp [hk]
      · cases h

theorem get?_store_away {value : α} : ∀ {key : String} {rest : Path}
    {tree result : RawTree α}, tree.store value key rest = .ok result → ∀ other : Path,
    ¬ other <+: key :: rest → ¬ key :: rest <+: other → result.get? other = tree.get? other := by
  intro key rest
  induction rest generalizing key with
  | nil =>
    intro tree result h other hn hn'
    cases tree with
    | leaf old => cases h
    | node branches =>
      simp only [store] at h
      split at h
      · cases h
      · cases h
        cases other with
        | nil => exact absurd List.nil_prefix hn
        | cons k r =>
          have hk : k ≠ key := by
            rintro rfl
            exact hn' (by simp)
          rw [get?_node_insert, if_neg hk]
  | cons next rest ih =>
    intro tree result h other hn hn'
    cases tree with
    | leaf old => cases h
    | node branches =>
      simp only [store] at h
      split at h
      · rename_i branch hb
        cases h
        cases other with
        | nil => exact absurd List.nil_prefix hn
        | cons k r =>
          rw [get?_node_insert]
          by_cases hk : k = key
          · subst hk
            have hr : ¬ r <+: next :: rest := fun hp => hn (by simpa using hp)
            have hr' : ¬ next :: rest <+: r := fun hp => hn' (by simpa using hp)
            rw [if_pos rfl, ih hb r hr hr', get?_node_cons]
            cases hl : branches.lookup k with
            | none =>
              cases r with
              | nil => exact absurd List.nil_prefix hr
              | cons k' r' => rfl
            | some old => rfl
          · rw [if_neg hk]
      · cases h

/-- No position below the root is barren: each has a leaf at or below it. -/
def Trimmed (tree : RawTree α) : Prop :=
  ∀ path found, path ≠ [] → tree.get? path = some found →
    ∃ below value, found.get? below = some (.leaf value)

theorem trimmed_empty : (node [] : RawTree α).Trimmed := by
  intro path found hne h
  cases path with
  | nil => exact absurd rfl hne
  | cons key rest => cases h

theorem Trimmed.get? {tree branch : RawTree α} {path : Path} (ht : tree.Trimmed)
    (h : tree.get? path = some branch) : branch.Trimmed := by
  intro below found hne hf
  refine ht (path ++ below) found (by simp [hne]) ?_
  rw [get?_append, h]
  exact hf

/-- Storing keeps a tree trimmed: the new positions are those on the way to the new leaf. -/
theorem Trimmed.store {value : α} {key : String} {rest : Path} {tree result : RawTree α}
    (ht : tree.Trimmed) (h : tree.store value key rest = .ok result) : result.Trimmed := by
  intro path found hne hf
  have hnew : result.get? (key :: rest) = some (.leaf value) :=
    (get?_store_leaf h (key :: rest) value).mpr (by simp)
  by_cases hp : path <+: key :: rest
  · obtain ⟨below, hb⟩ := hp
    refine ⟨below, value, ?_⟩
    rw [← hb, get?_append, hf] at hnew
    exact hnew
  · by_cases hp' : key :: rest <+: path
    · rw [leaf_eq_of_above hnew hf hp'] at hp
      exact absurd (List.prefix_refl path) hp
    · rw [get?_store_away h path hp hp'] at hf
      exact ht path found hne hf

/-- **Storing fails only at an obstacle**: a leaf on the way, or leaves below the path. -/
theorem exists_store (value : α) : ∀ {key : String} {rest : Path} {tree : RawTree α},
    tree.Trimmed → (∀ path found, tree.get? path = some (.leaf found) →
      path <+: key :: rest ∨ key :: rest <+: path → path = key :: rest) →
    ∃ result, tree.store value key rest = .ok result := by
  intro key rest
  induction rest generalizing key with
  | nil =>
    intro tree ht hfree
    cases tree with
    | leaf old => exact absurd (hfree [] old rfl (.inl List.nil_prefix)) (by simp)
    | node branches =>
      simp only [store]
      split
      · rename_i inner hl
        have hin : (node branches).get? [key] = some (node inner) := by
          rw [get?_node_cons, hl]; rfl
        obtain ⟨below, found, hb⟩ := ht [key] (node inner) (by simp) hin
        have hleaf : (node branches).get? ([key] ++ below) = some (.leaf found) := by
          rw [get?_append, hin]
          exact hb
        have heq := hfree _ found hleaf (.inr (List.prefix_append _ _))
        have hnil : below = [] := by simpa using heq
        subst hnil
        cases hb
      · exact ⟨_, rfl⟩
  | cons next rest ih =>
    intro tree ht hfree
    cases tree with
    | leaf old => exact absurd (hfree [] old rfl (.inl List.nil_prefix)) (by simp)
    | node branches =>
      have hbranch : ((branches.lookup key).getD (node [])).Trimmed ∧
          ∀ path found, ((branches.lookup key).getD (node [])).get? path = some (.leaf found) →
            (node branches).get? (key :: path) = some (.leaf found) := by
        cases hl : branches.lookup key with
        | none => exact ⟨trimmed_empty, fun path found h => absurd h get?_empty⟩
        | some branch =>
          have hb : (node branches).get? [key] = some branch := by rw [get?_node_cons, hl]; rfl
          refine ⟨ht.get? hb, fun path found h => ?_⟩
          rw [get?_node_cons, hl]
          exact h
      have hs : ∃ branch, ((branches.lookup key).getD (node [])).store value next rest
          = .ok branch := by
        refine ih hbranch.1 fun path found hp hcmp => ?_
        have h := hfree (key :: path) found (hbranch.2 path found hp) (by simpa using hcmp)
        exact (List.cons.inj h).2
      obtain ⟨branch, hs⟩ := hs
      simp only [store, hs]
      exact ⟨_, rfl⟩

/-! ### Enumerating the leaves -/

theorem mem_leavesOf {branches : List (String × RawTree α)} {path : Path} {value : α} :
    (path, value) ∈ leavesOf branches ↔ ∃ key branch rest, (key, branch) ∈ branches ∧
      path = key :: rest ∧ (rest, value) ∈ branch.leaves := by
  induction branches with
  | nil => simp [leavesOf]
  | cons entry rest ih =>
    obtain ⟨k, b⟩ := entry
    rw [leavesOf, List.mem_append, ih]
    constructor
    · rintro (h | ⟨key, branch, r, hm, hp, hv⟩)
      · obtain ⟨⟨r, w⟩, hm, heq⟩ := List.mem_map.mp h
        cases heq
        exact ⟨k, b, r, List.mem_cons_self, rfl, hm⟩
      · exact ⟨key, branch, r, List.mem_cons_of_mem _ hm, hp, hv⟩
    · rintro ⟨key, branch, r, hm, rfl, hv⟩
      rcases List.mem_cons.mp hm with heq | hm
      · cases heq
        exact .inl (List.mem_map.mpr ⟨(r, value), hv, rfl⟩)
      · exact .inr ⟨key, branch, r, hm, rfl, hv⟩

/-- **The enumeration of the leaves has exactly those that look-up finds.** -/
theorem mem_leaves {tree : RawTree α} (h : tree.Ordered) {path : Path} {value : α} :
    (path, value) ∈ tree.leaves ↔ tree.get? path = some (.leaf value) := by
  induction tree using RawTree.ind generalizing path with
  | leaf old =>
    rw [leaves]
    cases path with
    | nil => simp [eq_comm]
    | cons key rest => simp [RawTree.get?]
  | node branches ih =>
    rw [leaves, mem_leavesOf]
    cases path with
    | nil => simp
    | cons key rest =>
      rw [get?_node_cons]
      constructor
      · rintro ⟨k, branch, r, hm, heq, hv⟩
        cases heq
        have hb := allOrdered_iff.mp h.2 _ hm
        rw [(Keyed.lookup_eq_some_iff h.1).mpr hm]
        exact (ih _ hm hb).mp hv
      · intro hg
        obtain ⟨branch, hl, hg⟩ := Option.bind_eq_some_iff.mp hg
        have hm := (Keyed.lookup_eq_some_iff h.1).mp hl
        exact ⟨key, branch, rest, hm, rfl, (ih _ hm (allOrdered_iff.mp h.2 _ hm)).mpr hg⟩

/-- **The paths of the leaves increase strictly**: from branch to branch by their first keys, and
inside a branch by induction. -/
theorem pairwise_leaves {tree : RawTree α} (h : tree.Ordered) :
    (tree.leaves.map Prod.fst).Pairwise (· < ·) := by
  induction tree using RawTree.ind with
  | leaf value => exact List.pairwise_singleton _ _
  | node branches ih =>
    obtain ⟨hkeys, hall⟩ := h
    rw [leaves]
    induction branches with
    | nil => exact List.Pairwise.nil
    | cons entry rest ihrest =>
      obtain ⟨key, branch⟩ := entry
      obtain ⟨hfirst, hrest⟩ := List.pairwise_cons.mp hkeys
      rw [leavesOf, List.map_append, List.map_map]
      refine List.pairwise_append.mpr ⟨?_, ?_, ?_⟩
      · have hbranch := List.pairwise_map.mp (ih (key, branch) List.mem_cons_self hall.1)
        refine List.pairwise_map.mpr (hbranch.imp fun hlt => ?_)
        exact List.cons_lt_cons_iff.mpr (.inr ⟨rfl, hlt⟩)
      · exact ihrest (fun other hm => ih other (List.mem_cons_of_mem _ hm)) hrest hall.2
      · intro p hp q hq
        obtain ⟨first, -, rfl⟩ := List.mem_map.mp hp
        obtain ⟨⟨second, value⟩, hm, rfl⟩ := List.mem_map.mp hq
        obtain ⟨other, below, path, hother, rfl, -⟩ := mem_leavesOf.mp hm
        exact List.cons_lt_cons_iff.mpr (.inl (hfirst other (List.mem_map_of_mem hother)))

theorem length_leaves (tree : RawTree α) : tree.leaves.length = tree.leafCount := by
  induction tree using RawTree.ind with
  | leaf value => rfl
  | node branches ih =>
    rw [leaves, leafCount]
    induction branches with
    | nil => rfl
    | cons entry rest ihrest =>
      obtain ⟨key, branch⟩ := entry
      have hbranch := ih (key, branch) List.mem_cons_self
      have hrest := ihrest fun other hm => ih other (List.mem_cons_of_mem _ hm)
      rw [leavesOf, List.length_append, List.length_map, hbranch, hrest, leafCountOf]

/-- **Trimmed trees with the same leaves are equal.**  Below every key of the one there is a leaf,
so the other has the key too, and the branches agree by induction. -/
theorem ext_leaves {a b : RawTree α} (ha : a.Ordered) (hb : b.Ordered) (hta : a.Trimmed)
    (htb : b.Trimmed)
    (h : ∀ path value, a.get? path = some (.leaf value) ↔ b.get? path = some (.leaf value)) :
    a = b := by
  induction a using RawTree.ind generalizing b with
  | leaf value =>
    have hroot := (h [] value).mp rfl
    exact (Option.some.inj hroot).symm
  | node branches ih =>
    cases b with
    | leaf value =>
      have hroot := (h [] value).mpr rfl
      cases hroot
    | node others =>
      have step : ∀ key branch, branches.lookup key = some branch →
          others.lookup key = some branch := by
        intro key branch hl
        have hin : (node branches).get? [key] = some branch := by rw [get?_node_cons, hl]; rfl
        obtain ⟨below, value, hleaf⟩ := hta [key] branch (by simp) hin
        have hfull : (node others).get? (key :: below) = some (.leaf value) := by
          rw [← h, get?_node_cons, hl]
          exact hleaf
        obtain ⟨other, hl', _⟩ := Option.bind_eq_some_iff.mp hfull
        have hin' : (node others).get? [key] = some other := by rw [get?_node_cons, hl']; rfl
        have hm := (Keyed.lookup_eq_some_iff ha.1).mp hl
        have heq : branch = other := by
          refine ih (key, branch) hm (allOrdered_iff.mp ha.2 _ hm) (Ordered.of_lookup hb.2 hl')
            (hta.get? hin) (htb.get? hin') fun path value => ?_
          have hk := h (key :: path) value
          rw [get?_node_cons, get?_node_cons, hl, hl'] at hk
          exact hk
        rw [hl', heq]
      have back : ∀ key branch, others.lookup key = some branch →
          ∃ found, branches.lookup key = some found := by
        intro key branch hl
        have hin : (node others).get? [key] = some branch := by rw [get?_node_cons, hl]; rfl
        obtain ⟨below, value, hleaf⟩ := htb [key] branch (by simp) hin
        have hfull : (node branches).get? (key :: below) = some (.leaf value) := by
          rw [h, get?_node_cons, hl]
          exact hleaf
        obtain ⟨found, hl', _⟩ := Option.bind_eq_some_iff.mp hfull
        exact ⟨found, hl'⟩
      refine congrArg node (Keyed.ext_lookup ha.1 hb.1 fun key => ?_)
      cases hl : branches.lookup key with
      | some branch => exact (step key branch hl).symm
      | none =>
        cases hl' : others.lookup key with
        | none => rfl
        | some branch =>
          obtain ⟨found, hf⟩ := back key branch hl'
          rw [hl] at hf
          cases hf

/-! ### Replacing the leaves -/

mutual

/-- The same tree with `f path value` in place of the value at every path. -/
def mapLeaves (f : Path → α → β) : RawTree α → RawTree β
  | .leaf value => .leaf (f [] value)
  | .node branches => .node (mapBranches f branches)

def mapBranches (f : Path → α → β) : List (String × RawTree α) → List (String × RawTree β)
  | [] => []
  | (key, branch) :: rest =>
    (key, branch.mapLeaves fun path => f (key :: path)) :: mapBranches f rest

end

theorem keys_mapBranches (f : Path → α → β) (branches : List (String × RawTree α)) :
    (mapBranches f branches).map Prod.fst = branches.map Prod.fst := by
  induction branches with
  | nil => rfl
  | cons entry rest ih => rw [mapBranches, List.map_cons, List.map_cons, ih]

theorem mem_mapBranches {f : Path → α → β} {branches : List (String × RawTree α)}
    {entry : String × RawTree β} (h : entry ∈ mapBranches f branches) :
    ∃ branch, (entry.1, branch) ∈ branches ∧
      entry.2 = branch.mapLeaves fun path => f (entry.1 :: path) := by
  induction branches with
  | nil => cases h
  | cons first rest ih =>
    rw [mapBranches] at h
    rcases List.mem_cons.mp h with rfl | h
    · exact ⟨first.2, List.mem_cons_self, rfl⟩
    · obtain ⟨branch, hm, hb⟩ := ih h
      exact ⟨branch, List.mem_cons_of_mem _ hm, hb⟩

theorem Ordered.mapLeaves {tree : RawTree α} (h : tree.Ordered) (f : Path → α → β) :
    (tree.mapLeaves f).Ordered := by
  induction tree using RawTree.ind generalizing f with
  | leaf value => trivial
  | node branches ih =>
    refine ⟨?_, allOrdered_iff.mpr fun entry hm => ?_⟩
    · rw [Keyed.Ordered, keys_mapBranches]
      exact h.1
    · obtain ⟨branch, hb, heq⟩ := mem_mapBranches hm
      rw [heq]
      exact ih _ hb (allOrdered_iff.mp h.2 _ hb) _

theorem leaves_mapLeaves (tree : RawTree α) (f : Path → α → β) :
    (tree.mapLeaves f).leaves = tree.leaves.map fun leaf => (leaf.1, f leaf.1 leaf.2) := by
  induction tree using RawTree.ind generalizing f with
  | leaf value => rfl
  | node branches ih =>
    rw [mapLeaves, leaves, leaves]
    induction branches with
    | nil => rfl
    | cons entry rest ihr =>
      rw [mapBranches, leavesOf, leavesOf, List.map_append,
        ihr fun e he => ih e (List.mem_cons_of_mem _ he),
        ih entry List.mem_cons_self fun path => f (entry.1 :: path), List.map_map, List.map_map]
      rfl

theorem get?_mapLeaves (tree : RawTree α) (f : Path → α → β) (path : Path) :
    (tree.mapLeaves f).get? path
      = (tree.get? path).map fun found => found.mapLeaves fun below => f (path ++ below) := by
  induction path generalizing tree f with
  | nil => rfl
  | cons key rest ih =>
    cases tree with
    | leaf value => rfl
    | node branches =>
      rw [mapLeaves, get?_node_cons, get?_node_cons]
      induction branches with
      | nil => rfl
      | cons entry others ihb =>
        rw [mapBranches, List.lookup_cons, List.lookup_cons]
        by_cases hk : key = entry.1
        · rw [beq_iff_eq.mpr hk]
          simp only [Option.bind_some]
          rw [ih entry.2 fun path => f (entry.1 :: path), ← hk]
          rfl
        · rw [beq_eq_false_iff_ne.mpr hk]
          exact ihb

theorem Trimmed.mapLeaves {tree : RawTree α} (h : tree.Trimmed) (f : Path → α → β) :
    (tree.mapLeaves f).Trimmed := by
  intro path found hne hf
  rw [get?_mapLeaves] at hf
  obtain ⟨old, hold, rfl⟩ := Option.map_eq_some_iff.mp hf
  obtain ⟨below, value, hleaf⟩ := h path old hne hold
  refine ⟨below, f (path ++ below) value, ?_⟩
  rw [get?_mapLeaves, hleaf]
  simp [RawTree.mapLeaves]

end RawTree

/-- No path of the kind leads through another one. -/
def PrefixFree (kind : Path → Prop) : Prop :=
  ∀ p q, kind p → kind q → p <+: q → p = q

namespace Tree

variable {α : Type u} {β : Type v}

@[ext] theorem ext {a b : Tree α} (h : a.raw = b.raw) : a = b := by
  cases a
  cases b
  cases h
  rfl

theorem getLeaf?_eq_some {tree : Tree α} {path : Path} {value : α} :
    tree.getLeaf? path = some value ↔ tree.raw.get? path = some (.leaf value) := by
  unfold getLeaf? get?
  split
  · rename_i found h
    cases found <;> simp [value?, h]
  · rename_i h
    simp [h]

theorem isSome_get? {tree : Tree α} {path : Path} :
    (tree.get? path).isSome = (tree.raw.get? path).isSome := by
  unfold get?
  split
  · rename_i found h
    exact (congrArg Option.isSome h).symm
  · rename_i h
    exact (congrArg Option.isSome h).symm

theorem get?_congr {a b : Tree α} {path : Path} (h : a.raw.get? path = b.raw.get? path) :
    a.get? path = b.get? path := by
  unfold get?
  split <;> split <;> simp_all

theorem mem_leaves {tree : Tree α} {path : Path} {value : α} :
    (path, value) ∈ tree.leaves ↔ tree.getLeaf? path = some value := by
  rw [getLeaf?_eq_some]
  exact RawTree.mem_leaves tree.ordered

theorem mem_leafPaths {tree : Tree α} {path : Path} :
    path ∈ tree.leafPaths ↔ ∃ value, tree.getLeaf? path = some value := by
  rw [leafPaths, List.mem_map]
  constructor
  · rintro ⟨⟨p, value⟩, h, rfl⟩
    exact ⟨value, mem_leaves.mp h⟩
  · rintro ⟨value, h⟩
    exact ⟨(path, value), mem_leaves.mpr h, rfl⟩

theorem nodup_leafPaths (tree : Tree α) : tree.leafPaths.Nodup := by
  refine (RawTree.pairwise_leaves tree.ordered).imp fun {p q} hlt => ?_
  rintro rfl
  exact List.lt_irrefl p hlt

theorem length_leafPaths (tree : Tree α) : tree.leafPaths.length = tree.leafCount := by
  rw [leafPaths, List.length_map]
  exact RawTree.length_leaves tree.raw

theorem prefixFree_leafPaths (tree : Tree α) : PrefixFree (· ∈ tree.leafPaths) := by
  intro p q hp hq h
  obtain ⟨v, hp⟩ := mem_leafPaths.mp hp
  obtain ⟨w, hq⟩ := mem_leafPaths.mp hq
  exact RawTree.leaf_eq_of_above (getLeaf?_eq_some.mp hp) (getLeaf?_eq_some.mp hq) h

@[simp] theorem getLeaf?_empty (path : Path) : (empty : Tree α).getLeaf? path = none := by
  cases h : (empty : Tree α).getLeaf? path with
  | none => rfl
  | some value => exact absurd (getLeaf?_eq_some.mp h) RawTree.get?_empty

theorem leafPaths_empty : (empty : Tree α).leafPaths = [] := rfl

/-- A tree none of whose positions is barren, the root excepted. -/
def Trimmed (tree : Tree α) : Prop := tree.raw.Trimmed

theorem trimmed_empty : (empty : Tree α).Trimmed := RawTree.trimmed_empty

theorem ext_getLeaf? {a b : Tree α} (ha : a.Trimmed) (hb : b.Trimmed)
    (h : ∀ path, a.getLeaf? path = b.getLeaf? path) : a = b := by
  refine ext (RawTree.ext_leaves a.ordered b.ordered ha hb fun path value => ?_)
  rw [← getLeaf?_eq_some, ← getLeaf?_eq_some, h path]

/-! ### Storing one value -/

theorem put_eq_ok {tree result : Tree α} {path : Path} {value : α} :
    tree.put path value = .ok result ↔
      ∃ key rest, path = key :: rest ∧ tree.raw.store value key rest = .ok result.raw := by
  cases path with
  | nil => simp [put]
  | cons key rest =>
    constructor
    · intro h
      refine ⟨key, rest, rfl, ?_⟩
      unfold put at h
      simp only at h
      split at h
      · rename_i raw hs
        cases h
        exact hs
      · cases h
    · rintro ⟨k, r, heq, hs⟩
      cases heq
      unfold put
      simp only
      split
      · rename_i raw hs'
        rw [hs] at hs'
        cases hs'
        rfl
      · rename_i obstacle hs'
        rw [hs] at hs'
        cases hs'

theorem getLeaf?_put {tree result : Tree α} {path : Path} {value : α}
    (h : tree.put path value = .ok result) (other : Path) :
    result.getLeaf? other = if other = path then some value else tree.getLeaf? other := by
  obtain ⟨key, rest, rfl, hs⟩ := put_eq_ok.mp h
  apply Option.ext
  intro found
  rw [getLeaf?_eq_some, RawTree.get?_store_leaf hs other found]
  by_cases ho : other = key :: rest
  · simp [ho, eq_comm]
  · simp [ho, getLeaf?_eq_some]

theorem Trimmed.put {tree result : Tree α} {path : Path} {value : α} (ht : tree.Trimmed)
    (h : tree.put path value = .ok result) : result.Trimmed := by
  obtain ⟨key, rest, rfl, hs⟩ := put_eq_ok.mp h
  exact RawTree.Trimmed.store ht hs

/-- **A value can be stored wherever its path and the leaves do not lead through one another.** -/
theorem exists_put {tree : Tree α} {path : Path} (ht : tree.Trimmed) (hne : path ≠ [])
    (hfree : PrefixFree fun p => p = path ∨ p ∈ tree.leafPaths) (value : α) :
    ∃ result, tree.put path value = .ok result := by
  obtain ⟨key, rest, rfl⟩ := List.exists_cons_of_ne_nil hne
  have hs : ∃ raw, tree.raw.store value key rest = .ok raw := by
    refine RawTree.exists_store value ht fun p found hp hcmp => ?_
    have hmem : p ∈ tree.leafPaths := mem_leafPaths.mpr ⟨found, getLeaf?_eq_some.mpr hp⟩
    rcases hcmp with hcmp | hcmp
    · exact hfree p _ (.inr hmem) (.inl rfl) hcmp
    · exact (hfree _ p (.inl rfl) (.inr hmem) hcmp).symm
  obtain ⟨raw, hs⟩ := hs
  exact ⟨⟨raw, tree.ordered.store hs⟩, put_eq_ok.mpr ⟨key, rest, rfl, hs⟩⟩

/-! ### Storing many values -/

theorem getLeaf?_putAll {tree result : Tree α} {entries : List (Path × α)}
    (h : tree.putAll entries = .ok result)
    (hfun : ∀ p v w, (p, v) ∈ entries → (p, w) ∈ entries → v = w) (path : Path) (value : α) :
    result.getLeaf? path = some value ↔
      (path, value) ∈ entries ∨ (∀ v, (path, v) ∉ entries) ∧ tree.getLeaf? path = some value := by
  have hrun : (∀ entry ∈ entries, entry ∈ entries) ∧ (result.getLeaf? path = some value ↔
      (path, value) ∈ entries ∨ (∀ v, (path, v) ∉ entries) ∧ tree.getLeaf? path = some value) := by
    refine Fallible.foldlM_ok (motive := fun done state => (∀ entry ∈ done, entry ∈ entries) ∧
      (state.getLeaf? path = some value ↔ (path, value) ∈ done ∨
        (∀ v, (path, v) ∉ done) ∧ tree.getLeaf? path = some value)) h (by simp) ?_
    rintro done ⟨p, w⟩ state next hmem ⟨hsub, hdone⟩ hput
    refine ⟨?_, ?_⟩
    · intro entry he
      rcases List.mem_append.mp he with he | he
      · exact hsub entry he
      · rw [List.mem_singleton.mp he]
        exact hmem
    · rw [getLeaf?_put hput]
      by_cases hp : path = p
      · subst hp
        constructor
        · intro hv
          simp only [if_pos, Option.some.injEq] at hv
          subst hv
          simp
        · rintro (hv | ⟨hv, _⟩)
          · have : value = w := by
              rcases List.mem_append.mp hv with hv | hv
              · exact hfun path value w (hsub _ hv) hmem
              · cases List.mem_singleton.mp hv
                rfl
            simp [this]
          · exact absurd (List.mem_append.mpr (.inr List.mem_cons_self)) (hv w)
      · rw [if_neg hp, hdone]
        simp [hp]
  exact hrun.2

theorem mem_of_getLeaf?_putAll {tree result : Tree α} {entries : List (Path × α)}
    (h : tree.putAll entries = .ok result) {path : Path} {value : α}
    (hl : result.getLeaf? path = some value) :
    (path, value) ∈ entries ∨ tree.getLeaf? path = some value := by
  have hrun : ∀ value, result.getLeaf? path = some value →
      (path, value) ∈ entries ∨ tree.getLeaf? path = some value := by
    refine Fallible.foldlM_ok (motive := fun done state => ∀ value,
      state.getLeaf? path = some value → (path, value) ∈ done ∨ tree.getLeaf? path = some value)
      h (fun _ hv => .inr hv) ?_
    rintro done ⟨p, w⟩ state next - hdone hput value hv
    rw [getLeaf?_put hput] at hv
    by_cases hp : path = p
    · rw [if_pos hp] at hv
      cases hv
      subst hp
      exact .inl (List.mem_append.mpr (.inr List.mem_cons_self))
    · rw [if_neg hp] at hv
      rcases hdone value hv with hd | ht
      · exact .inl (List.mem_append.mpr (.inl hd))
      · exact .inr ht
  exact hrun value hl

theorem Trimmed.putAll {tree result : Tree α} {entries : List (Path × α)} (ht : tree.Trimmed)
    (h : tree.putAll entries = .ok result) : result.Trimmed :=
  Fallible.foldlM_ok (motive := fun _ state => state.Trimmed) h ht
    fun _ _ _ _ _ hs hput => hs.put hput

/-- **Values can be stored at any paths that, with the leaves, do not lead through one another.** -/
theorem exists_putAll {tree : Tree α} {entries : List (Path × α)} (ht : tree.Trimmed)
    (hne : ∀ entry ∈ entries, entry.1 ≠ [])
    (hfree : PrefixFree fun p => p ∈ entries.map Prod.fst ∨ p ∈ tree.leafPaths) :
    ∃ result, tree.putAll entries = .ok result := by
  -- The leaves on the way are among the old ones and the entries, so no step meets an obstacle.
  let motive (_ : List (Path × α)) (state : Tree α) : Prop :=
    state.Trimmed ∧ ∀ p ∈ state.leafPaths, p ∈ entries.map Prod.fst ∨ p ∈ tree.leafPaths
  have hstart : motive [] tree := ⟨ht, fun _ hp => .inr hp⟩
  have hstep : ∀ done entry (state : Tree α), entry ∈ entries → motive done state →
      (∃ e, False ∧ state.put entry.1 entry.2 = .error e) ∨
        ∃ next, state.put entry.1 entry.2 = .ok next ∧ motive (done ++ [entry]) next := by
    rintro done entry state hmem ⟨hs, hsub⟩
    have hstate : PrefixFree fun p => p = entry.1 ∨ p ∈ state.leafPaths := by
      intro p q hp hq
      apply hfree
      · rcases hp with rfl | hp
        · exact .inl (List.mem_map_of_mem hmem)
        · exact hsub p hp
      · rcases hq with rfl | hq
        · exact .inl (List.mem_map_of_mem hmem)
        · exact hsub q hq
    obtain ⟨next, hput⟩ := exists_put hs (hne entry hmem) hstate entry.2
    refine .inr ⟨next, hput, hs.put hput, fun p hp => ?_⟩
    obtain ⟨v, hv⟩ := mem_leafPaths.mp hp
    rw [getLeaf?_put hput] at hv
    by_cases he : p = entry.1
    · rw [he]
      exact .inl (List.mem_map_of_mem hmem)
    · rw [if_neg he] at hv
      exact hsub p (mem_leafPaths.mpr ⟨v, hv⟩)
  rcases Fallible.foldlM_run entries hstart hstep with ⟨result, hr, _⟩ | ⟨_, _, _, hfalse, _⟩
  · exact ⟨result, hr⟩
  · exact hfalse.elim

theorem exists_putAll_empty {entries : List (Path × α)} (hne : ∀ entry ∈ entries, entry.1 ≠ [])
    (hfree : PrefixFree (· ∈ entries.map Prod.fst)) :
    ∃ result, (empty : Tree α).putAll entries = .ok result := by
  refine exists_putAll trimmed_empty hne ?_
  simpa only [leafPaths_empty, List.not_mem_nil, or_false] using hfree

/-! ### Replacing the leaves -/

/-- The same tree with `f path value` in place of the value at every path. -/
def mapLeaves (f : Path → α → β) (tree : Tree α) : Tree β :=
  ⟨tree.raw.mapLeaves f, tree.ordered.mapLeaves f⟩

theorem Trimmed.mapLeaves {tree : Tree α} (h : tree.Trimmed) (f : Path → α → β) :
    (tree.mapLeaves f).Trimmed :=
  RawTree.Trimmed.mapLeaves h f

theorem leaves_mapLeaves (tree : Tree α) (f : Path → α → β) :
    (tree.mapLeaves f).leaves = tree.leaves.map fun leaf => (leaf.1, f leaf.1 leaf.2) :=
  RawTree.leaves_mapLeaves tree.raw f

theorem leafPaths_mapLeaves (tree : Tree α) (f : Path → α → β) :
    (tree.mapLeaves f).leafPaths = tree.leafPaths := by
  rw [leafPaths, leaves_mapLeaves, List.map_map]
  rfl

theorem getLeaf?_mapLeaves (tree : Tree α) (f : Path → α → β) (path : Path) :
    (tree.mapLeaves f).getLeaf? path = (tree.getLeaf? path).map (f path) := by
  apply Option.ext
  intro value
  rw [← mem_leaves, leaves_mapLeaves, List.mem_map, Option.map_eq_some_iff]
  constructor
  · rintro ⟨⟨p, v⟩, hm, heq⟩
    cases heq
    exact ⟨v, mem_leaves.mp hm, rfl⟩
  · rintro ⟨v, hv, rfl⟩
    exact ⟨(path, v), mem_leaves.mpr hv, rfl⟩

end Tree

end Circuitry
