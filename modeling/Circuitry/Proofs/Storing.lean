import Circuitry.Proofs.Schema

/-!
# Everything has its place

Trees refuse a value if another one is in its way.  This never happens: values are stored at paths
that do not lead through one another.  The members of a document in canonical form have different
keys, so the variables below different members lie apart, and variables are the ends of their
branches (`Schema.prefixFree_regionsOf`).  So every list of variables that was read can be stored
(`Schema.exists_putAll_regionsOf`), and so can the names, types and values that belong to the same
paths (`Tree.exists_put_among`).
-/

namespace Circuitry

open Fallible

universe u

/-! ### Paths that do not lead through one another -/

/-- **Places among paths.**  A tree whose leaves are among paths that do not lead through one
another takes a value at any of them, and its leaves are still among them. -/
theorem Tree.exists_put_among {α : Type u} {tree : Tree α} {paths : List Path} {path : Path}
    (hfree : PrefixFree (· ∈ paths)) (hne : ∀ p ∈ paths, p ≠ []) (ht : tree.Trimmed)
    (hsub : ∀ p ∈ tree.leafPaths, p ∈ paths) (hm : path ∈ paths) (value : α) :
    ∃ result, tree.put path value = .ok result ∧ result.Trimmed ∧
      ∀ p ∈ result.leafPaths, p ∈ paths := by
  have hinside : ∀ p, p = path ∨ p ∈ tree.leafPaths → p ∈ paths := by
    intro p hp
    rcases hp with rfl | hp
    · exact hm
    · exact hsub p hp
  have hplace : PrefixFree fun p => p = path ∨ p ∈ tree.leafPaths := by
    intro p q hp hq
    exact hfree p q (hinside p hp) (hinside q hq)
  obtain ⟨result, hput⟩ := Tree.exists_put ht (hne path hm) hplace value
  refine ⟨result, hput, ht.put hput, fun p hp => ?_⟩
  obtain ⟨found, hfound⟩ := Tree.mem_leafPaths.mp hp
  rw [Tree.getLeaf?_put hput] at hfound
  by_cases heq : p = path
  · rw [heq]
    exact hm
  · rw [if_neg heq] at hfound
    exact hsub p (Tree.mem_leafPaths.mpr ⟨found, hfound⟩)

/-- **A loop that stores a value at each of its paths** finishes with what its steps keep, unless a
step fails before it stores: storing itself meets no obstacle, if the paths do not lead through one
another. -/
theorem foldlM_put {α σ : Type} {tree : σ → Tree α} {step : σ → Path → Except CompileError σ}
    {motive : List Path → σ → Prop} (fails : CompileError → Prop) {paths : List Path} {start : σ}
    (hfree : PrefixFree (· ∈ paths)) (hne : ∀ path ∈ paths, path ≠ [])
    (hempty : tree start = .empty) (hstart : motive [] start)
    (hstep : ∀ done path rest state, paths = done ++ path :: rest → motive done state →
      (∃ e, fails e ∧ step state path = .error e) ∨
        ∃ value, ∀ next, (tree state).put path value = .ok next →
          ∃ state', step state path = .ok state' ∧ tree state' = next ∧
            motive (done ++ [path]) state') :
    (∃ result, paths.foldlM step start = .ok result ∧ motive paths result) ∨
      ∃ e, fails e ∧ paths.foldlM step start = .error e := by
  let kept (done : List Path) (state : σ) : Prop :=
    motive done state ∧ (tree state).Trimmed ∧ ∀ p ∈ (tree state).leafPaths, p ∈ paths
  have hkept : kept [] start := by
    refine ⟨hstart, hempty ▸ Tree.trimmed_empty, fun p hp => ?_⟩
    rw [hempty, Tree.leafPaths_empty] at hp
    cases hp
  have hsteps : ∀ done path rest state, paths = done ++ path :: rest → kept done state →
      (∃ e, fails e ∧ step state path = .error e) ∨
        ∃ next, step state path = .ok next ∧ kept (done ++ [path]) next := by
    rintro done path rest state heq ⟨hmotive, htrimmed, hsub⟩
    have hm : path ∈ paths := heq ▸ List.mem_append_right _ List.mem_cons_self
    rcases hstep done path rest state heq hmotive with hfails | ⟨value, hvalue⟩
    · exact .inl hfails
    · obtain ⟨result, hput, hresult⟩ :=
        Tree.exists_put_among hfree hne htrimmed hsub hm value
      obtain ⟨next, hnext, rfl, hmotive⟩ := hvalue result hput
      exact .inr ⟨next, hnext, hmotive, hresult⟩
  rcases foldlM_split (fun _ _ => fails) paths hkept hsteps with
    ⟨result, hresult, hmotive, -⟩ | ⟨_, _, _, e, -, he, herror⟩
  · exact .inl ⟨result, hresult, hmotive⟩
  · exact .inr ⟨e, he, herror⟩

theorem key_eq_of_below {path p : Path} {key other : String} (h : path ++ [key] <+: p)
    (h' : path ++ [other] <+: p) : key = other := by
  have hsame : path ++ [key] = path ++ [other] := by
    refine (List.prefix_of_prefix_length_le h h' ?_).eq_of_length ?_
    · simp
    · simp
  exact List.singleton_inj.mp (List.append_cancel_left hsame)

/-! ### Canonical documents -/

namespace Json

mutual

/-- In every object that is reached through objects, the keys increase strictly. -/
def Ordered : Json → Prop
  | .object members => Keyed.Ordered members ∧ AllOrdered members
  | _ => True

def AllOrdered : List (String × Json) → Prop
  | [] => True
  | (_, json) :: rest => json.Ordered ∧ AllOrdered rest

end

theorem AllOrdered.insert {members : List (String × Json)} {key : String} {json : Json}
    (h : AllOrdered members) (hj : json.Ordered) : AllOrdered (Keyed.insert key json members) := by
  induction members with
  | nil => exact ⟨hj, trivial⟩
  | cons member rest ih =>
    obtain ⟨k, other⟩ := member
    unfold Keyed.insert
    split
    · exact ⟨hj, h.2⟩
    · split
      · exact ⟨hj, h⟩
      · exact ⟨h.1, ih h.2⟩

mutual

theorem ordered_canonical : (json : Json) → json.canonical.Ordered
  | .object members => by
    rw [canonical]
    exact ordered_canonicalMembers members
  | .null | .bool _ | .number _ | .string _ | .array _ => by
    simp [canonical, Ordered]

theorem ordered_canonicalMembers : (members : List (String × Json)) →
    Keyed.Ordered (canonicalMembers members) ∧ AllOrdered (canonicalMembers members)
  | [] => by
    rw [canonicalMembers]
    exact ⟨List.Pairwise.nil, trivial⟩
  | (key, json) :: rest => by
    obtain ⟨hkeys, hall⟩ := ordered_canonicalMembers rest
    rw [canonicalMembers]
    exact ⟨Keyed.ordered_insert hkeys, hall.insert (ordered_canonical json)⟩

end

end Json

namespace Schema

/-! ### The variables of a document -/

/-- What is read below different keys of one path. -/
def Apart (path : Path) (member : String × Json) (leaves : List (Path × Variable)) : Prop :=
  PrefixFree (· ∈ leaves.map Prod.fst) ∧ ∀ leaf ∈ leaves, path ++ [member.1] <+: leaf.1

theorem exists_key_of_mem_flatten {path p : Path} {members : List (String × Json)}
    {lists : List (List (Path × Variable))} (h : List.Forall₂ (Apart path) members lists)
    (hp : p ∈ lists.flatten.map Prod.fst) :
    ∃ key ∈ members.map Prod.fst, path ++ [key] <+: p := by
  obtain ⟨leaf, hleaf, rfl⟩ := List.mem_map.mp hp
  obtain ⟨leaves, hl, hm⟩ := List.mem_flatten.mp hleaf
  clear hp hleaf
  induction h with
  | nil => cases hl
  | cons hfirst _ ih =>
    rcases List.mem_cons.mp hl with rfl | hl
    · exact ⟨_, List.mem_cons_self, hfirst.2 leaf hm⟩
    · obtain ⟨key, hkey, hbelow⟩ := ih hl
      exact ⟨key, List.mem_cons_of_mem _ hkey, hbelow⟩

/-- **What lies below different keys does not lead through one another.** -/
theorem prefixFree_flatten {path : Path} {members : List (String × Json)}
    {lists : List (List (Path × Variable))} (ho : Keyed.Ordered members)
    (h : List.Forall₂ (Apart path) members lists) :
    PrefixFree (· ∈ lists.flatten.map Prod.fst) := by
  induction h with
  | nil =>
    intro p q hp
    cases hp
  | @cons member leaves members lists hfirst hrest ih =>
    have hkeys := List.pairwise_cons.mp ho
    -- No path of the first list and path of another one has the other one below it.
    have hfar : ∀ p q, p ∈ leaves.map Prod.fst → q ∈ lists.flatten.map Prod.fst →
        ¬ p <+: q ∧ ¬ q <+: p := by
      intro p q hp hq
      obtain ⟨leaf, hleaf, rfl⟩ := List.mem_map.mp hp
      obtain ⟨key, hkey, hbelow⟩ := exists_key_of_mem_flatten hrest hq
      have hne : member.1 ≠ key := by
        intro heq
        exact String.lt_irrefl key (heq ▸ hkeys.1 key hkey)
      constructor
      · intro hpq
        exact hne (key_eq_of_below ((hfirst.2 leaf hleaf).trans hpq) hbelow)
      · intro hqp
        exact hne (key_eq_of_below (hfirst.2 leaf hleaf) (hbelow.trans hqp))
    intro p q hp hq hpq
    rw [List.flatten_cons, List.map_append, List.mem_append] at hp hq
    rcases hp with hp | hp <;> rcases hq with hq | hq
    · exact hfirst.1 p q hp hq hpq
    · exact absurd hpq (hfar p q hp hq).1
    · exact absurd hpq (hfar q p hq hp).2
    · exact ih hkeys.2 p q hp hq hpq

theorem leavesAmong_eq_ok {path : Path} {members : List (String × Json)}
    {leaves : List (Path × Variable)} (h : leavesAmong path members = .ok leaves) :
    ∃ lists, leaves = lists.flatten ∧
      List.Forall₂ (fun member leaves => leavesOf (path ++ [member.1]) member.2 = .ok leaves)
        members lists := by
  induction members generalizing leaves with
  | nil =>
    rw [leavesAmong] at h
    cases h
    exact ⟨[], rfl, .nil⟩
  | cons member rest ih =>
    obtain ⟨key, json⟩ := member
    rw [leavesAmong] at h
    obtain ⟨-, h⟩ := of_check h
    obtain ⟨first, hfirst, h⟩ := bind_eq_ok.mp h
    obtain ⟨others, hothers, h⟩ := bind_eq_ok.mp h
    obtain ⟨lists, rfl, hlists⟩ := ih hothers
    rw [← pure_eq_ok.mp h]
    exact ⟨first :: lists, rfl, .cons hfirst hlists⟩

mutual

theorem prefixFree_leavesOf : ∀ (json : Json) (path : Path) {leaves : List (Path × Variable)},
    json.Ordered → leavesOf path json = .ok leaves → PrefixFree (· ∈ leaves.map Prod.fst)
  | .object members, path, leaves, ho, h => by
    rw [leavesOf] at h
    split at h
    · obtain ⟨leaf, -, rfl⟩ := map_eq_ok.mp h
      intro p q hp hq _
      rw [List.mem_singleton.mp hp, List.mem_singleton.mp hq]
    · obtain ⟨lists, rfl, hlists⟩ := leavesAmong_eq_ok h
      exact prefixFree_flatten ho.1 (apart_leavesOf members path ho.2 hlists)
  | .null, _, _, _, h | .bool _, _, _, _, h | .number _, _, _, _, h | .string _, _, _, _, h
  | .array _, _, _, _, h => by
    rw [leavesOf] at h
    · cases h
    · intro members hm
      cases hm

theorem apart_leavesOf : ∀ (members : List (String × Json)) (path : Path)
    {lists : List (List (Path × Variable))}, Json.AllOrdered members →
    List.Forall₂ (fun member leaves => leavesOf (path ++ [member.1]) member.2 = .ok leaves)
      members lists → List.Forall₂ (Apart path) members lists
  | [], _, _, _, h => by
    cases h
    exact .nil
  | (key, json) :: rest, path, _, ho, h => by
    cases h with
    | cons hfirst hrest =>
      refine .cons ⟨prefixFree_leavesOf json _ ho.1 hfirst, fun leaf hm => ?_⟩
        (apart_leavesOf rest path ho.2 hrest)
      obtain ⟨keys, hkeys, -⟩ := (leavesOf_below json _ hfirst leaf hm).keys
      exact ⟨keys, hkeys.symm⟩

end

theorem prefixFree_regionOf {region : String} {json : Json} {leaves : List (Path × Variable)}
    (ho : json.Ordered) (h : regionOf region json = .ok leaves) :
    PrefixFree (· ∈ leaves.map Prod.fst) := by
  cases json with
  | object members =>
    simp only [regionOf] at h
    split at h
    · cases h
    · obtain ⟨lists, rfl, hlists⟩ := leavesAmong_eq_ok h
      exact prefixFree_flatten ho.1 (apart_leavesOf members [region] ho.2 hlists)
  | _ => cases h

/-- **The variables of a canonical document do not lead through one another.** -/
theorem prefixFree_regionsOf {members : List (String × Json)} {leaves : List (Path × Variable)}
    (ho : (Json.object members).Ordered) (h : regionsOf members = .ok leaves) :
    PrefixFree (· ∈ leaves.map Prod.fst) := by
  obtain ⟨lists, hlists, rfl⟩ := map_eq_ok.mp h
  have hapart : List.Forall₂ (Apart []) members lists := by
    have hall := ho.2
    have hregions := mapM_eq_ok.mp hlists
    clear ho h hlists
    induction hregions with
    | nil => exact .nil
    | cons hfirst _ ih =>
      refine .cons ⟨prefixFree_regionOf hall.1 hfirst, fun leaf hm => ?_⟩ (ih hall.2)
      obtain ⟨keys, hkeys, -⟩ := (regionOf_below hfirst leaf hm).keys
      exact ⟨keys, hkeys.symm⟩
  exact prefixFree_flatten ho.1 hapart

theorem exists_putAll_regionsOf {members : List (String × Json)} {leaves : List (Path × Variable)}
    (ho : (Json.object members).Ordered) (h : regionsOf members = .ok leaves) :
    ∃ schema, (Tree.empty : Schema).putAll leaves = .ok schema := by
  refine Tree.exists_putAll_empty (fun leaf hm => ?_) (prefixFree_regionsOf ho h)
  obtain ⟨lists, hlists, rfl⟩ := map_eq_ok.mp h
  obtain ⟨list, hlist, hm⟩ := List.mem_flatten.mp hm
  obtain ⟨member, -, hregion⟩ := exists_of_mem_mapM hlists hlist
  obtain ⟨keys, hkeys, -⟩ := (regionOf_below hregion leaf hm).keys
  rw [hkeys]
  exact List.cons_ne_nil _ _

end Schema

end Circuitry
