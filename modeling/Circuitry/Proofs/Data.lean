import Circuitry.Proofs.Names

/-!
# The data of a template

Three tables are put into one tree: the names at the root, the types and the public fields below
roots of their own.  Nothing can go wrong there: the paths of a table do not lead through one
another, because they are leaves of one schema, and the names keep clear of the two roots.  So the
data exist whenever the names and types do, and every table can be read back from them
(`Template.exists_data`).
-/

namespace Circuitry

open Fallible

/-! ### Types and fields -/

/-- **The types of the inputs.**  Every input has the type of the variable at the end of its
references, and nothing else has a type. -/
theorem InputTypes.of_ofPaths {schema : Schema} {limit : Nat} {paths : List Path}
    {types : InputTypes} (h : ofPaths schema limit paths = .ok types) :
    (∀ path ∈ paths, ∃ token, typeOf schema limit path = .ok token) ∧
      ∀ path token, types.getLeaf? path = some token ↔
        path ∈ paths ∧ typeOf schema limit path = .ok token := by
  refine foldlM_ok (motive := fun done (types : InputTypes) =>
    (∀ path ∈ done, ∃ token, typeOf schema limit path = .ok token) ∧
    ∀ path token, types.getLeaf? path = some token ↔
      path ∈ done ∧ typeOf schema limit path = .ok token) h ⟨nofun, by simp⟩ ?_
  rintro done item types next - ⟨htyped, hdone⟩ hadd
  obtain ⟨token, htoken, hput⟩ := bind_eq_ok.mp hadd
  have hput := mapError_eq_ok.mp hput
  refine ⟨fun path hm => ?_, fun path found => ?_⟩
  · rcases List.mem_append.mp hm with hm | hm
    · exact htyped path hm
    · rw [List.mem_singleton.mp hm]
      exact ⟨token, htoken⟩
  · rw [Tree.getLeaf?_put hput, List.mem_append, List.mem_singleton]
    by_cases hp : path = item
    · subst hp
      rw [if_pos rfl, htoken, Option.some.injEq, Except.ok.injEq]
      simp
    · rw [if_neg hp, hdone]
      simp [hp]

/-- **The public fields can always be stored**: their paths do not lead through one another. -/
theorem exists_publicFields {paths : List Path} (hne : ∀ path ∈ paths, path ≠ [])
    (hfree : PrefixFree (· ∈ paths)) :
    ∃ fields, publicFields paths = .ok fields ∧ ∀ path field, fields.getLeaf? path = some field ↔
      (path ∈ paths ∧ path.isPublic = true) ∧ field = path.publicField := by
  have hmem {path : Path} {field : String} :
      (path, field) ∈ (paths.filter Path.isPublic).map (fun path => (path, path.publicField)) ↔
        (path ∈ paths ∧ path.isPublic = true) ∧ field = path.publicField := by
    rw [List.mem_map]
    constructor
    · rintro ⟨p, hp, heq⟩
      cases heq
      exact ⟨List.mem_filter.mp hp, rfl⟩
    · rintro ⟨hp, rfl⟩
      exact ⟨path, List.mem_filter.mpr hp, rfl⟩
  have hsub : ∀ path, path ∈ ((paths.filter Path.isPublic).map
      fun path => (path, path.publicField)).map Prod.fst → path ∈ paths := by
    intro path hp
    obtain ⟨⟨p, field⟩, hentry, rfl⟩ := List.mem_map.mp hp
    exact (hmem.mp hentry).1.1
  obtain ⟨fields, hfields⟩ := Tree.exists_putAll_empty
    (fun entry hm => hne entry.1 (hsub entry.1 (List.mem_map_of_mem hm)))
    (fun p q hp hq => hfree p q (hsub p hp) (hsub q hq))
  refine ⟨fields, mapError_eq_ok.mpr hfields, fun path field => ?_⟩
  rw [Tree.getLeaf?_putAll hfields ?_, hmem]
  · simp
  · intro p v w hv hw
    rw [(hmem.mp hv).2, (hmem.mp hw).2]

namespace Template

/-! ### Grafting -/

/-- **Leaves can be added below a root that was free**, and everything can be found afterwards. -/
theorem exists_graft (root : String) {data : Tree String} (table : Tree String) (ht : data.Trimmed)
    (hroot : ∀ path value, data.getLeaf? path = some value → path ≠ [] ∧ path.head? ≠ some root) :
    ∃ result, graft root data table.leaves = .ok result ∧ result.Trimmed ∧
      ∀ path value, result.getLeaf? path = some value ↔
        (∃ rest, path = under root rest ∧ table.getLeaf? rest = some value) ∨
          data.getLeaf? path = some value := by
  have hmem {path : Path} {value : String} :
      (path, value) ∈ table.leaves.map (fun leaf => (under root leaf.1, leaf.2)) ↔
        ∃ rest, path = under root rest ∧ table.getLeaf? rest = some value := by
    rw [List.mem_map]
    constructor
    · rintro ⟨⟨rest, v⟩, hm, heq⟩
      cases heq
      exact ⟨rest, rfl, Tree.mem_leaves.mp hm⟩
    · rintro ⟨rest, rfl, hv⟩
      exact ⟨(rest, value), Tree.mem_leaves.mpr hv, rfl⟩
  have hpath {path : Path} :
      path ∈ (table.leaves.map fun leaf => (under root leaf.1, leaf.2)).map Prod.fst ↔
        ∃ rest ∈ table.leafPaths, path = under root rest := by
    rw [List.map_map, Tree.leafPaths]
    constructor
    · intro hm
      obtain ⟨leaf, hleaf, rfl⟩ := List.mem_map.mp hm
      exact ⟨leaf.1, List.mem_map_of_mem hleaf, rfl⟩
    · rintro ⟨rest, hrest, rfl⟩
      obtain ⟨leaf, hleaf, rfl⟩ := List.mem_map.mp hrest
      exact List.mem_map.mpr ⟨leaf, hleaf, rfl⟩
  have hfree : PrefixFree fun p =>
      p ∈ (table.leaves.map fun leaf => (under root leaf.1, leaf.2)).map Prod.fst ∨
        p ∈ data.leafPaths := by
    intro p q hp hq hpq
    have hhead (hne : p ≠ []) : p.head? = q.head? := by
      obtain ⟨key, rest, rfl⟩ := List.exists_cons_of_ne_nil hne
      obtain ⟨tail, rfl⟩ := hpq
      rfl
    -- A path of the table and a path of the data start with different keys.
    have hdata {path : Path} (hm : path ∈ data.leafPaths) : path ≠ [] ∧ path.head? ≠ some root := by
      obtain ⟨value, hvalue⟩ := Tree.mem_leafPaths.mp hm
      exact hroot path value hvalue
    rcases hp with hp | hp <;> rcases hq with hq | hq
    · obtain ⟨a, ha, rfl⟩ := hpath.mp hp
      obtain ⟨b, hb, rfl⟩ := hpath.mp hq
      rw [table.prefixFree_leafPaths a b ha hb (List.cons_prefix_cons.mp hpq).2]
    · obtain ⟨a, ha, rfl⟩ := hpath.mp hp
      exact absurd (hhead (List.cons_ne_nil _ _)).symm (hdata hq).2
    · obtain ⟨b, hb, rfl⟩ := hpath.mp hq
      exact absurd (hhead (hdata hp).1) (hdata hp).2
    · exact data.prefixFree_leafPaths p q hp hq hpq
  obtain ⟨result, hresult⟩ := Tree.exists_putAll ht
    (fun entry hm => by
      obtain ⟨leaf, -, rfl⟩ := List.mem_map.mp hm
      exact List.cons_ne_nil _ _) hfree
  refine ⟨result, mapError_eq_ok.mpr hresult, ht.putAll hresult, fun path value => ?_⟩
  rw [Tree.getLeaf?_putAll hresult ?_, hmem]
  · refine or_congr_right (and_iff_right_of_imp fun hv v hm => ?_)
    obtain ⟨rest, rfl, -⟩ := hmem.mp hm
    exact (hroot _ value hv).2 rfl
  · intro p v w hv hw
    obtain ⟨a, rfl, ha⟩ := hmem.mp hv
    obtain ⟨b, hab, hb⟩ := hmem.mp hw
    cases hab
    exact Option.some.inj (ha.symm.trans hb)

theorem exists_data {names : Names} (hs : names.Sound) (types fields : Tree String) :
    ∃ result, data names.tree types.leaves fields.leaves = .ok result ∧
      (∀ path name, names.get? path = some name → result.getLeaf? path = some name) ∧
      (∀ path name, types.getLeaf? path = some name →
        result.getLeaf? (under typesRoot path) = some name) ∧
      ∀ path name, fields.getLeaf? path = some name →
        result.getLeaf? (under publicFieldsRoot path) = some name := by
  have hclear : ∀ path name, names.get? path = some name →
      path ≠ [] ∧ path.head? ≠ some typesRoot ∧ path.head? ≠ some publicFieldsRoot := by
    intro path name hg
    obtain ⟨hspell, hroot⟩ := hs.canName path name hg
    exact ⟨hspell.ne_nil, hroot _ (by decide), hroot _ (by decide)⟩
  obtain ⟨typed, htyped, htrimmed, hlookup⟩ := exists_graft typesRoot types hs.trimmed
    fun path value hv => ⟨(hclear path value hv).1, (hclear path value hv).2.1⟩
  have htypedClear : ∀ path value, typed.getLeaf? path = some value →
      path ≠ [] ∧ path.head? ≠ some publicFieldsRoot := by
    intro path value hv
    rcases (hlookup path value).mp hv with ⟨rest, rfl, -⟩ | hv
    · have hroots : some typesRoot ≠ some publicFieldsRoot := by decide
      exact ⟨List.cons_ne_nil _ _, hroots⟩
    · exact ⟨(hclear path value hv).1, (hclear path value hv).2.2⟩
  obtain ⟨result, hresult, -, hfinal⟩ := exists_graft publicFieldsRoot fields htrimmed
    htypedClear
  refine ⟨result, bind_eq_ok.mpr ⟨typed, htyped, hresult⟩, ?_, ?_, ?_⟩
  · intro path name hg
    exact (hfinal path name).mpr (.inr ((hlookup path name).mpr (.inr hg)))
  · intro path name hg
    exact (hfinal _ name).mpr (.inr ((hlookup _ name).mpr (.inl ⟨path, rfl, hg⟩)))
  · intro path name hg
    exact (hfinal _ name).mpr (.inl ⟨path, rfl, hg⟩)

end Template

end Circuitry
