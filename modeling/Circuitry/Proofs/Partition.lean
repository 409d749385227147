import Circuitry.Proofs.InputFailure
import Mathlib.Data.Set.Operations

/-!
# Every value has one place

Given a value for each leaf of a schema, a call has each of them exactly once: the private values in
the order of their paths, the public values under their fields.  Fields are cleaned paths, and two
paths may well clean to one field, so nothing would be lost silently only if every such pair is
noticed.  It is: a call is made exactly if the fields of the public leaves are different
(`CallInput.exists_ofValues_iff`), and then there are as many values as leaves
(`CallInput.size_of_ofValues`).
-/

namespace Circuitry

open Fallible

namespace CallInput

variable {schema : Schema} {values : InputValues} {target : Target}

def publicLeaves (schema : Schema) : Set Path :=
  {path | path ∈ schema.leafPaths ∧ path.isPublic = true}

theorem mem_publicPaths {paths : List Path} {path : Path} :
    path ∈ publicPaths .zkProgram paths ↔ path ∈ paths ∧ path.isPublic = true :=
  List.mem_filter

theorem mem_privatePaths {paths : List Path} {path : Path} :
    path ∈ privatePaths paths ↔ path ∈ paths ∧ path.isPublic = false := by
  simp [privatePaths]

theorem length_privatePaths_add (paths : List Path) :
    (privatePaths paths).length + (publicPaths .zkProgram paths).length = paths.length := by
  rw [Nat.add_comm]
  exact (List.length_eq_length_filter_add Path.isPublic).symm

/-! ### Nothing is lost -/

theorem Placed.map_privateValues {done : List Path} {parts : Parts}
    (h : Placed values target done parts) :
    parts.privateValues.reverse.map some = (privatePaths done).map values.getLeaf? := by
  have hsame : List.Forall₂ Eq ((privatePaths done).map values.getLeaf?)
      (parts.privateValues.reverse.map some) :=
    List.forall₂_map_left_iff.mpr (List.forall₂_map_right_iff.mpr h.privates)
  rw [List.forall₂_eq_eq_eq] at hsame
  exact hsame.symm

/-- There are as many public values as public paths: both have the same fields, without
repetition. -/
theorem Placed.length_publicValues {done : List Path} {parts : Parts}
    (h : Placed values target done parts)
    (hvalues : ∀ path ∈ publicPaths target done, ∃ value, values.getLeaf? path = some value) :
    parts.publicValues.length = (publicPaths target done).length := by
  have hnodup : (parts.publicValues.map Prod.fst).Nodup := by
    refine List.Pairwise.imp ?_ h.ordered
    rintro field other hlt rfl
    exact String.lt_irrefl field hlt
  have hperm : (parts.publicValues.map Prod.fst).Perm
      ((publicPaths target done).map Path.publicField) :=
    (List.perm_ext_iff_of_nodup hnodup h.distinct).mpr (h.mem_fields hvalues)
  simpa only [List.length_map] using hperm.length_eq

/-- **A call has as many values as there are leaves.** -/
theorem size_of_ofValues {input : CallInput}
    (hvalues : ∀ path ∈ schema.leafPaths, ∃ value, values.getLeaf? path = some value)
    (h : ofValues schema values .zkProgram = .ok input) : input.size = schema.leafCount := by
  obtain ⟨parts, hparts, hprivate, hpublic, -⟩ := ofValues_eq_ok h
  have hpublics := hparts.length_publicValues fun path hm => hvalues path (mem_publicPaths.mp hm).1
  have hprivates := congrArg List.length hparts.map_privateValues
  rw [List.length_map, List.length_map] at hprivates
  rw [size, hprivate, hpublic rfl, hprivates]
  show (privatePaths schema.leafPaths).length + parts.publicValues.length = schema.leafCount
  rw [hpublics, length_privatePaths_add, Tree.length_leafPaths]

/-! ### When the fields are different -/

theorem FirstClash.not_injOn {earlier path : Path} (h : FirstClash schema.leafPaths earlier path) :
    ¬ Set.InjOn Path.publicField (publicLeaves schema) := by
  intro hinj
  obtain ⟨before, between, after, heq, hearlier, hpath, hfield, -⟩ := h
  have hnodup := schema.nodup_leafPaths
  have hfirst : earlier ∈ before ++ earlier :: between :=
    List.mem_append_right _ List.mem_cons_self
  have hsame : earlier = path := by
    refine hinj ⟨?_, hearlier⟩ ⟨?_, hpath⟩ hfield
    · exact heq ▸ List.mem_append_left _ hfirst
    · exact heq ▸ List.mem_append_right _ List.mem_cons_self
  rw [heq] at hnodup
  exact (List.nodup_append.mp hnodup).2.2 earlier hfirst path List.mem_cons_self hsame

/-- **A call is made exactly if the public leaves have different fields.** -/
theorem exists_ofValues_iff
    (hvalues : ∀ path ∈ schema.leafPaths, ∃ value, values.getLeaf? path = some value) :
    (∃ input, ofValues schema values .zkProgram = .ok input) ↔
      Set.InjOn Path.publicField (publicLeaves schema) := by
  constructor
  · rintro ⟨input, h⟩ path hpath other hother hfield
    obtain ⟨parts, hparts, -⟩ := ofValues_eq_ok h
    exact List.inj_on_of_nodup_map hparts.distinct (mem_publicPaths.mpr hpath)
      (mem_publicPaths.mpr hother) hfield
  · intro hinj
    rcases ofValues_split .zkProgram hvalues with hok | ⟨-, earlier, path, hclash, -⟩
    · exact hok
    · exact absurd hinj hclash.not_injOn

/-- **A smart contract takes the private values, whatever the fields.** -/
theorem exists_ofValues_smartContract
    (hvalues : ∀ path ∈ schema.leafPaths, ∃ value, values.getLeaf? path = some value) :
    ∃ input, ofValues schema values .smartContract = .ok input ∧
      input.privateInput.map some = (privatePaths schema.leafPaths).map values.getLeaf? ∧
      input.publicInput = none := by
  rcases ofValues_split .smartContract hvalues with ⟨input, h⟩ | ⟨ht, -⟩
  · obtain ⟨parts, hparts, hprivate, -, hnone⟩ := ofValues_eq_ok h
    exact ⟨input, h, hprivate ▸ hparts.map_privateValues, hnone rfl⟩
  · cases ht

/-- **Every value has one place in a call.**  Take values for all leaves of any schema.  A program
with a public input can be called with them exactly if no two public leaves have one field.  Its
call then has the private values in the order of the leaves, the public values under their fields
and under no other, and as many values as there are leaves.  If it cannot be called, the error names
the first leaf whose field an earlier leaf has, and that earlier leaf.  A smart contract can always
be called, with the same private values and no public input. -/
theorem ofValues_partition
    (hvalues : ∀ path ∈ schema.leafPaths, ∃ value, values.getLeaf? path = some value) :
    ((∃ input, ofValues schema values .zkProgram = .ok input) ↔
      Set.InjOn Path.publicField (publicLeaves schema)) ∧
    (∀ input, ofValues schema values .zkProgram = .ok input →
      input.privateInput.map some = (privatePaths schema.leafPaths).map values.getLeaf? ∧
      (∃ entries, input.publicInput = some entries ∧ Keyed.Ordered entries ∧
        (∀ path ∈ publicPaths .zkProgram schema.leafPaths,
          entries.lookup path.publicField = values.getLeaf? path) ∧
        ∀ field ∈ entries.map Prod.fst, ∃ path ∈ publicPaths .zkProgram schema.leafPaths,
          path.publicField = field) ∧
      input.size = schema.leafCount) ∧
    (∀ e, ofValues schema values .zkProgram = .error e → ∃ earlier path,
      FirstClash schema.leafPaths earlier path ∧
        e = .nameCollision path.publicField earlier path) ∧
    ∃ input, ofValues schema values .smartContract = .ok input ∧
      input.privateInput.map some = (privatePaths schema.leafPaths).map values.getLeaf? ∧
      input.publicInput = none := by
  refine ⟨exists_ofValues_iff hvalues, fun input h => ?_, fun e h => ?_,
    exists_ofValues_smartContract hvalues⟩
  · obtain ⟨parts, hparts, hprivate, hpublic, -⟩ := ofValues_eq_ok h
    have hvalue : ∀ path ∈ publicPaths .zkProgram schema.leafPaths, ∃ value,
        values.getLeaf? path = some value :=
      fun path hm => hvalues path (mem_publicPaths.mp hm).1
    refine ⟨hprivate ▸ hparts.map_privateValues,
      ⟨parts.publicValues, hpublic rfl, hparts.ordered, fun path hm => ?_, fun field hm => ?_⟩,
      size_of_ofValues hvalues h⟩
    · obtain ⟨value, hv⟩ := hvalue path hm
      rw [hv]
      exact (hparts.publics _ _).mpr ⟨path, hm, rfl, hv⟩
    · exact List.mem_map.mp ((hparts.mem_fields hvalue field).mp hm)
  · rcases ofValues_split .zkProgram hvalues with ⟨input, hok⟩ | ⟨-, earlier, path, hclash, herror⟩
    · rw [hok] at h
      cases h
    · rw [herror] at h
      cases h
      exact ⟨earlier, path, hclash, rfl⟩

/-- A private leaf between two public leaves with the given keys. -/
def pair (first second : String) : Schema :=
  let copy : Variable := .reference ["private", "key"]
  let leaves := [(["public", first], copy), (["private", "key"], .constant "null"),
    (["public", second], copy)]
  (Tree.empty.putAll leaves).toOption.getD .empty

/-- A value for every leaf of such a schema, which tells whether the leaf is public. -/
def pairValues (first second : String) : InputValues :=
  (pair first second).mapLeaves fun path _ => .boolean path.isPublic

/-- Two keys that are cleaned to one field clash; other keys are told apart. -/
theorem ofValues_partition_pair :
    (∀ path ∈ (pair "a-b" "a_b").leafPaths, ∃ value,
      (pairValues "a-b" "a_b").getLeaf? path = some value) ∧
    FirstClash (pair "a-b" "a_b").leafPaths ["public", "a-b"] ["public", "a_b"] ∧
    ofValues (pair "a-b" "a_b") (pairValues "a-b" "a_b") .zkProgram
      = .error (.nameCollision "a_b" ["public", "a-b"] ["public", "a_b"]) ∧
    (∃ input, ofValues (pair "a-b" "a_b") (pairValues "a-b" "a_b") .smartContract = .ok input ∧
      input.privateInput = [.boolean false]) ∧
    ∃ input, ofValues (pair "a" "b") (pairValues "a" "b") .zkProgram = .ok input ∧
      input.publicInput = some [("a", .boolean true), ("b", .boolean true)] ∧ input.size = 3 := by
  have hvalues (first second : String) : ∀ path ∈ (pair first second).leafPaths, ∃ value,
      (pairValues first second).getLeaf? path = some value := by
    intro path hm
    obtain ⟨found, hfound⟩ := Tree.mem_leafPaths.mp hm
    exact ⟨.boolean path.isPublic, by rw [pairValues, Tree.getLeaf?_mapLeaves, hfound]; rfl⟩
  have hclash : ofValues (pair "a-b" "a_b") (pairValues "a-b" "a_b") .zkProgram
      = .error (.nameCollision "a_b" ["public", "a-b"] ["public", "a_b"]) := by
    rfl
  have hcall : ofValues (pair "a" "b") (pairValues "a" "b") .zkProgram
      = .ok ⟨[.boolean false], some [("a", .boolean true), ("b", .boolean true)]⟩ :=
    toOption_eq_some.mp (by decide +kernel)
  obtain ⟨-, -, hfails, input, hinput, hprivate, -⟩ := ofValues_partition (hvalues "a-b" "a_b")
  obtain ⟨-, hcalls, -⟩ := ofValues_partition (hvalues "a" "b")
  obtain ⟨earlier, path, hfirst, heq⟩ := hfails _ hclash
  obtain ⟨-, -, hsize⟩ := hcalls _ hcall
  have hleaves : (privatePaths (pair "a-b" "a_b").leafPaths).map
      (pairValues "a-b" "a_b").getLeaf? = [.boolean false].map some := by decide +kernel
  obtain ⟨-, rfl, rfl⟩ := CompileError.nameCollision.inj heq
  refine ⟨hvalues _ _, hfirst, hclash, ⟨input, hinput, ?_⟩, _, hcall, rfl, hsize⟩
  exact (List.map_inj_right fun _ _ => Option.some.inj).mp (hprivate.trans hleaves)

end CallInput

end Circuitry
