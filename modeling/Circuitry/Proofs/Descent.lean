import Circuitry.Proofs.Storing
import Circuitry.Proofs.Written

/-!
# Paths in documents

The document of a schema is a tree of groups with variables at its ends, and a variable is told from
a group by its `type`.  What stands inside a variable is never looked at: a path leads to a place if
it leads through groups only (`Json.Reached`), which is to say that no part of it before the end
leads to a variable (`Json.reached_iff`).

The canonical form of a document reaches the same places (`Json.reached_canonical`), and a variable
there reads as it does in the document itself (`Variable.ofJson_canonical`).
-/

namespace Circuitry

open Fallible

namespace Json

/-! ### Paths in documents -/

/-- What stands at a path of a document. -/
def descend? : Json → Path → Option Json
  | json, [] => some json
  | json, key :: rest => (json.get? key).bind fun child => child.descend? rest

/-- The path leads from the document to `found` through groups only. -/
inductive Reached : Json → Path → Json → Prop
  | self (json : Json) : Reached json [] json
  | step {json child found : Json} {key : String} {rest : Path} (hgroup : json.isVariable = false)
      (hchild : json.get? key = some child) (hrest : Reached child rest found) :
      Reached json (key :: rest) found

theorem reached_nil {json found : Json} : Reached json [] found ↔ found = json := by
  constructor
  · rintro ⟨⟩
    rfl
  · rintro rfl
    exact .self found

theorem reached_cons {json found : Json} {key : String} {rest : Path} :
    Reached json (key :: rest) found ↔
      json.isVariable = false ∧ ∃ child, json.get? key = some child ∧ Reached child rest found := by
  constructor
  · rintro ⟨⟩
    rename_i child hgroup hchild hrest
    exact ⟨hgroup, child, hchild, hrest⟩
  · rintro ⟨hgroup, child, hchild, hrest⟩
    exact .step hgroup hchild hrest

/-- **A path that leads to a place reaches it, unless it leads through a variable.** -/
theorem reached_iff {json found : Json} {path : Path} :
    Reached json path found ↔ json.descend? path = some found ∧
      ∀ before passed, before <+: path → before ≠ path → json.descend? before = some passed →
        passed.isVariable = false := by
  induction path generalizing json with
  | nil =>
    rw [reached_nil, descend?, Option.some.injEq, eq_comm, iff_self_and]
    intro _ before passed hbefore hne
    exact absurd (List.prefix_nil.mp hbefore) hne
  | cons key rest ih =>
    rw [reached_cons, descend?, Option.bind_eq_some_iff]
    constructor
    · rintro ⟨hgroup, child, hchild, hrest⟩
      obtain ⟨hfound, hfirst⟩ := ih.mp hrest
      refine ⟨⟨child, hchild, hfound⟩, fun before passed hbefore hne hpassed => ?_⟩
      cases before with
      | nil =>
        obtain rfl := Option.some.inj hpassed
        exact hgroup
      | cons other before =>
        obtain ⟨rfl, hshorter⟩ := List.cons_prefix_cons.mp hbefore
        rw [descend?, hchild] at hpassed
        exact hfirst before passed hshorter (fun heq => hne (by rw [heq])) hpassed
    · rintro ⟨⟨child, hchild, hfound⟩, hfirst⟩
      have hgroup := hfirst [] json List.nil_prefix (List.cons_ne_nil key rest).symm rfl
      refine ⟨hgroup, child, hchild, ih.mpr ⟨hfound, fun before passed hbefore hne hpassed => ?_⟩⟩
      refine hfirst (key :: before) passed (List.cons_prefix_cons.mpr ⟨rfl, hbefore⟩)
        (fun heq => hne (List.cons.inj heq).2) ?_
      rw [descend?, hchild]
      exact hpassed

/-- The path leads to `found`, and no part of it before the end leads to a variable. -/
def LeadsTo (json : Json) (path : Path) (found : Json) : Prop :=
  json.descend? path = some found ∧ ∀ before passed, before ≠ [] → before <+: path →
    before ≠ path → json.descend? before = some passed → passed.isVariable = false

theorem leadsTo_iff {json found : Json} {path : Path} (hgroup : json.isVariable = false) :
    json.LeadsTo path found ↔ json.Reached path found := by
  rw [LeadsTo, reached_iff]
  refine and_congr_right fun _ => forall₂_congr fun before passed => ?_
  refine ⟨fun h hbefore hne hpassed => ?_, fun h _ => h⟩
  cases before with
  | nil =>
    obtain rfl := Option.some.inj hpassed
    exact hgroup
  | cons key rest => exact h (List.cons_ne_nil key rest) hbefore hne hpassed

/-- Induction on a document along the members of objects. -/
@[elab_as_elim]
theorem ind {motive : Json → Prop}
    (plain : ∀ json, (∀ members, json ≠ .object members) → motive json)
    (object : ∀ members, (∀ member ∈ members, motive member.2) → motive (.object members))
    (json : Json) : motive json := by
  cases json with
  | object members =>
    refine object members fun member hm => ?_
    have : sizeOf member.2 < 1 + sizeOf members := by
      have hlt := List.sizeOf_lt_of_mem hm
      obtain ⟨key, value⟩ := member
      simp only [Prod.mk.sizeOf_spec] at hlt ⊢
      omega
    exact ind plain object member.2
  | _ => exact plain _ (by rintro members ⟨⟩)
termination_by sizeOf json

theorem AllOrdered.of_mem {members : List (String × Json)} (h : AllOrdered members)
    {member : String × Json} (hm : member ∈ members) : member.2.Ordered := by
  induction members with
  | nil => cases hm
  | cons first rest ih =>
    rcases List.mem_cons.mp hm with rfl | hm
    · exact h.1
    · exact ih h.2 hm

/-! ### Canonical documents -/

theorem get?_canonical (json : Json) (key : String) :
    json.canonical.get? key = (json.get? key).map canonical := by
  cases json with
  | object members =>
    rw [canonical, get?, get?]
    induction members with
    | nil => rfl
    | cons member rest ih =>
      obtain ⟨other, value⟩ := member
      rw [canonicalMembers, Keyed.lookup_insert, List.lookup_cons]
      by_cases hkey : key = other
      · rw [if_pos hkey, beq_iff_eq.mpr hkey]
        rfl
      · rw [if_neg hkey, beq_false_of_ne hkey, ih]
  | _ => rfl

theorem isVariable_canonical (json : Json) : json.canonical.isVariable = json.isVariable := by
  have hstring (json : Json) : json.canonical.string? = json.string? := by
    cases json <;> rfl
  rw [isVariable, isVariable, get?_canonical]
  cases json.get? "type" with
  | none => rfl
  | some found => exact congrArg Option.isSome (hstring found)

/-- **The canonical form reaches the same places.** -/
theorem reached_canonical {json found : Json} {path : Path} :
    Reached json.canonical path found ↔
      ∃ original, Reached json path original ∧ original.canonical = found := by
  induction path generalizing json with
  | nil => simp [reached_nil, eq_comm]
  | cons key rest ih =>
    simp only [reached_cons, isVariable_canonical, get?_canonical, Option.map_eq_some_iff]
    constructor
    · rintro ⟨hgroup, _, ⟨child, hchild, rfl⟩, hrest⟩
      obtain ⟨original, horiginal, hfound⟩ := ih.mp hrest
      exact ⟨original, ⟨hgroup, child, hchild, horiginal⟩, hfound⟩
    · rintro ⟨original, ⟨hgroup, child, hchild, horiginal⟩, hfound⟩
      exact ⟨hgroup, _, ⟨child, hchild, rfl⟩, ih.mpr ⟨original, horiginal, hfound⟩⟩

theorem canonical_eq_string {json : Json} {text : String} :
    json.canonical = .string text ↔ json = .string text := by
  cases json <;> simp [canonical]

theorem canonical_eq_toJson {json : Json} {value : Scalar} :
    json.canonical = value.toJson ↔ json = value.toJson := by
  cases value <;> cases json <;> simp [canonical, Scalar.toJson]

theorem canonicalItems_eq_texts {α : Type} {write : α → String} {items : List Json}
    {results : List α} :
    canonicalItems items = results.map (fun result => .string (write result)) ↔
      items = results.map fun result => .string (write result) := by
  induction items generalizing results with
  | nil => rfl
  | cons item rest ih =>
    cases results with
    | nil => simp [canonicalItems]
    | cons result others => simp [canonicalItems, canonical_eq_string, ih]

theorem canonical_eq_texts {α : Type} {write : α → String} {json : Json} {results : List α} :
    json.canonical = .array (results.map fun result => .string (write result)) ↔
      json = .array (results.map fun result => .string (write result)) := by
  cases json with
  | array items =>
    rw [canonical, Json.array.injEq, Json.array.injEq]
    exact canonicalItems_eq_texts
  | _ => simp [canonical]

end Json

theorem Variable.canonical_eq_iff {value : Variable} {member : String × Json}
    (hm : member ∈ value.ownMembers) {json : Json} :
    json.canonical = member.2 ↔ json = member.2 := by
  cases value with
  | static value chain =>
    simp only [ownMembers, List.mem_cons, List.not_mem_nil, or_false] at hm
    rcases hm with rfl | rfl | rfl
    · exact Json.canonical_eq_string
    · exact Json.canonical_eq_toJson
    · exact Json.canonical_eq_texts
  | setup chain =>
    simp only [ownMembers, List.mem_cons, List.not_mem_nil, or_false] at hm
    rcases hm with rfl | rfl
    · exact Json.canonical_eq_string
    · exact Json.canonical_eq_texts
  | constant name =>
    simp only [ownMembers, List.mem_cons, List.not_mem_nil, or_false] at hm
    rcases hm with rfl | rfl
    · exact Json.canonical_eq_string
    · exact Json.canonical_eq_string
  | reference path =>
    simp only [ownMembers, List.mem_cons, List.not_mem_nil, or_false] at hm
    rcases hm with rfl | rfl
    · exact Json.canonical_eq_string
    · exact Json.canonical_eq_texts
  | function operation out =>
    simp only [ownMembers, List.mem_singleton] at hm
    subst hm
    exact Json.canonical_eq_string

/-- **A variable reads the same in canonical form**, if it is not a function. -/
theorem Variable.ofJson_canonical {json : Json} {value : Variable}
    (hkind : value.kind ≠ "function") :
    Variable.ofJson json.canonical = .ok value ↔ Variable.ofJson json = .ok value := by
  cases json with
  | object members =>
    have hlookup (key : String) : (Json.canonicalMembers members).lookup key =
        (members.lookup key).map Json.canonical := Json.get?_canonical (.object members) key
    rw [Json.canonical, Variable.ofJson, Variable.ofJson, ofMembers_eq_ok hkind,
      ofMembers_eq_ok hkind]
    refine and_congr_right fun _ => forall₂_congr fun member hm => ?_
    rw [hlookup, Option.map_eq_some_iff]
    simp only [canonical_eq_iff hm, exists_eq_right]
  | _ => exact iff_of_false error_ne_ok error_ne_ok

end Circuitry
