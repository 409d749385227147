import Circuitry.Compiler
import Circuitry.Proofs.Resolution
import Mathlib.Data.List.Nodup

/-!
# The places of the values in a call

A call takes the private values in the order of their paths and, for a program with a public input,
the public values by their fields.  `CallInput.ofValues_eq_ok` says so of every call: position by
position for the private values, and field by field for the public ones, whose fields are distinct.

What the public values depend on follows from that and from the denotation of the leaves: two
setups that agree where the chains of the public leaves end give the same public input, whatever
else they hold.  So a private value reaches the public input through references only.
-/

namespace Circuitry

open Fallible

theorem NameOwners.owner?_eq_none_iff {owners : NameOwners} {name : String} :
    owners.owner? name = none ↔ name ∉ owners.entries.map Prod.fst := by
  rw [owner?, List.lookup_eq_none_iff, List.mem_map]
  constructor
  · rintro h ⟨entry, hm, rfl⟩
    exact absurd rfl (bne_iff_ne.mp (h entry hm))
  · intro h entry hm
    refine bne_iff_ne.mpr fun heq => h ⟨entry, hm, heq.symm⟩

namespace CallInput

variable {values : InputValues} {target : Target}

def privatePaths (paths : List Path) : List Path :=
  paths.filter fun path => !path.isPublic

/-- The paths among `paths` whose values go into the public input on a target. -/
def publicPaths (target : Target) (paths : List Path) : List Path :=
  match target with
  | .zkProgram => paths.filter fun path => path.isPublic
  | .smartContract => []

theorem add_eq_ok {parts next : Parts} {path : Path}
    (h : parts.add values target path = .ok next) :
    ∃ value, values.getLeaf? path = some value ∧
      ((path.isPublic = false ∧ next = { parts with privateValues := value :: parts.privateValues })
        ∨ (path.isPublic = true ∧ target = .smartContract ∧ next = parts)
        ∨ (path.isPublic = true ∧ target = .zkProgram ∧
          parts.owners.owner? path.publicField = none ∧
          next = { parts with
            publicValues := Keyed.insert path.publicField value parts.publicValues
            owners := ⟨(path.publicField, path) :: parts.owners.entries⟩ })) := by
  unfold Parts.add at h
  cases hv : values.getLeaf? path with
  | none => rw [hv] at h; cases h
  | some value =>
    rw [hv] at h
    refine ⟨value, rfl, ?_⟩
    cases hp : path.isPublic with
    | false =>
      rw [hp] at h
      cases h
      exact .inl ⟨rfl, rfl⟩
    | true =>
      rw [hp] at h
      cases target with
      | smartContract =>
        cases h
        exact .inr (.inl ⟨rfl, rfl, rfl⟩)
      | zkProgram =>
        obtain ⟨owners, howners, h⟩ := bind_eq_ok.mp h
        have hassign := mapError_eq_ok.mp howners
        unfold NameOwners.assign at hassign
        cases ho : parts.owners.owner? path.publicField with
        | some owner => rw [ho] at hassign; cases hassign
        | none =>
          rw [ho] at hassign
          cases hassign
          cases h
          exact .inr (.inr ⟨rfl, rfl, rfl, rfl⟩)

/-- The parts after the paths `done`: the private values stand in the order of their paths, and
every public value stands under its field, which no other path has. -/
structure Placed (values : InputValues) (target : Target) (done : List Path) (parts : Parts) :
    Prop where
  privates : List.Forall₂ (fun path value => values.getLeaf? path = some value)
    (privatePaths done) parts.privateValues.reverse
  ordered : Keyed.Ordered parts.publicValues
  publics : ∀ field value, parts.publicValues.lookup field = some value ↔
    ∃ path ∈ publicPaths target done, path.publicField = field ∧ values.getLeaf? path = some value
  fields : parts.owners.entries.map Prod.fst
    = ((publicPaths target done).map Path.publicField).reverse
  distinct : ((publicPaths target done).map Path.publicField).Nodup

theorem placed_nil : Placed values target [] ⟨[], [], .empty⟩ where
  privates := .nil
  ordered := List.Pairwise.nil
  publics field value := by cases target <;> simp [publicPaths]
  fields := by cases target <;> rfl
  distinct := by cases target <;> exact List.nodup_nil

theorem privatePaths_append (done : List Path) (path : Path) :
    privatePaths (done ++ [path])
      = privatePaths done ++ if path.isPublic then [] else [path] := by
  rw [privatePaths, List.filter_append]
  cases h : path.isPublic <;> simp [h, privatePaths]

theorem publicPaths_append (target : Target) (done : List Path) (path : Path) :
    publicPaths target (done ++ [path])
      = publicPaths target done
        ++ if path.isPublic && target == .zkProgram then [path] else [] := by
  cases target with
  | smartContract => simp [publicPaths]
  | zkProgram =>
    rw [publicPaths, List.filter_append]
    cases h : path.isPublic <;> simp [h, publicPaths]

/-- **Giving a value its place keeps the order and the fields.** -/
theorem Placed.step {done : List Path} {parts next : Parts} {path : Path}
    (h : Placed values target done parts) (hadd : parts.add values target path = .ok next) :
    Placed values target (done ++ [path]) next := by
  obtain ⟨value, hv, ⟨hp, rfl⟩ | ⟨hp, rfl, rfl⟩ | ⟨hp, rfl, ho, rfl⟩⟩ := add_eq_ok hadd
  · have hpub : publicPaths target (done ++ [path]) = publicPaths target done := by
      rw [publicPaths_append, hp]
      exact List.append_nil _
    refine ⟨?_, h.ordered, ?_, ?_, ?_⟩
    · rw [privatePaths_append, hp, List.reverse_cons]
      exact List.rel_append h.privates (.cons hv .nil)
    · rw [hpub]; exact h.publics
    · rw [hpub]; exact h.fields
    · rw [hpub]; exact h.distinct
  · have hpriv : privatePaths (done ++ [path]) = privatePaths done := by
      rw [privatePaths_append, hp]
      exact List.append_nil _
    exact ⟨hpriv ▸ h.privates, h.ordered, h.publics, h.fields, h.distinct⟩
  · have hpriv : privatePaths (done ++ [path]) = privatePaths done := by
      rw [privatePaths_append, hp]
      exact List.append_nil _
    have hpub : publicPaths .zkProgram (done ++ [path])
        = publicPaths .zkProgram done ++ [path] := by
      rw [publicPaths_append, hp]
      rfl
    -- The field is new: a field that is taken has an owner.
    have hnew : path.publicField ∉ (publicPaths .zkProgram done).map Path.publicField := by
      have hfree := NameOwners.owner?_eq_none_iff.mp ho
      rwa [h.fields, List.mem_reverse] at hfree
    refine ⟨hpriv ▸ h.privates, Keyed.ordered_insert h.ordered, fun field w => ?_, ?_, ?_⟩
    · rw [Keyed.lookup_insert, hpub]
      by_cases hf : field = path.publicField
      · subst hf
        rw [if_pos rfl]
        constructor
        · intro hw
          cases hw
          exact ⟨path, List.mem_append_right _ List.mem_cons_self, rfl, hv⟩
        · rintro ⟨q, hq, hqf, hqv⟩
          rcases List.mem_append.mp hq with hq | hq
          · exact absurd (hqf ▸ List.mem_map_of_mem hq) hnew
          · rw [List.mem_singleton.mp hq, hv] at hqv
            exact hqv
      · rw [if_neg hf, h.publics]
        constructor
        · rintro ⟨q, hq, hqf, hqv⟩
          exact ⟨q, List.mem_append_left _ hq, hqf, hqv⟩
        · rintro ⟨q, hq, hqf, hqv⟩
          rcases List.mem_append.mp hq with hq | hq
          · exact ⟨q, hq, hqf, hqv⟩
          · rw [List.mem_singleton.mp hq] at hqf
            exact absurd hqf.symm hf
    · rw [hpub, List.map_append, List.reverse_append, List.map_cons, h.fields]
      rfl
    · rw [hpub, List.map_append, List.nodup_append]
      refine ⟨h.distinct, List.nodup_singleton _, ?_⟩
      rintro a ha b hb rfl
      exact hnew (List.mem_singleton.mp hb ▸ ha)

theorem Placed.mem_fields {done : List Path} {parts : Parts} (h : Placed values target done parts)
    (hvalues : ∀ path ∈ publicPaths target done, ∃ value, values.getLeaf? path = some value)
    (field : String) : field ∈ parts.publicValues.map Prod.fst ↔
      field ∈ (publicPaths target done).map Path.publicField := by
  constructor
  · intro hm
    obtain ⟨⟨key, value⟩, hentry, rfl⟩ := List.mem_map.mp hm
    have hlookup := (Keyed.lookup_eq_some_iff h.ordered).mpr hentry
    obtain ⟨path, hpath, rfl, -⟩ := (h.publics _ _).mp hlookup
    exact List.mem_map_of_mem hpath
  · intro hm
    obtain ⟨path, hpath, rfl⟩ := List.mem_map.mp hm
    obtain ⟨value, hv⟩ := hvalues path hpath
    have hlookup := (h.publics _ _).mpr ⟨path, hpath, rfl, hv⟩
    exact List.mem_map.mpr ⟨_, (Keyed.lookup_eq_some_iff h.ordered).mp hlookup, rfl⟩

/-- **The call that the values of a schema give.**  The private values stand in the order of the
paths; on a program with a public input every public value stands under its field, and a smart
contract has no public input. -/
theorem ofValues_eq_ok {schema : Schema} {input : CallInput}
    (h : ofValues schema values target = .ok input) :
    ∃ parts, Placed values target schema.leafPaths parts ∧
      input.privateInput = parts.privateValues.reverse ∧
      (target = .zkProgram → input.publicInput = some parts.publicValues) ∧
      (target = .smartContract → input.publicInput = none) := by
  obtain ⟨parts, hparts, heq⟩ := bind_eq_ok.mp h
  cases heq
  refine ⟨parts, ?_, rfl, ?_, ?_⟩
  · exact foldlM_ok (motive := Placed values target) hparts placed_nil
      fun _ _ _ _ _ hdone hstep => hdone.step hstep
  · rintro rfl; rfl
  · rintro rfl; rfl

end CallInput

/-! ### Confinement of private values -/

namespace Schema

variable {converter : Converter} {schema : Schema} {first second : Tree Json}

/-- Two setups agree on a path if they hold the same value wherever references lead from it to a
setup variable. -/
def AgreeOn (schema : Schema) (first second : Tree Json) (path : Path) : Prop :=
  ∀ n terminal chain, schema.Hops n path terminal →
    schema.getLeaf? terminal = some (.setup chain) →
    first.getLeaf? terminal = second.getLeaf? terminal

/-- **A leaf denotes the same under setups that agree on it.** -/
theorem Denotes.of_agreeOn {path : Path} {value : Value} (hagree : schema.AgreeOn first second path)
    (h : schema.Denotes converter first path value) :
    schema.Denotes converter second path value := by
  induction h with
  | static hg hc => exact .static hg hc
  | constant hg hn hc => exact .constant hg hn hc
  | setup hg hs hn hc => exact .setup hg (hagree 0 _ _ (.here _) hg ▸ hs) hn hc
  | reference hg _ ih =>
    exact .reference hg
      (ih fun n terminal chain hops => hagree (n + 1) terminal chain (.hop hg hops))

theorem AgreeOn.symm {path : Path} (h : schema.AgreeOn first second path) :
    schema.AgreeOn second first path :=
  fun n terminal chain hops hg => (h n terminal chain hops hg).symm

end Schema

namespace Compiler

theorem input_eq_ok {compiler : Compiler} {target : Target} {schema : Schema} {setup : Json}
    {input : CallInput} (h : compiler.input target schema setup = .ok input) :
    ∃ tree values, setupOfJson setup = .ok tree ∧
      InputValues.ofSetup compiler.converter compiler.config.maxReferenceDepth schema tree
        = .ok values ∧
      CallInput.ofValues schema values target = .ok input := by
  obtain ⟨tree, htree, h⟩ := bind_eq_ok.mp h
  obtain ⟨values, hvalues, h⟩ := bind_eq_ok.mp h
  exact ⟨tree, values, htree, hvalues, h⟩

/-- **The public input holds, under every field, what the public leaf of that field denotes.** -/
theorem publicInput_lookup {compiler : Compiler} {schema : Schema} (hs : schema.WellFormed)
    {setup : Json} {input : CallInput} (h : compiler.input .zkProgram schema setup = .ok input) :
    ∃ tree entries, setupOfJson setup = .ok tree ∧ input.publicInput = some entries ∧
      Keyed.Ordered entries ∧ ∀ field value, entries.lookup field = some value ↔
        ∃ path ∈ CallInput.publicPaths .zkProgram schema.leafPaths, path.publicField = field ∧
          schema.Denotes compiler.converter tree path value := by
  obtain ⟨tree, values, htree, hvalues, hinput⟩ := input_eq_ok h
  obtain ⟨parts, hparts, -, hpublic, -⟩ := CallInput.ofValues_eq_ok hinput
  obtain ⟨-, -, hholds⟩ := InputValues.of_ofSetup hs hvalues
  refine ⟨tree, parts.publicValues, htree, hpublic rfl, hparts.ordered, fun field value => ?_⟩
  rw [hparts.publics]
  simp only [hholds]

/-- **Private values reach the public input through references only.**  Two setups that agree
wherever a chain of references from a public leaf ends give the same public input, whatever else
they hold. -/
theorem publicInput_eq_of_agreeOn {document : Json} {schema : Schema}
    (hschema : Schema.ofJson document = .ok schema) (compiler : Compiler)
    {first second : Json} {tree other : Tree Json} {input output : CallInput}
    (hfirst : compiler.input .zkProgram schema first = .ok input)
    (hsecond : compiler.input .zkProgram schema second = .ok output)
    (htree : setupOfJson first = .ok tree) (hother : setupOfJson second = .ok other)
    (hagree : ∀ path ∈ schema.leafPaths, path.isPublic = true → schema.AgreeOn tree other path) :
    ∃ entries, input.publicInput = some entries ∧ output.publicInput = some entries := by
  have hs := Schema.wellFormed_ofJson hschema
  obtain ⟨_, a, ha, hinput, hordered, hlookup⟩ := publicInput_lookup hs hfirst
  obtain ⟨_, b, hb, houtput, hordered', hlookup'⟩ := publicInput_lookup hs hsecond
  cases ha.symm.trans htree
  cases hb.symm.trans hother
  have heq : a = b := by
    refine Keyed.ext_lookup hordered hordered' fun field => Option.ext fun value => ?_
    rw [hlookup, hlookup']
    refine exists_congr fun path => and_congr_right fun hm => and_congr_right fun _ => ?_
    obtain ⟨hleaf, hpublic⟩ := List.mem_filter.mp hm
    have hpath := hagree path hleaf hpublic
    exact ⟨Schema.Denotes.of_agreeOn hpath, Schema.Denotes.of_agreeOn hpath.symm⟩
  exact ⟨a, hinput, heq ▸ houtput⟩

/-- Two private values, of which the public leaf shows one. -/
def badgeSchema : Json :=
  .object [
    ("private", .object [
      ("age", .object [("type", .string "setup"),
        ("transLinks", .array [.string "uint64-mina:field"])]),
      ("pin", .object [("type", .string "setup"),
        ("transLinks", .array [.string "uint64-mina:field"])])]),
    ("public", .object [
      ("shown", .object [("type", .string "reference"),
        ("path", .array [.string "private", .string "age"])])])]

def badge : Schema :=
  (Schema.ofJson badgeSchema).toOption.getD .empty

/-- A setup with a given value for the leaf that is not shown. -/
def badgeSetup (pin : Nat) : Json :=
  .object [("private", .object [("age", .ofNat 18), ("pin", .ofNat pin)])]

theorem badge_terminal {n : Nat} {terminal : Path} {chain : Chain}
    (hops : badge.Hops n ["public", "shown"] terminal)
    (hsetup : badge.getLeaf? terminal = some (.setup chain)) : terminal = ["private", "age"] := by
  have hshown : badge.getLeaf? ["public", "shown"] = some (.reference ["private", "age"]) := rfl
  have hage : (badge.getLeaf? ["private", "age"]).map Variable.isReference = some false := rfl
  cases hops with
  | here =>
    rw [hshown] at hsetup
    cases hsetup
  | hop hg hops =>
    rw [hshown] at hg
    cases hg
    cases hops with
    | here => rfl
    | hop hg _ =>
      rw [hg] at hage
      cases hage

def badgeInput (pin : Nat) : CallInput :=
  ⟨[.field (.ofNat 18), .field (.ofNat pin)], some [("shown", .field (.ofNat 18))]⟩

/-- The value that is not shown changes the private input and not the public one. -/
theorem publicInput_eq_of_agreeOn_badge :
    Compiler.input {} .zkProgram badge (badgeSetup 1) = .ok (badgeInput 1) ∧
      Compiler.input {} .zkProgram badge (badgeSetup 2) = .ok (badgeInput 2) ∧
      (badgeInput 1).privateInput ≠ (badgeInput 2).privateInput ∧
      ∃ entries, (badgeInput 1).publicInput = some entries ∧
        (badgeInput 2).publicInput = some entries := by
  have hschema : Schema.ofJson badgeSchema = .ok badge := rfl
  have hone : Compiler.input {} .zkProgram badge (badgeSetup 1) = .ok (badgeInput 1) :=
    toOption_eq_some.mp (by decide +kernel)
  have htwo : Compiler.input {} .zkProgram badge (badgeSetup 2) = .ok (badgeInput 2) :=
    toOption_eq_some.mp (by decide +kernel)
  have hagree : ∀ path ∈ badge.leafPaths, path.isPublic = true →
      badge.AgreeOn (Tree.ofJson (badgeSetup 1)) (Tree.ofJson (badgeSetup 2)) path := by
    intro path hm hpublic n terminal chain hops hsetup
    have hpaths : badge.leafPaths
        = [["private", "age"], ["private", "pin"], ["public", "shown"]] := by decide +kernel
    obtain rfl | rfl | rfl : path = ["private", "age"] ∨ path = ["private", "pin"] ∨
        path = ["public", "shown"] := by simpa [hpaths] using hm
    · cases hpublic
    · cases hpublic
    · rw [badge_terminal hops hsetup]
      rfl
  exact ⟨hone, htwo, by decide +kernel,
    publicInput_eq_of_agreeOn hschema {} hone htwo rfl rfl hagree⟩

end Compiler

end Circuitry
