import Circuitry.Proofs.Agreement

/-!
# Why an input is refused

An input is made in three steps, and each step has its own ways to fail.  Reading the setup fails
if it is no object.  Resolution fails at the first leaf that cannot be converted or whose references
do not end (`InputValues.ofSetup_eq_error`).  Sorting the values fails at the first public leaf
whose field is taken (`CallInput.ofValues_split`).

A program that has a source has passed most of these tests before: the types of its inputs are found
along the same references, with the same constants, and the names of its public inputs are their
fields behind one accessor.  So its input is refused for the values of the setup only
(`Compiler.inputOfProgram_of_translate`).
-/

namespace Circuitry

open Fallible

/-! ### Resolution -/

theorem Schema.dereferenceFrom_eq_error {schema : Schema} {start : Path} {limit : Nat}
    {e : CompileError} (hops : Nat) (path : Path)
    (h : schema.dereferenceFrom start limit hops path = .error e) :
    (∃ target, e = .unresolvedReference start target) ∨ e = .referenceTooLong start limit := by
  induction hops generalizing path with
  | zero =>
    unfold dereferenceFrom at h
    split at h
    · cases h; exact .inl ⟨path, rfl⟩
    · cases h; exact .inl ⟨path, rfl⟩
    · cases h; exact .inr rfl
    · cases h
  | succ hops ih =>
    unfold dereferenceFrom at h
    split at h
    · cases h; exact .inl ⟨path, rfl⟩
    · cases h; exact .inl ⟨path, rfl⟩
    · exact ih _ h
    · cases h

namespace InputValues

variable {converter : Converter} {schema : Schema} {setup : Tree Json} {limit : Nat}

/-- A setup has nothing at a path, or only `null`. -/
def Misses (setup : Tree Json) (path : Path) : Prop :=
  setup.getLeaf? path = none ∨ setup.getLeaf? path = some .null

theorem setupValue_eq_error {path : Path} {e : CompileError}
    (h : setupValue setup path = .error e) : Misses setup path ∧ e = .missingSetup path := by
  unfold setupValue at h
  split at h
  · rename_i hnone
    cases h
    exact ⟨.inl hnone, rfl⟩
  · rename_i hnull
    cases h
    exact ⟨.inr hnull, rfl⟩
  · cases h

theorem constantParse_eq_error {name : String} {e : CompileError}
    (h : Constant.parse name = .error e) :
    Constant.ofName? name = none ∧ e = .unknownConstant name := by
  unfold Constant.parse at h
  split at h
  · cases h
  · rename_i hnone
    cases h
    exact ⟨hnone, rfl⟩

theorem convertAt_eq_error {path : Path} {raw : Json} {chain : Chain} {e : CompileError}
    (h : convertAt converter path raw chain = .error e) :
    ∃ cause, converter raw chain.links = .error cause ∧
      e = .conversionFailed (.leaf path) cause := by
  unfold convertAt at h
  cases hc : converter raw chain.links with
  | error cause =>
    rw [hc] at h
    cases h
    exact ⟨cause, rfl, rfl⟩
  | ok value =>
    rw [hc] at h
    cases h

/-- **Why a leaf has no value**: its raw value cannot be converted, the setup has none, or its
constant does not exist. -/
theorem ownValue_eq_error {path : Path} {found : Variable} {e : CompileError}
    (h : ownValue converter setup path found = .error e) :
    (∃ cause, e = .conversionFailed (.leaf path) cause) ∨
      (∃ chain, found = .setup chain ∧ Misses setup path ∧ e = .missingSetup path) ∨
      ∃ name, found = .constant name ∧ Constant.ofName? name = none ∧
        e = .unknownConstant name := by
  have convert {raw : Json} {chain : Chain}
      (h : (convertAt converter path raw chain).map some = .error e) :
      ∃ cause, e = .conversionFailed (.leaf path) cause := by
    have hfails : FailsBy (fun e => ∃ cause, e = CompileError.conversionFailed (.leaf path) cause)
        (convertAt converter path raw chain) := by
      intro e he
      obtain ⟨cause, -, heq⟩ := convertAt_eq_error he
      exact ⟨cause, heq⟩
    exact hfails.map e h
  cases found with
  | static raw chain => exact .inl (convert h)
  | constant name =>
    simp only [ownValue] at h
    cases hp : Constant.parse name with
    | error e' =>
      rw [hp] at h
      cases h
      exact .inr (.inr ⟨name, rfl, constantParse_eq_error hp⟩)
    | ok constant =>
      rw [hp] at h
      exact .inl (convert h)
  | setup chain =>
    simp only [ownValue] at h
    cases hv : setupValue setup path with
    | error e' =>
      rw [hv] at h
      cases h
      exact .inr (.inl ⟨chain, rfl, setupValue_eq_error hv⟩)
    | ok raw =>
      rw [hv] at h
      exact .inl (convert h)
  | reference next => cases h
  | function operation out => cases h

/-- **Resolution fails at a leaf**: at one that has no value, or at a reference whose chain does not
end. -/
theorem ofSetup_eq_error (hs : schema.WellFormed) {e : CompileError}
    (h : ofSetup converter limit schema setup = .error e) :
    (∃ path found, schema.getLeaf? path = some found ∧
        ownValue converter setup path found = .error e) ∨
      ∃ path next, schema.getLeaf? path = some (.reference next) ∧
        schema.dereference path limit = .error e := by
  unfold ofSetup at h
  rcases run_own converter setup hs with ⟨own, hrun, hown⟩ | ⟨leaf, e', hm, he, hrun⟩
  · rw [hrun] at h
    have hstart : CopiedSoFar converter limit schema setup [] own := hown.copied
    rcases foldlM_run (referencePaths schema) hstart fun done path values hm h =>
        h.step hs (fun p found hg hr => hown.denotes hs hg hr) hm with
      ⟨values, hvalues, -⟩ | ⟨path, e', hm, he, hrun'⟩
    · change (referencePaths schema).foldlM (addReference schema limit) own = .error e at h
      rw [hvalues] at h
      cases h
    · change (referencePaths schema).foldlM (addReference schema limit) own = .error e at h
      rw [hrun'] at h
      cases h
      obtain ⟨next, hg⟩ := mem_referencePaths.mp hm
      exact .inr ⟨path, next, hg, he⟩
  · rw [hrun] at h
    cases h
    exact .inl ⟨leaf.1, leaf.2, Tree.mem_leaves.mp hm, he⟩

end InputValues

theorem InputValues.exists_of_ofSetup {converter : Converter} {limit : Nat} {schema : Schema}
    {setup : Tree Json} {values : InputValues} (hs : schema.WellFormed)
    (h : ofSetup converter limit schema setup = .ok values) :
    ∀ path ∈ schema.leafPaths, ∃ value, values.getLeaf? path = some value := by
  intro path hm
  obtain ⟨hres, -, hholds⟩ := of_ofSetup hs h
  obtain ⟨found, hg⟩ := Tree.mem_leafPaths.mp hm
  obtain ⟨value, hdenotes⟩ := hres.denotes hs hg
  exact ⟨value, (hholds path value).mpr hdenotes⟩

/-! ### The places in a call -/

namespace CallInput

variable {values : InputValues} {target : Target}

theorem add_eq_error {parts : Parts} {path : Path} {value : Value} {e : CompileError}
    (hv : values.getLeaf? path = some value) (h : parts.add values target path = .error e) :
    target = .zkProgram ∧ path.isPublic = true ∧
      ∃ owner, parts.owners.owner? path.publicField = some owner ∧
        e = .nameCollision path.publicField owner path := by
  unfold Parts.add at h
  rw [hv] at h
  cases hp : path.isPublic with
  | false => rw [hp] at h; cases h
  | true =>
    rw [hp] at h
    cases target with
    | smartContract => cases h
    | zkProgram =>
      unfold NameOwners.assign at h
      cases ho : parts.owners.owner? path.publicField with
      | none => simp only [ho] at h; cases h
      | some owner =>
        simp only [ho] at h
        cases h
        exact ⟨rfl, rfl, owner, rfl, rfl⟩

/-- The fields in use belong to public paths among `done`, each to a path that has it. -/
def Owned (target : Target) (done : List Path) (owners : NameOwners) : Prop :=
  ∀ field owner, owners.owner? field = some owner →
    owner ∈ publicPaths target done ∧ owner.publicField = field

theorem owned_nil : Owned target [] .empty := by
  intro field owner h
  cases h

theorem Owned.step {done : List Path} {parts next : Parts} {path : Path}
    (h : Owned target done parts.owners) (hadd : parts.add values target path = .ok next) :
    Owned target (done ++ [path]) next.owners := by
  have hkept : Owned target (done ++ [path]) parts.owners := by
    intro field owner howner
    obtain ⟨hm, hfield⟩ := h field owner howner
    rw [publicPaths_append]
    exact ⟨List.mem_append_left _ hm, hfield⟩
  obtain ⟨value, -, ⟨-, rfl⟩ | ⟨-, rfl, rfl⟩ | ⟨hp, rfl, -, rfl⟩⟩ := add_eq_ok hadd
  · exact hkept
  · exact hkept
  · intro field owner howner
    by_cases hfield : field = path.publicField
    · subst hfield
      rw [NameOwners.owner?, List.lookup_cons_self] at howner
      cases howner
      refine ⟨?_, rfl⟩
      rw [publicPaths_append, hp]
      exact List.mem_append_right _ List.mem_cons_self
    · rw [NameOwners.owner?, List.lookup_cons, beq_eq_false_iff_ne.mpr hfield] at howner
      exact hkept field owner howner

/-- `path` is the first public path in a list whose field an earlier one has, and `earlier` is that
one. -/
def FirstClash (paths : List Path) (earlier path : Path) : Prop :=
  ∃ before between after, paths = before ++ earlier :: between ++ path :: after ∧
    earlier.isPublic = true ∧ path.isPublic = true ∧ earlier.publicField = path.publicField ∧
    ((publicPaths .zkProgram (before ++ earlier :: between)).map Path.publicField).Nodup

/-- **Values for all leaves are placed, unless two public leaves have one field.**  The failure is
that of the first leaf whose field an earlier leaf has, and it names both. -/
theorem ofValues_split {schema : Schema} (target : Target)
    (hvalues : ∀ path ∈ schema.leafPaths, ∃ value, values.getLeaf? path = some value) :
    (∃ input, ofValues schema values target = .ok input) ∨
      target = .zkProgram ∧ ∃ earlier path, FirstClash schema.leafPaths earlier path ∧
        ofValues schema values target
          = .error (.nameCollision path.publicField earlier path) := by
  let motive (done : List Path) (parts : Parts) : Prop :=
    Placed values target done parts ∧ Owned target done parts.owners
  let fails (done : List Path) (path : Path) (e : CompileError) : Prop :=
    target = .zkProgram ∧ path.isPublic = true ∧
      ((publicPaths target done).map Path.publicField).Nodup ∧
      ∃ owner ∈ publicPaths target done, owner.publicField = path.publicField ∧
        e = .nameCollision path.publicField owner path
  have hstep : ∀ done path rest (parts : Parts), schema.leafPaths = done ++ path :: rest →
      motive done parts →
      (∃ e, fails done path e ∧ parts.add values target path = .error e) ∨
      ∃ next, parts.add values target path = .ok next ∧ motive (done ++ [path]) next := by
    intro done path rest parts heq hdone
    obtain ⟨hplaced, howned⟩ := hdone
    have hm : path ∈ schema.leafPaths := by
      rw [heq]
      exact List.mem_append_right _ List.mem_cons_self
    obtain ⟨value, hv⟩ := hvalues path hm
    cases hadd : parts.add values target path with
    | ok next => exact .inr ⟨next, rfl, hplaced.step hadd, howned.step hadd⟩
    | error e =>
      obtain ⟨ht, hp, owner, howner, rfl⟩ := add_eq_error hv hadd
      obtain ⟨hmem, hfield⟩ := howned _ owner howner
      exact .inl ⟨_, ⟨ht, hp, hplaced.distinct, owner, hmem, hfield, rfl⟩, rfl⟩
  rcases foldlM_split fails schema.leafPaths (⟨placed_nil, owned_nil⟩ : motive [] _) hstep with
    ⟨parts, hparts, -⟩ |
    ⟨done, path, after, e, heq, ⟨rfl, hp, hdistinct, earlier, hm, hfield, rfl⟩, herror⟩
  · exact .inl ⟨_, bind_eq_ok.mpr ⟨parts, hparts, rfl⟩⟩
  · obtain ⟨hmem, hpublic⟩ := List.mem_filter.mp hm
    obtain ⟨before, between, rfl⟩ := List.append_of_mem hmem
    refine .inr ⟨rfl, earlier, path,
      ⟨before, between, after, heq, hpublic, hp, hfield, hdistinct⟩, ?_⟩
    unfold ofValues
    rw [herror]
    rfl

/-- The same, as what the leaf that fails meets among those before it. -/
theorem ofValues_cases {schema : Schema} (target : Target)
    (hvalues : ∀ path ∈ schema.leafPaths, ∃ value, values.getLeaf? path = some value) :
    (∃ input, ofValues schema values target = .ok input) ∨
      ∃ done path rest owner, schema.leafPaths = done ++ path :: rest ∧ target = .zkProgram ∧
        path.isPublic = true ∧ path.publicField ∈ (publicPaths target done).map Path.publicField ∧
        ofValues schema values target = .error (.nameCollision path.publicField owner path) := by
  rcases ofValues_split target hvalues with hok | ⟨rfl, earlier, path, hclash, herror⟩
  · exact .inl hok
  · obtain ⟨before, between, after, heq, hpublic, hp, hfield, -⟩ := hclash
    refine .inr ⟨before ++ earlier :: between, path, after, earlier, heq, rfl, hp, ?_, herror⟩
    rw [← hfield]
    refine List.mem_map_of_mem (List.mem_filter.mpr ⟨?_, hpublic⟩)
    exact List.mem_append_right _ List.mem_cons_self

end CallInput

/-! ### Names -/

theorem Names.nodup_of_ofPaths {target : Target} {paths : List Path} {names : Names}
    (h : ofPaths target paths = .ok names) : (paths.map (inputName target)).Nodup := by
  have hrun : names.owners.entries.map Prod.fst = (paths.map (inputName target)).reverse ∧
      (paths.map (inputName target)).Nodup := by
    refine foldlM_ok (motive := fun done (names : Names) =>
      names.owners.entries.map Prod.fst = (done.map (inputName target)).reverse ∧
        (done.map (inputName target)).Nodup) h ⟨rfl, List.nodup_nil⟩ ?_
    intro done path names next _ hdone hgive
    obtain ⟨hnames, hnodup⟩ := hdone
    obtain ⟨hfree, -, hentries⟩ := give_eq_ok (giveInput_eq_ok hgive)
    have hnew : inputName target path ∉ done.map (inputName target) := by
      have hfree := NameOwners.owner?_eq_none_iff.mp hfree
      rwa [hnames, List.mem_reverse] at hfree
    refine ⟨?_, ?_⟩
    · rw [hentries, List.map_cons, hnames, List.map_append, List.reverse_append]
      rfl
    · rw [List.map_append]
      refine List.nodup_append.mpr ⟨hnodup, List.nodup_singleton _, ?_⟩
      intro a ha b hb heq
      rw [List.mem_singleton.mp hb] at heq
      exact hnew (heq ▸ ha)
  exact hrun.2

/-- Public inputs have different fields: a field is the name without the accessor in front. -/
theorem Names.nodup_publicFields {paths : List Path} {names : Names}
    (h : ofPaths .zkProgram paths = .ok names) :
    ((CallInput.publicPaths .zkProgram paths).map Path.publicField).Nodup := by
  have hpublic : ((CallInput.publicPaths .zkProgram paths).map (inputName .zkProgram)).Nodup :=
    (nodup_of_ofPaths h).sublist (List.filter_sublist.map _)
  have hname : (CallInput.publicPaths .zkProgram paths).map (inputName .zkProgram)
      = ((CallInput.publicPaths .zkProgram paths).map Path.publicField).map
          (publicAccessor ++ "." ++ ·) := by
    rw [List.map_map]
    refine List.map_congr_left fun path hm => ?_
    have hp : path.isPublic = true := (List.mem_filter.mp hm).2
    simp [inputName, hp]
  rw [hname] at hpublic
  exact hpublic.of_map

/-! ### Programs with a source -/

/-- Every leaf of a program with a source is typed: its references end within the limit, at a
variable whose chain is known. -/
theorem Program.typeOf_of_source {converter : Converter} {config : Config} {program : Program}
    {text : String} (hp : program.WellFormed) (ht : program.target = .zkProgram)
    (h : program.source converter config = .ok text) :
    (∀ path found, program.schema.getLeaf? path = some found → ∃ token,
        InputTypes.typeOf program.schema config.maxReferenceDepth path = .ok token) ∧
      ((CallInput.publicPaths .zkProgram program.schema.leafPaths).map Path.publicField).Nodup := by
  have hpaths := program.schema.inputPaths_zkProgram
  obtain ⟨outline, houtline, -⟩ := bind_eq_ok.mp h
  have hassembled := Outline.of_ofProgram hp houtline
  refine ⟨fun path found hg => hassembled.typed path ?_, ?_⟩
  · rw [hassembled.paths, ht, hpaths]
    exact Tree.mem_leafPaths.mpr ⟨found, hg⟩
  · obtain ⟨-, -, names, hnames, -⟩ := Outline.ofProgram_eq_ok.mp houtline
    rw [hassembled.paths, ht, hpaths] at hnames
    exact Names.nodup_publicFields hnames

namespace Compiler

theorem setupOfJson_eq_error {setup : Json} {e : CompileError}
    (h : setupOfJson setup = .error e) :
    (∀ members, setup ≠ .object members) ∧ e = .parse .setupNotObject := by
  unfold setupOfJson at h
  cases setup with
  | object members => cases h
  | _ => cases h; exact ⟨nofun, rfl⟩

theorem input_eq_error {compiler : Compiler} (target : Target) {schema : Schema} {setup : Json}
    {tree : Tree Json} {e : CompileError} (hsetup : setupOfJson setup = .ok tree)
    (hvalues : InputValues.ofSetup compiler.converter compiler.config.maxReferenceDepth schema tree
      = .error e) : compiler.input target schema setup = .error e := by
  unfold input
  rw [hsetup]
  show (InputValues.ofSetup compiler.converter compiler.config.maxReferenceDepth schema tree >>=
    fun values => CallInput.ofValues schema values target) = .error e
  rw [hvalues]
  rfl

/-- **The input of a program that has a source is refused for its values only.**  Either there is an
input, or the setup is no object, or it misses the value of a setup variable, or the raw value of a
leaf cannot be converted.  There is no other way to fail. -/
theorem inputOfProgram_of_translate {document : Json} {program : Program}
    (hprogram : Program.ofJson document = .ok program) (htarget : program.target = .zkProgram)
    {compiler : Compiler} {text : String} (htext : compiler.translate program = .ok text)
    (setup : Json) :
    (∃ input, compiler.inputOfProgram program setup = .ok input) ∨
      ((∀ members, setup ≠ .object members) ∧
        compiler.inputOfProgram program setup = .error (.parse .setupNotObject)) ∨
      ∃ tree, setupOfJson setup = .ok tree ∧
        ((∃ path chain, program.schema.getLeaf? path = some (.setup chain) ∧
            InputValues.Misses tree path ∧
            compiler.inputOfProgram program setup = .error (.missingSetup path)) ∨
          ∃ path found cause, program.schema.getLeaf? path = some found ∧
            InputValues.ownValue compiler.converter tree path found
              = .error (.conversionFailed (.leaf path) cause) ∧
            compiler.inputOfProgram program setup
              = .error (.conversionFailed (.leaf path) cause)) := by
  have hp := Program.wellFormed_ofJson hprogram
  obtain ⟨htyped, hfields⟩ := Program.typeOf_of_source hp htarget htext
  cases hsetup : setupOfJson setup with
  | error e =>
    obtain ⟨hobject, rfl⟩ := setupOfJson_eq_error hsetup
    refine .inr (.inl ⟨hobject, ?_⟩)
    unfold inputOfProgram input
    rw [hsetup]
    rfl
  | ok tree =>
    cases hvalues : InputValues.ofSetup compiler.converter compiler.config.maxReferenceDepth
        program.schema tree with
    | error e =>
      refine .inr (.inr ⟨tree, rfl, ?_⟩)
      have herror := input_eq_error program.target hsetup hvalues
      rcases InputValues.ofSetup_eq_error hp.schema hvalues with
        ⟨path, found, hg, hown⟩ | ⟨path, next, hg, hderef⟩
      · rcases InputValues.ownValue_eq_error hown with
          ⟨cause, rfl⟩ | ⟨chain, rfl, hmiss, rfl⟩ | ⟨name, rfl, hnone, -⟩
        · exact .inr ⟨path, found, cause, hg, hown, herror⟩
        · exact .inl ⟨path, chain, hg, hmiss, herror⟩
        · -- The type of a constant is that of its value, so the constant exists.
          obtain ⟨token, htoken⟩ := htyped path _ hg
          obtain ⟨terminal, last, chain, hlast, hchain, -⟩ := InputTypes.typeOf_eq_ok htoken
          rw [Schema.dereference, Schema.dereferenceFrom_own hp.schema hg rfl] at hlast
          cases hlast
          obtain ⟨constant, hconstant, -⟩ := map_eq_ok.mp hchain
          rw [InputValues.constantParse_eq_ok, hnone] at hconstant
          cases hconstant
      · -- The type of a reference is that of the variable where its chain ends.
        obtain ⟨token, htoken⟩ := htyped path _ hg
        obtain ⟨terminal, last, chain, hlast, -⟩ := InputTypes.typeOf_eq_ok htoken
        rw [hderef] at hlast
        cases hlast
    | ok values =>
      left
      have hleaf := InputValues.exists_of_ofSetup hp.schema hvalues
      rcases CallInput.ofValues_cases program.target hleaf with
        ⟨input, hinput⟩ | ⟨done, path, rest, owner, heq, -, hpublic, htaken, -⟩
      · exact ⟨input, bind_eq_ok.mpr ⟨tree, hsetup, bind_eq_ok.mpr ⟨values, hvalues, hinput⟩⟩⟩
      · -- The fields of all public leaves are different, so no leaf meets its own field.
        rw [heq, CallInput.publicPaths, List.filter_append, List.filter_cons_of_pos hpublic,
          List.map_append, List.map_cons] at hfields
        rw [htarget] at htaken
        have hdisjoint := (List.nodup_append.mp hfields).2.2
        exact absurd rfl (hdisjoint _ htaken _ List.mem_cons_self)

/-- A setup with one of the two values that the badge takes. -/
def badgeSetupWithoutPin : Json :=
  .object [("private", .object [("age", .ofNat 18)])]

def missedPath? : Except CompileError CallInput → Option Path
  | .error (.missingSetup path) => some path
  | _ => none

theorem missedPath?_badge {program : Program} (h : Program.ofJson badgeProgram = .ok program)
    (name : String) : missedPath? (Compiler.inputOfProgram ⟨Value.ofChain, ⟨64, 64, name⟩⟩ program
      badgeSetupWithoutPin) = some ["private", "pin"] := by
  have hmissed : missedPath? ((Program.ofJson badgeProgram).bind fun program =>
      Compiler.inputOfProgram {} program badgeSetupWithoutPin) = some ["private", "pin"] := by
    decide +kernel
  rw [h] at hmissed
  exact hmissed

/-- The program over the badge has a source, and its input is refused for the value it misses. -/
theorem inputOfProgram_of_translate_badge : ∃ program text,
    Program.ofJson badgeProgram = .ok program ∧ Compiler.translate {} program = .ok text ∧
      Compiler.inputOfProgram {} program badgeSetupWithoutPin
        = .error (.missingSetup ["private", "pin"]) := by
  obtain ⟨program, text, hprogram, htext, htarget, -⟩ := exists_badgeProgram
  have hmissed := missedPath?_badge hprogram "execute"
  refine ⟨program, text, hprogram, htext, ?_⟩
  rcases inputOfProgram_of_translate hprogram htarget htext badgeSetupWithoutPin with
    ⟨input, hinput⟩ | ⟨hobject, -⟩ |
    ⟨tree, -, ⟨path, chain, -, -, hfails⟩ | ⟨_, _, _, -, -, hfails⟩⟩
  · rw [hinput] at hmissed
    cases hmissed
  · exact absurd rfl (hobject _)
  · rw [hfails] at hmissed ⊢
    rw [Option.some.inj hmissed]
  · rw [hfails] at hmissed
    cases hmissed

end Compiler

end Circuitry
