import Circuitry.Proofs.CallInput
import Circuitry.Proofs.Signature
import Circuitry.Proofs.Source
import Circuitry.Proofs.Typing

/-!
# Sources and inputs agree

The source of a program and the input for a call of it are computed apart: names and types for the
one, values for the other.  They agree all the same.  Both follow the leaves of the schema in their
order, the type of an input and its value come from the same chain of conversions, and the fields
of the public input are taken from the same paths.  So a call passes, position by position and
field by field, values of the types that the source declares.
-/

namespace Circuitry

open Fallible

namespace Schema

/-! ### The paths of the inputs -/

theorem private_inputPaths (schema : Schema) (target : Target) :
    (schema.inputPaths target).filter (fun path => !path.isPublic)
      = CallInput.privatePaths schema.leafPaths := by
  rw [inputPaths, List.filter_filter, CallInput.privatePaths]
  refine List.filter_congr fun path _ => ?_
  cases path.isPublic <;> simp

theorem public_inputPaths (schema : Schema) :
    (schema.inputPaths .zkProgram).filter (fun path => path.isPublic)
      = CallInput.publicPaths .zkProgram schema.leafPaths := by
  rw [inputPaths, List.filter_filter, CallInput.publicPaths]
  refine List.filter_congr fun path _ => ?_
  cases path.isPublic <;> simp

theorem inputPaths_zkProgram (schema : Schema) :
    schema.inputPaths .zkProgram = schema.leafPaths := by
  simp [inputPaths]

theorem inputPaths_smartContract (schema : Schema) :
    schema.inputPaths .smartContract = CallInput.privatePaths schema.leafPaths := by
  rw [inputPaths, CallInput.privatePaths]
  refine List.filter_congr fun path _ => ?_
  rfl

end Schema

/-! ### Values of declared types -/

/-- The node of a value, without its namespace, is one that the sources call `token`. -/
def Value.HasType (value : Value) (token : SourceType) : Prop :=
  SourceType.parse (Link.typeName value.node.name) = .ok token

theorem Program.source_eq_ok {converter : Converter} {config : Config} {program : Program}
    {text : String} (hp : program.WellFormed) (h : program.source converter config = .ok text) :
    ∃ outline : Outline, outline.Assembled config program ∧
      text = Layout.source program.target outline.spelling config.methodName outline.paths
        outline.statements := by
  obtain ⟨outline, houtline, -⟩ := bind_eq_ok.mp h
  have hassembled := Outline.of_ofProgram hp houtline
  rw [Program.source_of_assembled houtline hassembled] at h
  exact ⟨outline, hassembled, (Except.ok.inj h).symm⟩

namespace Outline.Assembled

variable {config : Config} {program : Program} {outline : Outline}

theorem spelling_type_eq (h : outline.Assembled config program) {path : Path}
    {token : SourceType} (hm : path ∈ outline.paths)
    (htoken : InputTypes.typeOf program.schema config.maxReferenceDepth path = .ok token) :
    outline.spelling.type path = token.name :=
  Outline.spelling_type ((h.types path token).mpr ⟨hm, htoken⟩)

theorem spelling_name_eq (h : outline.Assembled config program) {path : Path}
    (hm : path ∈ outline.paths) :
    outline.spelling.name path = Names.inputName program.target path :=
  Outline.spelling_name (h.inputs path hm)

theorem oneLine (h : outline.Assembled config program) :
    '\n' ∉ config.methodName.toList ∧
      (∀ path ∈ outline.paths, '\n' ∉ (outline.spelling.name path).toList) ∧
      ∀ path ∈ outline.paths, '\n' ∉ (outline.spelling.publicField path).toList := by
  refine ⟨?_, fun path hm => ?_, fun path _ => ?_⟩
  · exact Identifier.not_mem_of_isPart (Identifier.of_isValid h.method).2 (by decide)
  · rw [h.spelling_name_eq hm]
    exact Names.newline_not_mem_inputName _ _
  · exact Identifier.not_mem_of_isPart (Identifier.isPart_ofKeys path.tail) (by decide)

variable {token : Path → SourceType} (h : outline.Assembled config program)
  (htoken : ∀ path ∈ outline.paths,
    InputTypes.typeOf program.schema config.maxReferenceDepth path = .ok (token path))
include h htoken

/-- **A program declares the fields of its public inputs, and the types and names of its private
inputs.** -/
theorem declared_zkProgram (ht : program.target = .zkProgram) (statements : List Statement) :
    Layout.declaredTypes (Layout.zkProgram outline.spelling config.methodName outline.paths
        statements)
      = (CallInput.privatePaths program.schema.leafPaths).map
        (fun path => "        " ++ (token path).name ++ ",") ∧
    Layout.declaredNames (Layout.zkProgram outline.spelling config.methodName outline.paths
        statements)
      = (CallInput.privatePaths program.schema.leafPaths).map
        (fun path => "        " ++ path.identifier ++ ",") ∧
    Layout.declaredFields (Layout.zkProgram outline.spelling config.methodName outline.paths
        statements)
      = (CallInput.publicPaths .zkProgram program.schema.leafPaths).map
        (fun path => "  " ++ path.publicField ++ ": " ++ (token path).name ++ ",") := by
  obtain ⟨hmethod, hnames, hfields⟩ := h.oneLine
  have htype {path : Path} (hm : path ∈ outline.paths) :=
    h.spelling_type_eq hm (htoken path hm)
  have htypes : ∀ path ∈ outline.paths, ∃ token : SourceType,
      outline.spelling.type path = token.name := fun path hm => ⟨token path, htype hm⟩
  have hprivate : (outline.paths.filter fun path => !path.isPublic)
      = CallInput.privatePaths program.schema.leafPaths := by
    rw [h.paths, Schema.private_inputPaths]
  have hpublic : (outline.paths.filter fun path => path.isPublic)
      = CallInput.publicPaths .zkProgram program.schema.leafPaths := by
    rw [h.paths, ht, Schema.public_inputPaths]
  rw [Layout.declaredTypes_zkProgram hmethod htypes hnames hfields,
    Layout.declaredNames_zkProgram hmethod htypes hnames hfields,
    Layout.declaredFields_zkProgram hmethod htypes hnames hfields, ← hprivate, ← hpublic]
  refine ⟨?_, ?_, ?_⟩
  · refine List.map_congr_left fun path hm => ?_
    rw [Layout.typeLine, htype (List.mem_filter.mp hm).1]
  · refine List.map_congr_left fun path hm => ?_
    obtain ⟨hm, hp⟩ := List.mem_filter.mp hm
    rw [Layout.nameLine, h.spelling_name_eq hm, Names.inputName_of_private (by simpa using hp)]
  · refine List.map_congr_left fun path hm => ?_
    rw [Layout.fieldLine, htype (List.mem_filter.mp hm).1]
    rfl

theorem declared_smartContract (ht : program.target = .smartContract)
    (statements : List Statement) :
    Layout.declaredParameters config.methodName (Layout.smartContract outline.spelling
        config.methodName outline.paths statements)
      = (CallInput.privatePaths program.schema.leafPaths).map
        (fun path => "    " ++ path.identifier ++ ": " ++ (token path).name ++ ",") := by
  obtain ⟨hmethod, hnames, -⟩ := h.oneLine
  have htype {path : Path} (hm : path ∈ outline.paths) :=
    h.spelling_type_eq hm (htoken path hm)
  have hpaths : outline.paths = CallInput.privatePaths program.schema.leafPaths := by
    rw [h.paths, ht, Schema.inputPaths_smartContract]
  rw [Layout.declaredParameters_smartContract hmethod (fun path hm => ⟨_, htype hm⟩) hnames,
    ← hpaths]
  refine List.map_congr_left fun path hm => ?_
  rw [Layout.parameterLine, htype hm, h.spelling_name_eq hm, ht]
  rfl

end Outline.Assembled

/-- **A call passes values of the declared types**, in the places of their paths. -/
theorem Compiler.typed_inputOfProgram {config : Config} {program : Program} {setup : Json}
    {input : CallInput} (hp : program.WellFormed)
    (hinput : Compiler.inputOfProgram ⟨Value.ofChain, config⟩ program setup = .ok input)
    {token : Path → SourceType} (htoken : ∀ path ∈ program.schema.inputPaths program.target,
      InputTypes.typeOf program.schema config.maxReferenceDepth path = .ok (token path)) :
    List.Forall₂ (fun path value => Value.HasType value (token path))
      (CallInput.privatePaths program.schema.leafPaths) input.privateInput ∧
    (program.target = .smartContract → input.publicInput = none) ∧
    (program.target = .zkProgram →
      ((CallInput.publicPaths .zkProgram program.schema.leafPaths).map Path.publicField).Nodup ∧
      ∃ entries, input.publicInput = some entries ∧
        (∀ field, field ∈ entries.map Prod.fst ↔
          field ∈ (CallInput.publicPaths .zkProgram program.schema.leafPaths).map
            Path.publicField) ∧
        ∀ path ∈ CallInput.publicPaths .zkProgram program.schema.leafPaths, ∃ value,
          entries.lookup path.publicField = some value ∧ Value.HasType value (token path)) := by
  obtain ⟨tree, values, -, hvalues, hinput⟩ := input_eq_ok hinput
  obtain ⟨parts, hparts, hprivate, hpublic, hnone⟩ := CallInput.ofValues_eq_ok hinput
  obtain ⟨hres, -, hholds⟩ := InputValues.of_ofSetup hp.schema hvalues
  have htyped {path : Path} {value : Value} (hm : path ∈ program.schema.inputPaths program.target)
      (hv : values.getLeaf? path = some value) : value.HasType (token path) :=
    Schema.Denotes.sourceType hp.schema ((hholds path value).mp hv) (htoken path hm)
  refine ⟨?_, hnone, fun ht => ?_⟩
  · rw [hprivate]
    have hpaths : ∀ path ∈ CallInput.privatePaths program.schema.leafPaths,
        path ∈ program.schema.inputPaths program.target := by
      intro path hm
      rw [← program.schema.private_inputPaths program.target] at hm
      exact (List.mem_filter.mp hm).1
    refine ((List.forall₂_and_left _ _).mpr ⟨hpaths, hparts.privates⟩).imp ?_
    rintro path value ⟨hm, hv⟩
    exact htyped hm hv
  · rw [ht] at hparts htyped
    have hpaths : ∀ path ∈ CallInput.publicPaths .zkProgram program.schema.leafPaths,
        path ∈ program.schema.inputPaths .zkProgram ∧ path ∈ program.schema.leafPaths := by
      intro path hm
      rw [← program.schema.public_inputPaths] at hm
      have hm := (List.mem_filter.mp hm).1
      exact ⟨hm, (Schema.mem_inputPaths hm).1⟩
    have hvalue : ∀ path ∈ CallInput.publicPaths .zkProgram program.schema.leafPaths, ∃ value,
        values.getLeaf? path = some value := by
      intro path hm
      obtain ⟨found, hfound⟩ := Tree.mem_leafPaths.mp (hpaths path hm).2
      obtain ⟨value, hdenotes⟩ := hres.denotes hp.schema hfound
      exact ⟨value, (hholds path value).mpr hdenotes⟩
    refine ⟨hparts.distinct, parts.publicValues, hpublic ht, hparts.mem_fields hvalue, ?_⟩
    intro path hm
    obtain ⟨value, hv⟩ := hvalue path hm
    refine ⟨value, (hparts.publics _ _).mpr ⟨path, hm, rfl, hv⟩, ?_⟩
    exact htyped (hpaths path hm).1 hv

/-- **Sources and inputs stay in step.**  Whenever a program has a source and a setup gives an
input for it, the private inputs that the source declares are the private leaves of the schema in
their order, each with the type of its own path, and the values of the call have those types in the
same order.  A program with a public input declares one field for every public leaf, the fields are
distinct, the call has a value for exactly these fields, and every value has the declared type.  A
smart contract gets no public input. -/
theorem Compiler.translate_agrees_input {document : Json} {program : Program}
    (hprogram : Program.ofJson document = .ok program) (config : Config) {setup : Json}
    {text : String} {input : CallInput}
    (htext : Compiler.translate ⟨Value.ofChain, config⟩ program = .ok text)
    (hinput : Compiler.inputOfProgram ⟨Value.ofChain, config⟩ program setup = .ok input) :
    ∃ token : Path → SourceType,
      (∀ path ∈ program.schema.inputPaths program.target,
        InputTypes.typeOf program.schema config.maxReferenceDepth path = .ok (token path)) ∧
      List.Forall₂ (fun path value => Value.HasType value (token path))
        (CallInput.privatePaths program.schema.leafPaths) input.privateInput ∧
      (program.target = .zkProgram →
        Layout.declaredTypes text = (CallInput.privatePaths program.schema.leafPaths).map
          (fun path => "        " ++ (token path).name ++ ",") ∧
        Layout.declaredNames text = (CallInput.privatePaths program.schema.leafPaths).map
          (fun path => "        " ++ path.identifier ++ ",") ∧
        Layout.declaredFields text
          = (CallInput.publicPaths .zkProgram program.schema.leafPaths).map
            (fun path => "  " ++ path.publicField ++ ": " ++ (token path).name ++ ",") ∧
        ((CallInput.publicPaths .zkProgram program.schema.leafPaths).map
          Path.publicField).Nodup ∧
        ∃ entries, input.publicInput = some entries ∧
          (∀ field, field ∈ entries.map Prod.fst ↔
            field ∈ (CallInput.publicPaths .zkProgram program.schema.leafPaths).map
              Path.publicField) ∧
          ∀ path ∈ CallInput.publicPaths .zkProgram program.schema.leafPaths, ∃ value,
            entries.lookup path.publicField = some value ∧ Value.HasType value (token path)) ∧
      (program.target = .smartContract →
        Layout.declaredParameters config.methodName text
          = (CallInput.privatePaths program.schema.leafPaths).map
            (fun path => "    " ++ path.identifier ++ ": " ++ (token path).name ++ ",") ∧
        input.publicInput = none) := by
  have hp := Program.wellFormed_ofJson hprogram
  obtain ⟨outline, houtline, rfl⟩ := Program.source_eq_ok hp htext
  let token (path : Path) : SourceType := (outline.types.getLeaf? path).getD .field
  have htoken : ∀ path ∈ outline.paths,
      InputTypes.typeOf program.schema config.maxReferenceDepth path = .ok (token path) := by
    intro path hm
    obtain ⟨found, hfound⟩ := houtline.typed path hm
    have hleaf := (houtline.types path found).mpr ⟨hm, hfound⟩
    rw [hfound, show token path = found by simp [token, hleaf]]
  have hinputs := houtline.paths ▸ htoken
  obtain ⟨hprivate, hnone, hpublic⟩ := Compiler.typed_inputOfProgram hp hinput hinputs
  refine ⟨token, hinputs, hprivate, fun ht => ?_, fun ht => ?_⟩
  · obtain ⟨htypes, hnames, hfields⟩ := houtline.declared_zkProgram htoken ht outline.statements
    rw [ht]
    exact ⟨htypes, hnames, hfields, hpublic ht⟩
  · rw [ht]
    exact ⟨houtline.declared_smartContract htoken ht outline.statements, hnone ht⟩

/-- A program over the schema with two private values, one of which a public leaf shows. -/
def badgeProgram : Json :=
  .object [("target", .string "o1js:zk-program"), ("inputSchema", Compiler.badgeSchema)]

theorem exists_badgeProgram : ∃ program text, Program.ofJson badgeProgram = .ok program ∧
    Compiler.translate {} program = .ok text ∧ program.target = .zkProgram ∧
    program.schema.leafPaths = [["private", "age"], ["private", "pin"], ["public", "shown"]] := by
  obtain ⟨program, -, text, hprogram, -, htext, hfacts⟩ :=
    Outline.exists_of_decide badgeProgram {} (fun program _ =>
      program.target = .zkProgram ∧ program.schema.leafPaths
        = [["private", "age"], ["private", "pin"], ["public", "shown"]]) (by decide +kernel)
  exact ⟨program, text, hprogram, htext, hfacts⟩

/-- The two private values are parameters, and the one field of the public input has a value. -/
theorem Compiler.translate_agrees_input_badge : ∃ program text input,
    Program.ofJson badgeProgram = .ok program ∧
      Compiler.translate ⟨Value.ofChain, {}⟩ program = .ok text ∧
      Compiler.inputOfProgram ⟨Value.ofChain, {}⟩ program (badgeSetup 1) = .ok input ∧
      Layout.declaredNames text = ["        private_age,", "        private_pin,"] ∧
      input.privateInput.length = 2 ∧
      ∃ entries, input.publicInput = some entries ∧ entries.map Prod.fst = ["shown"] := by
  obtain ⟨program, text, hprogram, htext, htarget, hpaths⟩ := exists_badgeProgram
  have hinput : ((Program.ofJson badgeProgram).bind fun program =>
      Compiler.inputOfProgram ⟨Value.ofChain, {}⟩ program (badgeSetup 1)).toOption
        = some (badgeInput 1) := by decide +kernel
  rw [hprogram] at hinput
  have hinput : Compiler.inputOfProgram ⟨Value.ofChain, {}⟩ program (badgeSetup 1)
      = .ok (badgeInput 1) := toOption_eq_some.mp hinput
  obtain ⟨token, -, hprivate, hzk, -⟩ := translate_agrees_input hprogram {} htext hinput
  obtain ⟨-, hnames, -⟩ := hzk htarget
  rw [hpaths] at hnames hprivate
  exact ⟨program, _, _, hprogram, htext, hinput, hnames, hprivate.length_eq.symm, _, rfl, rfl⟩

end Circuitry
