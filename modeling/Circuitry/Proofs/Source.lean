import Circuitry.Proofs.Data

/-!
# Templates say what they mean

A source is generated through a template, but the template is only a way to write it down: what
comes out is the layout with the names, types and fields themselves in it.  `Program.directSource`
is that text, written without any placeholder.

The two agree because a layout consists of marks, which the scanner finds again in the template
(`Layout.hasMarks_source`), and because the data hold an entry for every mark that a layout of an
assembled program puts on the page (`Outline.Assembled.exists_data`).  In particular an assembled
program always has a source.
-/

namespace Circuitry

open Fallible

theorem Schema.mem_inputPaths {schema : Schema} {target : Target} {path : Path}
    (h : path ∈ schema.inputPaths target) :
    path ∈ schema.leafPaths ∧ (target = .zkProgram ∨ path.isPublic = false) := by
  obtain ⟨hm, hp⟩ := List.mem_filter.mp h
  refine ⟨hm, ?_⟩
  rcases Bool.or_eq_true_iff.mp hp with hp | hp
  · exact .inl (beq_iff_eq.mp hp)
  · exact .inr (Bool.not_eq_true' _ ▸ hp)

namespace Outline

/-- The spelling by the entries themselves: the name, type or field of every path. -/
def spelling (outline : Outline) : Spelling where
  name path := (outline.names.get? path).getD ""
  type path := ((outline.types.getLeaf? path).map SourceType.name).getD ""
  publicField := Path.publicField

theorem spelling_name {outline : Outline} {path : Path} {name : String}
    (h : outline.names.get? path = some name) : outline.spelling.name path = name := by
  simp [spelling, h]

theorem spelling_type {outline : Outline} {path : Path} {token : SourceType}
    (h : outline.types.getLeaf? path = some token) : outline.spelling.type path = token.name := by
  simp [spelling, h]

def Holds (outline : Outline) : Mark → Prop
  | .char _ => True
  | .name path => outline.names.Declares path
  | .type path => path ∈ outline.paths
  | .publicField path => path ∈ outline.paths ∧ path.isPublic = true

structure Assembled (config : Config) (program : Program) (outline : Outline) : Prop where
  method : Identifier.isValid config.methodName = true
  paths : outline.paths = program.schema.inputPaths program.target
  names : outline.names.Sound
  inputs : ∀ path ∈ outline.paths,
    outline.names.get? path = some (Names.inputName program.target path)
  typed : ∀ path ∈ outline.paths,
    ∃ token, InputTypes.typeOf program.schema config.maxReferenceDepth path = .ok token
  types : ∀ path token, outline.types.getLeaf? path = some token ↔
    path ∈ outline.paths ∧
      InputTypes.typeOf program.schema config.maxReferenceDepth path = .ok token
  statements : ∀ statement ∈ outline.statements, statement.Safe outline.names.Declares

variable {converter : Converter} {config : Config} {program : Program} {outline : Outline}

/-- **What assembling does**: the inputs get their names and their types, and the commands become
statements under these names. -/
theorem ofProgram_eq_ok : ofProgram converter config program = .ok outline ↔
    Identifier.isValid config.methodName = true ∧
      outline.paths = program.schema.inputPaths program.target ∧
      ∃ names, Names.ofPaths program.target outline.paths = .ok names ∧
        InputTypes.ofPaths program.schema config.maxReferenceDepth outline.paths
          = .ok outline.types ∧
        statementsOf converter config.maxExpressionDepth program.commands names
          = (outline.names, .ok outline.statements) := by
  constructor
  · intro h
    unfold ofProgram at h
    obtain ⟨hmethod, h⟩ := of_check h
    obtain ⟨names, hnames, h⟩ := bind_eq_ok.mp h
    obtain ⟨types, htypes, h⟩ := bind_eq_ok.mp h
    obtain ⟨statements, hstatements, h⟩ := bind_eq_ok.mp h
    cases h
    exact ⟨by simpa using hmethod, rfl, names, hnames, htypes, Prod.ext rfl hstatements⟩
  · rintro ⟨hmethod, hpaths, names, hnames, htypes, hstatements⟩
    obtain ⟨paths, final, types, statements⟩ := outline
    cases hpaths
    unfold ofProgram
    rw [hmethod]
    refine bind_eq_ok.mpr ⟨names, hnames, bind_eq_ok.mpr ⟨types, htypes, ?_⟩⟩
    rw [hstatements]
    rfl

theorem of_ofProgram (hp : program.WellFormed)
    (h : ofProgram converter config program = .ok outline) : outline.Assembled config program := by
  obtain ⟨hmethod, hpaths, names, hnames, htypes, hstatements⟩ := ofProgram_eq_ok.mp h
  rw [hpaths] at hnames htypes
  have hvariable : ∀ path ∈ program.schema.inputPaths program.target,
      Schema.IsVariablePath path := by
    intro path hm
    obtain ⟨found, hfound⟩ := Tree.mem_leafPaths.mp (Schema.mem_inputPaths hm).1
    exact hp.schema.path path found hfound
  obtain ⟨hsound, hget⟩ := Names.of_ofPaths hvariable hnames
  obtain ⟨htyped, htable⟩ := InputTypes.of_ofPaths htypes
  obtain ⟨hfinal, hkeep, hsafe⟩ := statementsOf_sound hsound hp.outputs hstatements
  rw [← hpaths] at hget htyped htable
  exact {
    method := hmethod
    paths := hpaths
    names := hfinal
    inputs := fun path hm => hkeep path _ ((hget path _).mpr ⟨hm, rfl⟩)
    typed := htyped
    types := htable
    statements := hsafe }

theorem Assembled.spellable (h : outline.Assembled config program) {mark : Mark}
    (hm : outline.Holds mark) : mark.Spellable := by
  have hpath {path : Path} (hp : path ∈ outline.paths) : path.Spellable :=
    (h.names.canName path _ (h.inputs path hp)).spellable
  cases mark with
  | char c => trivial
  | name path =>
    obtain ⟨name, hname⟩ := hm
    exact (h.names.canName path name hname).spellable
  | type path => exact hpath hm
  | publicField path => exact hpath hm.1

theorem Assembled.hasMarks (h : outline.Assembled config program) :
    HasMarks outline.Holds fun spelling =>
      Layout.source program.target spelling config.methodName outline.paths outline.statements := by
  have hmethod := Identifier.not_mem_of_isPart (d := '\x7b') (Identifier.of_isValid h.method).2
    (by decide)
  refine Layout.hasMarks_source (fun _ => trivial) (fun _ => h.spellable) hmethod ?_ h.statements
    program.target ?_
  · intro path hm
    exact ⟨⟨_, h.inputs path hm⟩, hm⟩
  · intro _ path hm hpublic
    exact ⟨hm, hpublic⟩

/-! ### The data -/

theorem Assembled.exists_publicFields (h : outline.Assembled config program) :
    ∃ fields, outline.publicFields program.target = .ok fields ∧
      ∀ path ∈ outline.paths, path.isPublic = true →
        fields.getLeaf? path = some path.publicField := by
  cases ht : program.target with
  | zkProgram =>
    have hfree : PrefixFree (· ∈ outline.paths) := by
      intro p q hp hq
      rw [h.paths] at hp hq
      exact program.schema.prefixFree_leafPaths p q (Schema.mem_inputPaths hp).1
        (Schema.mem_inputPaths hq).1
    have hne : ∀ path ∈ outline.paths, path ≠ [] := fun path hm =>
      (h.names.canName path _ (h.inputs path hm)).spellable.ne_nil
    obtain ⟨fields, hfields, hlookup⟩ := Circuitry.exists_publicFields hne hfree
    exact ⟨fields, hfields, fun path hm hp => (hlookup path _).mpr ⟨⟨hm, hp⟩, rfl⟩⟩
  | smartContract =>
    refine ⟨.empty, rfl, fun path hm hp => ?_⟩
    rw [h.paths, ht] at hm
    rcases (Schema.mem_inputPaths hm).2 with hzk | hprivate
    · cases hzk
    · rw [hp] at hprivate
      cases hprivate

theorem leaves_typeNames (types : InputTypes) :
    (types.leaves.map fun leaf => (leaf.1, leaf.2.name))
      = (types.mapLeaves fun _ token => token.name).leaves :=
  (Tree.leaves_mapLeaves types fun _ token => token.name).symm

theorem fill_slot {data : Tree String} {path : Path} {text : String} (hpath : path.Spellable)
    (h : data.getLeaf? path = some text) :
    (Template.Piece.slot path.display.toList).fill data = .ok text.toList := by
  rw [Template.Piece.fill, Template.splitOn_display hpath, h]

/-- **The data of an assembled program exist, and every mark is filled with its own entry.** -/
theorem Assembled.exists_data (h : outline.Assembled config program) :
    ∃ fields data, outline.publicFields program.target = .ok fields ∧
      Template.data outline.names.tree
        (outline.types.leaves.map fun leaf => (leaf.1, leaf.2.name)) fields.leaves = .ok data ∧
      ∀ mark, outline.Holds mark →
        mark.piece.fill data = .ok (mark.spell outline.spelling) := by
  obtain ⟨fields, hfields, hfield⟩ := h.exists_publicFields
  obtain ⟨data, hdata, hnames, htypes, hpublic⟩ := Template.exists_data h.names
    (outline.types.mapLeaves fun _ token => token.name) fields
  refine ⟨fields, data, hfields, by rw [leaves_typeNames]; exact hdata, fun mark hm => ?_⟩
  have hspell := h.spellable hm
  cases mark with
  | char c => rfl
  | name path =>
    obtain ⟨name, hname⟩ := hm
    rw [Mark.spell, spelling_name hname]
    exact fill_slot hspell (hnames path name hname)
  | type path =>
    obtain ⟨token, htoken⟩ := h.typed path hm
    have hentry := (h.types path token).mpr ⟨hm, htoken⟩
    rw [Mark.spell, spelling_type hentry]
    refine fill_slot (Path.Spellable.under hspell (by decide)) (htypes path token.name ?_)
    rw [Tree.getLeaf?_mapLeaves, hentry]
    rfl
  | publicField path =>
    exact fill_slot (Path.Spellable.under hspell (by decide))
      (hpublic path _ (hfield path hm.1 hm.2))

end Outline

/-! ### Rendering -/

theorem Template.render_of_marks {template : String} {data : Tree String} {marks : List Mark}
    {spelling : Spelling} (hscan : pieces template.toList = marks.map Mark.piece)
    (hfill : ∀ mark ∈ marks, mark.piece.fill data = .ok (mark.spell spelling)) :
    render template data = .ok (String.ofList (marks.flatMap (Mark.spell spelling))) := by
  have hpieces : (marks.map Mark.piece).mapM (Piece.fill data)
      = .ok (marks.map (Mark.spell spelling)) := by
    rw [mapM_eq_ok, List.forall₂_map_left_iff, List.forall₂_map_right_iff, List.forall₂_same]
    exact hfill
  rw [render, hscan, hpieces, List.flatMap_def]
  rfl

/-- The source of a program, written without a template. -/
def Program.directSource (converter : Converter) (config : Config) (program : Program) :
    Except CompileError String := do
  let outline ← Outline.ofProgram converter config program
  return Layout.source program.target outline.spelling config.methodName outline.paths
    outline.statements

/-- **The marks of an assembled program.**  The scanner finds them in the template, the data fill
every one of them with its own entry, and spelled by their entries they are the direct source. -/
theorem Outline.Assembled.exists_marks {config : Config} {program : Program} {outline : Outline}
    (h : outline.Assembled config program) :
    ∃ fields data, ∃ marks : List Mark, outline.publicFields program.target = .ok fields ∧
      Template.data outline.names.tree
        (outline.types.leaves.map fun leaf => (leaf.1, leaf.2.name)) fields.leaves = .ok data ∧
      Template.pieces (Layout.source program.target Template.spelling config.methodName
        outline.paths outline.statements).toList = marks.map Mark.piece ∧
      (∀ mark ∈ marks, outline.Holds mark ∧
        mark.piece.fill data = .ok (mark.spell outline.spelling)) ∧
      (Layout.source program.target outline.spelling config.methodName outline.paths
        outline.statements).toList = marks.flatMap (Mark.spell outline.spelling) := by
  obtain ⟨fields, data, hfields, hdata, hfill⟩ := h.exists_data
  obtain ⟨marks, hkind, hspelled, hscanned⟩ := h.hasMarks
  refine ⟨fields, data, marks, hfields, hdata, ?_, ?_, hspelled outline.spelling⟩
  · have hscan := hscanned []
    rwa [List.append_nil, Template.pieces_nil, List.append_nil] at hscan
  · exact fun mark hm => ⟨hkind mark hm, hfill mark (hkind mark hm)⟩

theorem Program.source_of_assembled {converter : Converter} {config : Config} {program : Program}
    {outline : Outline} (houtline : Outline.ofProgram converter config program = .ok outline)
    (h : outline.Assembled config program) :
    program.source converter config = .ok (Layout.source program.target outline.spelling
      config.methodName outline.paths outline.statements) := by
  obtain ⟨fields, data, marks, hfields, hdata, hscan, hfill, hspelled⟩ := h.exists_marks
  have hrender := Template.render_of_marks hscan fun mark hm => (hfill mark hm).2
  rw [← hspelled, String.ofList_toList] at hrender
  exact bind_eq_ok.mpr ⟨outline, houtline, bind_eq_ok.mpr ⟨fields, hfields,
    bind_eq_ok.mpr ⟨data, hdata, hrender⟩⟩⟩

/-- A document that is accepted, with what can be decided about its program and the outline. -/
theorem Outline.exists_of_decide (document : Json) (config : Config)
    (holds : Program → Outline → Prop) [∀ program outline, Decidable (holds program outline)]
    (h : ((Program.ofJson document).toOption.any fun program =>
      (Outline.ofProgram Value.ofChain config program).toOption.any fun outline =>
        decide (holds program outline)) = true) :
    ∃ program outline text, Program.ofJson document = .ok program ∧
      Outline.ofProgram Value.ofChain config program = .ok outline ∧
      program.source Value.ofChain config = .ok text ∧ holds program outline := by
  obtain ⟨program, hprogram, h⟩ := exists_of_any h
  obtain ⟨outline, houtline, h⟩ := exists_of_any h
  have hassembled := Outline.of_ofProgram (Program.wellFormed_ofJson hprogram) houtline
  exact ⟨program, outline, _, hprogram, houtline,
    Program.source_of_assembled houtline hassembled, of_decide_eq_true h⟩

/-- **Placeholder substitution is exactly right.**  The source of a program is the text that the
layout writes with the names, types and fields themselves, and it fails only where assembling
fails.  For an assembled program the parameters are spelled by their identifiers, the types are
those of the variables at the end of the references, and the pieces of the template are marks that
have entries: every placeholder is replaced by the entry of its own path, and every other character
stands for itself. -/
theorem Program.source_eq_directSource {document : Json} {program : Program}
    (hprogram : Program.ofJson document = .ok program) (converter : Converter) (config : Config) :
    program.source converter config = program.directSource converter config ∧
      ∀ outline, Outline.ofProgram converter config program = .ok outline →
        (∀ path ∈ outline.paths, path.isPublic = false →
          outline.names.get? path = some path.identifier) ∧
        (∀ path ∈ outline.paths, ∃ token,
          InputTypes.typeOf program.schema config.maxReferenceDepth path = .ok token ∧
            outline.spelling.type path = token.name) ∧
        ∃ fields data, ∃ marks : List Mark, outline.publicFields program.target = .ok fields ∧
          Template.data outline.names.tree
            (outline.types.leaves.map fun leaf => (leaf.1, leaf.2.name)) fields.leaves = .ok data ∧
          Template.pieces (Layout.source program.target Template.spelling config.methodName
            outline.paths outline.statements).toList = marks.map Mark.piece ∧
          (∀ mark ∈ marks, outline.Holds mark ∧
            mark.piece.fill data = .ok (mark.spell outline.spelling)) ∧
          (Layout.source program.target outline.spelling config.methodName outline.paths
            outline.statements).toList = marks.flatMap (Mark.spell outline.spelling) := by
  have hp := Program.wellFormed_ofJson hprogram
  refine ⟨?_, fun outline houtline => ?_⟩
  · cases houtline : Outline.ofProgram converter config program with
    | error e =>
      rw [Program.source, Program.directSource, houtline]
      rfl
    | ok outline =>
      rw [source_of_assembled houtline (Outline.of_ofProgram hp houtline), Program.directSource,
        houtline]
      rfl
  · have h := Outline.of_ofProgram hp houtline
    refine ⟨fun path hm hprivate => ?_, fun path hm => ?_, h.exists_marks⟩
    · rw [h.inputs path hm, Names.inputName_of_private hprivate]
    · obtain ⟨token, htoken⟩ := h.typed path hm
      exact ⟨token, htoken, Outline.spelling_type ((h.types path token).mpr ⟨hm, htoken⟩)⟩

/-- A command that compares an input with the text of its own placeholder. -/
def quotedProgram : Json :=
  .object [
    ("target", .string "o1js:smart-contract"),
    ("inputSchema", .object [
      ("private", .object [
        ("name", .object [("type", .string "setup"),
          ("transLinks", .array [.string "ascii-mina:string"])])])]),
    ("commands", .array [
      .object [("equal", .object [("in", .array [
        .object [("type", .string "reference"),
          ("path", .array [.string "private", .string "name"])],
        .object [("type", .string "static"),
          ("value", .string "\x7b\x7b private.name \x7d\x7d"),
          ("transLinks", .array [.string "ascii-mina:string"])]])])]])]

/-- The reference is replaced by its name, and the text that looks like it is not. -/
theorem Program.source_eq_directSource_quoted : ∃ program outline text,
    Program.ofJson quotedProgram = .ok program ∧
      Outline.ofProgram Value.ofChain {} program = .ok outline ∧
      program.source Value.ofChain {} = .ok text ∧
      program.directSource Value.ofChain {} = .ok text ∧
      outline.names.get? ["private", "name"] = some "private_name" ∧
      outline.statements.map (Statement.render outline.spelling.name)
        = ["private_name.equals(CircuitString.fromString(" ++
          "\"\\u007b\\u007b private.name \\u007d\\u007d\"))"] := by
  obtain ⟨program, outline, text, hprogram, houtline, htext, hpaths, hstatements⟩ :=
    Outline.exists_of_decide quotedProgram {} (fun _ outline =>
      outline.paths = [["private", "name"]] ∧
        outline.statements.map (Statement.render outline.spelling.name)
          = ["private_name.equals(CircuitString.fromString(" ++
            "\"\\u007b\\u007b private.name \\u007d\\u007d\"))"]) (by decide +kernel)
  obtain ⟨hsource, hrest⟩ := source_eq_directSource hprogram Value.ofChain {}
  have hname := (hrest outline houtline).1 ["private", "name"]
    (by rw [hpaths]; exact List.mem_singleton_self _) (by decide)
  exact ⟨program, outline, text, hprogram, houtline, htext, hsource.symm.trans htext, hname,
    hstatements⟩

end Circuitry
