import Circuitry.Proofs.Partition
import Circuitry.Proofs.Regular

/-!
# Two targets, one private side

A program with a public input and a smart contract are made from the same schema and commands, but
under different names: the contract leaves all public leaves out.  Where the commands do not refer
to public leaves, nothing else changes.

The names of the contract are those of the program at the paths that are not public
(`Names.PrivatePart`).  That is so at the start, where both name the private leaves by their
identifiers, and every command keeps it: its expression depends on the paths to which it refers, and
a name that is free among all names is free among some of them.  So the contract has every
statement of the program, and the same text for it (`Outline.exists_smartContract`).
-/

namespace Circuitry

open Fallible

/-- No reference in a command, at any depth, is to a public path. -/
def Command.AvoidsPublic (command : Command) : Prop :=
  ∀ depth inner, Operation.Nested 1 command.operation depth inner →
    ∀ path, .reference path ∈ inner.operands → path.isPublic = false

/-! ### Tables for some of the paths -/

/-- **Different names can be given**, to paths that do not lead through one another. -/
theorem Names.exists_ofPaths {target : Target} {paths : List Path}
    (hfree : PrefixFree (· ∈ paths)) (hne : ∀ path ∈ paths, path ≠ [])
    (hnodup : (paths.map (inputName target)).Nodup) :
    ∃ names, Names.ofPaths target paths = .ok names := by
  let motive (done : List Path) (names : Names) : Prop :=
    names.owners.entries.map Prod.fst = (done.map (inputName target)).reverse
  have hstep : ∀ done path rest (names : Names), paths = done ++ path :: rest →
      motive done names →
      (∃ e, False ∧ giveInput target names path = .error e) ∨
        ∃ value, ∀ next, names.tree.put path value = .ok next →
          ∃ names', giveInput target names path = .ok names' ∧ names'.tree = next ∧
            motive (done ++ [path]) names' := by
    intro done path rest names heq hdone
    have hkeys : names.owners.entries.map Prod.fst = (done.map (inputName target)).reverse := hdone
    have hnew : inputName target path ∉ done.map (inputName target) := by
      intro hm
      rw [heq, List.map_append, List.map_cons] at hnodup
      exact (List.nodup_append.mp hnodup).2.2 _ hm _ List.mem_cons_self rfl
    have howner : names.owners.owner? (inputName target path) = none := by
      rw [NameOwners.owner?_eq_none_iff, hkeys, List.mem_reverse]
      exact hnew
    refine .inr ⟨inputName target path, fun next hput => ?_⟩
    refine ⟨⟨next, ⟨(inputName target path, path) :: names.owners.entries⟩⟩, ?_, rfl, ?_⟩
    · unfold giveInput give NameOwners.assign
      rw [howner]
      dsimp only
      rw [hput]
    · show inputName target path :: names.owners.entries.map Prod.fst = _
      rw [hkeys, List.map_append, List.reverse_append]
      rfl
  rcases foldlM_put (fun _ => False) hfree hne (rfl : Names.empty.tree = .empty)
      (rfl : motive [] Names.empty) hstep with ⟨names, hnames, -⟩ | ⟨_, hfalse, -⟩
  · exact ⟨names, hnames⟩
  · exact hfalse.elim

/-- **Types can be stored**, for paths that do not lead through one another. -/
theorem InputTypes.exists_ofPaths {schema : Schema} {limit : Nat} {paths : List Path}
    (hfree : PrefixFree (· ∈ paths)) (hne : ∀ path ∈ paths, path ≠ [])
    (htyped : ∀ path ∈ paths, ∃ token, typeOf schema limit path = .ok token) :
    ∃ types, InputTypes.ofPaths schema limit paths = .ok types := by
  have hstep : ∀ done path rest (types : InputTypes), paths = done ++ path :: rest → True →
      (∃ e, False ∧ add schema limit types path = .error e) ∨
        ∃ value, ∀ next, types.put path value = .ok next →
          ∃ types', add schema limit types path = .ok types' ∧ types' = next ∧ True := by
    intro done path rest types heq _
    obtain ⟨token, htoken⟩ := htyped path (heq ▸ List.mem_append_right _ List.mem_cons_self)
    refine .inr ⟨token, fun next hput => ⟨next, ?_, rfl, trivial⟩⟩
    exact bind_eq_ok.mpr ⟨token, htoken, mapError_eq_ok.mpr hput⟩
  rcases foldlM_put (motive := fun _ _ => True) (fun _ => False) hfree hne
      (rfl : id Tree.empty = Tree.empty) trivial hstep with ⟨types, htypes, -⟩ | ⟨_, hfalse, -⟩
  · exact ⟨types, htypes⟩
  · exact hfalse.elim

/-! ### The names at private paths -/

namespace Names

/-- `part` has the names that `whole` gives to paths that are not public, and no others. -/
structure PrivatePart (whole part : Names) : Prop where
  faithful : whole.Faithful
  faithful_part : part.Faithful
  get? : ∀ path, part.get? path = if path.isPublic then none else whole.get? path

variable {whole part : Names}

theorem PrivatePart.get?_of_some (h : whole.PrivatePart part) {path : Path} {name : String}
    (hg : part.get? path = some name) : whole.get? path = some name := by
  rw [h.get?] at hg
  split at hg
  · cases hg
  · exact hg

theorem PrivatePart.contains_eq (h : whole.PrivatePart part) {path : Path}
    (hp : path.isPublic = false) : whole.contains path = part.contains path := by
  rw [contains, contains, h.get?, hp]
  rfl

theorem PrivatePart.free (h : whole.PrivatePart part) {out : String} (hfree : whole.Free out) :
    part.Free out :=
  ⟨hfree.1, fun path name hg => hfree.2 path name (h.get?_of_some hg)⟩

/-- **A result that gets a name gets it among the private names**, too: it is no public path. -/
theorem PrivatePart.giveOutput (h : whole.PrivatePart part) {next : Names} {out : String}
    (hgive : whole.giveOutput out = (next, .ok ())) :
    ∃ other, part.giveOutput out = (other, .ok ()) ∧ next.PrivatePart other := by
  have hfree : whole.Free out := by
    by_contra hnot
    rw [h.faithful.giveOutput_of_not_free hnot] at hgive
    cases hgive
  obtain ⟨found, hfound, hfaithful, -⟩ := h.faithful.exists_giveOutput hfree
  rw [hgive] at hfound
  cases hfound
  obtain ⟨other, hother, hpart, -⟩ := h.faithful_part.exists_giveOutput (h.free hfree)
  have hprivate : Path.isPublic [out] = false := by
    have hne : out ≠ Path.publicRegion := by
      rintro rfl
      exact hfree.1 (by decide)
    simpa [Path.isPublic] using hne
  refine ⟨other, hother, hfaithful, hpart, fun path => ?_⟩
  rw [get?_give (giveOutput_eq_ok hother).2.2, get?_give (giveOutput_eq_ok hgive).2.2]
  by_cases hpath : path = [out]
  · subst hpath
    rw [if_pos rfl, if_pos rfl, hprivate]
    rfl
  · rw [if_neg hpath, if_neg hpath, h.get?]

theorem privatePart_ofPaths {paths : List Path}
    (hpaths : ∀ path ∈ paths, Schema.IsVariablePath path)
    (hwhole : ofPaths .zkProgram paths = .ok whole)
    (hpart : ofPaths .smartContract (CallInput.privatePaths paths) = .ok part) :
    whole.PrivatePart part := by
  obtain ⟨-, hget⟩ := of_ofPaths hpaths hwhole
  have hprivate : ∀ path ∈ CallInput.privatePaths paths, Schema.IsVariablePath path :=
    fun path hm => hpaths path (CallInput.mem_privatePaths.mp hm).1
  obtain ⟨-, hget'⟩ := of_ofPaths hprivate hpart
  refine ⟨faithful_of_ofPaths hwhole, faithful_of_ofPaths hpart, fun path => ?_⟩
  apply Option.ext
  intro name
  rw [hget', CallInput.mem_privatePaths]
  cases hp : path.isPublic with
  | true => simp
  | false =>
    rw [inputName_of_private hp]
    simp [hget, inputName_of_private hp]

end Names

/-! ### Statements and outlines -/

/-- **Commands that avoid public paths become the same statements** under the private names. -/
theorem statementsOf_privatePart {converter : Converter} {maxDepth : Nat} {whole part final : Names}
    {commands : List Command} {statements : List Statement} (h : whole.PrivatePart part)
    (havoids : ∀ command ∈ commands, command.AvoidsPublic)
    (hrun : statementsOf converter maxDepth commands whole = (final, .ok statements)) :
    ∃ other, statementsOf converter maxDepth commands part = (other, .ok statements) ∧
      final.PrivatePart other := by
  induction commands generalizing whole part statements with
  | nil =>
    cases hrun
    exact ⟨part, rfl, h⟩
  | cons command rest ih =>
    obtain ⟨expr, next, others, hexpr, hnext, hrest, rfl⟩ := statementsOf_cons hrun
    have hcommand := havoids command List.mem_cons_self
    rw [Operation.expr_congr command.operation fun depth inner hnested path hm =>
      h.contains_eq (hcommand depth inner hnested path hm)] at hexpr
    obtain ⟨next', hnext', hkept⟩ : ∃ next', (command.out = none ∧ next' = part ∨
        ∃ out, command.out = some out ∧ part.giveOutput out = (next', .ok ())) ∧
        next.PrivatePart next' := by
      rcases hnext with ⟨hout, rfl⟩ | ⟨out, hout, hgive⟩
      · exact ⟨part, .inl ⟨hout, rfl⟩, h⟩
      · obtain ⟨other, hother, hkept⟩ := h.giveOutput hgive
        exact ⟨other, .inr ⟨out, hout, hother⟩, hkept⟩
    obtain ⟨other, hother, hfinal⟩ :=
      ih hkept (fun command hm => havoids command (List.mem_cons_of_mem _ hm)) hrest
    refine ⟨other, ?_, hfinal⟩
    rw [statementsOf_of_expr hexpr hnext', hother]
    rfl

section

variable {converter : Converter} {config : Config} {program : Program} {whole part : Outline}

/-- **Where a program can be assembled, so can the smart contract**, from the private leaves and to
the same statements. -/
theorem Outline.exists_smartContract (hp : program.WellFormed)
    (havoids : ∀ command ∈ program.commands, command.AvoidsPublic)
    (h : Outline.ofProgram converter config { program with target := .zkProgram } = .ok whole) :
    ∃ part : Outline,
      Outline.ofProgram converter config { program with target := .smartContract } = .ok part ∧
      part.statements = whole.statements ∧ whole.names.PrivatePart part.names := by
  obtain ⟨hmethod, hpaths, names, hnames, htypes, hstatements⟩ := Outline.ofProgram_eq_ok.mp h
  rw [hpaths, Schema.inputPaths_zkProgram] at hnames htypes
  have hsub : ∀ path ∈ CallInput.privatePaths program.schema.leafPaths,
      path ∈ program.schema.leafPaths := fun path hm => (CallInput.mem_privatePaths.mp hm).1
  have hfree : PrefixFree (· ∈ CallInput.privatePaths program.schema.leafPaths) := by
    intro p q hpm hqm
    exact Tree.prefixFree_leafPaths program.schema p q (hsub p hpm) (hsub q hqm)
  have hne : ∀ path ∈ CallInput.privatePaths program.schema.leafPaths, path ≠ [] :=
    fun path hm => hp.schema.ne_nil (hsub path hm)
  -- The private leaves have the same names on both targets, so their names are different.
  have hnodup : ((CallInput.privatePaths program.schema.leafPaths).map
      (Names.inputName .smartContract)).Nodup := by
    have hsame : (CallInput.privatePaths program.schema.leafPaths).map
        (Names.inputName .smartContract)
        = (CallInput.privatePaths program.schema.leafPaths).map (Names.inputName .zkProgram) := by
      refine List.map_congr_left fun path hm => ?_
      have hprivate := (CallInput.mem_privatePaths.mp hm).2
      rw [Names.inputName_of_private hprivate, Names.inputName_of_private hprivate]
    rw [hsame]
    exact (Names.nodup_of_ofPaths hnames).sublist (List.filter_sublist.map _)
  obtain ⟨names', hnames'⟩ := Names.exists_ofPaths hfree hne hnodup
  obtain ⟨types, htypes'⟩ := InputTypes.exists_ofPaths hfree hne fun path hm =>
    (InputTypes.of_ofPaths htypes).1 path (hsub path hm)
  have hstart : names.PrivatePart names' := by
    refine Names.privatePart_ofPaths (fun path hm => ?_) hnames hnames'
    obtain ⟨found, hfound⟩ := Tree.mem_leafPaths.mp hm
    exact hp.schema.path path found hfound
  obtain ⟨final, hfinal, hkept⟩ := statementsOf_privatePart hstart havoids hstatements
  let part : Outline :=
    ⟨CallInput.privatePaths program.schema.leafPaths, final, types, whole.statements⟩
  refine ⟨part, ?_, rfl, hkept⟩
  exact Outline.ofProgram_eq_ok.mpr ⟨hmethod, (Schema.inputPaths_smartContract _).symm, names',
    hnames', htypes', hfinal⟩

theorem Outline.Assembled.exists_token {outline : Outline} (h : outline.Assembled config program) :
    ∃ token : Path → SourceType, ∀ path ∈ outline.paths,
      InputTypes.typeOf program.schema config.maxReferenceDepth path = .ok (token path) := by
  refine ⟨fun path => (outline.types.getLeaf? path).getD .field, fun path hm => ?_⟩
  obtain ⟨token, htoken⟩ := h.typed path hm
  dsimp only
  rw [(h.types path token).mpr ⟨hm, htoken⟩, htoken]
  rfl

theorem Names.PrivatePart.render_eq (h : whole.names.PrivatePart part.names)
    {statement : Statement} (hsafe : statement.Safe part.names.Declares) :
    statement.render whole.spelling.name = statement.render part.spelling.name := by
  refine hsafe.render_congr fun path hpath => ?_
  obtain ⟨name, hname⟩ := hpath
  rw [Outline.spelling_name hname, Outline.spelling_name (h.get?_of_some hname)]

end

namespace Compiler

/-- **A call of the smart contract has the private values of a call of the program.** -/
theorem input_smartContract {compiler : Compiler} {schema : Schema} (hs : schema.WellFormed)
    {setup : Json} {input : CallInput} (h : compiler.input .zkProgram schema setup = .ok input) :
    compiler.input .smartContract schema setup = .ok ⟨input.privateInput, none⟩ := by
  obtain ⟨tree, values, htree, hvalues, hinput⟩ := input_eq_ok h
  have hleaves := InputValues.exists_of_ofSetup hs hvalues
  obtain ⟨⟨privates, publics⟩, hother, hprivates, rfl⟩ :=
    CallInput.exists_ofValues_smartContract hleaves
  obtain ⟨parts, hparts, hprivate, -⟩ := CallInput.ofValues_eq_ok hinput
  have hsame : privates = input.privateInput := by
    refine (List.map_inj_right fun _ _ => Option.some.inj).mp (hprivates.trans ?_)
    rw [hprivate, hparts.map_privateValues]
  rw [hsame] at hother
  exact bind_eq_ok.mpr ⟨tree, htree, bind_eq_ok.mpr ⟨values, hvalues, hother⟩⟩

/-- **The two targets agree on everything private.**  Take a program that was read, none of whose
commands refers to a public path.  If it has a source as a program with a public input, it has one
as a smart contract.  Both are the layouts of assembled programs with the same statements, and after
the names are filled in these have the same texts; the names and types of the private inputs that
the one declares are those of the parameters that the other declares, in the same order.  And if a
setup gives an input for the first, it gives the same private input for the second, without a public
input. -/
theorem smartContract_of_zkProgram {document : Json} {program : Program}
    (hprogram : Program.ofJson document = .ok program)
    (havoids : ∀ command ∈ program.commands, command.AvoidsPublic) (compiler : Compiler) :
    (∀ text, compiler.translate { program with target := .zkProgram } = .ok text →
      ∃ (contract : String) (whole part : Outline) (token : Path → SourceType),
        compiler.translate { program with target := .smartContract } = .ok contract ∧
        text = Layout.zkProgram whole.spelling compiler.config.methodName whole.paths
          whole.statements ∧
        contract = Layout.smartContract part.spelling compiler.config.methodName part.paths
          part.statements ∧
        Outline.ofProgram compiler.converter compiler.config { program with target := .zkProgram }
          = .ok whole ∧
        Outline.ofProgram compiler.converter compiler.config
          { program with target := .smartContract } = .ok part ∧
        part.statements = whole.statements ∧
        part.statements.map (Statement.render part.spelling.name)
          = whole.statements.map (Statement.render whole.spelling.name) ∧
        Layout.declaredNames text = (CallInput.privatePaths program.schema.leafPaths).map
          (fun path => "        " ++ path.identifier ++ ",") ∧
        Layout.declaredTypes text = (CallInput.privatePaths program.schema.leafPaths).map
          (fun path => "        " ++ (token path).name ++ ",") ∧
        Layout.declaredParameters compiler.config.methodName contract
          = (CallInput.privatePaths program.schema.leafPaths).map
            (fun path => "    " ++ path.identifier ++ ": " ++ (token path).name ++ ",")) ∧
    ∀ setup input,
      compiler.inputOfProgram { program with target := .zkProgram } setup = .ok input →
      compiler.inputOfProgram { program with target := .smartContract } setup
        = .ok ⟨input.privateInput, none⟩ := by
  have hp := Program.wellFormed_ofJson hprogram
  refine ⟨fun text htext => ?_, fun setup input h => input_smartContract hp.schema h⟩
  have hzk : Program.WellFormed { program with target := .zkProgram } := ⟨hp.schema, hp.outputs⟩
  have hcontract : Program.WellFormed { program with target := .smartContract } :=
    ⟨hp.schema, hp.outputs⟩
  obtain ⟨whole, hwhole, -⟩ := bind_eq_ok.mp htext
  obtain ⟨part, hpart, hstatements, hnames⟩ := Outline.exists_smartContract hp havoids hwhole
  have hassembled := Outline.of_ofProgram hzk hwhole
  have hassembled' := Outline.of_ofProgram hcontract hpart
  have hsource := Program.source_of_assembled hwhole hassembled
  have htext : text = _ := Except.ok.inj (htext.symm.trans hsource)
  -- One type for every input serves both targets, whose types come from the same references.
  obtain ⟨token, htoken⟩ := hassembled.exists_token
  have hpaths : ∀ path ∈ part.paths, path ∈ whole.paths := by
    intro path hm
    rw [hassembled.paths, Schema.inputPaths_zkProgram]
    exact (Schema.mem_inputPaths (hassembled'.paths ▸ hm)).1
  obtain ⟨htypes, hdeclared, -⟩ := hassembled.declared_zkProgram htoken rfl whole.statements
  have hparameters := hassembled'.declared_smartContract
    (fun path hm => htoken path (hpaths path hm)) rfl part.statements
  refine ⟨_, whole, part, token, Program.source_of_assembled hpart hassembled', htext, rfl, hwhole,
    hpart, hstatements, ?_, htext ▸ hdeclared, htext ▸ htypes, hparameters⟩
  rw [← hstatements]
  refine List.map_congr_left fun statement hm => ?_
  exact (hnames.render_eq (hassembled'.statements statement hm)).symm

/-- The assertion, one level down, that the two private values of the badge are equal. -/
def matchDocument : Json :=
  let reference (key : String) : Json :=
    .object [("type", .string "reference"), ("path", .array [.string "private", .string key])]
  .object [
    ("target", .string "o1js:zk-program"), ("inputSchema", badgeSchema),
    ("commands", .array [.object [("assert", .object [("in", .array [.object [
      ("type", .string "function"),
      ("equal", .object [("in", .array [reference "age", reference "pin"])])]])])]])]

def matchCommand : Command :=
  ⟨.assert (.function (.binary .equal (.reference ["private", "age"])
    (.reference ["private", "pin"])) none), none⟩

def matchProgram : Program :=
  ⟨.zkProgram, badge, [matchCommand], []⟩

theorem matchCommand_avoidsPublic : matchCommand.AvoidsPublic := by
  refine Operation.forall_nested_iff.mpr ⟨fun path hm => ?_, fun middle out hm => ?_⟩
  · simp [matchCommand, Operation.operands] at hm
  · simp only [matchCommand, Operation.operands, List.mem_singleton, Variable.function.injEq] at hm
    obtain ⟨rfl, -⟩ := hm
    refine Operation.forall_nested_iff.mpr ⟨fun path hm => ?_, fun middle out hm => ?_⟩
    · simp only [Operation.operands, List.mem_cons, Variable.reference.injEq, List.not_mem_nil,
        or_false] at hm
      rcases hm with rfl | rfl
      · decide
      · decide
    · simp [Operation.operands] at hm

/-- The contract of the badge has its private parameters, and its call the private values. -/
theorem smartContract_of_zkProgram_match :
    Program.ofJson matchDocument = .ok matchProgram ∧
      (∀ command ∈ matchProgram.commands, command.AvoidsPublic) ∧
      (∃ text contract,
        Compiler.translate {} { matchProgram with target := .zkProgram } = .ok text ∧
        Compiler.translate {} { matchProgram with target := .smartContract } = .ok contract ∧
        Layout.declaredNames text = ["        private_age,", "        private_pin,"] ∧
        (Layout.declaredParameters "execute" contract).length = 2) ∧
      Compiler.inputOfProgram {} { matchProgram with target := .zkProgram } (badgeSetup 1)
        = .ok (badgeInput 1) ∧
      Compiler.inputOfProgram {} { matchProgram with target := .smartContract } (badgeSetup 1)
        = .ok ⟨(badgeInput 1).privateInput, none⟩ := by
  have hprogram : Program.ofJson matchDocument = .ok matchProgram := rfl
  have havoids : ∀ command ∈ matchProgram.commands, command.AvoidsPublic := by
    intro command hm
    rw [List.mem_singleton.mp hm]
    exact matchCommand_avoidsPublic
  obtain ⟨outline, houtline⟩ := isOk_iff.mp (show (Outline.ofProgram Value.ofChain {}
    matchProgram).isOk = true by decide +kernel)
  have htext : Compiler.translate {} matchProgram = _ := Program.source_of_assembled houtline
    (Outline.of_ofProgram (Program.wellFormed_ofJson hprogram) houtline)
  have hinput : Compiler.inputOfProgram {} { matchProgram with target := .zkProgram } (badgeSetup 1)
      = .ok (badgeInput 1) := toOption_eq_some.mp (by decide +kernel)
  have hleaves : CallInput.privatePaths matchProgram.schema.leafPaths
      = [["private", "age"], ["private", "pin"]] := by decide +kernel
  obtain ⟨hsources, hinputs⟩ := smartContract_of_zkProgram hprogram havoids {}
  obtain ⟨contract, whole, part, token, hcontract, -, -, -, -, -, -, hnames, -, hparameters⟩ :=
    hsources _ htext
  refine ⟨hprogram, havoids, ⟨_, contract, htext, hcontract, ?_, ?_⟩, hinput,
    hinputs _ _ hinput⟩
  · rw [hnames, hleaves]
    decide +kernel
  · rw [show Layout.declaredParameters "execute" contract = _ from hparameters, List.length_map,
      hleaves]
    rfl

end Compiler

end Circuitry
