import Circuitry.Proofs.Ownership
import Circuitry.Proofs.Regular
import Circuitry.Proofs.Shortening
import Mathlib.Data.Fintype.Card

/-!
# Limits only cut off

Two limits keep a compiler from running on: the number of hops in a chain of references, and the
depth of an operation.  Both are counters that are compared and never used otherwise, so what is
found below a limit is found below every higher one: the end of a chain, the type of an input, the
values of a setup, an expression.  The source and the input are put together from these
(`Config.Relaxed`).

The limit on references is there for cycles.  A chain that is longer than there are references comes
to one of them twice (`Schema.Hops.runsIntoCycle`), and what comes back once comes back for ever.
So if the limit is at least the number of references, then a chain is too long exactly if it runs
into a cycle (`Schema.dereference_tooLong_iff`).
-/

namespace Circuitry

open Fallible

/-- A configuration with the same method whose limits are not lower. -/
structure Config.Relaxed (config wider : Config) : Prop where
  method : wider.methodName = config.methodName
  reference : config.maxReferenceDepth ≤ wider.maxReferenceDepth
  expression : config.maxExpressionDepth ≤ wider.maxExpressionDepth

/-! ### References under a higher limit -/

section

variable {schema : Schema} {limit higher : Nat}

theorem Schema.dereference_mono (hs : schema.WellFormed) (hle : limit ≤ higher) {path : Path}
    {last : Path × Variable} (h : schema.dereference path limit = .ok last) :
    schema.dereference path higher = .ok last := by
  obtain ⟨n, hn, hends⟩ := (dereference_eq_ok hs).mp h
  exact (dereference_eq_ok hs).mpr ⟨n, Nat.le_trans hn hle, hends⟩

theorem InputTypes.ofPaths_mono (hs : schema.WellFormed) (hle : limit ≤ higher)
    {paths : List Path} {types : InputTypes} (h : ofPaths schema limit paths = .ok types) :
    ofPaths schema higher paths = .ok types := by
  refine foldlM_mono h fun path _ state next hadd => ?_
  obtain ⟨token, htoken, hput⟩ := bind_eq_ok.mp hadd
  obtain ⟨last, hlast, htype⟩ := bind_eq_ok.mp htoken
  exact bind_eq_ok.mpr ⟨token, bind_eq_ok.mpr ⟨last, Schema.dereference_mono hs hle hlast, htype⟩,
    hput⟩

theorem InputValues.ofSetup_mono (hs : schema.WellFormed) (hle : limit ≤ higher)
    {converter : Converter} {setup : Tree Json} {values : InputValues}
    (h : ofSetup converter limit schema setup = .ok values) :
    ofSetup converter higher schema setup = .ok values := by
  obtain ⟨own, hown, hcopied⟩ := bind_eq_ok.mp h
  refine bind_eq_ok.mpr ⟨own, hown, foldlM_mono hcopied fun path _ state next hadd => ?_⟩
  obtain ⟨last, hlast, hstored⟩ := bind_eq_ok.mp hadd
  exact bind_eq_ok.mpr ⟨last, Schema.dereference_mono hs hle hlast, hstored⟩

end

/-! ### Expressions under a higher limit -/

section

variable {converter : Converter} {limit higher : Nat}

/-- **An expression stays the same.**  The induction is along the nesting: an operand that is an
operation stands one level deeper under both limits. -/
theorem Operation.expr_mono {names : Names} (hle : limit ≤ higher) {operation : Operation}
    {depth : Nat} {expr : Expr}
    (h : operation.expr ⟨converter, limit, names⟩ depth = .ok expr) :
    operation.expr ⟨converter, higher, names⟩ depth = .ok expr := by
  induction operation using Operation.ind generalizing depth expr with
  | step operation ih =>
    obtain ⟨hdepth, exprs, hoperands, hassembled⟩ := expr_eq_ok.mp h
    have hkept : ∀ operand ∈ operation.operands, ∀ found,
        operand.expr ⟨converter, limit, names⟩ depth operation.operator = .ok found →
        operand.expr ⟨converter, higher, names⟩ depth operation.operator = .ok found := by
      intro operand hmem found hfound
      cases operand with
      | function inner out =>
        cases out with
        | none =>
          rw [Variable.expr] at hfound ⊢
          exact ih inner none hmem hfound
        | some out => exact hfound
      | static value chain => exact hfound
      | setup chain => exact hfound
      | constant name => exact hfound
      | reference path => exact hfound
    refine expr_eq_ok.mpr ⟨Nat.le_trans hdepth hle, exprs, ?_, hassembled⟩
    exact ((List.forall₂_and_left _ _).mpr ⟨hkept, hoperands⟩).imp fun _ _ both => both.1 _ both.2

/-- **Statements stay the same**, and so do the names they lead to. -/
theorem statementsOf_mono (hle : limit ≤ higher) {commands : List Command} {names final : Names}
    {statements : List Statement}
    (h : statementsOf converter limit commands names = (final, .ok statements)) :
    statementsOf converter higher commands names = (final, .ok statements) := by
  induction commands generalizing names statements with
  | nil => exact h
  | cons command rest ih =>
    obtain ⟨expr, next, others, hexpr, hnext, hrest, rfl⟩ := statementsOf_cons h
    rw [statementsOf_of_expr (Operation.expr_mono hle hexpr) hnext rest, ih hrest]
    rfl

end

/-! ### Programs under relaxed limits -/

namespace Config.Relaxed

variable {config wider : Config} {converter : Converter} {program : Program}

theorem ofProgram (h : config.Relaxed wider) (hp : program.WellFormed) {outline : Outline}
    (ho : Outline.ofProgram converter config program = .ok outline) :
    Outline.ofProgram converter wider program = .ok outline := by
  obtain ⟨hmethod, hpaths, names, hnames, htypes, hstatements⟩ := Outline.ofProgram_eq_ok.mp ho
  refine Outline.ofProgram_eq_ok.mpr ⟨h.method ▸ hmethod, hpaths, names, hnames, ?_, ?_⟩
  · exact InputTypes.ofPaths_mono hp.schema h.reference htypes
  · exact statementsOf_mono h.expression hstatements

theorem translate (h : config.Relaxed wider) (hp : program.WellFormed) {text : String}
    (ht : Compiler.translate ⟨converter, config⟩ program = .ok text) :
    Compiler.translate ⟨converter, wider⟩ program = .ok text := by
  obtain ⟨outline, houtline, hsource⟩ := bind_eq_ok.mp ht
  refine bind_eq_ok.mpr ⟨outline, h.ofProgram hp houtline, ?_⟩
  rw [h.method]
  exact hsource

theorem inputOfProgram (h : config.Relaxed wider) (hp : program.WellFormed) {setup : Json}
    {input : CallInput}
    (hi : Compiler.inputOfProgram ⟨converter, config⟩ program setup = .ok input) :
    Compiler.inputOfProgram ⟨converter, wider⟩ program setup = .ok input := by
  obtain ⟨tree, htree, hvalues⟩ := bind_eq_ok.mp hi
  obtain ⟨values, hvalues, hinput⟩ := bind_eq_ok.mp hvalues
  refine bind_eq_ok.mpr ⟨tree, htree, bind_eq_ok.mpr ⟨values, ?_, hinput⟩⟩
  exact InputValues.ofSetup_mono hp.schema h.reference hvalues

end Config.Relaxed

/-! ### Chains that are too long -/

namespace Schema

variable {schema : Schema}

/-- The references from a path lead to a path from which they lead back to it. -/
def RunsIntoCycle (schema : Schema) (path : Path) : Prop :=
  ∃ m n last, schema.Hops m path last ∧ schema.Hops (n + 1) last last

namespace Hops

theorem trans {m n : Nat} {path middle last : Path} (h : schema.Hops m path middle)
    (h' : schema.Hops n middle last) : schema.Hops (n + m) path last := by
  induction h with
  | here path => exact h'
  | hop hg _ ih => exact .hop hg (ih h')

theorem exists_middle {m n : Nat} {path last : Path} (h : schema.Hops (n + m) path last) :
    ∃ middle, schema.Hops m path middle ∧ schema.Hops n middle last := by
  induction m generalizing path with
  | zero => exact ⟨path, .here path, h⟩
  | succ m ih =>
    cases h with
    | hop hg hrest =>
      obtain ⟨middle, hfirst, hsecond⟩ := ih hrest
      exact ⟨middle, .hop hg hfirst, hsecond⟩

/-- **The references from a path lead one way**: the longer of two chains passes through the end of
the shorter. -/
theorem rest {m n : Nat} {path middle last : Path} (h : schema.Hops m path middle)
    (h' : schema.Hops (n + m) path last) : schema.Hops n middle last := by
  induction h with
  | here path => exact h'
  | hop hg _ ih =>
    cases h' with
    | hop hg' hrest =>
      rw [hg] at hg'
      cases hg'
      exact ih hrest

/-- **A chain that is longer than there are references runs into a cycle.**  Every hop starts at a
reference, so two of them start at the same one. -/
theorem runsIntoCycle {n : Nat} {path last : Path} (h : schema.Hops n path last)
    (hlong : (InputValues.referencePaths schema).length < n) : schema.RunsIntoCycle path := by
  have hpassed : ∀ i : Fin n, ∃ middle, schema.Hops i path middle ∧
      middle ∈ (InputValues.referencePaths schema).toFinset := by
    intro i
    obtain ⟨k, hk⟩ : ∃ k, n = (k + 1) + i := ⟨n - i - 1, by omega⟩
    obtain ⟨middle, hfirst, hsecond⟩ := exists_middle (hk ▸ h)
    exact ⟨middle, hfirst, List.mem_toFinset.mpr
      (InputValues.mem_referencePaths.mpr hsecond.exists_reference)⟩
  choose passed hhops hmem using hpassed
  have hcard : (InputValues.referencePaths schema).toFinset.card
      < (Finset.univ : Finset (Fin n)).card := by
    rw [Finset.card_univ, Fintype.card_fin]
    exact Nat.lt_of_le_of_lt (List.toFinset_card_le _) hlong
  obtain ⟨i, -, j, -, hne, heq⟩ :=
    Finset.exists_ne_map_eq_of_card_lt_of_maps_to hcard fun i _ => hmem i
  -- Between the two equal places lies the cycle; the earlier of the two leads to it.
  have hcycle : ∀ i j : Fin n, i < j → passed i = passed j → schema.RunsIntoCycle path := by
    intro i j hlt heq
    obtain ⟨k, hk⟩ : ∃ k, (j : Nat) = (k + 1) + i := ⟨j - i - 1, by omega⟩
    refine ⟨i, k, passed i, hhops i, ?_⟩
    have hback := (hhops i).rest (hk ▸ hhops j)
    rwa [← heq] at hback
  rcases Nat.lt_or_gt_of_ne (Fin.val_ne_of_ne hne) with hlt | hlt
  · exact hcycle i j hlt heq
  · exact hcycle j i hlt heq.symm

end Hops

theorem RunsIntoCycle.exists_hops {path : Path} (h : schema.RunsIntoCycle path) (n : Nat) :
    ∃ last, schema.Hops n path last := by
  obtain ⟨m, k, last, hlast, hcycle⟩ := h
  have hround : ∀ rounds, schema.Hops (rounds * (k + 1)) last last := by
    intro rounds
    induction rounds with
    | zero =>
      rw [Nat.zero_mul]
      exact .here last
    | succ rounds ih =>
      rw [Nat.succ_mul, Nat.add_comm]
      exact ih.trans hcycle
  have hlong := hlast.trans (hround n)
  obtain ⟨extra, hextra⟩ : ∃ extra, n * (k + 1) + m = extra + n :=
    ⟨n * k + m, by rw [Nat.mul_succ]; omega⟩
  obtain ⟨middle, hmiddle, -⟩ := Hops.exists_middle (hextra ▸ hlong)
  exact ⟨middle, hmiddle⟩

theorem exists_hops_succ {n : Nat} {path : Path} :
    (∃ last, schema.Hops (n + 1) path last) ↔ ∃ next,
      schema.getLeaf? path = some (.reference next) ∧ ∃ last, schema.Hops n next last := by
  constructor
  · rintro ⟨last, h⟩
    cases h with
    | hop hg hrest => exact ⟨_, hg, last, hrest⟩
  · rintro ⟨next, hg, last, hrest⟩
    exact ⟨last, .hop hg hrest⟩

theorem dereferenceFrom_tooLong_iff {start path first : Path} {limit bound hops : Nat} :
    schema.dereferenceFrom start limit hops path = .error (.referenceTooLong first bound) ↔
      first = start ∧ bound = limit ∧ ∃ last, schema.Hops (hops + 1) path last := by
  induction hops generalizing path with
  | zero =>
    unfold dereferenceFrom
    rw [exists_hops_succ]
    split
    · simp_all
    · simp_all
    · rename_i next hg
      simp only [hg, Except.error.injEq, CompileError.referenceTooLong.injEq, Option.some.injEq,
        Variable.reference.injEq, exists_eq_left', eq_comm (a := start), eq_comm (a := limit)]
      exact ⟨fun h => ⟨h.1, h.2, next, .here next⟩, fun h => ⟨h.1, h.2.1⟩⟩
    · simp_all
  | succ hops ih =>
    unfold dereferenceFrom
    rw [exists_hops_succ]
    split
    · simp_all
    · simp_all
    · rename_i next hg
      simp only [hg, Option.some.injEq, Variable.reference.injEq, exists_eq_left']
      exact ih
    · simp_all

/-- **With a limit of at least the number of references, a chain is too long exactly if it runs into
a cycle.** -/
theorem dereference_tooLong_iff {path start : Path} {limit bound : Nat}
    (hlimit : (InputValues.referencePaths schema).length ≤ limit) :
    schema.dereference path limit = .error (.referenceTooLong start bound) ↔
      start = path ∧ bound = limit ∧ schema.RunsIntoCycle path := by
  rw [dereference, dereferenceFrom_tooLong_iff]
  refine and_congr_right fun _ => and_congr_right fun _ => ⟨?_, fun h => h.exists_hops _⟩
  rintro ⟨last, hlast⟩
  exact hlast.runsIntoCycle (Nat.lt_succ_of_le hlimit)

end Schema

/-! ### Which references are reported -/

/-- A failure that, if it calls a reference too long, calls one so that runs into a cycle. -/
def CompileError.BlamesCycles (schema : Schema) (e : CompileError) : Prop :=
  ∀ start bound, e = .referenceTooLong start bound → schema.RunsIntoCycle start

theorem CompileError.blamesCycles_of_isCommandFault (schema : Schema) {e : CompileError}
    (h : e.isCommandFault = true) : e.BlamesCycles schema := by
  rintro start bound rfl
  cases h

section

variable {schema : Schema} {limit : Nat}

theorem Schema.dereference_blamesCycles
    (hlimit : (InputValues.referencePaths schema).length ≤ limit) (path : Path) :
    FailsBy (·.BlamesCycles schema) (schema.dereference path limit) := by
  rintro e h start bound rfl
  obtain ⟨rfl, -, hcycle⟩ := (dereference_tooLong_iff hlimit).mp h
  exact hcycle

theorem Names.ofPaths_blamesCycles (schema : Schema) (target : Target) (paths : List Path) :
    FailsBy (·.BlamesCycles schema) (Names.ofPaths target paths) := by
  refine .foldlM fun path _ names => ?_
  unfold giveInput
  obtain ⟨owner, -, h⟩ | ⟨-, ⟨cause, -, h⟩ | ⟨tree, -, h⟩⟩ :=
    names.give_cases path (inputName target path)
  · rw [h]
    exact .error nofun
  · rw [h]
    exact .error nofun
  · rw [h]
    exact .ok _

theorem InputTypes.ofPaths_blamesCycles
    (hlimit : (InputValues.referencePaths schema).length ≤ limit) (paths : List Path) :
    FailsBy (·.BlamesCycles schema) (InputTypes.ofPaths schema limit paths) := by
  refine .foldlM fun path _ types => ?_
  have htype : FailsBy (·.BlamesCycles schema) (typeOf schema limit path) := by
    refine (Schema.dereference_blamesCycles hlimit path).bind fun last _ => ?_
    have hchain : FailsBy (·.BlamesCycles schema) last.2.chain := by
      cases last.2 with
      | static value chain => exact .ok chain
      | setup chain => exact .ok chain
      | constant name =>
        exact ((Constant.fault_parse name).mono fun _ =>
          CompileError.blamesCycles_of_isCommandFault schema).map
      | reference next => exact .error nofun
      | function operation out => exact .error nofun
    refine hchain.bind fun chain _ => ?_
    split
    · exact .ok _
    · exact .error nofun
  refine htype.bind fun token _ => ?_
  exact FailsBy.mapError (p := fun _ => True) (fun _ _ => trivial) fun _ _ => nofun

/-- **A program is refused for cycles only**, as far as its references are too long. -/
theorem Program.source_blamesCycles {program : Program} (hp : program.WellFormed)
    (converter : Converter) {config : Config}
    (hlimit : (InputValues.referencePaths program.schema).length ≤ config.maxReferenceDepth) :
    FailsBy (·.BlamesCycles program.schema) (program.source converter config) := by
  have houtline : FailsBy (·.BlamesCycles program.schema)
      (Outline.ofProgram converter config program) := by
    unfold Outline.ofProgram
    split
    · exact .error nofun
    · refine (Names.ofPaths_blamesCycles _ _ _).bind fun names hnames => ?_
      refine (InputTypes.ofPaths_blamesCycles hlimit _).bind fun types _ => ?_
      have hcommands :=
        fault_statementsOf hnames converter config.maxExpressionDepth program.commands
      exact (hcommands.mono fun _ => CompileError.blamesCycles_of_isCommandFault _).bind
        fun statements _ => .ok _
  intro e h
  cases hassembled : Outline.ofProgram converter config program with
  | error e' =>
    rw [Program.source, hassembled] at h
    cases h
    exact houtline e hassembled
  | ok outline =>
    rw [Program.source_of_assembled hassembled (Outline.of_ofProgram hp hassembled)] at h
    cases h

/-- **An input is refused for cycles only**, as far as references are too long. -/
theorem Compiler.input_blamesCycles {compiler : Compiler} (target : Target)
    (hs : schema.WellFormed)
    (hlimit : (InputValues.referencePaths schema).length ≤ compiler.config.maxReferenceDepth)
    (setup : Json) : FailsBy (·.BlamesCycles schema) (compiler.input target schema setup) := by
  have hsetup : FailsBy (·.BlamesCycles schema) (setupOfJson setup) := by
    intro e h
    obtain ⟨-, rfl⟩ := setupOfJson_eq_error h
    exact nofun
  refine hsetup.bind fun tree _ => FailsBy.bind (fun e h => ?_) fun values hvalues e h => ?_
  · rcases InputValues.ofSetup_eq_error hs h with ⟨path, found, -, hown⟩ | ⟨path, next, -, hderef⟩
    · rcases InputValues.ownValue_eq_error hown with
        ⟨cause, rfl⟩ | ⟨chain, -, -, rfl⟩ | ⟨name, -, -, rfl⟩
      · exact nofun
      · exact nofun
      · exact nofun
    · exact Schema.dereference_blamesCycles hlimit path e hderef
  · rcases CallInput.ofValues_cases target (InputValues.exists_of_ofSetup hs hvalues) with
      ⟨input, hinput⟩ | ⟨_, _, _, _, -, -, -, -, herror⟩
    · rw [hinput] at h
      cases h
    · rw [herror] at h
      cases h
      exact nofun

end

namespace Compiler

/-- **Limits only cut off.**  For every program that was read, every converter and every two
configurations of which the second has the same method and no lower limits: a source or an input
under the first is the source or the input under the second.  And if the first allows as many hops
as the schema has references, a reference is called too long only if it runs into a cycle, and then
always: when a source is generated, when an input is made, and when it is followed by itself. -/
theorem limits_only_cut_off {document : Json} {program : Program}
    (hprogram : Program.ofJson document = .ok program) (converter : Converter)
    {config wider : Config} (hwider : config.Relaxed wider) :
    (∀ text, translate ⟨converter, config⟩ program = .ok text →
        translate ⟨converter, wider⟩ program = .ok text) ∧
      (∀ setup input, inputOfProgram ⟨converter, config⟩ program setup = .ok input →
        inputOfProgram ⟨converter, wider⟩ program setup = .ok input) ∧
      ((InputValues.referencePaths program.schema).length ≤ config.maxReferenceDepth →
        (∀ start bound,
          translate ⟨converter, config⟩ program = .error (.referenceTooLong start bound) →
            program.schema.RunsIntoCycle start) ∧
        (∀ setup start bound, inputOfProgram ⟨converter, config⟩ program setup
            = .error (.referenceTooLong start bound) → program.schema.RunsIntoCycle start) ∧
        ∀ path, program.schema.dereference path config.maxReferenceDepth
            = .error (.referenceTooLong path config.maxReferenceDepth) ↔
          program.schema.RunsIntoCycle path) := by
  have hp := Program.wellFormed_ofJson hprogram
  refine ⟨fun text => hwider.translate hp, fun setup input => hwider.inputOfProgram hp, ?_⟩
  intro hlimit
  refine ⟨fun start bound h => ?_, fun setup start bound h => ?_, fun path => ?_⟩
  · exact Program.source_blamesCycles hp converter hlimit _ h start bound rfl
  · exact input_blamesCycles program.target hp.schema hlimit setup _ h start bound rfl
  · rw [Schema.dereference_tooLong_iff hlimit]
    simp

/-- A program whose references and whose command need two hops and two levels. -/
def nestedProgram : Json :=
  let path (key : String) : Json := .array [.string "private", .string key]
  let reference (key : String) : Json :=
    .object [("type", .string "reference"), ("path", path key)]
  let comparison : Json := .object [("type", .string "function"),
    ("equal", .object [("in", .array [reference "first", reference "age"])])]
  .object [("target", .string "o1js:zk-program"),
    ("inputSchema", .object [("private", .object [
      ("age", .object [("type", .string "setup"),
        ("transLinks", .array [.string "uint64-mina:field"])]),
      ("first", reference "second"), ("second", reference "age")])]),
    ("commands", .array [.object [("assert", .object [("in", .array [comparison])])]])]

/-- A program with two references to each other. -/
def loopProgram : Json :=
  let reference (key : String) : Json :=
    .object [("type", .string "reference"), ("path", .array [.string "private", .string key])]
  .object [("target", .string "o1js:zk-program"),
    ("inputSchema", .object [("private", .object [
      ("here", reference "there"), ("there", reference "here")])])]

def tooLong? {α : Type} : Except CompileError α → Option (Path × Nat)
  | .error (.referenceTooLong start bound) => some (start, bound)
  | _ => none

theorem tooLong?_eq_some {α : Type} {x : Except CompileError α} {start : Path} {bound : Nat}
    (h : tooLong? x = some (start, bound)) : x = .error (.referenceTooLong start bound) := by
  unfold tooLong? at h
  split at h
  · cases h
    rfl
  · cases h

/-- Two hops and two levels are enough for the first program, and higher limits change nothing.
Two hops are as many as the second program has references, and the one it is refused for runs into a
cycle. -/
theorem limits_only_cut_off_nested :
    Config.Relaxed ⟨2, 2, "execute"⟩ {} ∧
    (∃ program text input, Program.ofJson nestedProgram = .ok program ∧
      translate ⟨Value.ofChain, ⟨2, 2, "execute"⟩⟩ program = .ok text ∧
      translate {} program = .ok text ∧
      inputOfProgram ⟨Value.ofChain, ⟨2, 2, "execute"⟩⟩ program InputValues.echoSetup = .ok input ∧
      inputOfProgram {} program InputValues.echoSetup = .ok input) ∧
    ∃ program, Program.ofJson loopProgram = .ok program ∧
      (InputValues.referencePaths program.schema).length = 2 ∧
      translate ⟨Value.ofChain, ⟨2, 2, "execute"⟩⟩ program
        = .error (.referenceTooLong ["private", "here"] 2) ∧
      program.schema.RunsIntoCycle ["private", "here"] := by
  have hwider : Config.Relaxed ⟨2, 2, "execute"⟩ {} := ⟨rfl, by decide, by decide⟩
  refine ⟨hwider, ?_, ?_⟩
  · obtain ⟨program, -, text, hprogram, -, htext, hinput⟩ :=
      Outline.exists_of_decide nestedProgram ⟨2, 2, "execute"⟩ (fun program _ =>
        (inputOfProgram ⟨Value.ofChain, ⟨2, 2, "execute"⟩⟩ program InputValues.echoSetup).isOk
          = true) (by decide +kernel)
    obtain ⟨input, hinput⟩ := isOk_iff.mp hinput
    obtain ⟨hsource, hcall, -⟩ := limits_only_cut_off hprogram Value.ofChain hwider
    exact ⟨program, text, input, hprogram, htext, hsource _ htext, hinput, hcall _ input hinput⟩
  · obtain ⟨program, hprogram⟩ := isOk_iff.mp
      (show (Program.ofJson loopProgram).isOk = true by decide +kernel)
    have hcount : (Program.ofJson loopProgram).toOption.map (fun program =>
        (InputValues.referencePaths program.schema).length) = some 2 := by decide +kernel
    have hrefused : tooLong? ((Program.ofJson loopProgram).bind fun program =>
        translate ⟨Value.ofChain, ⟨2, 2, "execute"⟩⟩ program)
          = some (["private", "here"], 2) := by
      decide +kernel
    rw [hprogram] at hcount hrefused
    have hcount := Option.some.inj hcount
    have hrefused := tooLong?_eq_some hrefused
    obtain ⟨-, -, hcycles⟩ := limits_only_cut_off hprogram Value.ofChain hwider
    exact ⟨program, hprogram, hcount, hrefused, (hcycles hcount.le).1 _ _ hrefused⟩

end Compiler

end Circuitry
