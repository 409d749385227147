import Circuitry.Proofs.InputFailure
import Circuitry.Proofs.Positions
import Circuitry.Proofs.Scope
import Circuitry.Proofs.Storing

/-!
# No broken invariants

Some failures can only come from the compiler itself: a value without a place in a tree, a leaf
without a value, a variable whose chain is asked for and that has none.  The other failures are
about the documents and the configuration, and are called regular here.  Every function fails
regularly if the functions it calls do, except where such a place, value or chain is needed.  There
the reason is given by another module: the paths of a schema do not lead through one another, every
leaf of a resolved schema has a value, and references end at variables of their own.

So whatever the documents, the target and the configuration are, the failures of a compiler are
regular (`Compiler.error_regular`).
-/

namespace Circuitry

open Fallible

universe u

/-- A failure that only the compiler itself can be blamed for: it is called internal, or a tree
refuses a value. -/
def CompileError.Broken (e : CompileError) : Prop :=
  e.category = .internal ∨ ∃ cause, e = .storing cause

/-- A failure that is about the documents or the configuration. -/
def CompileError.isRegular : CompileError → Bool
  | .storing _ | .noValue _ | .noChain _ => false
  | _ => true

theorem CompileError.isRegular_iff {e : CompileError} : e.isRegular = true ↔ ¬ e.Broken := by
  cases e <;> simp [isRegular, Broken, category]

theorem CompileError.isRegular_located (path : Path) {e : CompileError}
    (h : e.isRegular = true) : (e.located path).isRegular = true := by
  cases e with
  | parse fault => rfl
  | _ => exact h

abbrev FailsRegularly {α : Type u} (x : Except CompileError α) : Prop :=
  FailsBy (fun e => e.isRegular = true) x

def CompileError.isCommandFault : CompileError → Bool
  | .conversionFailed (.literal _) _ | .unsupportedType _ none | .invalidLiteral _
  | .unknownConstant _ | .undeclaredReference _ | .invalidOperand _ _ | .unsupportedTransform _
  | .tooDeep _ | .duplicateOutput _ => true
  | _ => false

theorem CompileError.isRegular_of_isCommandFault {e : CompileError} (h : e.isCommandFault = true) :
    e.isRegular = true := by
  cases e with
  | storing cause => cases h
  | noValue path => cases h
  | noChain kind => cases h
  | _ => rfl

abbrev FailsInCommand {α : Type u} (x : Except CompileError α) : Prop :=
  FailsBy (fun e => e.isCommandFault = true) x

/-! ### Reading commands and variables -/

def Body.Regular (body : Body) : Prop :=
  ∀ inputs, body.inputs = some inputs → ∀ input ∈ inputs, FailsRegularly input.result

namespace Operation

theorem regular_operand (operator : Operator) (index : Nat) {input : Reading}
    (h : FailsRegularly input.result) : FailsRegularly (operand operator index input) := by
  unfold operand
  split
  · exact h
  · exact .error rfl

theorem regular_tag (operator : Operator) (index : Nat) (input : Reading) :
    FailsRegularly (tag operator index input) := by
  unfold tag
  split
  · exact .ok _
  · exact .error rfl

theorem regular_ofInputs (operator : Operator) {inputs : List Reading}
    (h : ∀ input ∈ inputs, FailsRegularly input.result) :
    FailsRegularly (ofInputs operator inputs) := by
  have hoperand {input : Reading} (index : Nat) (hm : input ∈ inputs) :=
    regular_operand operator index (h input hm)
  unfold ofInputs
  split
  · refine (hoperand 0 (by simp)).bind fun left _ => ?_
    exact (hoperand 1 (by simp)).bind fun right _ => .ok _
  · exact (hoperand 0 (by simp)).bind fun value _ => .ok _
  · exact (hoperand 0 (by simp)).bind fun value _ => .ok _
  · exact (hoperand 0 (by simp)).bind fun value _ => .ok _
  · refine (hoperand 0 (by simp)).bind fun condition _ => ?_
    refine (hoperand 1 (by simp)).bind fun whenTrue _ => ?_
    exact (hoperand 2 (by simp)).bind fun whenFalse _ => .ok _
  · refine (regular_tag _ 1 _).bind fun text _ => ?_
    have hlink : FailsRegularly ((Link.parse text).mapError CompileError.conversion) :=
      FailsBy.mapError (p := fun _ => True) (fun _ _ => trivial) fun _ _ => rfl
    refine hlink.bind fun link _ => ?_
    exact (hoperand 0 (by simp)).bind fun value _ => .ok _
  · refine (regular_tag _ 0 _).bind fun algorithm _ => ?_
    refine (hoperand 1 (by simp)).bind fun signature _ => ?_
    refine (hoperand 2 (by simp)).bind fun message _ => ?_
    exact (hoperand 3 (by simp)).bind fun publicKey _ => .ok _
  · refine FailsBy.bind (.mapM fun entry hm => ?_) fun operands _ => ?_
    · have hentry := List.fst_mem_of_mem_zipIdx hm
      exact hoperand entry.2 (List.mem_cons_of_mem _ hentry)
    · exact (regular_tag _ 0 _).bind fun algorithm _ => .ok _
  · exact .error rfl

end Operation

namespace Command

theorem regular_outputName (operator : Operator) (json : Option Json) :
    FailsRegularly (outputName operator json) := by
  unfold outputName
  split
  · exact .ok _
  · exact .ok _
  · split
    · exact .error rfl
    · split
      · exact .error rfl
      · exact .ok _
  · exact .error rfl

theorem regular_operatorOf (key : String) : FailsRegularly (operatorOf key) := by
  unfold operatorOf
  split
  · exact .ok _
  · exact .error rfl

theorem regular_ofBody (operator : Operator) {body : Body} (h : body.Regular) :
    FailsRegularly (ofBody operator body) := by
  unfold ofBody
  split
  · split
    · rename_i inputs hinputs
      refine (Operation.regular_ofInputs operator (h inputs hinputs)).bind fun operation _ => ?_
      exact (regular_outputName operator _).bind fun out _ => .ok _
    · exact .error rfl
  · exact .error rfl

theorem regular_ofBodies {bodies : List (String × Body)} (h : ∀ entry ∈ bodies, entry.2.Regular) :
    FailsRegularly (ofBodies bodies) := by
  unfold ofBodies
  refine FailsBy.bind (.mapM fun entry _ => regular_operatorOf entry.1) fun operators _ => ?_
  split
  · exact regular_ofBody _ (h _ List.mem_cons_self)
  · exact .error rfl
  · exact .error rfl

end Command

namespace Variable

theorem regular_linkOf (item : Json) : FailsRegularly (linkOf item) := by
  unfold linkOf
  split
  · exact FailsBy.mapError (p := fun _ => True) (fun _ _ => trivial) fun _ _ => rfl
  · exact .error rfl

theorem regular_chainOf (members : List (String × Json)) : FailsRegularly (chainOf members) := by
  unfold chainOf
  split
  · refine FailsBy.bind (.mapM fun item _ => regular_linkOf item) fun links _ => ?_
    split
    · exact .ok _
    · exact .error rfl
  · exact .error rfl

theorem regular_segmentOf (item : Json) : FailsRegularly (segmentOf item) := by
  unfold segmentOf
  split
  · exact .ok _
  · exact .error rfl

theorem regular_referencePath (members : List (String × Json)) :
    FailsRegularly (referencePath members) := by
  unfold referencePath
  split
  · split
    · exact .error rfl
    · exact .mapM fun item _ => regular_segmentOf item
  · exact .error rfl

theorem regular_staticOf (members : List (String × Json)) : FailsRegularly (staticOf members) := by
  unfold staticOf
  split
  · split
    · exact (regular_chainOf members).bind fun chain _ => .ok _
    · exact .error rfl
  · exact .error rfl

theorem regular_ofMembers (members : List (String × Json)) {bodies : List (String × Body)}
    (h : ∀ entry ∈ bodies, entry.2.Regular) : FailsRegularly (ofMembers members bodies) := by
  unfold ofMembers
  split
  · split
    · exact regular_staticOf members
    · exact (regular_chainOf members).bind fun chain _ => .ok _
    · split
      · exact .ok _
      · exact .error rfl
    · exact (regular_referencePath members).bind fun path _ => .ok _
    · refine (Command.regular_ofBodies fun entry hm => ?_).bind fun command _ => .ok _
      exact h entry (List.mem_filter.mp hm).1
    · exact .error rfl
  · exact .error rfl

end Variable

mutual

/-- **Reading a variable fails regularly.**  The recursion is that of the reader, along the
document. -/
theorem Variable.regular_ofJson : ∀ json : Json, FailsRegularly (Variable.ofJson json)
  | .object members => by
    rw [Variable.ofJson]
    exact Variable.regular_ofMembers members (regular_bodiesOf members)
  | .null | .bool _ | .number _ | .string _ | .array _ => by
    rw [Variable.ofJson]
    · exact .error rfl
    · nofun

theorem regular_bodiesOf : ∀ members : List (String × Json),
    ∀ entry ∈ bodiesOf members, entry.2.Regular
  | [], _, hm => by
    rw [bodiesOf] at hm
    cases hm
  | (key, json) :: rest, entry, hm => by
    rw [bodiesOf] at hm
    rcases List.mem_cons.mp hm with rfl | hm
    · exact regular_inputsOf json
    · exact regular_bodiesOf rest entry hm

theorem regular_inputsOf : ∀ (json : Json) (inputs : List Reading), inputsOf json = some inputs →
    ∀ input ∈ inputs, FailsRegularly input.result
  | .object members, inputs, h => by
    rw [inputsOf] at h
    exact regular_inputsAmong members inputs h
  | .null, _, h | .bool _, _, h | .number _, _, h | .string _, _, h | .array _, _, h => by
    rw [inputsOf] at h
    · cases h
    · nofun

theorem regular_inputsAmong : ∀ (members : List (String × Json)) (inputs : List Reading),
    inputsAmong members = some inputs → ∀ input ∈ inputs, FailsRegularly input.result
  | [], _, h => by
    rw [inputsAmong] at h
    cases h
  | (key, json) :: rest, inputs, h => by
    rw [inputsAmong] at h
    split at h
    · exact regular_itemsOf json inputs h
    · exact regular_inputsAmong rest inputs h

theorem regular_itemsOf : ∀ (json : Json) (inputs : List Reading), itemsOf json = some inputs →
    ∀ input ∈ inputs, FailsRegularly input.result
  | .array items, inputs, h => by
    rw [itemsOf] at h
    cases h
    exact regular_readingsOf items
  | .null, _, h | .bool _, _, h | .number _, _, h | .string _, _, h | .object _, _, h => by
    rw [itemsOf] at h
    · cases h
    · nofun

theorem regular_readingsOf : ∀ items : List Json,
    ∀ input ∈ readingsOf items, FailsRegularly input.result
  | [], _, hm => by
    rw [readingsOf] at hm
    cases hm
  | item :: rest, input, hm => by
    rw [readingsOf] at hm
    rcases List.mem_cons.mp hm with rfl | hm
    · exact Variable.regular_ofJson item
    · exact regular_readingsOf rest input hm

end

theorem Command.regular_ofJson (json : Json) (index : Nat) :
    FailsRegularly (Command.ofJson json index) := by
  unfold Command.ofJson
  split
  · exact Command.regular_ofBodies (regular_bodiesOf _)
  · exact .error rfl

/-! ### Reading programs -/

namespace Schema

theorem regular_leafOf (path : Path) (json : Json) : FailsRegularly (leafOf path json) := by
  unfold leafOf
  have hread : FailsRegularly ((Variable.ofJson json).mapError (CompileError.located path)) :=
    (Variable.regular_ofJson json).mapError fun _ => CompileError.isRegular_located path
  refine hread.bind fun found _ => ?_
  split
  · exact .error rfl
  · exact .ok _

mutual

theorem regular_leavesOf : ∀ (json : Json) (path : Path), FailsRegularly (leavesOf path json)
  | .object members, path => by
    rw [leavesOf]
    split
    · exact (regular_leafOf path _).map
    · exact regular_leavesAmong members path
  | .null, _ | .bool _, _ | .number _, _ | .string _, _ | .array _, _ => by
    rw [leavesOf]
    · exact .error rfl
    · nofun

theorem regular_leavesAmong : ∀ (members : List (String × Json)) (path : Path),
    FailsRegularly (leavesAmong path members)
  | [], _ => by
    rw [leavesAmong]
    exact .ok _
  | (key, json) :: rest, path => by
    rw [leavesAmong]
    split
    · exact .error rfl
    · refine (regular_leavesOf json (path ++ [key])).bind fun first _ => ?_
      exact (regular_leavesAmong rest path).bind fun others _ => .ok _

end

theorem regular_regionOf (region : String) (json : Json) :
    FailsRegularly (regionOf region json) := by
  unfold regionOf
  split
  · split
    · exact .error rfl
    · exact regular_leavesAmong _ _
  · exact .error rfl

/-- **Reading a schema fails regularly**: what was read can be stored. -/
theorem regular_ofJson (json : Json) : FailsRegularly (Schema.ofJson json) := by
  unfold Schema.ofJson
  split
  · rename_i members hobject
    cases members.find? fun member => !isRegion member.1 with
    | some member => exact .error rfl
    | none =>
      cases (members.lookup Path.privateRegion).isNone with
      | true => exact .error rfl
      | false =>
        refine FailsBy.bind (FailsBy.map (.mapM fun member _ => ?_)) fun leaves hleaves => ?_
        · exact regular_regionOf member.1 member.2
        · have hordered := Json.ordered_canonical json
          rw [hobject] at hordered
          obtain ⟨schema, hschema⟩ := exists_putAll_regionsOf hordered hleaves
          rw [hschema]
          exact .ok schema
  · exact .error rfl

end Schema

namespace Program

theorem regular_commandsOf (json : Option Json) : FailsRegularly (commandsOf json) := by
  unfold commandsOf
  split
  · exact .ok _
  · exact .mapM fun entry _ => Command.regular_ofJson entry.1 entry.2
  · exact .error rfl

theorem regular_optionsOf (json : Option Json) : FailsRegularly (optionsOf json) := by
  unfold optionsOf
  split
  · exact .ok _
  · exact .ok _
  · exact .ok _
  · exact .error rfl

theorem regular_targetParse (id : String) : FailsRegularly (Target.parse id) := by
  unfold Target.parse
  split
  · exact .ok _
  · exact .error rfl

/-- **Reading a program fails regularly.** -/
theorem regular_ofJson (json : Json) : FailsRegularly (Program.ofJson json) := by
  unfold Program.ofJson
  split
  case h_2 => exact .error rfl
  split
  case h_2 => exact .error rfl
  refine (regular_targetParse _).bind fun target _ => ?_
  split
  case h_2 => exact .error rfl
  refine (Schema.regular_ofJson _).bind fun schema _ => ?_
  refine (regular_commandsOf _).bind fun commands _ => ?_
  exact (regular_optionsOf _).bind fun options _ => .ok _

end Program

/-! ### Names and types -/

theorem Schema.regular_dereference (schema : Schema) (path : Path) (limit : Nat) :
    FailsRegularly (schema.dereference path limit) := by
  intro e h
  rcases Schema.dereferenceFrom_eq_error limit path h with ⟨target, rfl⟩ | rfl
  · rfl
  · rfl

theorem Constant.fault_parse (name : String) : FailsInCommand (Constant.parse name) := by
  intro e h
  obtain ⟨-, rfl⟩ := InputValues.constantParse_eq_error h
  rfl

/-- **A loop that stores a value at every path fails regularly**, if its steps do before they store
and the paths do not lead through one another. -/
theorem regular_foldlM_put {α σ : Type} {tree : σ → Tree α}
    {step : σ → Path → Except CompileError σ} {paths : List Path} {start : σ}
    (hfree : PrefixFree (· ∈ paths)) (hne : ∀ path ∈ paths, path ≠ [])
    (hstart : tree start = .empty)
    (hstep : ∀ state path, (∃ e, e.isRegular = true ∧ step state path = .error e) ∨
      ∃ value, ∀ next, (tree state).put path value = .ok next →
        ∃ state', step state path = .ok state' ∧ tree state' = next) :
    FailsRegularly (paths.foldlM step start) := by
  intro e h
  rcases foldlM_put (motive := fun _ _ => True) (fun e => e.isRegular = true) hfree hne hstart
      trivial fun done path rest state _ _ => by simpa using hstep state path with
    ⟨result, hresult, -⟩ | ⟨e', he, herror⟩
  · rw [hresult] at h
    cases h
  · rw [herror] at h
    cases h
    exact he

theorem Names.regular_ofPaths (target : Target) {paths : List Path}
    (hfree : PrefixFree (· ∈ paths)) (hne : ∀ path ∈ paths, path ≠ []) :
    FailsRegularly (Names.ofPaths target paths) := by
  refine regular_foldlM_put hfree hne (rfl : Names.empty.tree = .empty) fun names path => ?_
  unfold giveInput give
  cases names.owners.assign (inputName target path) path with
  | error owner => exact .inl ⟨_, rfl, rfl⟩
  | ok owners =>
    refine .inr ⟨inputName target path, fun next hput => ⟨⟨next, owners⟩, ?_, rfl⟩⟩
    dsimp only
    rw [hput]

namespace InputTypes

/-- **The type of a path is found regularly**: references end at variables that have a chain. -/
theorem regular_typeOf {schema : Schema} (hs : schema.WellFormed) (limit : Nat) (path : Path) :
    FailsRegularly (typeOf schema limit path) := by
  refine (Schema.regular_dereference schema path limit).bind fun last hlast => ?_
  obtain ⟨terminal, found⟩ := last
  obtain ⟨n, -, -, hfound, hown⟩ := (Schema.dereference_eq_ok hs).mp hlast
  have hchain : FailsRegularly found.chain := by
    cases found with
    | static value chain => exact .ok _
    | setup chain => exact .ok _
    | constant name =>
      exact ((Constant.fault_parse name).mono fun _ => CompileError.isRegular_of_isCommandFault).map
    | reference next => cases hown
    | function operation out => exact absurd hfound (hs.notFunction terminal operation out)
  refine hchain.bind fun chain _ => ?_
  split
  · exact .ok _
  · exact .error rfl

theorem regular_ofPaths {schema : Schema} (hs : schema.WellFormed) (limit : Nat)
    {paths : List Path} (hfree : PrefixFree (· ∈ paths)) (hne : ∀ path ∈ paths, path ≠ []) :
    FailsRegularly (InputTypes.ofPaths schema limit paths) := by
  refine regular_foldlM_put hfree hne (rfl : id Tree.empty = Tree.empty) fun types path => ?_
  unfold add
  cases htype : typeOf schema limit path with
  | error e => exact .inl ⟨e, regular_typeOf hs limit path e htype, rfl⟩
  | ok token => exact .inr ⟨token, fun next hput => ⟨next, mapError_eq_ok.mpr hput, rfl⟩⟩

end InputTypes

/-! ### Expressions and statements -/

namespace Literal

theorem fault_construct (token : SourceType) (literal : Literal) :
    FailsInCommand (construct token literal) := by
  unfold construct
  split
  · exact .ok _
  · exact .ok _
  · split
    · exact .ok _
    · split
      · exact .ok _
      · exact .error rfl
    · exact .error rfl
  · split
    · exact .ok _
    · exact .error rfl
  · split
    · exact .ok _
    · exact .error rfl
  · exact .ok _

theorem fault_ofStatic (converter : Converter) (value : Scalar) (chain : Chain) :
    FailsInCommand (ofStatic converter value chain) := by
  unfold ofStatic
  split
  · exact .ok _
  · have hconverted : FailsInCommand ((converter value.toJson chain.init).mapError
        (CompileError.conversionFailed (.literal value))) :=
      FailsBy.mapError (p := fun _ => True) (fun _ _ => trivial) fun _ _ => rfl
    refine hconverted.bind fun converted _ => ?_
    split
    · exact .ok _
    · exact .error rfl

theorem fault_staticExpr (converter : Converter) (value : Scalar) (chain : Chain) :
    FailsInCommand (staticExpr converter value chain) := by
  have htoken : FailsInCommand (SourceType.parse chain.finalType) := by
    unfold SourceType.parse
    split
    · exact .ok _
    · exact .error rfl
  refine htoken.bind fun token _ => ?_
  refine (fault_ofStatic converter value chain).bind fun literal _ => ?_
  exact fault_construct token literal

end Literal

theorem Link.fault_transformExpr (link : Link) (operand : Expr) :
    FailsInCommand (link.transformExpr operand) := by
  unfold transformExpr
  dsimp only
  split
  · exact .ok _
  · split
    · exact .ok _
    · split
      · exact .ok _
      · exact .error rfl

mutual

/-- **Operations fail to become expressions by faults of a command.**  There is one case for each
kind of operation and operand. -/
theorem Operation.fault_expr (scope : Scope) : ∀ (depth : Nat) (operation : Operation),
    FailsInCommand (operation.expr scope depth)
  | depth, .binary operator left right => by
    rw [Operation.expr]
    split
    · exact .error rfl
    · refine (Variable.fault_expr scope depth _ left).bind fun receiver _ => ?_
      exact (Variable.fault_expr scope depth _ right).bind fun argument _ => .ok _
  | depth, .assert value => by
    rw [Operation.expr]
    split
    · exact .error rfl
    · exact (Variable.fault_expr scope depth _ value).bind fun expr _ => .ok _
  | depth, .ternary condition whenTrue whenFalse => by
    rw [Operation.expr]
    split
    · exact .error rfl
    · refine (Variable.fault_expr scope depth _ condition).bind fun _ _ => ?_
      refine (Variable.fault_expr scope depth _ whenTrue).bind fun _ _ => ?_
      exact (Variable.fault_expr scope depth _ whenFalse).bind fun _ _ => .ok _
  | depth, .transform value link => by
    rw [Operation.expr]
    split
    · exact .error rfl
    · refine (Variable.fault_expr scope depth _ value).bind fun expr _ => ?_
      exact link.fault_transformExpr expr
  | depth, .verifySign algorithm signature message publicKey => by
    rw [Operation.expr]
    split
    · exact .error rfl
    · refine (Variable.fault_expr scope depth _ signature).bind fun _ _ => ?_
      refine (Variable.fault_expr scope depth _ publicKey).bind fun _ _ => ?_
      exact (Variable.fault_expr scope depth _ message).bind fun _ _ => .ok _
  | depth, .hash algorithm inputs => by
    rw [Operation.expr]
    split
    · exact .error rfl
    · exact (fault_exprsOf scope depth _ inputs).bind fun exprs _ => .ok _
  | depth, .spread value => by
    rw [Operation.expr]
    split
    · exact .error rfl
    · exact (Variable.fault_expr scope depth _ value).bind fun expr _ => .ok _
  | depth, .not value => by
    rw [Operation.expr]
    split
    · exact .error rfl
    · exact (Variable.fault_expr scope depth _ value).bind fun expr _ => .ok _

theorem Variable.fault_expr (scope : Scope) : ∀ (depth : Nat) (operator : Operator)
    (operand : Variable), FailsInCommand (operand.expr scope depth operator)
  | depth, operator, .static value chain => by
    rw [Variable.expr]
    exact Literal.fault_staticExpr scope.converter value chain
  | depth, operator, .constant name => by
    rw [Variable.expr]
    exact (Constant.fault_parse name).map
  | depth, operator, .reference path => by
    rw [Variable.expr]
    split
    · exact .ok _
    · exact .error rfl
  | depth, operator, .setup chain => by
    rw [Variable.expr]
    exact .error rfl
  | depth, operator, .function operation none => by
    rw [Variable.expr]
    exact Operation.fault_expr scope (depth + 1) operation
  | depth, operator, .function operation (some out) => by
    rw [Variable.expr]
    exact .error rfl

theorem fault_exprsOf (scope : Scope) : ∀ (depth : Nat) (operator : Operator)
    (operands : List Variable), FailsInCommand (exprsOf scope depth operator operands)
  | depth, operator, [] => by
    rw [exprsOf]
    exact .ok _
  | depth, operator, operand :: rest => by
    rw [exprsOf]
    refine (Variable.fault_expr scope depth operator operand).bind fun first _ => ?_
    exact (fault_exprsOf scope depth operator rest).bind fun others _ => .ok _

end

/-- **Commands fail to become statements by their own faults.**  A command is refused for its
expression or for the name of its result; a free name always finds its place. -/
theorem fault_statementsOf {target : Target} {paths : List Path} {names : Names}
    (h : Names.ofPaths target paths = .ok names) (converter : Converter) (maxDepth : Nat)
    (commands : List Command) :
    FailsInCommand (statementsOf converter maxDepth commands names).2 := by
  intro e he
  have hstart := Names.After.start (Names.faithful_of_ofPaths h)
  rcases statementsOf_run hstart
      (wellScoped_nil : WellScoped converter maxDepth names []) commands with
    ⟨final, statements, hrun, -⟩ |
    ⟨before, command, after, final, e', -, hrun, -, -, -, hexpr | ⟨out, -, rfl⟩⟩
  · rw [hrun] at he
    cases he
  · rw [hrun] at he
    cases he
    exact Operation.fault_expr ⟨converter, maxDepth, final⟩ 1 command.operation e hexpr
  · rw [hrun] at he
    cases he
    rfl

/-! ### Sources and inputs -/

theorem Schema.WellFormed.ne_nil {schema : Schema} (hs : schema.WellFormed) {path : Path}
    (hm : path ∈ schema.leafPaths) : path ≠ [] := by
  obtain ⟨found, hg⟩ := Tree.mem_leafPaths.mp hm
  obtain ⟨region, keys, rfl, -⟩ := (hs.path path found hg).region
  exact List.cons_ne_nil region keys

theorem Outline.regular_ofProgram {program : Program} (hp : program.WellFormed)
    (converter : Converter) (config : Config) :
    FailsRegularly (Outline.ofProgram converter config program) := by
  have hinput : ∀ path ∈ program.schema.inputPaths program.target,
      path ∈ program.schema.leafPaths := fun path hm => (List.mem_filter.mp hm).1
  have hfree : PrefixFree (· ∈ program.schema.inputPaths program.target) := by
    intro p q hpm hqm
    exact Tree.prefixFree_leafPaths program.schema p q (hinput p hpm) (hinput q hqm)
  have hne : ∀ path ∈ program.schema.inputPaths program.target, path ≠ [] :=
    fun path hm => hp.schema.ne_nil (hinput path hm)
  unfold Outline.ofProgram
  split
  · exact .error rfl
  · refine (Names.regular_ofPaths program.target hfree hne).bind fun names hnames => ?_
    refine (InputTypes.regular_ofPaths hp.schema config.maxReferenceDepth hfree hne).bind
      fun types _ => ?_
    have hcommands :=
      fault_statementsOf hnames converter config.maxExpressionDepth program.commands
    exact (hcommands.mono fun _ => CompileError.isRegular_of_isCommandFault).bind
      fun statements _ => .ok _

/-- **A source is generated regularly.**  Once a program is assembled, its source can be written. -/
theorem Program.regular_source {program : Program} (hp : program.WellFormed)
    (converter : Converter) (config : Config) :
    FailsRegularly (program.source converter config) := by
  intro e h
  cases houtline : Outline.ofProgram converter config program with
  | error e' =>
    rw [Program.source, houtline] at h
    cases h
    exact Outline.regular_ofProgram hp converter config e houtline
  | ok outline =>
    rw [Program.source_of_assembled houtline (Outline.of_ofProgram hp houtline)] at h
    cases h

theorem InputValues.regular_ofSetup {schema : Schema} (hs : schema.WellFormed)
    (converter : Converter) (limit : Nat) (setup : Tree Json) :
    FailsRegularly (InputValues.ofSetup converter limit schema setup) := by
  intro e h
  rcases InputValues.ofSetup_eq_error hs h with ⟨path, found, -, hown⟩ | ⟨path, next, -, hderef⟩
  · rcases InputValues.ownValue_eq_error hown with
      ⟨cause, rfl⟩ | ⟨chain, -, -, rfl⟩ | ⟨name, -, -, rfl⟩
    · rfl
    · rfl
    · rfl
  · exact Schema.regular_dereference schema path limit e hderef

namespace Compiler

/-- **An input is made regularly.**  Every leaf of a resolved schema has a value. -/
theorem regular_input (compiler : Compiler) (target : Target) {schema : Schema}
    (hs : schema.WellFormed) (setup : Json) :
    FailsRegularly (compiler.input target schema setup) := by
  have hsetup : FailsRegularly (setupOfJson setup) := by
    intro e h
    obtain ⟨-, rfl⟩ := setupOfJson_eq_error h
    rfl
  refine hsetup.bind fun tree _ => ?_
  refine (InputValues.regular_ofSetup hs compiler.converter _ tree).bind fun values hvalues => ?_
  intro e h
  rcases CallInput.ofValues_cases target (InputValues.exists_of_ofSetup hs hvalues) with
    ⟨input, hinput⟩ | ⟨_, _, _, _, -, -, -, -, herror⟩
  · rw [hinput] at h
    cases h
  · rw [herror] at h
    cases h
    rfl

/-- **Every failure of a compiler is regular.**  For all documents, targets, setups and
configurations, a program is read, translated and called without a failure that only the compiler
could be blamed for.  And if an operator is read from its key, by positions, then its key has a rule
and each position that the rule looks at has an input. -/
theorem error_regular (compiler : Compiler) :
    (∀ document e, Program.ofJson document = .error e → ¬ e.Broken) ∧
      (∀ document program, Program.ofJson document = .ok program →
        (∀ e, compiler.translate program = .error e → ¬ e.Broken) ∧
          ∀ setup e, compiler.inputOfProgram program setup = .error e → ¬ e.Broken) ∧
      (∀ target schema setup e,
        compiler.inputOfDocuments target schema setup = .error e → ¬ e.Broken) ∧
      ∀ key operator inputs, Command.operatorOf key = .ok operator →
        Operation.ofKey key inputs = (Operation.ofInputs operator inputs).mapError .refused := by
  have hbroken {α : Type} {x : Except CompileError α} (hx : FailsRegularly x) {e : CompileError}
      (h : x = .error e) : ¬ e.Broken := CompileError.isRegular_iff.mp (hx e h)
  refine ⟨fun document e => hbroken (Program.regular_ofJson document), ?_, ?_, ?_⟩
  · intro document program hprogram
    have hp := Program.wellFormed_ofJson hprogram
    refine ⟨fun e => hbroken (Program.regular_source hp compiler.converter compiler.config), ?_⟩
    intro setup e
    exact hbroken (compiler.regular_input program.target hp.schema setup)
  · intro target schema setup e
    refine hbroken ((Program.regular_targetParse target).bind fun target _ => ?_)
    refine (Schema.regular_ofJson schema).bind fun schema hschema => ?_
    exact compiler.regular_input target (Schema.wellFormed_ofJson hschema) setup
  · intro key operator inputs hkey
    exact Operation.ofKey_eq_ofInputs hkey inputs

/-- The badge is refused for the name of a method and for a value that its setup misses. -/
theorem error_regular_badge : ∃ program e e', Program.ofJson badgeProgram = .ok program ∧
    Compiler.translate ⟨Value.ofChain, ⟨64, 64, ""⟩⟩ program = .error e ∧ ¬ e.Broken ∧
      Compiler.inputOfProgram ⟨Value.ofChain, ⟨64, 64, ""⟩⟩ program badgeSetupWithoutPin
        = .error e' ∧ ¬ e'.Broken := by
  obtain ⟨program, -, hprogram, -⟩ := exists_badgeProgram
  have htranslate : Compiler.translate ⟨Value.ofChain, ⟨64, 64, ""⟩⟩ program
      = .error (.invalidMethodName "") := rfl
  have hmissed := missedPath?_badge hprogram ""
  obtain ⟨-, hcalls, -⟩ := error_regular ⟨Value.ofChain, ⟨64, 64, ""⟩⟩
  obtain ⟨hsource, hinput⟩ := hcalls badgeProgram program hprogram
  cases hcase : Compiler.inputOfProgram ⟨Value.ofChain, ⟨64, 64, ""⟩⟩ program
      badgeSetupWithoutPin with
  | ok input =>
    rw [hcase] at hmissed
    cases hmissed
  | error e' =>
    exact ⟨program, _, e', hprogram, htranslate, hsource _ htranslate, hcase, hinput _ e' hcase⟩

end Compiler

end Circuitry
