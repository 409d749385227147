import Circuitry.Proofs.Encoding

/-!
# The grammar of commands

The reader accepts a document exactly if it is the written form of a well-formed command, up to what
is ignored, and that is the command it gives (`Command.ofJson_eq_ok_iff`).

The two sides are compared level by level.  On each level the reader and the written form agree on
the list of inputs, so one statement about this list covers all operators
(`Operation.ofInputs_eq_ok`).  What a text is, and an operand that is not a function, is settled at
once; a function is the next level (`Operation.ofBody_eq_ok_iff`).
-/

namespace Circuitry

open Fallible

/-! ### Well-formed commands -/

/-- What an operation must be like to be written, apart from the operations in it. -/
structure Operation.Legible (operation : Operation) : Prop where
  operands : ∀ operand ∈ operation.operands, operand.Legible
  link : ∀ value link, operation = .transform value link → link.Proper

/-- A command that can be written: its result can have its name, and every operation in it is
legible. -/
structure Command.WellFormed (command : Command) : Prop where
  out : command.operation.operator.CanName command.out
  operations : ∀ depth inner, Operation.Nested 1 command.operation depth inner → inner.Legible

/-! ### Reading inputs -/

/-- An input that is read as an operand or as a text. -/
def Reading.Gives (reading : Reading) : Input → Prop
  | .operand value => reading.item.isVariable = true ∧ reading.result = .ok value
  | .tag text => reading.item = .string text

namespace Operation

variable {op : Operator} {index : Nat}

theorem operand_eq_ok {input : Reading} {value : Variable} :
    operand op index input = .ok value ↔ input.Gives (.operand value) := by
  unfold operand Reading.Gives
  split
  · rename_i hvariable
    simp [hvariable]
  · rename_i hvariable
    exact iff_of_false error_ne_ok fun h => hvariable h.1

theorem tag_eq_ok {input : Reading} {text : String} :
    tag op index input = .ok text ↔ input.Gives (.tag text) := by
  unfold tag Reading.Gives
  split
  · rename_i found hfound
    simp [hfound]
  · rename_i hnone
    exact iff_of_false error_ne_ok fun h => hnone text h

theorem mapM_operand_eq_ok {readings : List Reading} {values : List Variable} :
    ((readings.zipIdx index).mapM fun (input, index) => operand op index input) = .ok values ↔
      List.Forall₂ Reading.Gives readings (values.map .operand) := by
  induction readings generalizing index values with
  | nil =>
    rw [List.zipIdx_nil, List.mapM_nil, pure_eq_ok, List.forall₂_nil_left_iff, List.map_eq_nil_iff,
      eq_comm]
  | cons reading rest ih =>
    rw [List.zipIdx_cons, List.mapM_cons, bind_eq_ok]
    simp only [bind_eq_ok, pure_eq_ok, ih, operand_eq_ok]
    constructor
    · rintro ⟨value, hvalue, others, hothers, rfl⟩
      exact .cons hvalue hothers
    · intro h
      cases values with
      | nil => cases h
      | cons value others =>
        obtain ⟨hvalue, hothers⟩ := List.forall₂_cons.mp h
        exact ⟨value, hvalue, others, hothers, rfl⟩

theorem operator_of_ofInputs {readings : List Reading} {operation : Operation}
    (h : ofInputs op readings = .ok operation) : operation.operator = op := by
  unfold ofInputs at h
  split at h
  case h_9 => cases h
  all_goals
    simp only [bind_eq_ok, pure_eq_ok] at h
    grind [operator]

/-- **An operation is read from its inputs**, one by one and in their order.  A list of another
length is refused. -/
theorem ofInputs_eq_ok {readings : List Reading} {operation : Operation} :
    ofInputs operation.operator readings = .ok operation ↔
      List.Forall₂ Reading.Gives readings operation.inputs ∧
        ∀ value link, operation = .transform value link → link.Proper := by
  cases operation with
  | binary op left right =>
    rcases readings with _ | ⟨first, _ | ⟨second, _ | ⟨third, rest⟩⟩⟩
    case cons.cons.nil =>
      simp [-bind_pure_comp, ofInputs, operator, inputs, bind_eq_ok, pure_eq_ok, operand_eq_ok]
    all_goals exact iff_of_false error_ne_ok (by simp [inputs])
  | transform value link =>
    rcases readings with _ | ⟨first, _ | ⟨second, _ | ⟨third, rest⟩⟩⟩
    case cons.cons.nil =>
      simp [-bind_pure_comp, ofInputs, operator, inputs, bind_eq_ok, pure_eq_ok, operand_eq_ok,
        tag_eq_ok, mapError_eq_ok, Link.parse_eq_ok, and_comm, and_assoc]
    all_goals exact iff_of_false error_ne_ok (by simp [inputs])
  | ternary condition whenTrue whenFalse =>
    rcases readings with _ | ⟨first, _ | ⟨second, _ | ⟨third, _ | ⟨fourth, rest⟩⟩⟩⟩
    case cons.cons.cons.nil =>
      simp [-bind_pure_comp, ofInputs, operator, inputs, bind_eq_ok, pure_eq_ok, operand_eq_ok]
    all_goals exact iff_of_false error_ne_ok (by simp [inputs])
  | verifySign algorithm signature message publicKey =>
    rcases readings with _ | ⟨first, _ | ⟨second, _ | ⟨third, _ | ⟨fourth, _ | ⟨fifth, rest⟩⟩⟩⟩⟩
    case cons.cons.cons.cons.nil =>
      simp [-bind_pure_comp, ofInputs, operator, inputs, bind_eq_ok, pure_eq_ok, operand_eq_ok,
        tag_eq_ok]
    all_goals exact iff_of_false error_ne_ok (by simp [inputs])
  | hash algorithm operands =>
    rcases readings with _ | ⟨first, rest⟩
    · exact iff_of_false error_ne_ok (by simp [inputs])
    · simp [-bind_pure_comp, ofInputs, operator, inputs, bind_eq_ok, pure_eq_ok, tag_eq_ok,
        mapM_operand_eq_ok, and_comm]
  | assert value | spread value | not value =>
    rcases readings with _ | ⟨first, _ | ⟨second, rest⟩⟩
    case cons.nil =>
      simp [-bind_pure_comp, ofInputs, operator, inputs, bind_eq_ok, pure_eq_ok, operand_eq_ok]
    all_goals exact iff_of_false error_ne_ok (by simp [inputs])

end Operation

/-! ### Bodies -/

def Body.ofJson (json : Json) : Body :=
  ⟨json, inputsOf json⟩

theorem bodiesOf_eq_map (members : List (String × Json)) :
    bodiesOf members = members.map fun member => (member.1, Body.ofJson member.2) := by
  induction members with
  | nil => rfl
  | cons member rest ih => rw [bodiesOf, ih, List.map_cons, Body.ofJson]

theorem readingsOf_eq_map (items : List Json) :
    readingsOf items = items.map fun item => ⟨item, Variable.ofJson item⟩ := by
  induction items with
  | nil => rfl
  | cons item rest ih => rw [readingsOf, ih, List.map_cons]

theorem inputsAmong_eq (members : List (String × Json)) :
    inputsAmong members = (members.lookup "in").bind itemsOf := by
  induction members with
  | nil => rfl
  | cons member rest ih =>
    obtain ⟨key, json⟩ := member
    rw [inputsAmong, List.lookup_cons]
    by_cases hkey : key = "in"
    · rw [if_pos hkey, hkey]
      rfl
    · rw [if_neg hkey, beq_false_of_ne (Ne.symm hkey), ih]

namespace Command

theorem operatorOf_eq_ok {key : String} {operator : Operator} :
    operatorOf key = .ok operator ↔ key = operator.key := by
  constructor
  · intro h
    unfold operatorOf at h
    split at h
    · rename_i found hfound
      cases h
      exact (beq_iff_eq.mp (List.find?_some (p := fun found : Operator => found.key == key)
        hfound)).symm
    · cases h
  · rintro rfl
    cases operator with
    | binary op => cases op <;> rfl
    | _ => rfl

theorem bindsOutput_iff {operator : Operator} :
    operator.bindsOutput = true ↔ operator ≠ .assert ∧ operator ≠ .spread := by
  cases operator <;> simp [Operator.bindsOutput]

theorem outputName_eq_ok {operator : Operator} {json : Option Json} {out : Option String} :
    outputName operator json = .ok out ↔
      Json.tidyOut json = (out.map fun name => ("out", .string name)).toList ∧
        operator.CanName out := by
  have hnone : (.ok none : Except CompileError (Option String)) = .ok out ↔
      [] = (out.map fun name => ("out", Json.string name)).toList ∧ operator.CanName out := by
    cases out <;> simp [Operator.CanName]
  match json with
  | none => exact hnone
  | some .null => exact hnone
  | some (.string name) =>
    have hname : outputName operator (some (.string name)) = .ok out ↔
        out = some name ∧ operator.CanName (some name) := by
      have hcan : operator.CanName (some name) ↔
          operator.bindsOutput = true ∧ Identifier.isValid name = true := by
        simp [Operator.CanName, bindsOutput_iff, and_assoc]
      rw [hcan, outputName]
      cases operator.bindsOutput <;> cases Identifier.isValid name <;> simp [eq_comm]
    rw [hname]
    cases out with
    | none => simp [Json.tidyOut]
    | some other =>
      simp only [Json.tidyOut, Option.map_some, Option.toList_some]
      grind
  | some (.bool _) | some (.number _) | some (.array _) | some (.object _) =>
    refine iff_of_false error_ne_ok fun h => ?_
    cases out <;> simp [Json.tidyOut] at h

theorem ofBody_eq_ok {operator : Operator} {json : Json} {operation : Operation}
    {out : Option String} :
    ofBody operator (.ofJson json) = .ok ⟨operation, out⟩ ↔ ∃ members items,
      json = .object members ∧ members.lookup "in" = some (.array items) ∧
      Operation.ofInputs operator (items.map fun item => ⟨item, Variable.ofJson item⟩) =
        .ok operation ∧
      outputName operator (members.lookup "out") = .ok out := by
  cases json with
  | object members =>
    rw [ofBody, Body.ofJson, inputsOf, inputsAmong_eq]
    cases hin : members.lookup "in" with
    | none =>
      refine iff_of_false error_ne_ok ?_
      rintro ⟨_, items, ⟨⟩, hitems, -⟩
      rw [hin] at hitems
      cases hitems
    | some found =>
      cases found with
      | array items =>
        rw [Option.bind_some, itemsOf, readingsOf_eq_map]
        simp [-bind_pure_comp, bind_eq_ok, pure_eq_ok, hin]
      | _ =>
        refine iff_of_false error_ne_ok ?_
        rintro ⟨_, items, ⟨⟩, hitems, -⟩
        rw [hin] at hitems
        cases hitems
  | _ => exact iff_of_false error_ne_ok (by simp)

theorem operator_of_ofBody {operator : Operator} {body : Body} {command : Command}
    (h : ofBody operator body = .ok command) : command.operation.operator = operator := by
  unfold ofBody at h
  split at h
  · split at h
    · obtain ⟨operation, hoperation, h⟩ := bind_eq_ok.mp h
      obtain ⟨out, -, h⟩ := bind_eq_ok.mp h
      cases h
      exact Operation.operator_of_ofInputs hoperation
    · cases h
  · cases h

theorem ofBodies_eq_ok {bodies : List (String × Body)} {command : Command} :
    ofBodies bodies = .ok command ↔ ∃ body, bodies = [(command.operation.operator.key, body)] ∧
      ofBody command.operation.operator body = .ok command := by
  constructor
  · intro h
    obtain ⟨operators, hoperators, hbody⟩ := bind_eq_ok.mp h
    split at hbody
    · rename_i operator key body
      obtain ⟨hoperator, -⟩ := List.forall₂_cons.mp (mapM_eq_ok.mp hoperators)
      obtain rfl : key = operator.key := operatorOf_eq_ok.mp hoperator
      obtain rfl := operator_of_ofBody hbody
      exact ⟨body, rfl, hbody⟩
    · cases hbody
    · cases hbody
  · rintro ⟨body, rfl, h⟩
    have hoperator := operatorOf_eq_ok.mpr (rfl : command.operation.operator.key = _)
    rw [ofBodies, List.mapM_cons, List.mapM_nil, hoperator]
    exact h

end Command

/-! ### Both sides, level by level -/

/-- What an input must be like, with every operation in it; the outermost of them is at the given
depth. -/
def Input.LegibleAt (start : Nat) : Input → Prop
  | .operand value => value.Legible ∧ ∀ inner out, value = .function inner out →
      ∀ depth deepest, Operation.Nested start inner depth deepest → deepest.Legible
  | .tag _ => True

theorem Operation.forall_nested_legible_iff {operation : Operation} {start : Nat} :
    (∀ depth inner, Nested start operation depth inner → inner.Legible) ↔
      (∀ input ∈ operation.inputs, input.LegibleAt (start + 1)) ∧
        ∀ value link, operation = .transform value link → link.Proper := by
  rw [forall_nested_iff]
  constructor
  · rintro ⟨hself, hdeeper⟩
    refine ⟨fun input hm => ?_, hself.link⟩
    cases input with
    | operand value =>
      have hmem := operand_mem_inputs.mp hm
      refine ⟨hself.operands value hmem, ?_⟩
      rintro inner out rfl
      exact hdeeper inner out hmem
    | tag text => trivial
  · rintro ⟨hinputs, hlink⟩
    refine ⟨⟨fun operand hm => (hinputs _ (operand_mem_inputs.mpr hm)).1, hlink⟩, ?_⟩
    exact fun inner out hm => (hinputs _ (operand_mem_inputs.mpr hm)).2 inner out rfl

theorem Variable.isVariable_of_ofJson {json : Json} {value : Variable}
    (h : Variable.ofJson json = .ok value) : json.isVariable = true := by
  cases json with
  | object members =>
    rw [Variable.ofJson] at h
    simp [Json.isVariable, Json.get?, lookup_type_of_ofMembers h, Json.string?]
  | _ => cases h

theorem Variable.ofJson_eq_ok_iff {json : Json} {value : Variable}
    (hkind : value.kind ≠ "function") :
    Variable.ofJson json = .ok value ↔ Json.tidyInput json = value.toJson ∧ value.Legible := by
  rw [toJson_of_kind hkind]
  cases json with
  | object members =>
    rw [Variable.ofJson, ofMembers_eq_ok hkind, Json.tidyInput, Json.object.injEq,
      Json.tidyMembers_eq_ownMembers hkind, and_comm]
  | _ => exact iff_of_false error_ne_ok (by rintro ⟨⟨⟩, -⟩)

theorem Variable.ofJson_eq_function {members : List (String × Json)} {operation : Operation}
    {out : Option String} :
    Variable.ofJson (.object members) = .ok (.function operation out) ↔
      members.lookup "type" = some (.string "function") ∧ ∃ json,
        members.filter (fun member => member.1 != "type") = [(operation.operator.key, json)] ∧
        Command.ofBody operation.operator (.ofJson json) = .ok ⟨operation, out⟩ := by
  rw [Variable.ofJson, ofMembers_eq_function, Command.ofBodies_eq_ok, bodiesOf_eq_map]
  simp only [filter_map_eq_singleton (f := Body.ofJson)]
  refine and_congr_right fun _ => ?_
  constructor
  · rintro ⟨_, ⟨json, hjson, rfl⟩, h⟩
    exact ⟨json, hjson, h⟩
  · rintro ⟨json, hjson, h⟩
    exact ⟨_, ⟨json, hjson, rfl⟩, h⟩

/-- **A body is read exactly if its written form is left of it.**  The induction is along the
nesting.  On each level both sides say the same about every input: of a text and of an operand that
is not a function at once, and of a function by the level below. -/
theorem Operation.ofBody_eq_ok_iff (operation : Operation) (start : Nat) {json : Json}
    {out : Option String} :
    Command.ofBody operation.operator (.ofJson json) = .ok ⟨operation, out⟩ ↔
      Json.tidyBody json = .body operation.toItems out ∧ operation.operator.CanName out ∧
        ∀ depth inner, Nested start operation depth inner → inner.Legible := by
  induction operation using Operation.ind generalizing start json out with
  | step operation ih =>
    have hinput : ∀ input ∈ operation.inputs, ∀ item,
        Reading.Gives ⟨item, Variable.ofJson item⟩ input ↔
          Json.tidyInput item = input.toJson ∧ input.LegibleAt (start + 1) := by
      intro input hm item
      -- A text is written as itself, a function one level down, and other operands by themselves.
      cases input with
      | tag text =>
        cases item <;> simp [Reading.Gives, Input.toJson, Input.LegibleAt, Json.tidyInput]
      | operand value =>
        have hgives : Reading.Gives ⟨item, Variable.ofJson item⟩ (.operand value) ↔
            Variable.ofJson item = .ok value :=
          and_iff_right_of_imp Variable.isVariable_of_ofJson
        rw [hgives]
        have hvalue := operand_mem_inputs.mp hm
        cases value with
        | function inner name =>
          cases item with
          | object members =>
            have hbody (json : Json) := @ih inner name hvalue (start + 1) json name
            rw [Variable.ofJson_eq_function, Input.toJson, Json.tidyInput_eq_function]
            simp only [hbody]
            constructor
            · rintro ⟨htype, json, hjson, htidy, hout, hdeeper⟩
              refine ⟨⟨htype, json, hjson, htidy⟩, hout, ?_⟩
              rintro _ _ ⟨⟩
              exact hdeeper
            · rintro ⟨⟨htype, json, hjson, htidy⟩, hout, hdeeper⟩
              exact ⟨htype, json, hjson, htidy, hout, hdeeper inner name rfl⟩
          | _ => exact iff_of_false error_ne_ok (by rintro ⟨⟨⟩, -⟩)
        | _ =>
          rw [Variable.ofJson_eq_ok_iff (by simp [Variable.kind])]
          simp [Input.toJson, Input.LegibleAt]
    rw [Command.ofBody_eq_ok, Json.tidyBody_eq_body, forall_nested_legible_iff, toItems_eq_map]
    simp only [ofInputs_eq_ok, List.forall₂_map_left_iff, forall₂_iff_map hinput,
      Command.outputName_eq_ok]
    constructor
    · rintro ⟨members, items, hjson, hin, ⟨⟨hitems, hlegible⟩, hlink⟩, hout, hname⟩
      exact ⟨⟨members, items, hjson, hin, hitems, hout⟩, hname, hlegible, hlink⟩
    · rintro ⟨⟨members, items, hjson, hin, hitems, hout⟩, hname, hlegible, hlink⟩
      exact ⟨members, items, hjson, hin, ⟨⟨hitems, hlegible⟩, hlink⟩, hout, hname⟩

/-! ### Commands -/

/-- **A command is read exactly if its written form is left of the document.** -/
theorem Command.ofJson_eq_ok_iff {json : Json} {index : Nat} {command : Command} :
    Command.ofJson json index = .ok command ↔
      json.tidyCommand = command.toJson ∧ command.WellFormed := by
  cases json with
  | object members =>
    rw [Command.ofJson, ofBodies_eq_ok, bodiesOf_eq_map, Json.tidyCommand, toJson,
      Json.object.injEq, Json.tidyBodies_eq_map]
    simp only [List.map_eq_singleton_iff]
    constructor
    · rintro ⟨_, ⟨⟨key, json⟩, rfl, ⟨⟩⟩, h⟩
      obtain ⟨htidy, hout, hoperations⟩ := (command.operation.ofBody_eq_ok_iff 1).mp h
      exact ⟨⟨(command.operation.operator.key, json), rfl, by rw [htidy]⟩, hout, hoperations⟩
    · rintro ⟨⟨⟨key, json⟩, rfl, hentry⟩, hformed⟩
      obtain ⟨rfl, htidy⟩ := Prod.ext_iff.mp hentry
      refine ⟨_, ⟨_, rfl, rfl⟩, ?_⟩
      exact (command.operation.ofBody_eq_ok_iff 1).mpr ⟨htidy, hformed.out, hformed.operations⟩
  | _ => exact iff_of_false error_ne_ok (by rintro ⟨⟨⟩, -⟩)

theorem Command.exists_inputs_of_ofJson {json : Json} {index : Nat} {command : Command}
    (h : Command.ofJson json index = .ok command) :
    ∃ members inputs, json = .object [(command.operation.operator.key, .object members)] ∧
      members.lookup "in" = some (.array inputs) ∧
      command.operation.operator.Takes inputs.length := by
  cases json with
  | object entries =>
    obtain ⟨body, hbodies, hbody⟩ := ofBodies_eq_ok.mp h
    rw [bodiesOf_eq_map, List.map_eq_singleton_iff] at hbodies
    obtain ⟨⟨key, json⟩, rfl, ⟨⟩⟩ := hbodies
    obtain ⟨members, inputs, rfl, hin, hinputs, -⟩ := ofBody_eq_ok.mp hbody
    refine ⟨members, inputs, rfl, hin, ?_⟩
    have hlength := (Operation.ofInputs_eq_ok.mp hinputs).1.length_eq
    rw [List.length_map] at hlength
    rw [hlength]
    exact command.operation.takes_length_inputs
  | _ => cases h

/-- **The reader of commands accepts exactly its grammar.**

Every well-formed command is read back from its written form.  A document is accepted exactly if it
agrees with the written form of a well-formed command, up to members of operands and of bodies that
are ignored and a null in place of a name, and then it is read as this command.  So it has one key,
which is that of the operator, and as many inputs as the operator takes. -/
theorem Command.ofJson_iff_written (json : Json) (index : Nat) (command : Command) :
    (command.WellFormed → Command.ofJson command.toJson index = .ok command) ∧
    (Command.ofJson json index = .ok command ↔
      command.WellFormed ∧ json.tidyCommand = command.toJson) ∧
    (Command.ofJson json index = .ok command →
      ∃ members inputs, json = .object [(command.operation.operator.key, .object members)] ∧
        members.lookup "in" = some (.array inputs) ∧
        command.operation.operator.Takes inputs.length) := by
  refine ⟨fun hformed => ofJson_eq_ok_iff.mpr ⟨?_, hformed⟩, ?_, exists_inputs_of_ofJson⟩
  · rw [toJson, Json.tidyCommand, Json.tidyBodies, Json.tidyBodies,
      command.operation.tidyBody_body]
  · rw [ofJson_eq_ok_iff, and_comm]

/-- A hash of a nested operation and of a literal. -/
def digestCommand : Command :=
  ⟨.hash "poseidon" [
    .function (.transform (.reference ["private", "age"]) ⟨"uint64", "fields"⟩) none,
    .static (.text "salt") ⟨[⟨"ascii", "bytes"⟩], ⟨"bytes", "field"⟩⟩], some "digest"⟩

/-- The same command with members in another order, members that are ignored, and a null. -/
def digestDocument : Json :=
  .object [("hash", .object [
    ("note", .null),
    ("out", .string "digest"),
    ("in", .array [
      .string "poseidon",
      .object [
        ("transform", .object [
          ("in", .array [
            .object [
              ("path", .array [.string "private", .string "age"]),
              ("hint", .bool true),
              ("type", .string "reference")],
            .string "uint64-fields"]),
          ("out", .null)]),
        ("type", .string "function")],
      .object [
        ("type", .string "static"),
        ("transLinks", .array [.string "ascii-bytes", .string "bytes-field"]),
        ("value", .string "salt")]])])]

theorem digestCommand_wellFormed : digestCommand.WellFormed := by
  refine ⟨?_, Operation.forall_nested_legible_iff.mpr ⟨?_, by rintro value link ⟨⟩⟩⟩
  · rintro name ⟨⟩
    decide
  · intro input hm
    rcases List.mem_cons.mp hm with rfl | hm
    · trivial
    · simp only [List.map_cons, List.map_nil, List.mem_cons, List.not_mem_nil, or_false] at hm
      rcases hm with rfl | rfl
      · refine ⟨by rintro name ⟨⟩, ?_⟩
        rintro inner out ⟨⟩
        refine Operation.forall_nested_legible_iff.mpr ⟨?_, ?_⟩
        · intro input hm
          simp only [Operation.inputs, List.mem_cons, List.not_mem_nil, or_false] at hm
          rcases hm with rfl | rfl
          · exact ⟨List.cons_ne_nil _ _, by rintro inner out ⟨⟩⟩
          · trivial
        · rintro value link ⟨⟩
          decide
      · exact ⟨List.forall_mem_cons.mpr ⟨by decide, List.forall_mem_singleton.mpr (by decide)⟩,
          by rintro inner out ⟨⟩⟩

/-- Both documents read as the command. -/
theorem Command.ofJson_iff_written_digest :
    digestCommand.WellFormed ∧ digestDocument.tidyCommand = digestCommand.toJson ∧
      Command.ofJson digestCommand.toJson 0 = .ok digestCommand ∧
      Command.ofJson digestDocument 0 = .ok digestCommand := by
  have htidy : digestDocument.tidyCommand = digestCommand.toJson := by rfl
  obtain ⟨hback, haccepts, -⟩ := Command.ofJson_iff_written digestDocument 0 digestCommand
  exact ⟨digestCommand_wellFormed, htidy, hback digestCommand_wellFormed,
    haccepts.mpr ⟨digestCommand_wellFormed, htidy⟩⟩

end Circuitry
