import Circuitry.Proofs.Nesting
import Circuitry.Proofs.Written

/-!
# Written commands

Every command has one written form, `Command.toJson`: an object with its operator as the only key,
whose body has the inputs of the operation under `in`.  The inputs are operands and texts
(`Operation.inputs`), and a function among the operands is written like a command, beside its kind.

A document may have more members than that: operands and bodies of operators are known by a few keys
and their other members are ignored, and a result without a name may be written as a null.
`Json.tidyCommand` takes all that away.  The lemmas here say which documents are left with a given
written form (`Json.tidyBody_eq_body`, `Json.tidyMembers_eq_ownMembers`,
`Json.tidyInput_eq_function`).  Written forms are left as they are (`Operation.tidyBody_body`).
-/

namespace Circuitry

/-! ### Written forms -/

/-- The body of an operator: its inputs, and the name of its result if it has one. -/
def Json.body (inputs : List Json) (out : Option String) : Json :=
  .object (("in", .array inputs) :: (out.map fun name => ("out", .string name)).toList)

mutual

def Variable.toJson : Variable → Json
  | .static value chain => .object (Variable.static value chain).ownMembers
  | .setup chain => .object (Variable.setup chain).ownMembers
  | .constant name => .object (Variable.constant name).ownMembers
  | .reference path => .object (Variable.reference path).ownMembers
  | .function operation out =>
    .object [("type", .string "function"), (operation.operator.key, .body operation.toItems out)]

def Operation.toItems : Operation → List Json
  | .binary _ left right => [left.toJson, right.toJson]
  | .assert value => [value.toJson]
  | .ternary condition whenTrue whenFalse =>
    [condition.toJson, whenTrue.toJson, whenFalse.toJson]
  | .transform value link => [value.toJson, .string link.display]
  | .verifySign algorithm signature message publicKey =>
    [.string algorithm, signature.toJson, message.toJson, publicKey.toJson]
  | .hash algorithm inputs => .string algorithm :: toItemsOf inputs
  | .spread value => [value.toJson]
  | .not value => [value.toJson]

def toItemsOf : List Variable → List Json
  | [] => []
  | operand :: rest => operand.toJson :: toItemsOf rest

end

/-- A command as it is written: its operator is its only key. -/
def Command.toJson (command : Command) : Json :=
  .object [(command.operation.operator.key, .body command.operation.toItems command.out)]

def Operator.Takes : Operator → Nat → Prop
  | .binary _, count | .transform, count => count = 2
  | .assert, count | .spread, count | .not, count => count = 1
  | .ternary, count => count = 3
  | .verifySign, count => count = 4
  | .hash, count => 1 ≤ count

/-! ### Inputs -/

/-- An input of an operation: an operand, or a text. -/
inductive Input where
  | operand (value : Variable)
  | tag (text : String)

def Input.toJson : Input → Json
  | .operand value => value.toJson
  | .tag text => .string text

namespace Operation

def inputs : Operation → List Input
  | .binary _ left right => [.operand left, .operand right]
  | .assert value => [.operand value]
  | .ternary condition whenTrue whenFalse =>
    [.operand condition, .operand whenTrue, .operand whenFalse]
  | .transform value link => [.operand value, .tag link.display]
  | .verifySign algorithm signature message publicKey =>
    [.tag algorithm, .operand signature, .operand message, .operand publicKey]
  | .hash algorithm inputs => .tag algorithm :: inputs.map .operand
  | .spread value => [.operand value]
  | .not value => [.operand value]

theorem toItemsOf_eq_map (operands : List Variable) :
    toItemsOf operands = (operands.map Input.operand).map Input.toJson := by
  induction operands with
  | nil => rfl
  | cons operand rest ih => rw [toItemsOf, ih, List.map_cons, List.map_cons, Input.toJson]

theorem toItems_eq_map (operation : Operation) :
    operation.toItems = operation.inputs.map Input.toJson := by
  cases operation with
  | hash algorithm operands => rw [toItems, toItemsOf_eq_map, inputs, List.map_cons, Input.toJson]
  | _ => rfl

theorem operand_mem_inputs {operation : Operation} {value : Variable} :
    .operand value ∈ operation.inputs ↔ value ∈ operation.operands := by
  cases operation <;> simp [inputs, operands]

theorem takes_length_inputs (operation : Operation) :
    operation.operator.Takes operation.inputs.length := by
  cases operation <;> simp [inputs, operator, Operator.Takes]

end Operation

/-! ### Members that count -/

namespace Json

/-- The members with the given keys, in the order of the keys. -/
def keep (keys : List String) (members : List (String × Json)) : List (String × Json) :=
  keys.filterMap fun key => (members.lookup key).map fun json => (key, json)

/-- The members of an operand that count.  For a function they are taken from the bodies that are
given. -/
def tidyMembers (members bodies : List (String × Json)) : List (String × Json) :=
  match members.lookup "type" with
  | some (.string "static") => keep ["type", "value", "transLinks"] members
  | some (.string "setup") => keep ["type", "transLinks"] members
  | some (.string "constant") => keep ["type", "name"] members
  | some (.string "reference") => keep ["type", "path"] members
  | some (.string "function") =>
    ("type", .string "function") :: bodies.filter fun entry => entry.1 != "type"
  | _ => members

/-- The name of a result, where a null is no name. -/
def tidyOut : Option Json → List (String × Json)
  | none | some .null => []
  | some json => [("out", json)]

mutual

def tidyInput : Json → Json
  | .object members => .object (tidyMembers members (tidyBodies members))
  | other => other

def tidyBodies : List (String × Json) → List (String × Json)
  | [] => []
  | (key, json) :: rest => (key, tidyBody json) :: tidyBodies rest

def tidyBody : Json → Json
  | .object members => .object (tidyInputs members ++ tidyOut (members.lookup "out"))
  | other => other

def tidyInputs : List (String × Json) → List (String × Json)
  | [] => []
  | (key, json) :: rest => if key = "in" then [("in", tidyItems json)] else tidyInputs rest

def tidyItems : Json → Json
  | .array items => .array (tidyList items)
  | other => other

def tidyList : List Json → List Json
  | [] => []
  | item :: rest => tidyInput item :: tidyList rest

end

/-- A command without the members that are ignored. -/
def tidyCommand : Json → Json
  | .object members => .object (tidyBodies members)
  | other => other

theorem tidyBodies_eq_map (members : List (String × Json)) :
    tidyBodies members = members.map fun member => (member.1, tidyBody member.2) := by
  induction members with
  | nil => rfl
  | cons member rest ih => rw [tidyBodies, ih, List.map_cons]

theorem tidyList_eq_map (items : List Json) : tidyList items = items.map tidyInput := by
  induction items with
  | nil => rfl
  | cons item rest ih => rw [tidyList, ih, List.map_cons]

theorem tidyInputs_eq (members : List (String × Json)) :
    tidyInputs members = ((members.lookup "in").map fun json => ("in", tidyItems json)).toList := by
  induction members with
  | nil => rfl
  | cons member rest ih =>
    obtain ⟨key, json⟩ := member
    rw [tidyInputs, List.lookup_cons]
    by_cases hkey : key = "in"
    · rw [if_pos hkey, hkey]
      rfl
    · rw [if_neg hkey, beq_false_of_ne (Ne.symm hkey), ih]

theorem tidyBody_eq_body {json : Json} {inputs : List Json} {out : Option String} :
    tidyBody json = body inputs out ↔ ∃ members items, json = .object members ∧
      members.lookup "in" = some (.array items) ∧ items.map tidyInput = inputs ∧
      tidyOut (members.lookup "out") = (out.map fun name => ("out", .string name)).toList := by
  cases json with
  | object members =>
    rw [tidyBody, body, Json.object.injEq, tidyInputs_eq]
    cases hin : members.lookup "in" with
    | none =>
      refine iff_of_false (fun h => ?_) ?_
      · unfold tidyOut at h
        split at h <;> simp at h
      · rintro ⟨_, items, ⟨⟩, hitems, -⟩
        rw [hin] at hitems
        cases hitems
    | some found =>
      cases found with
      | array items => simp [tidyItems, tidyList_eq_map, hin]
      | _ => simp [tidyItems, hin]
  | _ => simp [tidyBody, body]

theorem keep_eq_iff {members wanted : List (String × Json)} :
    keep (wanted.map Prod.fst) members = wanted ↔
      ∀ member ∈ wanted, members.lookup member.1 = some member.2 := by
  have hkeep : keep (wanted.map Prod.fst) members = wanted.filterMap fun member =>
      (members.lookup member.1).map fun json => (member.1, json) := by
    rw [keep, List.filterMap_map]
    rfl
  conv => lhs; rhs; rw [← List.map_id wanted]
  rw [hkeep, List.filterMap_eq_map_iff_forall_eq_some]
  refine forall₂_congr fun member _ => ?_
  obtain ⟨key, json⟩ := member
  simp

theorem lookup_type_of_tidyMembers {members bodies rest : List (String × Json)} {json : Json}
    (h : tidyMembers members bodies = ("type", json) :: rest) :
    members.lookup "type" = some json := by
  unfold tidyMembers at h
  split at h
  case h_5 htype =>
    cases h
    exact htype
  case h_6 =>
    rw [h]
    rfl
  all_goals
    rename_i htype
    rw [keep, List.filterMap_cons, htype] at h
    cases h
    exact htype

theorem tidyMembers_eq_ownMembers {members bodies : List (String × Json)} {found : Variable}
    (hkind : found.kind ≠ "function") :
    tidyMembers members bodies = found.ownMembers ↔
      ∀ member ∈ found.ownMembers, members.lookup member.1 = some member.2 := by
  by_cases htype : members.lookup "type" = some (.string found.kind)
  · rw [← keep_eq_iff, tidyMembers, htype]
    cases found with
    | function operation out => exact absurd rfl hkind
    | _ => rfl
  · refine iff_of_false (fun h => htype ?_) fun h => htype ?_
    · cases found <;> exact lookup_type_of_tidyMembers h
    · cases found <;> exact h _ List.mem_cons_self

theorem tidyMembers_eq_function {members bodies : List (String × Json)}
    {entry : String × Json} :
    tidyMembers members bodies = [("type", .string "function"), entry] ↔
      members.lookup "type" = some (.string "function") ∧
        (bodies.filter fun entry => entry.1 != "type") = [entry] := by
  by_cases htype : members.lookup "type" = some (.string "function")
  · rw [tidyMembers, htype]
    simp
  · exact iff_of_false (fun h => htype (lookup_type_of_tidyMembers h)) fun h => htype h.1

end Json

theorem filter_map_eq_singleton {β : Type} {f : Json → β} {members : List (String × Json)}
    {key : String} {found : β} :
    (members.map fun member => (member.1, f member.2)).filter (fun entry => entry.1 != "type") =
      [(key, found)] ↔
    ∃ json, members.filter (fun member => member.1 != "type") = [(key, json)] ∧
      f json = found := by
  rw [List.filter_map, List.map_eq_singleton_iff]
  constructor
  · rintro ⟨⟨_, json⟩, hfilter, ⟨⟩⟩
    exact ⟨json, hfilter, rfl⟩
  · rintro ⟨json, hfilter, rfl⟩
    exact ⟨(key, json), hfilter, rfl⟩

theorem Json.tidyInput_eq_function {members : List (String × Json)} {operation : Operation}
    {out : Option String} :
    tidyInput (.object members) = (Variable.function operation out).toJson ↔
      members.lookup "type" = some (.string "function") ∧ ∃ json,
        members.filter (fun member => member.1 != "type") = [(operation.operator.key, json)] ∧
        tidyBody json = .body operation.toItems out := by
  rw [tidyInput, Variable.toJson, Json.object.injEq, tidyMembers_eq_function, tidyBodies_eq_map,
    filter_map_eq_singleton]

/-! ### Written forms are tidy -/

theorem Variable.toJson_of_kind {value : Variable} (hkind : value.kind ≠ "function") :
    value.toJson = .object value.ownMembers := by
  cases value with
  | function operation out => exact absurd rfl hkind
  | _ => rfl

theorem Variable.lookup_ownMembers (value : Variable) :
    ∀ member ∈ value.ownMembers, value.ownMembers.lookup member.1 = some member.2 := by
  cases value <;> simp [ownMembers, List.lookup_cons]

theorem Operator.key_ne_type (operator : Operator) : operator.key ≠ "type" := by
  cases operator with
  | binary op => cases op <;> decide
  | _ => decide

/-- Nothing of a written body is ignored.  The induction is along the nesting. -/
theorem Operation.tidyBody_body (operation : Operation) (out : Option String) :
    Json.tidyBody (.body operation.toItems out) = .body operation.toItems out := by
  induction operation using Operation.ind generalizing out with
  | step operation ih =>
    have hinput : ∀ input ∈ operation.inputs, Json.tidyInput input.toJson = input.toJson := by
      intro input hm
      cases input with
      | tag text => rfl
      | operand value =>
        have hvalue := operand_mem_inputs.mp hm
        rw [Input.toJson]
        cases value with
        | function inner name =>
          refine Json.tidyInput_eq_function.mpr ⟨rfl, _, ?_, ih inner name hvalue name⟩
          have hkey : (inner.operator.key != "type") = true := by
            simpa using inner.operator.key_ne_type
          simp [hkey]
        | _ =>
          rw [Variable.toJson_of_kind (by simp [Variable.kind]), Json.tidyInput,
            (Json.tidyMembers_eq_ownMembers (by simp [Variable.kind])).mpr
              (Variable.lookup_ownMembers _)]
    refine Json.tidyBody_eq_body.mpr ⟨_, operation.toItems, rfl, rfl, ?_, ?_⟩
    · rw [toItems_eq_map, List.map_map]
      exact List.map_congr_left hinput
    · cases out <;> rfl

end Circuitry
