import Circuitry.Program.Command
import Circuitry.Proofs.Fallible

/-!
# Inputs by their positions

The rules of the operators can be read in two ways.  `Operation.ofInputs` goes by the shape of the
list: every operator names its inputs.  `Operation.ofKey` goes by the key of the operator, counts
the inputs and then takes each of them by its position, so it has two more ways to fail: a position
may lie beyond the end, and the key may belong to no operator.

Both readings agree on every key that is accepted (`Operation.ofKey_eq_ofInputs`).  So every
position that a rule looks at has an input, and no accepted key is left without a rule.
-/

namespace Circuitry

open Fallible

universe u v

inductive PositionError where
  /-- A rule refuses the inputs. -/
  | refused (cause : CompileError)
  /-- There is no input at a position that a rule looks at. -/
  | outOfRange (index : Nat)
  /-- No rule is for this key. -/
  | noRule (key : String)

def BinaryOperator.all : List BinaryOperator :=
  [.add, .sub, .mul, .equal, .greater, .greaterEqual, .less, .lessEqual]

namespace Operation

def inputAt (inputs : List Reading) (index : Nat) : Except PositionError Reading :=
  match inputs[index]? with
  | some input => .ok input
  | none => .error (.outOfRange index)

def operandAt (operator : Operator) (inputs : List Reading) (index : Nat) :
    Except PositionError Variable := do
  let input ← inputAt inputs index
  (operand operator index input).mapError .refused

def tagAt (operator : Operator) (inputs : List Reading) (index : Nat) :
    Except PositionError String := do
  let input ← inputAt inputs index
  (tag operator index input).mapError .refused

def require (operator : Operator) (count : Nat) (inputs : List Reading) :
    Except PositionError Unit :=
  if inputs.length = count then .ok ()
  else .error (.refused (.wrongArity operator inputs.length))

/-- The operation of an operator on its inputs, which are counted and taken by their positions. -/
def byPositions (operator : Operator) (inputs : List Reading) : Except PositionError Operation := do
  match operator with
  | .binary op =>
    require operator 2 inputs
    let left ← operandAt operator inputs 0
    let right ← operandAt operator inputs 1
    return .binary op left right
  | .assert =>
    require operator 1 inputs
    return .assert (← operandAt operator inputs 0)
  | .not =>
    require operator 1 inputs
    return .not (← operandAt operator inputs 0)
  | .spread =>
    require operator 1 inputs
    return .spread (← operandAt operator inputs 0)
  | .ternary =>
    require operator 3 inputs
    let condition ← operandAt operator inputs 0
    let whenTrue ← operandAt operator inputs 1
    let whenFalse ← operandAt operator inputs 2
    return .ternary condition whenTrue whenFalse
  | .transform =>
    require operator 2 inputs
    let text ← tagAt operator inputs 1
    let link ← ((Link.parse text).mapError CompileError.conversion).mapError .refused
    return .transform (← operandAt operator inputs 0) link
  | .verifySign =>
    require operator 4 inputs
    let algorithm ← tagAt operator inputs 0
    let signature ← operandAt operator inputs 1
    let message ← operandAt operator inputs 2
    let publicKey ← operandAt operator inputs 3
    return .verifySign algorithm signature message publicKey
  | .hash =>
    if inputs.isEmpty then throw (.refused (.wrongArity operator inputs.length))
    let operands ← (List.range' 1 (inputs.length - 1)).mapM (operandAt operator inputs)
    return .hash (← tagAt operator inputs 0) operands

/-- The same for an operator that is known by its key: the binary operators are looked up in their
list, and every other operator has a rule of its own. -/
def ofKey (key : String) (inputs : List Reading) : Except PositionError Operation :=
  match BinaryOperator.all.find? fun operator => operator.key == key with
  | some operator => byPositions (.binary operator) inputs
  | none =>
    match key with
    | "assert" => byPositions .assert inputs
    | "not" => byPositions .not inputs
    | "spread" => byPositions .spread inputs
    | "ternary" => byPositions .ternary inputs
    | "transform" => byPositions .transform inputs
    | "verifySign" => byPositions .verifySign inputs
    | "hash" => byPositions .hash inputs
    | other => .error (.noRule other)

/-! ### Both readings agree -/

theorem mapError_bind {ε ε' : Type u} {α β : Type v} (x : Except ε α) (f : α → Except ε β)
    (word : ε → ε') :
    (x >>= f).mapError word = x.mapError word >>= fun a => (f a).mapError word := by
  cases x <;> rfl

theorem operandAt_of_getElem? {inputs : List Reading} {index : Nat} {input : Reading}
    (operator : Operator) (h : inputs[index]? = some input) :
    operandAt operator inputs index = (operand operator index input).mapError .refused := by
  rw [operandAt, inputAt, h]
  rfl

theorem refused_by_require {operator : Operator} {count : Nat} {inputs : List Reading}
    {rule : Unit → Except PositionError Operation} (h : inputs.length ≠ count) :
    (require operator count inputs >>= rule) =
      .error (.refused (.wrongArity operator inputs.length)) := by
  rw [require, if_neg h]
  rfl

theorem mapM_operandAt (operator : Operator) (before rest : List Reading) :
    (List.range' before.length rest.length).mapM (operandAt operator (before ++ rest)) =
      ((rest.zipIdx before.length).mapM fun (input, index) =>
        operand operator index input).mapError .refused := by
  induction rest generalizing before with
  | nil => rfl
  | cons input rest ih =>
    have hnext := ih (before ++ [input])
    rw [List.length_append, List.length_singleton, List.append_assoc] at hnext
    have hinput : (before ++ input :: rest)[before.length]? = some input := by simp
    rw [List.length_cons, List.range'_succ, List.mapM_cons, List.zipIdx_cons, List.mapM_cons,
      mapError_bind, operandAt_of_getElem? operator hinput]
    refine congrArg _ (funext fun first => ?_)
    rw [mapError_bind, ← hnext]
    rfl

/-- **Every position that a rule looks at has an input.** -/
theorem byPositions_eq_ofInputs (operator : Operator) (inputs : List Reading) :
    byPositions operator inputs = (ofInputs operator inputs).mapError .refused := by
  -- A list of a wrong length is refused before any position is looked at.
  cases operator with
  | assert | not | spread =>
    match inputs with
    | [value] =>
      simp only [byPositions, ofInputs, mapError_bind]
      rfl
    | [] | _ :: _ :: _ => exact refused_by_require (by simp)
  | binary op | transform =>
    match inputs with
    | [left, right] =>
      simp only [byPositions, ofInputs, mapError_bind]
      rfl
    | [] | [_] | _ :: _ :: _ :: _ => exact refused_by_require (by simp)
  | ternary =>
    match inputs with
    | [condition, whenTrue, whenFalse] =>
      simp only [byPositions, ofInputs, mapError_bind]
      rfl
    | [] | [_] | [_, _] | _ :: _ :: _ :: _ :: _ => exact refused_by_require (by simp)
  | verifySign =>
    match inputs with
    | [algorithm, signature, message, publicKey] =>
      simp only [byPositions, ofInputs, mapError_bind]
      rfl
    | [] | [_] | [_, _] | [_, _, _] | _ :: _ :: _ :: _ :: _ :: _ =>
      exact refused_by_require (by simp)
  | hash =>
    match inputs with
    | [] => rfl
    | algorithm :: rest =>
      have hrest : (List.range' 1 rest.length).mapM (operandAt .hash (algorithm :: rest)) =
          ((rest.zipIdx 1).mapM fun (input, index) =>
            operand .hash index input).mapError .refused :=
        mapM_operandAt .hash [algorithm] rest
      simp only [ofInputs, mapError_bind]
      rw [← hrest]
      rfl

theorem find?_key (operator : BinaryOperator) :
    (BinaryOperator.all.find? fun other => other.key == operator.key) = some operator := by
  cases operator <;> decide

theorem ofKey_key (operator : Operator) (inputs : List Reading) :
    ofKey operator.key inputs = byPositions operator inputs := by
  cases operator with
  | binary op =>
    unfold ofKey
    rw [show (Operator.binary op).key = op.key from rfl, find?_key]
  | _ => rfl

/-- **Reading by positions is reading by shape.**  For every key that belongs to an operator, both
give the same operation or refuse the inputs for the same cause. -/
theorem ofKey_eq_ofInputs {key : String} {operator : Operator}
    (h : Command.operatorOf key = .ok operator) (inputs : List Reading) :
    ofKey key inputs = (ofInputs operator inputs).mapError .refused := by
  have hkey : operator.key = key := by
    unfold Command.operatorOf at h
    split at h
    · rename_i found hfound
      cases h
      exact beq_iff_eq.mp (List.find?_some (p := fun found : Operator => found.key == key) hfound)
    · cases h
  rw [← hkey, ofKey_key, byPositions_eq_ofInputs]

end Operation

end Circuitry
