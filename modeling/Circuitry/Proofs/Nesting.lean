import Circuitry.Proofs.Resolution
import Circuitry.Source.Command

/-!
# Operations within operations

Operands can be operations themselves, so a command is a tree of operations.  `Operation.Nested`
says which operations stand in it and at which depths, and `Operation.ind` is induction along the
nesting.

Whether an operation has an expression is a question about every operation in it on its own: about
its depth, its operands and its link (`Operation.Admissible`).  None of the answers depends on the
order in which operands are translated (`Operation.expr_isOk_iff`).  The expression itself is made
from those of the operands (`Operation.expr_eq_ok`), so it has what all of them have and operations
keep (`Operation.expr_ind`).  It depends on the names only through the references in it
(`Operation.expr_congr`).
-/

namespace Circuitry

open Fallible

namespace Operation

/-! ### Nesting -/

/-- `Nested start outer depth inner`: in the operation `outer`, which stands at the depth `start`,
the operation `inner` stands at the given depth. -/
inductive Nested : Nat → Operation → Nat → Operation → Prop
  | self (start : Nat) (operation : Operation) : Nested start operation start operation
  | deeper {start depth : Nat} {outer middle inner : Operation} {out : Option String}
      (hmem : .function middle out ∈ outer.operands)
      (hnested : Nested (start + 1) middle depth inner) : Nested start outer depth inner

/-- What holds throughout an operation holds of itself and throughout its operands. -/
theorem forall_nested_iff {start : Nat} {outer : Operation} {motive : Nat → Operation → Prop} :
    (∀ depth inner, Nested start outer depth inner → motive depth inner) ↔
      motive start outer ∧ ∀ middle out, .function middle out ∈ outer.operands →
        ∀ depth inner, Nested (start + 1) middle depth inner → motive depth inner := by
  constructor
  · intro h
    exact ⟨h start outer (.self start outer),
      fun middle out hmem depth inner hnested => h depth inner (.deeper hmem hnested)⟩
  · rintro ⟨hself, hdeeper⟩ depth inner hnested
    cases hnested with
    | self => exact hself
    | deeper hmem hnested => exact hdeeper _ _ hmem depth inner hnested

theorem sizeOf_lt_of_mem_operands {operation : Operation} {operand : Variable}
    (h : operand ∈ operation.operands) : sizeOf operand < sizeOf operation := by
  cases operation with
  | hash algorithm inputs =>
    have hlt : sizeOf operand < sizeOf inputs := List.sizeOf_lt_of_mem h
    simp only [hash.sizeOf_spec]
    omega
  | _ =>
    simp only [operands, List.mem_cons, List.not_mem_nil, or_false] at h
    rcases h with rfl | rfl | rfl <;> simp <;> omega

/-- **Induction along the nesting**: from the operands that are operations to the operation. -/
theorem ind {motive : Operation → Prop}
    (step : ∀ operation : Operation,
      (∀ inner out, .function inner out ∈ operation.operands → motive inner) → motive operation)
    (operation : Operation) : motive operation :=
  step operation fun inner out hmem =>
    have : sizeOf inner < sizeOf operation := by
      have hlt := sizeOf_lt_of_mem_operands hmem
      simp only [Variable.function.sizeOf_spec] at hlt
      omega
    ind step inner
termination_by sizeOf operation

end Operation

/-! ### Expressions -/

/-- The types between which commands transform values. -/
def Link.transforms : List (String × String) :=
  [("uint64", "fields"), ("signature", "fields"), ("publickey", "fields"), ("string", "fields"),
    ("field", "uint64"), ("bool", "field")]

theorem Link.mem_transforms {source target : String} :
    (source, target) ∈ transforms ↔
      (target = "fields" ∧ source ∈ ["uint64", "signature", "publickey", "string"]) ∨
        (source = "field" ∧ target = "uint64") ∨ source = "bool" ∧ target = "field" := by
  simp only [transforms, List.mem_cons, Prod.mk.injEq, List.not_mem_nil, or_false]
  grind

theorem Link.transformExpr_isOk_iff {link : Link} {operand : Expr} :
    (∃ expr, link.transformExpr operand = .ok expr) ↔
      (link.sourceType, link.targetType) ∈ transforms := by
  rw [mem_transforms]
  unfold transformExpr
  dsimp only
  split
  · rename_i hfields
    exact iff_of_true ⟨_, rfl⟩ (.inl hfields)
  · rename_i hfields
    split
    · rename_i hfield
      exact iff_of_true ⟨_, rfl⟩ (.inr (.inl hfield))
    · rename_i hfield
      split
      · rename_i hbool
        exact iff_of_true ⟨_, rfl⟩ (.inr (.inr hbool))
      · rename_i hbool
        exact iff_of_false nofun (not_or.mpr ⟨hfields, not_or.mpr ⟨hfield, hbool⟩⟩)

/-- What an operand may be, given what the names declare: a literal that can be written, a constant
that there is, a declared path, or the nameless result of an operation. -/
def Variable.Usable (converter : Converter) (declared : Path → Prop) : Variable → Prop
  | .static value chain => ∃ expr, Literal.staticExpr converter value chain = .ok expr
  | .setup _ => False
  | .constant name => ∃ constant ∈ Constant.all, constant.name = name
  | .reference path => declared path
  | .function _ out => out = none

/-- What an operation at a depth must be like for itself. -/
structure Operation.Admissible (converter : Converter) (maxDepth : Nat) (declared : Path → Prop)
    (depth : Nat) (operation : Operation) : Prop where
  depth_le : depth ≤ maxDepth
  usable : ∀ operand ∈ operation.operands, operand.Usable converter declared
  link : ∀ value link, operation = .transform value link →
    (link.sourceType, link.targetType) ∈ Link.transforms

theorem exprsOf_isOk_iff {scope : Scope} {depth : Nat} {operator : Operator}
    {operands : List Variable} :
    (∃ exprs, exprsOf scope depth operator operands = .ok exprs) ↔
      ∀ operand ∈ operands, ∃ expr, operand.expr scope depth operator = .ok expr := by
  induction operands with
  | nil => simp [exprsOf]
  | cons operand rest ih =>
    rw [exprsOf, List.forall_mem_cons, ← ih]
    simp [exists_bind_eq_ok, exists_map_eq_ok]

theorem Operation.expr_step {scope : Scope} {depth : Nat} {operation : Operation} :
    (∃ expr, operation.expr scope depth = .ok expr) ↔
      depth ≤ scope.maxDepth ∧
        (∀ operand ∈ operation.operands,
          ∃ expr, operand.expr scope depth operation.operator = .ok expr) ∧
        ∀ value link, operation = .transform value link →
          (link.sourceType, link.targetType) ∈ Link.transforms := by
  by_cases hdepth : depth ≤ scope.maxDepth
  · rw [Operation.expr.eq_def, if_neg (Nat.not_lt.mpr hdepth)]
    cases operation with
    | transform value link =>
      simp [exists_bind_eq_ok, operands, operator, hdepth, Link.transformExpr_isOk_iff]
    | hash algorithm inputs =>
      simp [exists_map_eq_ok, operands, operator, hdepth, exprsOf_isOk_iff]
    | verifySign algorithm signature message publicKey =>
      simp [exists_bind_eq_ok, exists_map_eq_ok, operands, operator, hdepth, and_comm]
    | _ => simp [exists_bind_eq_ok, exists_map_eq_ok, operands, operator, hdepth]
  · rw [Operation.expr.eq_def, if_pos (Nat.not_le.mp hdepth)]
    simp [hdepth, exists_bind_eq_ok]

theorem Variable.expr_step {scope : Scope} {depth : Nat} {operator : Operator}
    {operand : Variable} :
    (∃ expr, operand.expr scope depth operator = .ok expr) ↔
      operand.Usable scope.converter (fun path => scope.names.contains path = true) ∧
        ∀ inner out, operand = .function inner out →
          ∃ expr, inner.expr scope (depth + 1) = .ok expr := by
  cases operand with
  | static value chain => simp [Variable.expr, Usable]
  | setup chain => simp [Variable.expr, Usable]
  | constant name =>
    have hfound : (∃ constant, Constant.ofName? name = some constant) ↔
        ∃ constant ∈ Constant.all, constant.name = name := by
      rw [← Option.isSome_iff_exists, Constant.ofName?, List.find?_isSome]
      simp only [beq_iff_eq]
    simpa [Variable.expr, Usable, map_eq_ok, InputValues.constantParse_eq_ok] using hfound
  | reference path => by_cases h : scope.names.contains path <;> simp [Variable.expr, Usable, h]
  | function inner out => cases out <;> simp [Variable.expr, Usable]

/-- **An operation has an expression if every operation in it is admissible.**  The induction is
along the nesting; the depth grows with it. -/
theorem Operation.expr_isOk_iff {scope : Scope} {start : Nat} (operation : Operation) :
    (∃ expr, operation.expr scope start = .ok expr) ↔
      ∀ depth inner, Nested start operation depth inner →
        inner.Admissible scope.converter scope.maxDepth
          (fun path => scope.names.contains path = true) depth := by
  induction operation using Operation.ind generalizing start with
  | step operation ih =>
    rw [expr_step, forall_nested_iff]
    constructor
    · rintro ⟨hdepth, hoperands, hlink⟩
      refine ⟨⟨hdepth, fun operand hmem => (Variable.expr_step.mp (hoperands operand hmem)).1,
        hlink⟩, fun middle out hmem => ?_⟩
      exact (ih middle out hmem).mp ((Variable.expr_step.mp (hoperands _ hmem)).2 middle out rfl)
    · rintro ⟨⟨hdepth, husable, hlink⟩, hdeeper⟩
      refine ⟨hdepth, fun operand hmem => Variable.expr_step.mpr ⟨husable operand hmem, ?_⟩, hlink⟩
      rintro middle out rfl
      exact (ih middle out hmem).mpr (hdeeper middle out hmem)

/-! ### How an expression is made -/

/-- What the expression of an operation is, given those of its operands. -/
@[mk_iff]
inductive Operation.Assembled : Operation → List Expr → Expr → Prop
  | binary (operator : BinaryOperator) (left right : Variable) (receiver argument : Expr) :
      Assembled (.binary operator left right) [receiver, argument]
        (.method receiver operator.method [argument])
  | assert (value : Variable) (expr : Expr) :
      Assembled (.assert value) [expr] (.method expr "assertTrue" [])
  | ternary (condition whenTrue whenFalse : Variable) (test yes no : Expr) :
      Assembled (.ternary condition whenTrue whenFalse) [test, yes, no]
        (.call "Provable.if" [test, yes, no])
  | transform (value : Variable) (link : Link) (operand expr : Expr)
      (hlink : link.transformExpr operand = .ok expr) :
      Assembled (.transform value link) [operand] expr
  | verifySign (algorithm : String) (signature message publicKey : Variable)
      (signed text key : Expr) :
      Assembled (.verifySign algorithm signature message publicKey) [signed, text, key]
        (.method signed "verify" [key, .array [text]])
  | hash (algorithm : String) (inputs : List Variable) (items : List Expr) :
      Assembled (.hash algorithm inputs) items (.call "Poseidon.hash" [.array items])
  | spread (value : Variable) (list : Expr) : Assembled (.spread value) [list] (.spread list)
  | not (value : Variable) (expr : Expr) :
      Assembled (.not value) [expr] (.method expr "not" [])

theorem exprsOf_eq_ok {scope : Scope} {depth : Nat} {operator : Operator}
    {operands : List Variable} {exprs : List Expr} :
    exprsOf scope depth operator operands = .ok exprs ↔
      List.Forall₂ (fun operand expr => operand.expr scope depth operator = .ok expr)
        operands exprs := by
  induction operands generalizing exprs with
  | nil => simp [exprsOf, eq_comm]
  | cons operand rest ih =>
    rw [exprsOf, bind_eq_ok, List.forall₂_cons_left_iff]
    constructor
    · rintro ⟨first, hfirst, hrest⟩
      obtain ⟨others, hothers, heq⟩ := bind_eq_ok.mp hrest
      exact ⟨first, others, hfirst, ih.mp hothers, (pure_eq_ok.mp heq).symm⟩
    · rintro ⟨first, others, hfirst, hothers, rfl⟩
      exact ⟨first, hfirst, bind_eq_ok.mpr ⟨others, ih.mpr hothers, rfl⟩⟩

/-- **An expression is made from those of the operands**, each translated on its own. -/
theorem Operation.expr_eq_ok {scope : Scope} {depth : Nat} {operation : Operation} {expr : Expr} :
    operation.expr scope depth = .ok expr ↔ depth ≤ scope.maxDepth ∧
      ∃ exprs, List.Forall₂
        (fun operand expr => operand.expr scope depth operation.operator = .ok expr)
        operation.operands exprs ∧ operation.Assembled exprs expr := by
  by_cases hdepth : depth ≤ scope.maxDepth
  · rw [Operation.expr.eq_def, if_neg (Nat.not_lt.mpr hdepth)]
    cases operation with
    | hash algorithm inputs =>
      simp [-bind_pure_comp, operands, operator, hdepth, assembled_iff, bind_eq_ok, pure_eq_ok,
        exprsOf_eq_ok, eq_comm (b := expr)]
    | verifySign algorithm signature message publicKey =>
      -- The key is translated before the message, which makes no difference to the result.
      simp [-bind_pure_comp, operands, operator, hdepth, assembled_iff, bind_eq_ok, pure_eq_ok,
        eq_comm (b := expr), and_assoc]
      grind
    | _ =>
      simp [-bind_pure_comp, operands, operator, hdepth, assembled_iff, bind_eq_ok, pure_eq_ok,
        eq_comm (b := expr), and_assoc]
  · rw [Operation.expr.eq_def, if_pos (Nat.not_le.mp hdepth)]
    simp [hdepth, bind_eq_ok]

/-- **What all parts of an expression have, it has itself.**  The parts are literals, constants and
references to paths that have names, and every operation keeps what the expressions of its operands
have. -/
theorem Operation.expr_ind {scope : Scope} {motive : Expr → Prop}
    (static : ∀ {value : Scalar} {chain : Chain} {expr : Expr},
      Literal.staticExpr scope.converter value chain = .ok expr → motive expr)
    (constant : ∀ {name : String} {constant : Constant}, Constant.ofName? name = some constant →
      motive (.atom constant.expression))
    (reference : ∀ {path : Path}, scope.names.contains path = true → motive (.reference path))
    (assembled : ∀ {operation : Operation} {items : List Expr} {expr : Expr},
      (∀ item ∈ items, motive item) → operation.Assembled items expr → motive expr)
    (operation : Operation) {depth : Nat} {expr : Expr}
    (h : operation.expr scope depth = .ok expr) : motive expr := by
  induction operation using Operation.ind generalizing depth expr with
  | step operation ih =>
    obtain ⟨-, items, hitems, hassembled⟩ := expr_eq_ok.mp h
    have hoperand : ∀ operand ∈ operation.operands, ∀ expr,
        operand.expr scope depth operation.operator = .ok expr → motive expr := by
      intro operand hm expr hexpr
      cases operand with
      | static value chain => exact static hexpr
      | setup chain => cases hexpr
      | constant name =>
        obtain ⟨found, hfound, rfl⟩ := map_eq_ok.mp hexpr
        exact constant (InputValues.constantParse_eq_ok.mp hfound)
      | reference path =>
        rw [Variable.expr] at hexpr
        split at hexpr
        · rename_i hcontains
          cases hexpr
          exact reference hcontains
        · cases hexpr
      | function inner out =>
        cases out with
        | none => exact ih inner none hm hexpr
        | some out => cases hexpr
    have hboth := ((List.forall₂_and_left _ _).mpr ⟨hoperand, hitems⟩).flip
    refine assembled ((List.forall₂_and_left (R := fun _ _ => True) _ _).mp (hboth.imp ?_)).1
      hassembled
    exact fun expr operand both => ⟨both.1 expr both.2, trivial⟩

/-! ### What an expression depends on -/

section

variable {converter : Converter} {maxDepth depth : Nat} {names other : Names}

theorem exprsOf_congr {operator : Operator} {operands : List Variable}
    (h : ∀ operand ∈ operands, operand.expr ⟨converter, maxDepth, names⟩ depth operator
      = operand.expr ⟨converter, maxDepth, other⟩ depth operator) :
    exprsOf ⟨converter, maxDepth, names⟩ depth operator operands
      = exprsOf ⟨converter, maxDepth, other⟩ depth operator operands := by
  induction operands with
  | nil => rfl
  | cons operand rest ih =>
    rw [exprsOf, exprsOf, h operand List.mem_cons_self,
      ih fun operand hm => h operand (List.mem_cons_of_mem _ hm)]

theorem Operation.expr_congr_operands {operation : Operation}
    (h : ∀ operand ∈ operation.operands,
      operand.expr ⟨converter, maxDepth, names⟩ depth operation.operator
        = operand.expr ⟨converter, maxDepth, other⟩ depth operation.operator) :
    operation.expr ⟨converter, maxDepth, names⟩ depth
      = operation.expr ⟨converter, maxDepth, other⟩ depth := by
  rw [Operation.expr.eq_def, Operation.expr.eq_def ⟨converter, maxDepth, other⟩]
  cases operation with
  | hash algorithm inputs =>
    have hinputs : exprsOf ⟨converter, maxDepth, names⟩ depth .hash inputs
        = exprsOf ⟨converter, maxDepth, other⟩ depth .hash inputs := exprsOf_congr h
    simp only [hinputs]
  | _ =>
    simp only [operands, operator, List.forall_mem_cons, List.not_mem_nil, false_implies,
      implies_true, and_true] at h
    simp only [h]

/-- **An expression depends on the names through its references only**: on whether the paths to
which the operations in it refer have names. -/
theorem Operation.expr_congr (operation : Operation) {start : Nat}
    (h : ∀ depth inner, Nested start operation depth inner →
      ∀ path, .reference path ∈ inner.operands → names.contains path = other.contains path) :
    operation.expr ⟨converter, maxDepth, names⟩ start
      = operation.expr ⟨converter, maxDepth, other⟩ start := by
  induction operation using Operation.ind generalizing start with
  | step operation ih =>
    obtain ⟨hself, hdeeper⟩ := forall_nested_iff.mp h
    refine expr_congr_operands fun operand hm => ?_
    cases operand with
    | reference path => simp only [Variable.expr, hself path hm]
    | function inner out =>
      cases out with
      | none => simp only [Variable.expr, ih inner none hm (hdeeper inner none hm)]
      | some out => rfl
    | static value chain => rfl
    | setup chain => rfl
    | constant name => rfl

end

end Circuitry
