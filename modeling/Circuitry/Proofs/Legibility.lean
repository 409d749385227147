import Circuitry.Proofs.LiteralText
import Circuitry.Proofs.Scope

/-!
# Expressions read as the operations they were made from

A statement is put together from texts, and whoever reads it has to find the operands again.  The
text of an expression shows its end: it closes with a parenthesis, or with the braces of a
placeholder.  So operands are cut into their own tokens wherever they stand, and the tokens of an
expression are those of the tree that is prescribed for its operation (`Operation.readsAs`).  As the
grammar is unambiguous, that tree is the only one that can be read.

There is one gap.  The integer of no bytes is written as `0x` and the suffix, and no literal of the
language looks like that.  Such an operand has no tree, and an expression with one in it cannot be
read at all (`Operation.isSome_tree?_iff`).
-/

namespace Circuitry

open Fallible

/-! ### Reading texts -/

namespace Script

/-- A text is an expression: its tokens are those of a tree of the grammar. -/
def Reads (text : String) (tree : Script) : Prop :=
  lex? text.toList = some tree.tokens ∧ tree.Grammatical

def read? (text : String) : Option Script :=
  (lex? text.toList).bind parse?

end Script

/-! ### Expressions -/

namespace Expr

/-- **An expression shows its end and is read as a tree**, or it cannot be read.  References are
written as placeholders. -/
def ReadsAs (expr : Expr) (tree : Option Script) : Prop :=
  Script.Lexes (expr.render Path.placeholder).toList (tree.map Script.tokens)

namespace ReadsAs

variable {expr : Expr} {tree : Option Script} {exprs : List Expr} {trees : List (Option Script)}

theorem reference {path : Path} (h : path.Spellable) : (Expr.reference path).ReadsAs
    (some (.slot path)) := by
  have hlexes := Script.Lexes.placeholder h
  simpa [ReadsAs, render, Script.tokens] using hlexes

theorem items (h : List.Forall₂ ReadsAs exprs trees) :
    Script.Lexes (", ".intercalate (renderAll Path.placeholder exprs)).toList
      ((trees.mapM id).map Script.tokensOf) := by
  induction h with
  | nil => exact .nil
  | @cons expr tree exprs trees hfirst hrest ih =>
    cases hrest with
    | nil =>
      have hlexes : Script.Lexes _ _ := hfirst
      cases tree <;> simpa [renderAll, Script.tokensOf, Script.tokensBehind] using hlexes
    | @cons next second _ others _ _ =>
      have hcomma := (Script.Lexes.mark (c := ',') rfl).append Script.Lexes.space
      have hlexes := (hfirst.append hcomma).append ih
      rw [renderAll, renderAll, String.intercalate_cons_cons, String.toList_append,
        String.toList_append]
      rw [renderAll] at hlexes
      cases tree with
      | none => simpa using hlexes
      | some first =>
        cases second with
        | none => simpa using hlexes
        | some second =>
          cases hothers : others.mapM id with
          | none => simpa [hothers] using hlexes
          | some others =>
            simpa [hothers, Script.tokensOf, Script.tokensBehind] using hlexes

theorem array (h : List.Forall₂ ReadsAs exprs trees) :
    (Expr.array exprs).ReadsAs ((trees.mapM id).map .array) := by
  have hlexes := ((Script.Lexes.mark (c := '[') rfl).append (items h)).append
    (Script.Lexes.mark (c := ']') rfl)
  rw [ReadsAs, render, String.toList_append, String.toList_append]
  cases hitems : trees.mapM id <;> simpa [hitems, Script.tokens] using hlexes

theorem call {function : String} (callee : Script)
    (hfunction : Script.Lexes (function ++ "(").toList (some (callee.tokens ++ [.opening])))
    (h : List.Forall₂ ReadsAs exprs trees) :
    (Expr.call function exprs).ReadsAs ((trees.mapM id).map (.call callee)) := by
  have hlexes := (hfunction.append (items h)).append (Script.Lexes.mark (c := ')') rfl)
  rw [ReadsAs, render, String.toList_append, String.toList_append]
  cases hitems : trees.mapM id <;> simpa [hitems, Script.tokens] using hlexes

theorem method {name : String} (hreceiver : expr.ReadsAs tree)
    (hname : Script.IsName name) (h : List.Forall₂ ReadsAs exprs trees) :
    (Expr.method expr name exprs).ReadsAs (tree.bind fun receiver =>
      (trees.mapM id).map (receiver.method name)) := by
  have hlexes := ((hreceiver.append (Script.Lexes.dotted hname)).append (items h)).append
    (Script.Lexes.mark (c := ')') rfl)
  have hrender : ((Expr.method expr name exprs).render Path.placeholder).toList
      = (expr.render Path.placeholder).toList ++ ("." ++ name ++ "(").toList ++
        (", ".intercalate (renderAll Path.placeholder exprs)).toList ++ [')'] := by
    simp [render]
  rw [ReadsAs, hrender]
  cases tree with
  | none => exact hlexes
  | some receiver =>
    cases hitems : trees.mapM id <;> simpa [hitems, Script.tokens, Script.method] using hlexes

/-- A function around a literal, which does not show its end by itself. -/
theorem wrap {function : String} (callee : Script) {literal : Literal}
    (hfunction : Script.Lexes (function ++ "(").toList (some (callee.tokens ++ [.opening])))
    (h : literal.Written) :
    (Expr.call function [.atom literal.render]).ReadsAs
      (literal.tree?.map fun argument => .call callee [argument]) := by
  have hlexes := hfunction.append h.lexes
  have hrender : ((Expr.call function [.atom literal.render]).render Path.placeholder).toList
      = (function ++ "(").toList ++ (literal.render.toList ++ [')']) := by
    simp [render, renderAll]
  rw [ReadsAs, hrender]
  cases htree : literal.tree? <;>
    simpa [htree, Script.tokens, Script.tokensOf, Script.tokensBehind] using hlexes

end ReadsAs

end Expr

/-! ### Operands -/

/-- **The constructor of a type around a literal is read as its tree.** -/
theorem SourceType.readsAs_construct {token : SourceType} {literal : Literal} {expr : Expr}
    (hliteral : literal.Written) (h : Literal.construct token literal = .ok expr) :
    expr.ReadsAs (token.tree? literal) := by
  have hfield : (Expr.call "Field" [.atom literal.render]).ReadsAs
      (literal.tree?.map fun argument => .call (.name "Field") [argument]) := by
    have hname : Script.IsName "Field" := by decide
    exact .wrap (.name "Field") (.function hname) hliteral
  have hquoted {function : String} (object name : String)
      (hfunction : function = object ++ "." ++ name) (hobject : Script.IsName object)
      (hname : Script.IsName name) (s : String) :
      (Expr.call function [.atom (Literal.text s).render]).ReadsAs
        (some (.method (.name object) name [.literal (.text s)])) :=
    .wrap (.member (.name object) name) (.static object name hfunction hobject hname) (.text s)
  cases Literal.constructed_of_construct h with
  | field => exact hfield
  | uint64 =>
    have houter := Expr.ReadsAs.call (.member (.name "UInt64") "from")
      (Script.Lexes.static "UInt64" "from" rfl (by decide) (by decide)) (.cons hfield .nil)
    cases htree : literal.tree? <;> simpa [htree, tree?, Script.method] using houter
  | @bool _ b htruth =>
    have hname : Script.IsName "Bool" := by decide
    have hreads := Expr.ReadsAs.wrap (.name "Bool") (.function hname) (.boolean b)
    rw [tree?, htruth]
    exact hreads
  | signature s => exact hquoted "Signature" "fromBase58" rfl (by decide) (by decide) s
  | publicKey s => exact hquoted "PublicKey" "fromBase58" rfl (by decide) (by decide) s
  | circuitString =>
    exact hquoted "CircuitString" "fromString" rfl (by decide) (by decide) literal.content

theorem Link.transformExpr_forms {link : Link} {operand expr : Expr}
    (h : link.transformExpr operand = .ok expr) :
    (∃ name, Script.IsName name ∧ expr = .method operand name [] ∧
      ∀ tree, link.tree? tree = some (tree.method name [])) ∨
    expr = .call "UInt64.from" [operand] ∧
      ∀ tree, link.tree? tree = some (.method (.name "UInt64") "from" [tree]) := by
  have hform {form : Script → Script} (hlookup : forms.lookup (link.sourceType, link.targetType)
      = some form) (tree : Script) : link.tree? tree = some (form tree) := by
    rw [tree?, hlookup, Option.map_some]
  unfold transformExpr at h
  dsimp only at h
  split at h
  · rename_i hfields
    cases h
    refine .inl ⟨"toFields", by decide, rfl, hform ?_⟩
    simp only [List.mem_cons, List.not_mem_nil, or_false] at hfields
    obtain ⟨htarget, hsource | hsource | hsource | hsource⟩ := hfields <;>
      rw [htarget, hsource] <;> rfl
  · split at h
    · rename_i hfield
      cases h
      exact .inr ⟨rfl, hform (by rw [hfield.1, hfield.2]; rfl)⟩
    · split at h
      · rename_i hbool
        cases h
        exact .inl ⟨"toField", by decide, rfl, hform (by rw [hbool.1, hbool.2]; rfl)⟩
      · cases h

/-- **A transformation is read as its form around its operand.** -/
theorem Link.readsAs_transformExpr {link : Link} {operand expr : Expr} {tree : Option Script}
    (hoperand : operand.ReadsAs tree) (h : link.transformExpr operand = .ok expr) :
    expr.ReadsAs (tree.bind link.tree?) := by
  rcases transformExpr_forms h with ⟨name, hname, rfl, htree⟩ | ⟨rfl, htree⟩
  · have hreads := hoperand.method hname .nil
    cases tree <;> simpa [htree] using hreads
  · have hreads := Expr.ReadsAs.call (.member (.name "UInt64") "from")
      (Script.Lexes.static "UInt64" "from" rfl (by decide) (by decide)) (.cons hoperand .nil)
    cases tree <;> simpa [htree, Script.method] using hreads

theorem Constant.eq_year {name : String} {constant : Constant}
    (h : Constant.ofName? name = some constant) : name = "year" ∧ constant = year := by
  have hfound : "year" = name ∧ year = constant := by
    simpa [Constant.ofName?, all, year] using h
  exact ⟨hfound.1.symm, hfound.2.symm⟩

theorem Constant.readsAs_expression {name : String} {constant : Constant}
    (h : Constant.ofName? name = some constant) :
    (Expr.atom constant.expression).ReadsAs (trees.lookup name) := by
  obtain ⟨rfl, rfl⟩ := eq_year h
  have hfield : Script.IsName "Field" := by decide
  have hlast := Script.Lexes.numeral '1' ['0', '0', '0'] rfl (List.all_eq_true.mp rfl) rfl
    (Script.Lexes.mark (c := ')') rfl)
  have hlexes := (Script.Lexes.function hfield).append
    (.factor '3' ['6', '5', '.', '2', '5'] rfl (List.all_eq_true.mp rfl) rfl
      (.factor '2' ['4'] rfl (List.all_eq_true.mp rfl) rfl
        (.factor '6' ['0'] rfl (List.all_eq_true.mp rfl) rfl
          (.factor '6' ['0'] rfl (List.all_eq_true.mp rfl) rfl hlast))))
  exact hlexes

theorem Literal.staticExpr_cases {converter : Converter} {value : Scalar} {chain : Chain}
    {expr : Expr} (h : staticExpr converter value chain = .ok expr) :
    ∃ token literal, SourceType.ofTypeName? chain.finalType = some token ∧
      ofStatic converter value chain = .ok literal ∧ construct token literal = .ok expr ∧
      (Variable.static value chain).tree? converter = token.tree? literal := by
  obtain ⟨token, htoken, h⟩ := bind_eq_ok.mp h
  obtain ⟨literal, hliteral, h⟩ := bind_eq_ok.mp h
  have hname : SourceType.ofTypeName? chain.finalType = some token := by
    unfold SourceType.parse at htoken
    split at htoken
    · rename_i found hfound
      cases htoken
      exact hfound
    · cases htoken
  refine ⟨token, literal, hname, hliteral, h, ?_⟩
  simp [Variable.tree?, hname, hliteral, Except.toOption]

section

variable {scope : Scope} {depth : Nat}

theorem Variable.readsAs {operator : Operator} {operand : Variable} {expr : Expr}
    (hnames : ∀ path, scope.names.contains path = true → path.Spellable)
    (hinner : ∀ inner out, operand = .function inner out → ∀ expr,
      inner.expr scope (depth + 1) = .ok expr → expr.ReadsAs (inner.tree? scope.converter))
    (h : operand.expr scope depth operator = .ok expr) :
    expr.ReadsAs (operand.tree? scope.converter) := by
  cases operand with
  | static value chain =>
    obtain ⟨token, literal, -, hliteral, hconstruct, htree⟩ := Literal.staticExpr_cases h
    rw [htree]
    exact SourceType.readsAs_construct (Literal.written_ofStatic hliteral) hconstruct
  | setup chain => cases h
  | constant name =>
    obtain ⟨constant, hconstant, rfl⟩ := map_eq_ok.mp h
    exact Constant.readsAs_expression (InputValues.constantParse_eq_ok.mp hconstant)
  | reference path =>
    rw [Variable.expr] at h
    split at h
    · rename_i hcontains
      cases h
      exact .reference (hnames path hcontains)
    · cases h
  | function inner out =>
    cases out with
    | none => exact hinner inner none rfl expr h
    | some out => cases h

/-- **The expression of an operation is read as the tree of the operation.**  The induction is along
the nesting, and there is one case for each operator. -/
theorem Operation.readsAs
    (hnames : ∀ path, scope.names.contains path = true → path.Spellable) (operation : Operation)
    {expr : Expr} (h : operation.expr scope depth = .ok expr)
    (hspread : ∀ deep inner, Nested depth operation deep inner → inner.operator ≠ .spread) :
    expr.ReadsAs (operation.tree? scope.converter) := by
  induction operation using Operation.ind generalizing depth expr with
  | step operation ih =>
    obtain ⟨hself, hdeeper⟩ := forall_nested_iff.mp hspread
    obtain ⟨-, exprs, hexprs, hassembled⟩ := expr_eq_ok.mp h
    have hkept : ∀ operand ∈ operation.operands, ∀ expr,
        operand.expr scope depth operation.operator = .ok expr →
          expr.ReadsAs (operand.tree? scope.converter) := by
      intro operand hm expr hexpr
      refine Variable.readsAs hnames ?_ hexpr
      rintro inner out rfl expr hexpr
      exact ih inner out hm hexpr (hdeeper inner out hm)
    -- Every operand shows its end, so its tree does not depend on the place where it stands.
    have hoperands : List.Forall₂ Expr.ReadsAs exprs
        (operation.operands.map (·.tree? scope.converter)) := by
      rw [List.forall₂_map_right_iff]
      refine List.Forall₂.flip ?_
      exact ((List.forall₂_and_left _ _).mpr ⟨hkept, hexprs⟩).imp fun _ _ both => both.1 _ both.2
    cases hassembled with
    | binary operator left right receiver argument =>
      obtain ⟨hreceiver, harguments⟩ := List.forall₂_cons.mp hoperands
      have hname : Script.IsName operator.method := by cases operator <;> decide
      have hreads := hreceiver.method hname harguments
      rw [tree?]
      cases hleft : left.tree? scope.converter <;> cases hright : right.tree? scope.converter <;>
        simpa [hleft, hright] using hreads
    | assert value expr =>
      obtain ⟨hreceiver, -⟩ := List.forall₂_cons.mp hoperands
      have hname : Script.IsName "assertTrue" := by decide
      have hreads := hreceiver.method hname .nil
      rw [tree?]
      cases hvalue : value.tree? scope.converter <;> simpa [hvalue] using hreads
    | not value expr =>
      obtain ⟨hreceiver, -⟩ := List.forall₂_cons.mp hoperands
      have hname : Script.IsName "not" := by decide
      have hreads := hreceiver.method hname .nil
      rw [tree?]
      cases hvalue : value.tree? scope.converter <;> simpa [hvalue] using hreads
    | ternary condition whenTrue whenFalse test yes no =>
      have hreads := Expr.ReadsAs.call (.member (.name "Provable") "if")
        (Script.Lexes.static "Provable" "if" rfl (by decide) (by decide)) hoperands
      rw [tree?]
      cases htest : condition.tree? scope.converter <;>
        cases hyes : whenTrue.tree? scope.converter <;>
          cases hno : whenFalse.tree? scope.converter <;>
            simpa [operands, htest, hyes, hno, Script.method] using hreads
    | transform value link operand expr hlink =>
      obtain ⟨hoperand, -⟩ := List.forall₂_cons.mp hoperands
      rw [tree?]
      exact Link.readsAs_transformExpr hoperand hlink
    | verifySign algorithm signature message publicKey signed text key =>
      obtain ⟨hsigned, hrest⟩ := List.forall₂_cons.mp hoperands
      -- The key is written in front of the message.
      obtain ⟨htext, hrest⟩ := List.forall₂_cons.mp hrest
      obtain ⟨hkey, -⟩ := List.forall₂_cons.mp hrest
      have hname : Script.IsName "verify" := by decide
      have hreads := hsigned.method hname (.cons hkey (.cons (.array (.cons htext .nil)) .nil))
      rw [tree?]
      cases hsignature : signature.tree? scope.converter <;>
        cases hpublic : publicKey.tree? scope.converter <;>
          cases hmessage : message.tree? scope.converter <;>
            simpa [hsignature, hpublic, hmessage] using hreads
    | hash algorithm inputs items =>
      have hreads := Expr.ReadsAs.call (.member (.name "Poseidon") "hash")
        (Script.Lexes.static "Poseidon" "hash" rfl (by decide) (by decide))
        (.cons (.array hoperands) .nil)
      rw [tree?, treesOf_eq]
      cases hinputs : (inputs.map (·.tree? scope.converter)).mapM id <;>
        simpa [operands, hinputs, Script.method] using hreads
    | spread value list => exact absurd rfl hself

end

/-! ### Integers without digits -/

/-- An operand that is to be the integer of no bytes: the conversions in front of the last link make
bytes of its value, of which there are none, and the last link makes a number of them. -/
def Variable.HasNoDigits (converter : Converter) : Variable → Prop
  | .static value chain =>
    chain.init ≠ [] ∧ converter value.toJson chain.init = .ok (.bytes []) ∧
      (chain.finalType = "field" ∨ chain.finalType = "uint64")
  | _ => False

namespace Literal

theorem ofValue?_eq_bare_iff {value : Value} :
    ofValue? value = some (.bigInt "0x") ↔ value = .bytes [] := by
  have hrepr (n : Nat) : n.repr ≠ "0x" := by
    rw [← integer_natCast]
    exact integer_ne_bare n
  cases value with
  | bytes data =>
    rw [ofValue?, Option.some.injEq, bigInt.injEq, Value.bytes.injEq]
    exact hex_eq_bare_iff
  | uint _ n | uint64 n | countryNumber n => simp [ofValue?, hrepr]
  | unixTime millis => simp [ofValue?, integer_ne_bare]
  | field x =>
    have hhex : x.toHex ≠ "0x" := fun hbare => by
      have hnil := congrArg List.length (hex_eq_bare_iff.mp hbare)
      rw [length_bigEndian] at hnil
      cases hnil
    cases hword : x.toUInt128? <;> simp [ofValue?, hword, hrepr, hhex]
  | _ => simp [ofValue?]

theorem ofStatic_eq_bare_iff (converter : Converter) (value : Scalar) (chain : Chain) :
    ofStatic converter value chain = .ok (.bigInt "0x") ↔
      chain.init ≠ [] ∧ converter value.toJson chain.init = .ok (.bytes []) := by
  unfold ofStatic
  by_cases hinit : chain.init = []
  · rw [if_pos (by simp [hinit])]
    cases value <;> simp [hinit, ofScalar]
  · rw [if_neg (by simpa using hinit), bind_eq_ok]
    simp only [mapError_eq_ok]
    constructor
    · rintro ⟨converted, hconverted, h⟩
      split at h
      · rename_i literal hliteral
        cases h
        rw [ofValue?_eq_bare_iff.mp hliteral] at hconverted
        exact ⟨hinit, hconverted⟩
      · cases h
    · rintro ⟨-, hconverted⟩
      exact ⟨_, hconverted, rfl⟩

theorem isSome_tree?_iff {token : SourceType} {literal : Literal} {expr : Expr}
    (h : construct token literal = .ok expr) :
    (token.tree? literal).isSome = true ↔
      ¬ (literal = .bigInt "0x" ∧ (token = .field ∨ token = .uint64)) := by
  have hnumber : literal.tree?.isSome = true ↔ literal ≠ .bigInt "0x" := by
    cases literal with
    | bigInt spelling => by_cases hbare : spelling = "0x" <;> simp [tree?, hbare]
    | _ => simp [tree?]
  cases constructed_of_construct h with
  | field | uint64 => simpa [SourceType.tree?] using hnumber
  | bool htruth => simp [SourceType.tree?, htruth]
  | signature | publicKey => simp [SourceType.tree?, text?]
  | circuitString => simp [SourceType.tree?]

end Literal

theorem SourceType.numeric_iff {name : String} {token : SourceType}
    (h : ofTypeName? name = some token) :
    token = .field ∨ token = .uint64 ↔ name = "field" ∨ name = "uint64" := by
  have htype : token.typeName = name := by simpa using List.find?_some h
  rw [← htype]
  cases token <;> decide

theorem Variable.hasNoDigits_iff {converter : Converter} {value : Scalar} {chain : Chain}
    {token : SourceType} {literal : Literal}
    (htoken : SourceType.ofTypeName? chain.finalType = some token)
    (hliteral : Literal.ofStatic converter value chain = .ok literal) :
    (Variable.static value chain).HasNoDigits converter ↔
      literal = .bigInt "0x" ∧ (token = .field ∨ token = .uint64) := by
  have hbare := Literal.ofStatic_eq_bare_iff converter value chain
  rw [hliteral, Except.ok.injEq] at hbare
  rw [HasNoDigits, SourceType.numeric_iff htoken, hbare, and_assoc]

section

variable {scope : Scope} {depth : Nat}

theorem Variable.isSome_tree?_iff {operator : Operator} {operand : Variable} {expr : Expr}
    (h : operand.expr scope depth operator = .ok expr) :
    (operand.tree? scope.converter).isSome = true ↔ ¬ operand.HasNoDigits scope.converter ∧
      ∀ inner out, operand = .function inner out →
        (inner.tree? scope.converter).isSome = true := by
  cases operand with
  | static value chain =>
    obtain ⟨token, literal, htoken, hliteral, hconstruct, htree⟩ := Literal.staticExpr_cases h
    rw [htree, Literal.isSome_tree?_iff hconstruct, hasNoDigits_iff htoken hliteral]
    simp
  | setup chain => cases h
  | constant name =>
    obtain ⟨constant, hconstant, -⟩ := map_eq_ok.mp h
    rw [(Constant.eq_year (InputValues.constantParse_eq_ok.mp hconstant)).1]
    exact iff_of_true rfl ⟨id, nofun⟩
  | reference path => simp [tree?, HasNoDigits]
  | function inner out => simp [tree?, HasNoDigits]

theorem Operation.isSome_tree?_operands {operation : Operation} {expr : Expr}
    (h : operation.expr scope depth = .ok expr) (hspread : operation.operator ≠ .spread) :
    (operation.tree? scope.converter).isSome = true ↔
      ∀ operand ∈ operation.operands, (operand.tree? scope.converter).isSome = true := by
  obtain ⟨-, exprs, -, hassembled⟩ := expr_eq_ok.mp h
  rw [tree?.eq_def]
  cases hassembled with
  | binary operator left right =>
    cases hleft : left.tree? scope.converter <;> cases hright : right.tree? scope.converter <;>
      simp [operands, hleft, hright]
  | assert value | not value =>
    cases hvalue : value.tree? scope.converter <;> simp [operands, hvalue]
  | ternary condition whenTrue whenFalse =>
    cases htest : condition.tree? scope.converter <;>
      cases hyes : whenTrue.tree? scope.converter <;>
        cases hno : whenFalse.tree? scope.converter <;> simp [operands, htest, hyes, hno]
  | transform value link operand expr hlink =>
    obtain ⟨form, hform⟩ :
        ∃ form : Script → Script, ∀ tree, link.tree? tree = some (form tree) := by
      rcases Link.transformExpr_forms hlink with ⟨name, -, -, htree⟩ | ⟨-, htree⟩
      · exact ⟨_, htree⟩
      · exact ⟨_, htree⟩
    cases hvalue : value.tree? scope.converter <;> simp [operands, hvalue, hform]
  | verifySign algorithm signature message publicKey =>
    cases hsignature : signature.tree? scope.converter <;>
      cases hpublic : publicKey.tree? scope.converter <;>
        cases hmessage : message.tree? scope.converter <;>
          simp [operands, hsignature, hpublic, hmessage]
  | hash algorithm inputs =>
    have hinputs := isSome_treesOf_iff scope.converter inputs
    cases htrees : treesOf scope.converter inputs <;> simpa [operands, htrees] using hinputs
  | spread value => exact absurd rfl hspread

/-- **An operation has a tree if every integer in it has digits.** -/
theorem Operation.isSome_tree?_iff (operation : Operation) {expr : Expr}
    (h : operation.expr scope depth = .ok expr)
    (hspread : ∀ deep inner, Nested depth operation deep inner → inner.operator ≠ .spread) :
    (operation.tree? scope.converter).isSome = true ↔
      ∀ deep inner, Nested depth operation deep inner →
        ∀ operand ∈ inner.operands, ¬ operand.HasNoDigits scope.converter := by
  induction operation using Operation.ind generalizing depth expr with
  | step operation ih =>
    obtain ⟨hself, hdeeper⟩ := forall_nested_iff.mp hspread
    have haccepted := (expr_step.mp ⟨expr, h⟩).2.1
    rw [isSome_tree?_operands h hself, forall_nested_iff]
    constructor
    · intro hoperands
      refine ⟨fun operand hm => ?_, fun middle out hm => ?_⟩
      · obtain ⟨found, hfound⟩ := haccepted operand hm
        exact ((Variable.isSome_tree?_iff hfound).mp (hoperands operand hm)).1
      · obtain ⟨found, hfound⟩ := haccepted _ hm
        obtain ⟨inner, hinner⟩ := (Variable.expr_step.mp ⟨found, hfound⟩).2 middle out rfl
        exact (ih middle out hm hinner (hdeeper middle out hm)).mp
          (((Variable.isSome_tree?_iff hfound).mp (hoperands _ hm)).2 middle out rfl)
    · rintro ⟨hdigits, hinner⟩ operand hm
      obtain ⟨found, hfound⟩ := haccepted operand hm
      refine (Variable.isSome_tree?_iff hfound).mpr ⟨hdigits operand hm, ?_⟩
      rintro middle out rfl
      obtain ⟨inner, hexpr⟩ := (Variable.expr_step.mp ⟨found, hfound⟩).2 middle out rfl
      exact (ih middle out hm hexpr (hdeeper middle out hm)).mpr (hinner middle out hm)

end

/-! ### Statements of a program -/

namespace Names

theorem mem_of_contains_ofPaths {target : Target} {paths : List Path} {names : Names}
    (h : ofPaths target paths = .ok names) {path : Path} (hpath : names.contains path = true) :
    path ∈ paths :=
  (contains_ofPaths_iff h path).mp hpath

theorem contains_of_statementsOf {converter : Converter} {maxDepth : Nat}
    {commands : List Command} {names final : Names} {statements : List Statement}
    (h : statementsOf converter maxDepth commands names = (final, .ok statements)) {path : Path}
    (hpath : final.contains path = true) :
    names.contains path = true ∨
      ∃ command ∈ commands, ∃ out, command.out = some out ∧ path = [out] := by
  induction commands generalizing names statements with
  | nil =>
    cases h
    exact .inl hpath
  | cons command rest ih =>
    obtain ⟨expr, next, others, -, hnext, hrest, -⟩ := statementsOf_cons h
    rcases ih hrest with hcontains | ⟨later, hm, out, hout, rfl⟩
    · rcases hnext with ⟨-, rfl⟩ | ⟨out, hout, hgive⟩
      · exact .inl hcontains
      · rw [contains, get?_give (giveOutput_eq_ok hgive).2.2] at hcontains
        split at hcontains
        · rename_i heq
          exact .inr ⟨command, List.mem_cons_self, out, hout, heq⟩
        · exact .inl hcontains
    · exact .inr ⟨later, List.mem_cons_of_mem _ hm, out, hout, rfl⟩

end Names

/-- **An accepted expression is read as the tree of its operation, and as nothing else.**  The
expression may stand anywhere in a list of commands, behind any others, and at any depth; the paths
that have names are such as placeholders can spell, and results are identifiers.  Lists are not
spread in it.

What is read is the prescribed tree: operands in their order, each as the tree of that operand.
There is such a tree if no operand is the integer of no bytes, which would have no digits. -/
theorem Operation.reads_prescribed_tree {target : Target} {paths : List Path}
    {initial between : Names} {converter : Converter} {maxDepth depth : Nat}
    {before : List Command} {statements : List Statement} {operation : Operation} {expr : Expr}
    (hpaths : ∀ path ∈ paths, path.Spellable)
    (hinitial : Names.ofPaths target paths = .ok initial)
    (houts : ∀ command ∈ before, ∀ out, command.out = some out → Identifier.isValid out = true)
    (hbefore : statementsOf converter maxDepth before initial = (between, .ok statements))
    (hexpr : operation.expr ⟨converter, maxDepth, between⟩ depth = .ok expr)
    (hspread : ∀ deep inner, Nested depth operation deep inner → inner.operator ≠ .spread) :
    Script.read? (expr.render Path.placeholder) = operation.tree? converter ∧
      (∀ tree, Script.Reads (expr.render Path.placeholder) tree ↔
        operation.tree? converter = some tree) ∧
      ((operation.tree? converter).isSome = true ↔
        ∀ deep inner, Nested depth operation deep inner →
          ∀ operand ∈ inner.operands, ¬ operand.HasNoDigits converter) := by
  have hnames : ∀ path, between.contains path = true → path.Spellable := by
    intro path hpath
    rcases Names.contains_of_statementsOf hbefore hpath with
      hcontains | ⟨command, hm, out, hout, rfl⟩
    · exact hpaths path (Names.mem_of_contains_ofPaths hinitial hcontains)
    · exact ⟨List.cons_ne_nil _ _, fun key hk => List.mem_singleton.mp hk ▸
        Identifier.isKey_of_isValid (houts command hm out hout)⟩
  have hlex : Script.lex? (expr.render Path.placeholder).toList
      = (operation.tree? converter).map Script.tokens :=
    Script.Lexes.lex?_eq (operation.readsAs hnames hexpr hspread)
  refine ⟨?_, fun tree => ?_, operation.isSome_tree?_iff hexpr hspread⟩
  · rw [Script.read?, hlex]
    cases htree : operation.tree? converter with
    | none => rfl
    | some tree => exact Script.parse?_tokens (operation.tight_of_tree? htree).1
  · rw [Script.Reads, hlex]
    constructor
    · rintro ⟨htokens, hgrammatical⟩
      obtain ⟨found, hfound, heq⟩ := Option.map_eq_some_iff.mp htokens
      rw [hfound, Script.tokens_injective (operation.tight_of_tree? hfound).1 hgrammatical heq]
    · intro htree
      exact ⟨by rw [htree]; rfl, (operation.tight_of_tree? htree).1⟩

/-- The result of a command, to which a later one refers. -/
def laterCommand : Command :=
  ⟨.binary .add (.reference ["private", "age"]) (.constant "year"), some "later"⟩

def laterNames : Names :=
  (statementsOf Value.ofChain 2 [laterCommand] ageNames).1

/-- The comparison of a result with a literal that is full of marks. -/
def markedTest : Operation :=
  .binary .equal (.reference ["later"])
    (.static (.text "a), \"b\" * [\x7b\x7b c \x7d\x7d]") ⟨[], ⟨"ascii", "mina:string"⟩⟩)

def markedChoice : Operation :=
  .ternary (.function markedTest none)
    (.static (.number (.integer (-3))) ⟨[], ⟨"uint64", "mina:field"⟩⟩) (.constant "year")

def markedExpr : Expr :=
  .call "Provable.if" [.method (.reference ["later"]) "equals"
    [.call "CircuitString.fromString" [.atom (Literal.quote "a), \"b\" * [\x7b\x7b c \x7d\x7d]")]],
    .call "Field" [.atom "-3"], .atom Constant.year.expression]

def markedTree : Script :=
  let number (spelling : String) : Script := .literal (.number spelling)
  .method (.name "Provable") "if"
    [.method (.slot ["later"]) "equals" [.method (.name "CircuitString") "fromString"
      [.literal (.text "a), \"b\" * [\x7b\x7b c \x7d\x7d]")]],
    .call (.name "Field") [.negate (number "3")],
    .call (.name "Field") [.product (.product (.product (.product (number "365.25") (number "24"))
      (number "60")) (number "60")) (number "1000")]]

/-- The marks inside the literal do not disturb the choice around it. -/
theorem Operation.reads_prescribed_tree_marked :
    (∃ statements, statementsOf Value.ofChain 2 [laterCommand] ageNames
      = (laterNames, .ok statements)) ∧
    markedChoice.expr ⟨Value.ofChain, 2, laterNames⟩ 1 = .ok markedExpr ∧
    Script.read? (markedExpr.render Path.placeholder) = some markedTree ∧
    ∀ tree, Script.Reads (markedExpr.render Path.placeholder) tree ↔ tree = markedTree := by
  have hinitial : Names.ofPaths .zkProgram [["private", "age"], ["public", "limit"]]
      = .ok ageNames := rfl
  have hpaths : ∀ path ∈ [["private", "age"], ["public", "limit"]], Path.Spellable path := by
    simp only [List.forall_mem_cons]
    exact ⟨⟨by decide, by decide⟩, ⟨by decide, by decide⟩, nofun⟩
  have houts : ∀ command ∈ [laterCommand], ∀ out, command.out = some out →
      Identifier.isValid out = true := by
    intro command hm out hout
    rw [List.mem_singleton.mp hm] at hout
    cases hout
    decide
  have hbefore : statementsOf Value.ofChain 2 [laterCommand] ageNames
      = (laterNames, .ok [⟨some "later", .method (.reference ["private", "age"]) "add"
        [.atom Constant.year.expression]⟩]) := rfl
  have hexpr : markedChoice.expr ⟨Value.ofChain, 2, laterNames⟩ 1 = .ok markedExpr := rfl
  have hspread : ∀ deep inner, Nested 1 markedChoice deep inner → inner.operator ≠ .spread := by
    refine forall_nested_iff.mpr ⟨by decide, fun middle out hm => ?_⟩
    obtain ⟨rfl, rfl⟩ : middle = markedTest ∧ out = none := by
      simpa [markedChoice, operands] using hm
    exact forall_nested_iff.mpr ⟨by decide, fun middle out hm => by
      simp [markedTest, operands] at hm⟩
  have htree : markedChoice.tree? Value.ofChain = some markedTree := rfl
  obtain ⟨hread, hreads, -⟩ := reads_prescribed_tree hpaths hinitial houts hbefore hexpr hspread
  rw [htree] at hread hreads
  exact ⟨⟨_, hbefore⟩, hexpr, hread, fun tree => (hreads tree).trans (by
    rw [Option.some.injEq, eq_comm])⟩

/-- The assertion of a number that is made from the bytes of the empty text. -/
def emptyNumber : Operation :=
  .assert (.static (.text "") ⟨[⟨"utf8", "bytes"⟩], ⟨"bytes", "uint64"⟩⟩)

/-- **The integer of no bytes cannot be read.**  The assertion is accepted, and no expression has
its text. -/
theorem emptyNumber_unreadable :
    ∃ expr, emptyNumber.expr ⟨Value.ofChain, 64, .empty⟩ 1 = .ok expr ∧
      expr.render Path.placeholder = "UInt64.from(Field(0xn)).assertTrue()" ∧
      ∀ tree, ¬ Script.Reads (expr.render Path.placeholder) tree := by
  have hexpr : emptyNumber.expr ⟨Value.ofChain, 64, .empty⟩ 1
      = .ok (.method (.call "UInt64.from" [.call "Field" [.atom "0xn"]]) "assertTrue" []) := rfl
  have hnames : ∀ path, Names.empty.contains path = true → path.Spellable := by
    intro path hpath
    rw [Names.contains, Names.get?, Names.empty, Tree.getLeaf?_empty] at hpath
    cases hpath
  have hspread : ∀ deep inner, Operation.Nested 1 emptyNumber deep inner →
      inner.operator ≠ .spread :=
    Operation.forall_nested_iff.mpr ⟨by decide, fun middle out hm => by
      simp [emptyNumber, Operation.operands] at hm⟩
  refine ⟨_, hexpr, by decide +kernel, fun tree hreads => ?_⟩
  have hlex := Script.Lexes.lex?_eq (emptyNumber.readsAs hnames hexpr hspread)
  -- A suffix behind `0x` alone is no token, so there is nothing to cut the text into.
  have hnone : emptyNumber.tree? Value.ofChain = none := rfl
  rw [hreads.1, hnone] at hlex
  cases hlex

end Circuitry
