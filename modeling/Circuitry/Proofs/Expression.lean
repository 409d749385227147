import Circuitry.Proofs.Fallible
import Circuitry.Proofs.Markup

/-!
# The expressions of commands are safe

No text that a command carries into a source can be taken for a placeholder.  Quoted text escapes
its braces, numbers and bytes are written in digits, and everything else is a word of the language;
so an expression holds no opening brace of its own, whatever the program says and whatever the
converter returns.  References are written for declared paths only.  Together this is the safety of
expressions, by induction on the operations of a command (`Operation.safe_expr`).
-/

namespace Circuitry

open Fallible

/-! ### Texts without opening braces -/

theorem not_mem_toDigits (n : Nat) : '\x7b' ∉ Nat.toDigits 10 n := by
  intro h
  have hdigit := Nat.isDigit_of_mem_toDigits (by decide) (by decide) h
  exact absurd hdigit (by decide)

theorem not_mem_repr (n : Nat) : '\x7b' ∉ n.repr.toList := by
  rw [Nat.toList_repr]
  exact not_mem_toDigits n

theorem Text.Hex.forall_mem_encode {motive : Char → Prop}
    (hdigit : ∀ n : Fin 16, motive (Text.Hex.digit n)) (bytes : List UInt8) :
    ∀ c ∈ (Text.Hex.encode bytes).toList, motive c := by
  intro c hc
  rw [Text.Hex.encode, String.toList_ofList] at hc
  obtain ⟨b, -, hb⟩ := List.mem_flatMap.mp hc
  have hlt : b.toNat < 256 := UInt8.toNat_lt b
  rcases List.mem_cons.mp hb with rfl | hb
  · exact hdigit ⟨b.toNat / 16, by omega⟩
  · rw [List.mem_singleton.mp hb]
    exact hdigit ⟨b.toNat % 16, by omega⟩

theorem Text.Hex.not_mem_encode (bytes : List UInt8) : '\x7b' ∉ (Text.Hex.encode bytes).toList :=
  fun h => forall_mem_encode (motive := (· ≠ '\x7b')) (by decide) bytes _ h rfl

theorem Decimal.not_mem_trimmed (d : Decimal) : '\x7b' ∉ d.trimmed.1 := by
  intro h
  have hdrop := (List.dropWhile_sublist _).subset (List.mem_reverse.mp h)
  exact not_mem_toDigits _ (List.mem_reverse.mp hdrop)

theorem Decimal.not_mem_render {digits : List Char} (h : '\x7b' ∉ digits) (exponent : Int) :
    '\x7b' ∉ Decimal.render digits exponent := by
  have htake (n : Nat) : '\x7b' ∉ digits.take n := fun hm => h (List.mem_of_mem_take hm)
  have hdrop (n : Nat) : '\x7b' ∉ digits.drop n := fun hm => h (List.mem_of_mem_drop hm)
  have hzeros (n : Nat) : '\x7b' ∉ List.replicate n '0' :=
    fun hm => absurd (List.eq_of_mem_replicate hm) (by decide)
  unfold Decimal.render
  dsimp only
  split
  · split
    · simp [h, hzeros]
    · split
      · simp [htake, hdrop]
      · simp [h, hzeros]
  · have hfraction : '\x7b' ∉ if digits.length ≤ 1 then [] else '.' :: digits.drop 1 := by
      split
      · exact List.not_mem_nil
      · rw [List.mem_cons, not_or]
        exact ⟨by decide, hdrop 1⟩
    have hsign (lead : Int) : '\x7b' ≠ if lead ≥ 0 then '+' else '-' := by
      split <;> decide
    simp only [List.mem_append, List.mem_cons, not_or]
    exact ⟨⟨⟨htake 1, hfraction⟩, by decide, hsign _, List.not_mem_nil⟩, not_mem_toDigits _⟩

theorem Number.not_mem_render (n : Number) : '\x7b' ∉ n.render.toList := by
  cases n with
  | integer n =>
    rw [Number.render]
    split
    · rw [String.toList_append, List.mem_append, not_or]
      exact ⟨by decide, not_mem_repr _⟩
    · exact not_mem_repr _
  | double x =>
    have hsign : '\x7b' ∉ if x.negative then ['-'] else [] := by
      split <;> decide
    rw [Number.render, Double.render]
    split
    · rw [String.toList_ofList, List.mem_append, not_or]
      exact ⟨hsign, by decide⟩
    · rw [String.toList_ofList, List.mem_append, not_or]
      exact ⟨hsign, Decimal.not_mem_render (Decimal.not_mem_trimmed _) _⟩

/-! ### Literals -/

namespace Literal

theorem of_mem_escapedChars {c d : Char} (h : d ∈ escapedChars c) :
    d ≠ '\x7b' ∧ d ≠ '\x7d' ∧ d ≠ '\n' ∧ d ≠ '\r' := by
  have hfixed {text : List Char} (hm : d ∈ text) (hclear : (text.all fun e =>
      e != '\x7b' && e != '\x7d' && e != '\n' && e != '\r') = true) :
      d ≠ '\x7b' ∧ d ≠ '\x7d' ∧ d ≠ '\n' ∧ d ≠ '\r' := by
    simpa [and_assoc] using List.all_eq_true.mp hclear d hm
  unfold escapedChars at h
  split at h
  · exact hfixed h rfl
  split at h
  · exact hfixed h rfl
  split at h
  · exact hfixed h rfl
  split at h
  · exact hfixed h rfl
  split at h
  · exact hfixed h rfl
  split at h
  · exact hfixed h rfl
  · rename_i hfeed hreturn hopen hclose
    rw [List.mem_singleton.mp h]
    exact ⟨hopen, hclose, hfeed, hreturn⟩

theorem of_mem_escape {s : String} {d : Char} (h : d ∈ (escape s).toList) :
    d ≠ '\x7b' ∧ d ≠ '\x7d' ∧ d ≠ '\n' ∧ d ≠ '\r' := by
  rw [escape, String.toList_ofList] at h
  obtain ⟨c, -, hc⟩ := List.mem_flatMap.mp h
  exact of_mem_escapedChars hc

theorem not_mem_escape (s : String) : '\x7b' ∉ (escape s).toList :=
  fun h => (of_mem_escape h).1 rfl

theorem not_mem_quote (s : String) : '\x7b' ∉ (quote s).toList := by
  simp only [quote, String.toList_append, List.mem_append, not_or]
  exact ⟨⟨by decide, not_mem_escape s⟩, by decide⟩

theorem not_mem_boolWord (b : Bool) : '\x7b' ∉ (boolWord b).toList := by
  cases b <;> decide

/-- A literal whose spelling, where it stands for itself, holds no opening brace. -/
def Plain : Literal → Prop
  | .number spelling | .bigInt spelling => '\x7b' ∉ spelling.toList
  | .text _ | .boolean _ => True

theorem plain_ofScalar (value : Scalar) : (ofScalar value).Plain := by
  cases value with
  | number n => exact Number.not_mem_render n
  | text s => trivial
  | boolean b => trivial

theorem not_mem_hex (bytes : List UInt8) : '\x7b' ∉ ("0x" ++ Text.Hex.encode bytes).toList := by
  rw [String.toList_append, List.mem_append, not_or]
  exact ⟨by decide, Text.Hex.not_mem_encode bytes⟩

/-- **The literal of any value is plain**, also of a value that no built-in conversion returns. -/
theorem plain_ofValue? {value : Value} {literal : Literal} (h : ofValue? value = some literal) :
    literal.Plain := by
  cases value <;> simp only [ofValue?, Option.some.injEq, reduceCtorEq] at h
  case bytes data => subst h; exact not_mem_hex data
  case uint width n => subst h; exact not_mem_repr n.toNat
  case uint64 n => subst h; exact not_mem_repr n.toNat
  case countryNumber n => subst h; exact not_mem_repr n.toNat
  case unixTime millis => subst h; exact Number.not_mem_render _
  case field x =>
    split at h
    · cases h; exact not_mem_repr _
    · cases h; exact not_mem_hex _
  all_goals subst h; trivial

theorem Plain.not_mem_render {literal : Literal} (h : literal.Plain) :
    '\x7b' ∉ literal.render.toList := by
  cases literal with
  | number spelling => exact h
  | bigInt spelling =>
    simp only [render, String.toList_append, List.mem_append, not_or]
    exact ⟨h, by decide⟩
  | text value => exact not_mem_quote value
  | boolean b => exact not_mem_boolWord b

variable {declared : Path → Prop}

theorem safe_construct {token : SourceType} {literal : Literal} {expr : Expr}
    (hplain : literal.Plain) (h : construct token literal = .ok expr) : expr.Safe declared := by
  have hwrap {function text : String} (hf : '\x7b' ∉ function.toList) (ht : '\x7b' ∉ text.toList) :
      (Expr.call function [.atom text]).Safe declared :=
    .call hf fun argument hm => List.mem_singleton.mp hm ▸ .atom ht
  have hpayload := hplain.not_mem_render
  cases token with
  | field =>
    cases h
    exact hwrap (by decide) hpayload
  | uint64 =>
    cases h
    refine .call (by decide) fun argument hm => ?_
    rw [List.mem_singleton.mp hm]
    exact hwrap (by decide) hpayload
  | bool =>
    cases literal with
    | boolean b => cases h; exact hwrap (by decide) (not_mem_boolWord b)
    | text word =>
      simp only [construct] at h
      split at h
      · rename_i hword
        cases h
        refine hwrap (by decide) ?_
        rcases hword with rfl | rfl
        · decide
        · decide
      · cases h
    | number spelling => cases h
    | bigInt spelling => cases h
  | signature =>
    cases literal with
    | text value => cases h; exact hwrap (by decide) hpayload
    | _ => cases h
  | publicKey =>
    cases literal with
    | text value => cases h; exact hwrap (by decide) hpayload
    | _ => cases h
  | circuitString =>
    cases h
    exact hwrap (by decide) (not_mem_quote _)

theorem safe_staticExpr {converter : Converter} {value : Scalar} {chain : Chain} {expr : Expr}
    (h : staticExpr converter value chain = .ok expr) : expr.Safe declared := by
  obtain ⟨token, -, h⟩ := bind_eq_ok.mp h
  obtain ⟨literal, hliteral, h⟩ := bind_eq_ok.mp h
  refine safe_construct ?_ h
  unfold ofStatic at hliteral
  split at hliteral
  · cases hliteral
    exact plain_ofScalar value
  · obtain ⟨converted, -, hliteral⟩ := bind_eq_ok.mp hliteral
    cases hv : ofValue? converted with
    | none => rw [hv] at hliteral; cases hliteral
    | some found =>
      rw [hv] at hliteral
      cases hliteral
      exact plain_ofValue? hv

end Literal

/-! ### Commands -/

def Names.Declares (names : Names) (path : Path) : Prop :=
  ∃ name, names.get? path = some name

theorem BinaryOperator.not_mem_method (operator : BinaryOperator) :
    '\x7b' ∉ operator.method.toList := by
  cases operator <;> decide

theorem Constant.not_mem_expression {name : String} {constant : Constant}
    (h : Constant.ofName? name = some constant) : '\x7b' ∉ constant.expression.toList := by
  have hall : ∀ c ∈ Constant.all, '\x7b' ∉ c.expression.toList := by decide
  exact hall constant (List.mem_of_find?_eq_some h)

theorem Link.safe_transformExpr {declared : Path → Prop} {link : Link} {operand expr : Expr}
    (hoperand : operand.Safe declared) (h : link.transformExpr operand = .ok expr) :
    expr.Safe declared := by
  have hnone : ∀ argument ∈ ([] : List Expr), argument.Safe declared :=
    fun argument hm => absurd hm List.not_mem_nil
  unfold Link.transformExpr at h
  dsimp only at h
  split at h
  · cases h
    exact .method hoperand (by decide) hnone
  split at h
  · cases h
    exact .call (by decide) fun argument hm => List.mem_singleton.mp hm ▸ hoperand
  split at h
  · cases h
    exact .method hoperand (by decide) hnone
  · cases h

theorem Expr.Safe.of_pair {declared : Path → Prop} {first second : Expr}
    (hfirst : first.Safe declared) (hsecond : second.Safe declared) :
    ∀ argument ∈ [first, second], argument.Safe declared := by
  intro argument hm
  rcases List.mem_cons.mp hm with rfl | hm
  · exact hfirst
  · rw [List.mem_singleton.mp hm]
    exact hsecond

theorem Expr.Safe.of_single {declared : Path → Prop} {item : Expr} (hitem : item.Safe declared) :
    ∀ argument ∈ [item], argument.Safe declared :=
  fun _ hm => List.mem_singleton.mp hm ▸ hitem

mutual

/-- **The expression of an operation is safe**: one case for every operator. -/
theorem Operation.safe_expr {scope : Scope} : ∀ (operation : Operation) {depth : Nat} {expr : Expr},
    operation.expr scope depth = .ok expr → expr.Safe scope.names.Declares
  | .binary operator left right, depth, expr, h => by
    rw [Operation.expr] at h
    obtain ⟨-, h⟩ := of_check h
    obtain ⟨receiver, hreceiver, h⟩ := bind_eq_ok.mp h
    obtain ⟨argument, hargument, h⟩ := bind_eq_ok.mp h
    cases h
    exact .method (left.safe_expr hreceiver) operator.not_mem_method
      (right.safe_expr hargument).of_single
  | .assert value, depth, expr, h => by
    rw [Operation.expr] at h
    obtain ⟨-, h⟩ := of_check h
    obtain ⟨receiver, hreceiver, h⟩ := bind_eq_ok.mp h
    cases h
    exact .method (value.safe_expr hreceiver) (by decide) nofun
  | .ternary condition whenTrue whenFalse, depth, expr, h => by
    rw [Operation.expr] at h
    obtain ⟨-, h⟩ := of_check h
    obtain ⟨first, hfirst, h⟩ := bind_eq_ok.mp h
    obtain ⟨second, hsecond, h⟩ := bind_eq_ok.mp h
    obtain ⟨third, hthird, h⟩ := bind_eq_ok.mp h
    cases h
    refine .call (by decide) fun argument hm => ?_
    rcases List.mem_cons.mp hm with rfl | hm
    · exact condition.safe_expr hfirst
    · exact .of_pair (whenTrue.safe_expr hsecond) (whenFalse.safe_expr hthird) argument hm
  | .transform value link, depth, expr, h => by
    rw [Operation.expr] at h
    obtain ⟨-, h⟩ := of_check h
    obtain ⟨operand, hoperand, h⟩ := bind_eq_ok.mp h
    exact Link.safe_transformExpr (value.safe_expr hoperand) h
  | .verifySign _ signature message publicKey, depth, expr, h => by
    rw [Operation.expr] at h
    obtain ⟨-, h⟩ := of_check h
    obtain ⟨first, hfirst, h⟩ := bind_eq_ok.mp h
    obtain ⟨second, hsecond, h⟩ := bind_eq_ok.mp h
    obtain ⟨third, hthird, h⟩ := bind_eq_ok.mp h
    cases h
    exact .method (signature.safe_expr hfirst) (by decide)
      (.of_pair (publicKey.safe_expr hsecond) (.array (message.safe_expr hthird).of_single))
  | .hash _ inputs, depth, expr, h => by
    rw [Operation.expr] at h
    obtain ⟨-, h⟩ := of_check h
    obtain ⟨items, hitems, h⟩ := bind_eq_ok.mp h
    cases h
    exact .call (by decide) (Expr.Safe.array (safe_exprsOf inputs hitems)).of_single
  | .spread value, depth, expr, h => by
    rw [Operation.expr] at h
    obtain ⟨-, h⟩ := of_check h
    obtain ⟨list, hlist, h⟩ := bind_eq_ok.mp h
    cases h
    exact .spread (value.safe_expr hlist)
  | .not value, depth, expr, h => by
    rw [Operation.expr] at h
    obtain ⟨-, h⟩ := of_check h
    obtain ⟨receiver, hreceiver, h⟩ := bind_eq_ok.mp h
    cases h
    exact .method (value.safe_expr hreceiver) (by decide) nofun

theorem Variable.safe_expr {scope : Scope} : ∀ (operand : Variable) {depth : Nat}
    {operator : Operator} {expr : Expr}, operand.expr scope depth operator = .ok expr →
    expr.Safe scope.names.Declares
  | .static value chain, depth, operator, expr, h => by
    rw [Variable.expr] at h
    exact Literal.safe_staticExpr h
  | .constant name, depth, operator, expr, h => by
    rw [Variable.expr] at h
    obtain ⟨constant, hconstant, rfl⟩ := map_eq_ok.mp h
    unfold Constant.parse at hconstant
    cases hname : Constant.ofName? name with
    | none => rw [hname] at hconstant; cases hconstant
    | some found =>
      rw [hname] at hconstant
      cases hconstant
      exact .atom (Constant.not_mem_expression hname)
  | .reference path, depth, operator, expr, h => by
    rw [Variable.expr] at h
    split at h
    · rename_i hcontains
      cases h
      exact .reference (Option.isSome_iff_exists.mp hcontains)
    · cases h
  | .setup _, depth, operator, expr, h => by
    rw [Variable.expr] at h
    cases h
  | .function operation none, depth, operator, expr, h => by
    rw [Variable.expr] at h
    exact operation.safe_expr h
  | .function operation (some out), depth, operator, expr, h => by
    rw [Variable.expr] at h
    cases h

theorem safe_exprsOf {scope : Scope} : ∀ (operands : List Variable) {depth : Nat}
    {operator : Operator} {exprs : List Expr}, exprsOf scope depth operator operands = .ok exprs →
    ∀ expr ∈ exprs, expr.Safe scope.names.Declares
  | [], depth, operator, exprs, h => by
    rw [exprsOf] at h
    cases h
    exact nofun
  | operand :: rest, depth, operator, exprs, h => by
    rw [exprsOf] at h
    obtain ⟨first, hfirst, h⟩ := bind_eq_ok.mp h
    obtain ⟨others, hothers, h⟩ := bind_eq_ok.mp h
    cases h
    intro expr hm
    rcases List.mem_cons.mp hm with rfl | hm
    · exact operand.safe_expr hfirst
    · exact safe_exprsOf rest hothers expr hm

end

end Circuitry
