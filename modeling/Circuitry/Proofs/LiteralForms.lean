import Circuitry.Proofs.Legibility

/-!
# The forms of literals

There are six forms of literals, one for every constructor.  Texts for keys, signatures and strings
are quoted, truth values are words, and a field element is made from a number of JSON, an integer of
any size or a quoted text.  `SourceType.isForm` is this grammar; it says nothing about how literals
come about.

A literal and its constructor are picked independently: the conversions in front of the last link
give the literal, and the last link gives the constructor.  Keys, signatures, strings and truth
values are checked or quoted on the way, so they always have their form.  Numbers take any literal
as it is, and two kinds of literals are none: the integer of no bytes, which is `0x` without a
digit, and truth values (`Literal.Written.isNumeric_iff`).  They are the only literals outside the
grammar.
-/

namespace Circuitry

open Fallible

/-! ### The grammar -/

namespace Literal

def isRun (p : Char → Bool) (cs : List Char) : Bool :=
  !cs.isEmpty && cs.all p

def isHexDigit (c : Char) : Bool :=
  (Text.Hex.digitValue? c.toNat).isSome

def isNumber (cs : List Char) : Bool :=
  (Json.numberParts? cs).isSome

/-- Whether a text is an integer of any size: decimal digits that may have a sign, or hexadecimal
digits behind `0x`, and the suffix. -/
def isBigInt (cs : List Char) : Bool :=
  cs.getLast? == some 'n' &&
    match cs.dropLast with
    | '0' :: 'x' :: digits => isRun isHexDigit digits
    | '-' :: digits => isRun Char.isDigit digits
    | digits => isRun Char.isDigit digits

def isQuoted : List Char → Bool
  | '"' :: inside => (unquote? inside).isSome
  | _ => false

def isNumeric (cs : List Char) : Bool :=
  isNumber cs || isBigInt cs || isQuoted cs

end Literal

namespace SourceType

def takes (token : SourceType) (payload : List Char) : Bool :=
  match token with
  | .field | .uint64 => Literal.isNumeric payload
  | .bool => payload == "true".toList || payload == "false".toList
  | .signature | .publicKey | .circuitString => Literal.isQuoted payload

def isForm (token : SourceType) (text : String) : Bool :=
  (token.unwrap? text.toList).any token.takes

theorem unwrap?_eq_some_iff {token : SourceType} {cs inside : List Char} :
    token.unwrap? cs = some inside ↔
      cs = token.opening.toList ++ inside ++ token.closing.toList := by
  constructor
  · intro h
    unfold unwrap? at h
    dsimp only at h
    split at h
    · rename_i heq
      cases h
      exact heq.symm
    · cases h
  · rintro rfl
    rw [unwrap?]
    simp

theorem eq_of_opening {token other : SourceType} {rest behind : List Char}
    (h : token.opening.toList ++ rest = other.opening.toList ++ behind) : token = other := by
  have hhead (token : SourceType) (rest : List Char) :
      (token.opening.toList ++ rest).head? = token.opening.toList.head? := by
    cases token <;> rfl
  have hletter := congrArg List.head? h
  rw [hhead, hhead] at hletter
  cases token <;> cases other <;> first | rfl | exact absurd hletter (by decide)

/-- **A text in a constructor is a literal of that type only**, and it is one if the constructor
takes it. -/
theorem isForm_wrap {token other : SourceType} {payload : String} :
    other.isForm (token.opening ++ payload ++ token.closing) = true ↔
      token = other ∧ token.takes payload.toList = true := by
  rw [isForm, Option.any_eq_true, String.toList_append, String.toList_append]
  constructor
  · rintro ⟨inside, hunwrap, htakes⟩
    have heq := unwrap?_eq_some_iff.mp hunwrap
    rw [List.append_assoc, List.append_assoc] at heq
    obtain rfl := eq_of_opening heq
    have hinside := List.append_cancel_right (List.append_cancel_left heq)
    rw [hinside]
    exact ⟨rfl, htakes⟩
  · rintro ⟨rfl, htakes⟩
    exact ⟨_, unwrap?_eq_some_iff.mpr rfl, htakes⟩

end SourceType

/-! ### Which literals are numeric -/

namespace Literal

theorem isRun_iff {p : Char → Bool} {cs : List Char} :
    isRun p cs = true ↔ cs ≠ [] ∧ ∀ c ∈ cs, p c = true := by
  simp [isRun]

theorem isBigInt_decimal (negative : Bool) {digits : List Char} (hne : digits ≠ [])
    (hdigits : ∀ c ∈ digits, c.isDigit = true) :
    isBigInt ((if negative then ['-'] else []) ++ digits ++ ['n']) = true := by
  have hrun := isRun_iff.mpr ⟨hne, hdigits⟩
  rw [isBigInt, List.getLast?_concat, List.dropLast_concat]
  cases negative with
  | true => simpa using hrun
  | false =>
    -- The digits are not taken for `0x` or for a sign.
    simp only [Bool.false_eq_true, if_false, List.nil_append, BEq.rfl, Bool.true_and]
    split
    · exact absurd (hdigits 'x' (by simp)) (by decide)
    · exact absurd (hdigits '-' (by simp)) (by decide)
    · exact hrun

theorem isBigInt_hex (data : List UInt8) :
    isBigInt ('0' :: 'x' :: (Text.Hex.encode data).toList ++ ['n']) = !data.isEmpty := by
  have hdigits : ∀ c ∈ (Text.Hex.encode data).toList, isHexDigit c = true :=
    Text.Hex.forall_mem_encode (by decide) data
  rw [isBigInt, List.getLast?_concat, List.dropLast_concat]
  cases data with
  | nil => rfl
  | cons b rest =>
    have hne : (Text.Hex.encode (b :: rest)).toList ≠ [] := by
      simp [Text.Hex.encode, Text.Hex.byteDigits]
    simpa using isRun_iff.mpr ⟨hne, hdigits⟩

theorem isQuoted_quote (s : String) : isQuoted (quote s).toList = true := by
  have hlist : (quote s).toList = '"' :: (s.toList.flatMap escapedChars ++ ['"']) := by
    simp [quote, escape]
  rw [hlist, isQuoted, unquote?_escape]
  rfl

/-- **Every literal is numeric but the integer of no bytes and truth values.** -/
theorem Written.isNumeric_iff {literal : Literal} (h : literal.Written) :
    isNumeric literal.render.toList = true ↔
      ¬ (literal = .bigInt "0x" ∨ ∃ b, literal = .boolean b) := by
  cases h with
  | number n =>
    obtain ⟨negative, run, hrun, hnumeral⟩ := Json.render_eq_numeral n
    have hnumber : isNumber n.render.toList = true := by
      rw [hrun]
      exact hnumeral.parts negative
    simp [isNumeric, render, hnumber]
  | integer n =>
    have hinteger : isBigInt ((Literal.integer n).toList ++ ['n']) = true := by
      rw [toList_integer]
      exact isBigInt_decimal _ Nat.toDigits_ne_nil isDigit_toDigits
    simp [isNumeric, render, hinteger, integer_ne_bare]
  | bytes data =>
    have hrender : (bigInt ("0x" ++ Text.Hex.encode data)).render.toList
        = '0' :: 'x' :: (Text.Hex.encode data).toList ++ ['n'] := by
      simp [render]
    rw [hrender, bigInt.injEq, hex_eq_bare_iff]
    cases data with
    | nil => exact iff_of_false (by decide +kernel) (by simp)
    | cons b rest =>
      rw [isNumeric, isBigInt_hex]
      simp
  | text s => simp [isNumeric, render, isQuoted_quote]
  | boolean b => exact iff_of_false (by cases b <;> decide +kernel) (by simp)

end Literal

/-! ### Constructors around literals -/

def SourceType.payload (token : SourceType) (literal : Literal) : String :=
  match token with
  | .bool => literal.content
  | .circuitString => Literal.quote literal.content
  | _ => literal.render

namespace Literal

theorem content_of_truth? {literal : Literal} {b : Bool} (h : literal.truth? = some b) :
    literal.content = boolWord b := by
  cases literal with
  | boolean value =>
    cases h
    rfl
  | text word =>
    rw [truth?] at h
    split at h
    · rename_i htrue
      cases h
      exact htrue
    · split at h
      · rename_i hfalse
        cases h
        exact hfalse
      · cases h
  | number | bigInt => cases h

theorem Constructed.render_eq {token : SourceType} {literal : Literal} {expr : Expr}
    (h : Constructed token literal expr) (spell : Path → String) :
    expr.render spell = token.opening ++ token.payload literal ++ token.closing := by
  rw [← String.toList_inj]
  cases h with
  | bool htruth =>
    simp [Expr.render, Expr.renderAll, SourceType.opening, SourceType.closing,
      SourceType.payload, content_of_truth? htruth, render]
  | _ =>
    simp [Expr.render, Expr.renderAll, SourceType.opening, SourceType.closing,
      SourceType.payload, render]

/-- **A constructor takes its literal**, unless it makes a number of one that is not numeric. -/
theorem Constructed.takes_payload_iff {token : SourceType} {literal : Literal} {expr : Expr}
    (h : Constructed token literal expr) (hliteral : literal.Written) :
    token.takes (token.payload literal).toList = true ↔
      ¬ ((literal = .bigInt "0x" ∨ ∃ b, literal = .boolean b) ∧
        (token = .field ∨ token = .uint64)) := by
  cases h with
  | field | uint64 => simpa [SourceType.takes, SourceType.payload] using hliteral.isNumeric_iff
  | @bool _ b htruth =>
    have hword : SourceType.bool.takes (boolWord b).toList = true := by cases b <;> decide
    simpa [SourceType.payload, content_of_truth? htruth] using hword
  | signature s | publicKey s =>
    simpa [SourceType.takes, SourceType.payload, render] using isQuoted_quote s
  | circuitString =>
    simpa [SourceType.takes, SourceType.payload] using isQuoted_quote literal.content

end Literal

/-! ### Static variables -/

/-- An operand that is to be a number and is a truth value: by itself if there is nothing to
convert it, or by the conversions in front of the last link. -/
def Variable.IsTruthForNumber (converter : Converter) : Variable → Prop
  | .static value chain =>
    (chain.init = [] ∧ (∃ b, value = .boolean b) ∨
      chain.init ≠ [] ∧ ∃ b, converter value.toJson chain.init = .ok (.boolean b) ∨
        converter value.toJson chain.init = .ok (.bool b)) ∧
      (chain.finalType = "field" ∨ chain.finalType = "uint64")
  | _ => False

namespace Literal

theorem ofValue?_eq_boolean_iff {value : Value} {b : Bool} :
    ofValue? value = some (.boolean b) ↔ value = .boolean b ∨ value = .bool b := by
  cases value with
  | field x => cases hword : x.toUInt128? <;> simp [ofValue?, hword]
  | _ => simp [ofValue?]

theorem ofStatic_eq_boolean_iff (converter : Converter) (value : Scalar) (chain : Chain) :
    (∃ b, ofStatic converter value chain = .ok (.boolean b)) ↔
      chain.init = [] ∧ (∃ b, value = .boolean b) ∨
        chain.init ≠ [] ∧ ∃ b, converter value.toJson chain.init = .ok (.boolean b) ∨
          converter value.toJson chain.init = .ok (.bool b) := by
  unfold ofStatic
  by_cases hinit : chain.init = []
  · rw [if_pos (by simp [hinit])]
    cases value <;> simp [hinit, ofScalar]
  · rw [if_neg (by simpa using hinit)]
    simp only [hinit, false_and, false_or, ne_eq, not_false_eq_true, true_and]
    refine exists_congr fun b => ?_
    simp only [bind_eq_ok, mapError_eq_ok]
    constructor
    · rintro ⟨converted, hconverted, h⟩
      split at h
      · rename_i literal hliteral
        cases h
        rcases ofValue?_eq_boolean_iff.mp hliteral with rfl | rfl
        · exact .inl hconverted
        · exact .inr hconverted
      · cases h
    · rintro (hconverted | hconverted)
      · exact ⟨_, hconverted, rfl⟩
      · exact ⟨_, hconverted, rfl⟩

end Literal

theorem Variable.isTruthForNumber_iff {converter : Converter} {value : Scalar} {chain : Chain}
    {token : SourceType} {literal : Literal}
    (htoken : SourceType.ofTypeName? chain.finalType = some token)
    (hliteral : Literal.ofStatic converter value chain = .ok literal) :
    (Variable.static value chain).IsTruthForNumber converter ↔
      (∃ b, literal = .boolean b) ∧ (token = .field ∨ token = .uint64) := by
  have htruth := Literal.ofStatic_eq_boolean_iff converter value chain
  simp only [hliteral, Except.ok.injEq] at htruth
  rw [IsTruthForNumber, SourceType.numeric_iff htoken, htruth]

namespace Literal

/-- **A literal has its form unless it is a number of no digits or of a truth value.**  Where the
expression of a static variable exists, its text is the literal of a type exactly if the variable is
neither of the two, and then it is the type in which its chain ends.  The others are written in the
constructor of that type as well, around `0x` with the suffix or around the word of the truth
value. -/
theorem staticExpr_isForm_iff {converter : Converter} {value : Scalar} {chain : Chain}
    {expr : Expr} (h : staticExpr converter value chain = .ok expr) (spell : Path → String) :
    ((∃ token : SourceType, token.isForm (expr.render spell) = true) ↔
      ¬ (Variable.static value chain).HasNoDigits converter ∧
        ¬ (Variable.static value chain).IsTruthForNumber converter) ∧
    ∃ token, SourceType.ofTypeName? chain.finalType = some token ∧
      (∀ other : SourceType, other.isForm (expr.render spell) = true → token = other) ∧
      ((Variable.static value chain).HasNoDigits converter →
        expr.render spell = token.opening ++ "0xn" ++ token.closing) ∧
      ((Variable.static value chain).IsTruthForNumber converter →
        ∃ b, expr.render spell = token.opening ++ boolWord b ++ token.closing) := by
  obtain ⟨token, literal, htoken, hliteral, hconstruct, -⟩ := staticExpr_cases h
  have hwritten := written_ofStatic hliteral
  have hconstructed := constructed_of_construct hconstruct
  have hrender := hconstructed.render_eq spell
  have hbare := Variable.hasNoDigits_iff htoken hliteral
  have htruth := Variable.isTruthForNumber_iff htoken hliteral
  have hpayload (hnumeric : token = .field ∨ token = .uint64) :
      token.payload literal = literal.render := by
    rcases hnumeric with rfl | rfl <;> rfl
  refine ⟨?_, token, htoken, fun other hform => ?_, fun hnone => ?_, fun hword => ?_⟩
  · rw [hrender, hbare, htruth, ← not_or, ← or_and_right,
      ← hconstructed.takes_payload_iff hwritten]
    simp only [SourceType.isForm_wrap, exists_eq_left']
  · rw [hrender] at hform
    exact (SourceType.isForm_wrap.mp hform).1
  · obtain ⟨rfl, hnumeric⟩ := hbare.mp hnone
    rw [hrender, hpayload hnumeric]
    rfl
  · obtain ⟨⟨b, rfl⟩, hnumeric⟩ := htruth.mp hword
    exact ⟨b, by rw [hrender, hpayload hnumeric]; rfl⟩

/-- The bytes of a text have digits, so their number has its form. -/
theorem staticExpr_isForm_iff_bytes :
    ∃ expr, staticExpr Value.ofChain (.text "a") ⟨[⟨"utf8", "bytes"⟩], ⟨"bytes", "uint64"⟩⟩
        = .ok expr ∧
      expr.render Path.placeholder = "UInt64.from(Field(0x61n))" ∧
      ∃ token : SourceType, token.isForm (expr.render Path.placeholder) = true := by
  have hexpr : staticExpr Value.ofChain (.text "a") ⟨[⟨"utf8", "bytes"⟩], ⟨"bytes", "uint64"⟩⟩
      = .ok (.call "UInt64.from" [.call "Field" [.atom "0x61n"]]) := rfl
  have hconverted : Value.ofChain (Scalar.text "a").toJson [⟨"utf8", "bytes"⟩]
      = .ok (.bytes [97]) := rfl
  refine ⟨_, hexpr, by decide +kernel,
    (staticExpr_isForm_iff hexpr Path.placeholder).1.mpr ⟨?_, ?_⟩⟩
  · rintro ⟨-, hnone, -⟩
    rw [hconverted] at hnone
    cases hnone
  · rintro ⟨⟨hinit, -⟩ | ⟨-, b, htruth | htruth⟩, -⟩
    · cases hinit
    · rw [hconverted] at htruth
      cases htruth
    · rw [hconverted] at htruth
      cases htruth

/-- **Two literals without a form**: the number of no bytes, and the field element of a truth
value. -/
theorem staticExpr_without_form :
    (∃ expr, staticExpr Value.ofChain (.text "") ⟨[⟨"utf8", "bytes"⟩], ⟨"bytes", "uint64"⟩⟩
        = .ok expr ∧
      expr.render Path.placeholder = "UInt64.from(Field(0xn))" ∧
      ∀ token : SourceType, token.isForm (expr.render Path.placeholder) = false) ∧
    ∃ expr, staticExpr Value.ofChain (.boolean true)
        ⟨[⟨"boolean", "mina:bool"⟩], ⟨"mina:bool", "mina:field"⟩⟩ = .ok expr ∧
      expr.render Path.placeholder = "Field(true)" ∧
      ∀ token : SourceType, token.isForm (expr.render Path.placeholder) = false := by
  have hempty : (Expr.call "UInt64.from" [.call "Field" [.atom "0xn"]]).render Path.placeholder
      = "UInt64.from(Field(0xn))" := by decide +kernel
  have htruth : (Expr.call "Field" [.atom "true"]).render Path.placeholder = "Field(true)" := by
    decide +kernel
  refine ⟨⟨.call "UInt64.from" [.call "Field" [.atom "0xn"]], rfl, hempty, fun token => ?_⟩,
    ⟨.call "Field" [.atom "true"], rfl, htruth, fun token => ?_⟩⟩
  · rw [hempty]
    cases token <;> decide +kernel
  · rw [htruth]
    cases token <;> decide +kernel

end Literal

end Circuitry
