import Circuitry.Proofs.CallTree
import Circuitry.Proofs.Lexing

/-!
# How literals are written

A literal in a source is a quoted text, a truth value or a number, and a number is a sign or none
and a run of characters that starts with a digit (`Literal.Written.kind`).  Numbers and truth values
do not show their ends by themselves, but with the closing parenthesis of its constructor every
literal is cut into the tokens of its tree (`Literal.Written.lexes`).  The one number that is not
read back is the one without digits.  Which literal stands in which constructor is said once, in
`Literal.Constructed`.
-/

namespace Circuitry

open Fallible

namespace Literal

/-- The literals that sources have: numbers and integers as they are spelled, bytes as digits behind
`0x`, texts and truth values. -/
inductive Written : Literal → Prop
  | number (n : Number) : Written (.number n.render)
  | integer (n : Int) : Written (.bigInt (integer n))
  | bytes (data : List UInt8) : Written (.bigInt ("0x" ++ Text.Hex.encode data))
  | text (s : String) : Written (.text s)
  | boolean (b : Bool) : Written (.boolean b)

theorem integer_natCast (n : Nat) : integer n = n.repr := by
  rw [integer, Number.render, if_neg (by omega), Int.natAbs_natCast]

theorem written_ofValue? {value : Value} {literal : Literal} (h : ofValue? value = some literal) :
    literal.Written := by
  cases value with
  | bytes data => cases h; exact .bytes data
  | uint _ n | uint64 n | countryNumber n =>
    cases h
    rw [← integer_natCast]
    exact .integer n.toNat
  | unixTime millis => cases h; exact .integer millis.toInt
  | field x =>
    rw [ofValue?] at h
    split at h
    · rename_i n _
      cases h
      rw [← integer_natCast]
      exact .integer n
    · cases h
      exact .bytes _
  | boolean b | bool b => cases h; exact .boolean b
  | fields xs => cases h
  | _ => cases h; exact .text _

/-- **The literal of a static variable is one of these.** -/
theorem written_ofStatic {converter : Converter} {value : Scalar} {chain : Chain}
    {literal : Literal} (h : ofStatic converter value chain = .ok literal) : literal.Written := by
  unfold ofStatic at h
  split at h
  · cases h
    cases value with
    | number n => exact .number n
    | text s => exact .text s
    | boolean b => exact .boolean b
  · obtain ⟨converted, -, h⟩ := bind_eq_ok.mp h
    split at h
    · rename_i found hfound
      cases h
      exact written_ofValue? hfound
    · cases h

theorem ofNumeral_eq {literal : String → Literal} {spelling : String} {negative : Bool}
    {run : List Char} (h : spelling.toList = (if negative then ['-'] else []) ++ run)
    (hfirst : ∃ c rest, run = c :: rest ∧ c.isDigit = true) :
    Script.ofNumeral literal spelling
      = Script.Pending.signed negative (.literal (literal (String.ofList run))) := by
  obtain ⟨c, rest, rfl, hdigit⟩ := hfirst
  cases negative with
  | true =>
    rw [Script.ofNumeral, h]
    rfl
  | false =>
    have hlist : spelling.toList = c :: rest := h
    have hc : c ≠ '-' := by
      rintro rfl
      cases hdigit
    unfold Script.ofNumeral
    split
    · rename_i digits heq
      rw [hlist] at heq
      cases heq
      exact absurd rfl hc
    · rw [← hlist, String.ofList_toList]
      rfl

theorem numeralLiteral?_number {run : List Char} (h : Json.IsNumeral run) :
    Script.numeralLiteral? run = some (.number (String.ofList run)) := by
  obtain ⟨parts, hparts⟩ : ∃ parts, Json.numberParts? run = some parts :=
    Option.isSome_iff_exists.mp (h.parts false)
  rw [Script.numeralLiteral?, if_neg, hparts]
  · rfl
  · intro hlast
    exact absurd (h.chars 'n' (List.mem_of_getLast? hlast)) (by decide)

theorem numeralLiteral?_bigInt (digits : List Char) :
    Script.numeralLiteral? (digits ++ ['n'])
      = (integerLiteral? digits).map fun _ => .bigInt (String.ofList digits) := by
  rw [Script.numeralLiteral?, if_pos List.getLast?_concat, List.dropLast_concat]

theorem isNumeralPart_of_isNumberChar {c : Char} (h : Json.isNumberChar c = true) :
    Script.isNumeralPart c = true := by
  simp only [Json.isNumberChar, Bool.or_eq_true, beq_iff_eq] at h
  rcases h with ((((hdigit | rfl) | rfl) | rfl) | rfl) | rfl
  · simp [Script.isNumeralPart, Identifier.isPart, Char.isAlphanum, hdigit]
  all_goals rfl

theorem isNumeralPart_encode (data : List UInt8) :
    ∀ c ∈ (Text.Hex.encode data).toList, Script.isNumeralPart c = true :=
  Text.Hex.forall_mem_encode (by decide) data

theorem integerLiteral?_hex (data : List UInt8) :
    (integerLiteral? ('0' :: 'x' :: (Text.Hex.encode data).toList)).isSome = !data.isEmpty := by
  cases data with
  | nil => rfl
  | cons b rest =>
    have hne : (Text.Hex.encode (b :: rest)).toList.isEmpty = false := by
      simp [Text.Hex.encode, Text.Hex.byteDigits]
    rw [integerLiteral?, numeral1?, hne,
      Text.Hex.numeral?_of_decode (Text.Hex.decode_encode (b :: rest))]
    rfl

/-- The text of a number: a sign or none, and a run of characters that starts with a digit.  The
tree is the literal that the run is, if it is one, behind its sign. -/
structure IsNumeral (literal : Literal) (negative : Bool) (run : List Char) : Prop where
  text : literal.render.toList = (if negative then ['-'] else []) ++ run
  first : ∃ c rest, run = c :: rest ∧ c.isDigit = true
  chars : ∀ c ∈ run, Script.isNumeralPart c = true
  tree : literal.tree? = (Script.numeralLiteral? run).map fun found =>
    Script.Pending.signed negative (.literal found)

theorem isNumeral_bigInt {spelling : String} {negative : Bool} {digits : List Char}
    (h : spelling.toList = (if negative then ['-'] else []) ++ digits)
    (hfirst : ∃ c rest, digits = c :: rest ∧ c.isDigit = true)
    (hchars : ∀ c ∈ digits, Script.isNumeralPart c = true)
    (hdigits : (integerLiteral? digits).isSome = true ↔ spelling ≠ "0x") :
    (bigInt spelling).IsNumeral negative (digits ++ ['n']) where
  text := by simp [render, h]
  first := by
    obtain ⟨c, rest, rfl, hdigit⟩ := hfirst
    exact ⟨c, rest ++ ['n'], rfl, hdigit⟩
  chars := List.forall_mem_append.mpr ⟨hchars, List.all_eq_true.mp rfl⟩
  tree := by
    rw [numeralLiteral?_bigInt, tree?, ofNumeral_eq h hfirst]
    by_cases hbare : spelling = "0x"
    · have hnone : integerLiteral? digits = none := by
        simpa [hbare] using hdigits
      rw [if_pos hbare, hnone]
      rfl
    · obtain ⟨n, hn⟩ := Option.isSome_iff_exists.mp (hdigits.mpr hbare)
      rw [if_neg hbare, hn]
      rfl

theorem toList_integer (n : Int) :
    (integer n).toList = (if decide (n < 0) then ['-'] else []) ++ Nat.toDigits 10 n.natAbs := by
  by_cases hneg : n < 0 <;> simp [integer, Number.render, hneg]

theorem integer_ne_bare (n : Int) : integer n ≠ "0x" := by
  intro hbare
  have hx : 'x' ∈ (integer n).toList := by
    rw [hbare]
    decide
  rw [toList_integer, List.mem_append] at hx
  rcases hx with hx | hx
  · split at hx <;> simp at hx
  · exact absurd ((Json.isNumeral_toDigits n.natAbs).chars 'x' hx) (by decide)

theorem hex_eq_bare_iff {data : List UInt8} : "0x" ++ Text.Hex.encode data = "0x" ↔ data = [] := by
  rw [← String.toList_inj]
  cases data <;> simp [Text.Hex.encode, Text.Hex.byteDigits]

/-- **What literals there are**: texts, truth values and numbers. -/
theorem Written.kind {literal : Literal} (h : literal.Written) :
    (∃ s, literal = .text s) ∨ (∃ b, literal = .boolean b) ∨
      ∃ negative run, literal.IsNumeral negative run := by
  cases h with
  | number n =>
    obtain ⟨negative, run, hrun, hnumeral⟩ := Json.render_eq_numeral n
    refine .inr (.inr ⟨negative, run, hrun, hnumeral.first, fun c hc =>
      isNumeralPart_of_isNumberChar (hnumeral.chars c hc), ?_⟩)
    rw [numeralLiteral?_number hnumeral, tree?, ofNumeral_eq hrun hnumeral.first]
    rfl
  | integer n =>
    have hnumeral := Json.isNumeral_toDigits n.natAbs
    exact .inr (.inr ⟨_, _, isNumeral_bigInt (toList_integer n) hnumeral.first
      (fun c hc => isNumeralPart_of_isNumberChar (hnumeral.chars c hc))
      (iff_of_true (by rw [integerLiteral?_toDigits]; rfl) (integer_ne_bare n))⟩)
  | bytes data =>
    have hspelling : ("0x" ++ Text.Hex.encode data).toList
        = (if false then ['-'] else []) ++ '0' :: 'x' :: (Text.Hex.encode data).toList := by
      rw [String.toList_append]
      rfl
    refine .inr (.inr ⟨_, _, isNumeral_bigInt hspelling ⟨'0', _, rfl, rfl⟩
      (List.forall_mem_cons.mpr
        ⟨rfl, List.forall_mem_cons.mpr ⟨rfl, isNumeralPart_encode data⟩⟩) ?_⟩)
    rw [integerLiteral?_hex, ne_eq, hex_eq_bare_iff]
    simp
  | text s => exact .inl ⟨s, rfl⟩
  | boolean b => exact .inr (.inl ⟨b, rfl⟩)

/-- **A literal in front of a closing parenthesis is read as its tree.** -/
theorem Written.lexes {literal : Literal} (h : literal.Written) :
    Script.Lexes (literal.render.toList ++ [')'])
      (literal.tree?.map fun tree => tree.tokens ++ [.closing]) := by
  have hclosing : Script.Lexes [')'] (some [.closing]) := .mark rfl
  rcases h.kind with ⟨s, rfl⟩ | ⟨b, rfl⟩ | ⟨negative, run, hnumeral⟩
  · exact (Script.Lexes.quote s).append hclosing
  · have hvalid : Identifier.isValid (boolWord b) = true := by cases b <;> decide
    have hlexes := Script.Lexes.word hvalid (by decide) hclosing
    cases b <;> exact hlexes
  · have hlexes := Script.Lexes.signed negative run hnumeral.first hnumeral.chars
    rw [hnumeral.text, hnumeral.tree, Option.map_map]
    exact hlexes

/-! ### Constructors around literals -/

inductive Constructed : SourceType → Literal → Expr → Prop
  | field (literal : Literal) : Constructed .field literal (.call "Field" [.atom literal.render])
  | uint64 (literal : Literal) :
      Constructed .uint64 literal (.call "UInt64.from" [.call "Field" [.atom literal.render]])
  | bool {literal : Literal} {b : Bool} (h : literal.truth? = some b) :
      Constructed .bool literal (.call "Bool" [.atom (boolean b).render])
  | signature (s : String) :
      Constructed .signature (.text s) (.call "Signature.fromBase58" [.atom (text s).render])
  | publicKey (s : String) :
      Constructed .publicKey (.text s) (.call "PublicKey.fromBase58" [.atom (text s).render])
  | circuitString (literal : Literal) : Constructed .circuitString literal
      (.call "CircuitString.fromString" [.atom (text literal.content).render])

theorem constructed_of_construct {token : SourceType} {literal : Literal} {expr : Expr}
    (h : construct token literal = .ok expr) : Constructed token literal expr := by
  cases token with
  | field => cases h; exact .field literal
  | uint64 => cases h; exact .uint64 literal
  | bool =>
    cases literal with
    | boolean b => cases h; exact .bool rfl
    | text word =>
      simp only [construct] at h
      split at h
      · rename_i hword
        cases h
        rcases hword with hword | hword
        · rw [hword]
          exact .bool (b := true) rfl
        · rw [hword]
          exact .bool (b := false) rfl
      · cases h
    | number | bigInt => cases h
  | signature =>
    cases literal with
    | text s => cases h; exact .signature s
    | number | bigInt | boolean => cases h
  | publicKey =>
    cases literal with
    | text s => cases h; exact .publicKey s
    | number | bigInt | boolean => cases h
  | circuitString => cases h; exact .circuitString literal

end Literal

end Circuitry
