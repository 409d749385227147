import Circuitry.Proofs.NumberText
import Circuitry.Source.Command

/-!
# Literals of converted values

A static value reaches a source on two ways.  As an input it goes through its whole chain of
conversions; as an operand it becomes a literal inside the constructor in whose type the chain ends.
If the chain has more than one link, the literal is made from the value in front of the last link.

The last link changes the type and not what the value means (`Value.Edge.literalMeans`), and the
literal is read back exactly: a number of any size from its digits, a text from its quoted form.  So
the expression denotes what the chain returns (`Literal.staticExpr_of_init`).
-/

namespace Circuitry

open Fallible

/-! ### Constructors -/

namespace SourceType

def ofNode? : Node → Option SourceType
  | .minaField => some .field
  | .minaUInt64 | .uint .w64 => some .uint64
  | .minaBool => some .bool
  | .minaString => some .circuitString
  | .minaSignature => some .signature
  | .minaPublicKey => some .publicKey
  | _ => none

theorem ofTypeName?_typeName (node : Node) :
    ofTypeName? (Link.typeName node.name) = ofNode? node := by
  cases node with
  | uint width => cases width <;> decide
  | _ => decide

/-- A constructor of numbers, and the numbers that it can hold. -/
def Holds (token : SourceType) (n : Nat) : Prop :=
  token = .field ∧ n < Field.modulus ∨ token = .uint64 ∧ n < capacity 64

theorem Holds.ne_bool {token : SourceType} {n : Nat} (h : token.Holds n) : token ≠ .bool := by
  rintro rfl
  obtain ⟨hfield, -⟩ | ⟨huint, -⟩ := h
  · cases hfield
  · cases huint

theorem Holds.lt_modulus {token : SourceType} {n : Nat} (h : token.Holds n) :
    n < Field.modulus := by
  obtain ⟨-, hlt⟩ | ⟨-, hlt⟩ := h
  · exact hlt
  · exact Nat.lt_trans hlt (by decide)

/-- **A constructor of numbers takes a literal for the integer that it stands for.** -/
theorem meaning?_eq_number_iff {token : SourceType} {datum : Datum} {n : Nat}
    (htoken : token.Holds n)
    (hrange : ∀ k, datum.integer? = some k → 0 ≤ k ∧ k < Field.modulus) :
    token.meaning? datum = some (.number n) ↔ datum.integer? = some (n : Int) := by
  cases hinteger : datum.integer? with
  | none =>
    obtain ⟨rfl, -⟩ | ⟨rfl, -⟩ := htoken
    · simp [meaning?, hinteger]
    · simp [meaning?, hinteger]
  | some k =>
    have hmod : k % Field.modulus = k :=
      Int.emod_eq_of_lt (hrange k hinteger).1 (hrange k hinteger).2
    obtain ⟨rfl, -⟩ | ⟨rfl, hlt⟩ := htoken
    · simp [meaning?, hinteger, hmod]
    · simp only [meaning?, hinteger, Option.bind_eq_bind, Option.bind_some, hmod,
        Option.ite_none_right_eq_some, Option.some.injEq, Meaning.number.injEq]
      omega

end SourceType

namespace Literal

inductive Fits : SourceType → Literal → Prop
  | field (literal : Literal) : Fits .field literal
  | uint64 (literal : Literal) : Fits .uint64 literal
  | bool (b : Bool) : Fits .bool (.boolean b)
  /-- A text that says what a truth value is. -/
  | word (b : Bool) : Fits .bool (.text (boolWord b))
  | signature (s : String) : Fits .signature (.text s)
  | publicKey (s : String) : Fits .publicKey (.text s)
  | circuitString (s : String) : Fits .circuitString (.text s)

theorem Fits.of_holds {token : SourceType} {n : Nat} (h : token.Holds n) (literal : Literal) :
    literal.Fits token := by
  obtain ⟨rfl, -⟩ | ⟨rfl, -⟩ := h
  · exact .field literal
  · exact .uint64 literal

def payload (token : SourceType) (literal : Literal) : String :=
  if token = .bool then literal.content else literal.render

/-- **An expression is the constructor around the literal.** -/
theorem Fits.exists_construct {token : SourceType} {literal : Literal} (h : Fits token literal) :
    ∃ expr, construct token literal = .ok expr ∧
      ∀ spell, expr.render spell = token.opening ++ literal.payload token ++ token.closing := by
  have hnested : "UInt64.from(Field(" = "UInt64.from(" ++ "Field(" := rfl
  cases h with
  | field | bool | signature | publicKey | circuitString =>
    refine ⟨_, rfl, fun spell => ?_⟩
    simp [Expr.render, Expr.renderAll, SourceType.opening, SourceType.closing, payload, content]
  | uint64 literal =>
    refine ⟨_, rfl, fun spell => ?_⟩
    rw [SourceType.opening, hnested]
    simp only [Expr.render, Expr.renderAll, SourceType.closing, payload,
      String.intercalate_singleton, String.append_assoc]
    rfl
  | word b =>
    refine ⟨.call "Bool" [.atom (boolWord b)], by cases b <;> rfl, fun spell => ?_⟩
    simp [Expr.render, Expr.renderAll, SourceType.opening, SourceType.closing, payload, content]

theorem read?_construct {token : SourceType} {literal : Literal} {expr : Expr} {datum : Datum}
    (hrender : ∀ spell, expr.render spell =
      token.opening ++ literal.payload token ++ token.closing)
    (hread : Datum.read? (literal.payload token).toList = some datum) (spell : Path → String) :
    token.read? (expr.render spell) = token.meaning? datum := by
  rw [hrender, SourceType.read?_wrap, hread]
  rfl

end Literal

/-! ### Literals of converted values -/

namespace Value

/-- The values that stand in a source as they are: texts, numbers, and truth values where a truth
value is asked for.  Bytes are a number if there are any. -/
def HasLiteral (token : SourceType) : Value → Prop
  | .ascii _ | .utf8 _ | .base58 _ | .isoDate _ | .circuitString _ | .signature _ | .publicKey _
  | .countryCode _ => True
  | .uint _ _ | .uint64 _ | .unixTime _ | .countryNumber _ | .field _ => True
  | .boolean _ | .bool _ => token = .bool
  | .bytes data => data ≠ []
  | .fields _ => False

theorem isNumeric_of_number {value : Value} {n : Int} (h : value.number? = some n) :
    value.node.isNumeric = true := by
  cases value with
  | bytes | uint | boolean | unixTime | field | uint64 | bool | countryNumber => rfl
  | _ => cases h

/-- **The literal of a number is read back**, in decimal or in digits behind `0x`. -/
theorem exists_bigInt {value : Value} {token : SourceType} {n : Nat} (h : value.HasLiteral token)
    (htoken : token ≠ .bool) (hn : value.number? = some (n : Int)) :
    ∃ spelling, Literal.ofValue? value = some (.bigInt spelling) ∧
      Datum.read? (spelling ++ "n").toList = some (.bigInt n) := by
  cases value with
  | bytes data =>
    obtain rfl : ofBigEndian data = n := Int.ofNat_inj.mp (Option.some.inj hn)
    exact ⟨_, rfl, Datum.read?_hex h⟩
  | uint width m | uint64 m | countryNumber m =>
    obtain rfl : m.toNat = n := Int.ofNat_inj.mp (Option.some.inj hn)
    exact ⟨_, rfl, Datum.read?_bigInt m.toNat⟩
  | unixTime millis =>
    have hmillis : millis.toInt = n := Option.some.inj hn
    refine ⟨_, rfl, ?_⟩
    have hsign : ¬ ((n : Int) < 0) := by omega
    rw [hmillis, Literal.integer, Number.render, if_neg hsign, Int.natAbs_natCast]
    exact Datum.read?_bigInt n
  | field x =>
    obtain rfl : x.val = n := Int.ofNat_inj.mp (Option.some.inj hn)
    by_cases hword : x.val < capacity 128
    · refine ⟨x.val.repr, ?_, Datum.read?_bigInt _⟩
      rw [Literal.ofValue?, Field.toUInt128?, if_pos hword]
    · refine ⟨x.toHex, ?_, ?_⟩
      · rw [Literal.ofValue?, Field.toUInt128?, if_neg hword]
      · have hne : bigEndian 32 x.val ≠ [] :=
          List.ne_nil_of_length_eq_add_one (length_bigEndian 32 _)
        rw [Field.toHex, Datum.read?_hex hne, ofBigEndian_bigEndian x.val_lt]
  | boolean b | bool b => exact absurd h htoken
  | _ => cases hn

/-- The literal of a value is one that its constructor takes, and the constructor makes of it what
another value means. -/
def LiteralMeans (value : Value) (token : SourceType) (result : Value) : Prop :=
  ∃ literal datum meaning, Literal.ofValue? value = some literal ∧ literal.Fits token ∧
    result.meaning? = some meaning ∧ Datum.read? (literal.payload token).toList = some datum ∧
    datum.exact? = some meaning ∧ token.meaning? datum = some meaning

theorem meaning?_ofNat {n : Nat} (h : (Field.ofNat n).val = n) :
    (field (.ofNat n)).meaning? = some (.number n) := by
  show some (Meaning.number ((Field.ofNat n).val : Int)) = _
  rw [h]

theorem literalMeans_number {value result : Value} {token : SourceType} {n : Nat}
    (h : value.HasLiteral token) (htoken : token.Holds n) (hn : value.number? = some (n : Int))
    (hresult : result.meaning? = some (.number n)) : value.LiteralMeans token result := by
  have hrange (k : Int) (hk : (Datum.bigInt n).integer? = some k) : 0 ≤ k ∧ k < Field.modulus := by
    have hlt := htoken.lt_modulus
    obtain rfl : (n : Int) = k := Option.some.inj hk
    omega
  obtain ⟨spelling, hliteral, hread⟩ := exists_bigInt h htoken.ne_bool hn
  refine ⟨_, .bigInt n, .number n, hliteral, .of_holds htoken _, hresult, ?_, rfl,
    (SourceType.meaning?_eq_number_iff htoken hrange).mpr rfl⟩
  rw [Literal.payload, if_neg htoken.ne_bool]
  exact hread

/-- **The last link keeps what the literal means**: one case for every edge to the node of a
constructor. -/
theorem Edge.literalMeans {value result : Value} {token : SourceType} (h : Edge value result)
    (hv : value.WellFormed) (htoken : SourceType.ofNode? result.node = some token)
    (hliteral : value.HasLiteral token) : value.LiteralMeans token result := by
  have hresult := h.wellFormed hv
  have hkept := h.number_eq hv
  cases h with
  | asciiString | utf8String =>
    cases htoken
    exact ⟨_, _, _, rfl, .circuitString _, rfl, Datum.read?_quote _, rfl, rfl⟩
  | base58Signature text =>
    cases htoken
    exact ⟨_, _, _, rfl, .signature text, rfl, Datum.read?_quote text, rfl, rfl⟩
  | base58PublicKey text =>
    cases htoken
    exact ⟨_, _, _, rfl, .publicKey text, rfl, Datum.read?_quote text, rfl, rfl⟩
  | booleanBool b =>
    cases htoken
    exact ⟨_, _, _, rfl, .bool b, rfl, Datum.read?_boolWord b, rfl, rfl⟩
  | @bytesUint data width | @uintUint source width n | @timeUint width n | @numberUint width n =>
    cases width with
    | w64 =>
      cases htoken
      exact literalMeans_number hliteral (.inr ⟨rfl, hresult⟩) (hkept rfl rfl) rfl
    | _ => cases htoken
  | uintUInt64 | fieldUInt64 =>
    cases htoken
    exact literalMeans_number hliteral (.inr ⟨rfl, hresult⟩) (hkept rfl rfl) rfl
  | uintField source n =>
    cases htoken
    have hval : (Field.ofNat n.toNat).val = n.toNat := hv.wordExact .minaField
    exact literalMeans_number hliteral (.inl ⟨rfl, hval ▸ hresult⟩) rfl (meaning?_ofNat hval)
  | uint64Field n =>
    cases htoken
    have hval : (Field.ofNat n.toNat).val = n.toNat := hv.wordExact .minaField
    exact literalMeans_number hliteral (.inl ⟨rfl, hval ▸ hresult⟩) rfl (meaning?_ofNat hval)
  | booleanUint width b =>
    -- A truth value is no literal of a number.
    cases hliteral
    cases width <;> cases htoken
  | boolField b =>
    cases hliteral
    cases htoken
  | _ => cases htoken

theorem exists_of_ofChain_concat {raw : Json} {init : List Link} {last : Link} {result : Value}
    (hne : init ≠ []) (h : ofChain raw (init ++ [last]) = .ok result) :
    ∃ value, ofChain raw init = .ok value ∧ value.follow last = .ok result := by
  obtain ⟨first, rest, rfl⟩ := List.exists_cons_of_ne_nil hne
  obtain ⟨node, hnode, h⟩ := bind_eq_ok.mp h
  obtain ⟨start, hstart, h⟩ := bind_eq_ok.mp h
  rw [List.foldlM_append] at h
  obtain ⟨value, hvalue, h⟩ := bind_eq_ok.mp h
  refine ⟨value, bind_eq_ok.mpr ⟨node, hnode, bind_eq_ok.mpr ⟨start, hstart, hvalue⟩⟩, ?_⟩
  simpa using h

end Value

namespace Literal

theorem staticExpr_eq_ok {value : Scalar} {chain : Chain} {token : SourceType} {literal : Literal}
    (htoken : SourceType.ofTypeName? chain.finalType = some token)
    (hliteral : ofStatic Value.ofChain value chain = .ok literal) :
    staticExpr Value.ofChain value chain = construct token literal := by
  rw [staticExpr, SourceType.parse, htoken, hliteral]
  rfl

theorem ofStatic_of_init {value : Scalar} {chain : Chain} {u : Value} {literal : Literal}
    (hlinks : chain.init ≠ []) (hu : Value.ofChain value.toJson chain.init = .ok u)
    (hliteral : ofValue? u = some literal) : ofStatic Value.ofChain value chain = .ok literal := by
  rw [ofStatic, if_neg (by simpa using hlinks), hu]
  refine bind_eq_ok.mpr ⟨u, rfl, ?_⟩
  rw [hliteral]
  rfl

/-- **The literal of a converted value means what the whole chain returns.**  A chain of at least
two links that returns a value passes through a value in front of its last link.  If that one stands
in a source as it is, its literal inside the constructor of the final type is an expression, the
literal carries what the chain returns without any rounding or conversion, and the whole expression
denotes the same. -/
theorem staticExpr_of_init {value : Scalar} {chain : Chain} {token : SourceType} {v : Value}
    (hlinks : chain.init ≠ []) (htoken : SourceType.ofTypeName? chain.finalType = some token)
    (hv : Value.ofChain value.toJson chain.links = .ok v) :
    ∃ u, Value.ofChain value.toJson chain.init = .ok u ∧ (u.HasLiteral token →
      ∃ expr payload datum meaning, staticExpr Value.ofChain value chain = .ok expr ∧
        (∀ spell, expr.render spell = token.opening ++ payload ++ token.closing) ∧
        Datum.read? payload.toList = some datum ∧ datum.exact? = some meaning ∧
        v.meaning? = some meaning ∧ ∀ spell, token.read? (expr.render spell) = some meaning) := by
  obtain ⟨u, hu, hlast⟩ := Value.exists_of_ofChain_concat hlinks hv
  refine ⟨u, hu, fun hliteral => ?_⟩
  obtain ⟨-, htarget, hedge⟩ := Value.edge_of_follow hlast
  obtain ⟨-, hwell, -⟩ := Value.ofChain_wellFormed hu
  have hnode : SourceType.ofNode? v.node = some token := by
    rw [← SourceType.ofTypeName?_typeName, htarget]
    exact htoken
  obtain ⟨literal, datum, meaning, hof, hfits, hmeaning, hread, hexact, htaken⟩ :=
    hedge.literalMeans hwell hnode hliteral
  obtain ⟨expr, hconstruct, hrender⟩ := hfits.exists_construct
  refine ⟨expr, literal.payload token, datum, meaning, ?_, hrender, hread, hexact, hmeaning,
    fun spell => ?_⟩
  · rw [staticExpr_eq_ok htoken (ofStatic_of_init hlinks hu hof), hconstruct]
  · rw [read?_construct hrender hread, htaken]

/-- A chain from bytes to a field element through a word of 128 bits. -/
def wordToField : Chain :=
  ⟨[⟨"bytes", "uint128"⟩], ⟨"uint128", "mina:field"⟩⟩

def largestWord : Scalar :=
  .text "0xffffffffffffffffffffffffffffffff"

/-- The largest word becomes a literal that denotes its field element. -/
theorem staticExpr_of_init_largestWord :
    Value.ofChain largestWord.toJson wordToField.init
        = .ok (.uint .w128 (.ofNat 128 (2 ^ 128 - 1))) ∧
      Value.ofChain largestWord.toJson wordToField.links = .ok (.field (.ofNat (2 ^ 128 - 1))) ∧
      ∃ expr payload datum meaning, staticExpr Value.ofChain largestWord wordToField = .ok expr ∧
        (∀ spell, expr.render spell = "Field(" ++ payload ++ ")") ∧
        Datum.read? payload.toList = some datum ∧ datum.exact? = some meaning ∧
        (Value.field (.ofNat (2 ^ 128 - 1))).meaning? = some meaning ∧
        ∀ spell, SourceType.field.read? (expr.render spell) = some meaning := by
  have hinit : Value.ofChain largestWord.toJson wordToField.init
      = .ok (.uint .w128 (.ofNat 128 (2 ^ 128 - 1))) := toOption_eq_some.mp (by decide +kernel)
  have hlinks : Value.ofChain largestWord.toJson wordToField.links
      = .ok (.field (.ofNat (2 ^ 128 - 1))) := toOption_eq_some.mp (by decide +kernel)
  have htoken : SourceType.ofTypeName? wordToField.finalType = some .field := by decide
  obtain ⟨u, hu, hliteral⟩ := staticExpr_of_init (by decide) htoken hlinks
  rw [hinit] at hu
  cases hu
  exact ⟨hinit, hlinks, hliteral trivial⟩

end Literal

end Circuitry
