import Circuitry.Proofs.StaticLiteral

/-!
# Literals of raw values

If the chain of a static value has one link only, its literal is the raw value itself.  Then the
node at the start of the link and the constructor at its end both read the raw value, each by its
own rules.  `Scalar.ReadsAlike` says where the rules agree.  The constructor rounds an integer to a
double, it takes digits without `0x` for decimal ones where bytes are hexadecimal, it makes nothing
of `0x` without digits, and no number of a text that says a truth value.

The expression denotes what the chain returns exactly if the value is read alike
(`Literal.staticExpr_single`), and `Literal.staticExpr_bytes_ten` is a value that is not.
-/

namespace Circuitry

open Fallible

namespace Scalar

/-- Where a node and a constructor read a text alike. -/
def TextReadsAlike (s : String) (node : Node) (token : SourceType) : Prop :=
  match node with
  | .bytes =>
    match Raw.hexDigits? s with
    | some digits => digits ≠ []
    -- The node reads hexadecimal digits, the constructor decimal ones.
    | none => ∀ n ∈ numeral? 16 s.toList, n < 10
  -- The node reads a lone `0x` as zero, and the constructor as no integer.
  | .minaField => Raw.hexDigits? s ≠ some []
  | .boolean | .minaBool => token = .bool
  | _ => True

/-- Where a node and a constructor read a raw value alike: an integer if it is a double, truth
values and doubles always, and texts as far as both read their digits in one base. -/
def ReadsAlike (value : Scalar) (node : Node) (token : SourceType) : Prop :=
  match value with
  | .number (.integer n) => Double.IsExact n.toNat
  | .text s => TextReadsAlike s node token
  | .number (.double _) | .boolean _ => True

/-- The literal of a raw value stands for some integer of the field or for none, and for the given
number exactly under a condition. -/
def StandsFor (value : Scalar) (n : Nat) (condition : Prop) : Prop :=
  ∃ datum, Datum.read? (Literal.ofScalar value).render.toList = some datum ∧
    (∀ k, datum.integer? = some k → 0 ≤ k ∧ k < Field.modulus) ∧
    (datum.integer? = some (n : Int) ↔ condition)

theorem standsFor_integer {n : Nat} (h : n < capacity 64) :
    (Scalar.number (.integer n)).StandsFor n (Double.IsExact n) := by
  obtain ⟨x, hread, hsign, hwhole⟩ := Datum.read?_natural h
  have hinteger : (Datum.double x).integer? = some (Double.nearestWhole n : Int) := by
    simp [Datum.integer?, hwhole, hsign]
  have hrender : (Literal.ofScalar (.number (.integer n))).render = n.repr := by
    have hpos : ¬ ((n : Int) < 0) := by omega
    rw [Literal.ofScalar, Literal.render, Number.render, if_neg hpos, Int.natAbs_natCast]
  refine ⟨.double x, by rw [hrender, hread], fun k hk => ?_, ?_⟩
  · have hle := Double.nearestWhole_le h
    have hmodulus : 2 ^ 64 < Field.modulus := by decide
    rw [hinteger, Option.some.injEq] at hk
    omega
  · rw [hinteger, ← Double.nearestWhole_eq_iff, Option.some.injEq, Int.ofNat_inj]

theorem standsFor_double {x : Double} {n : Nat}
    (h : Raw.natural? (.number (.double x)) = some n) :
    (Scalar.number (.double x)).StandsFor n True := by
  obtain ⟨hnatural, hsafe⟩ := Option.filter_eq_some_iff.mp h
  have hlt : n < 2 ^ 53 := by
    have hle : n ≤ 2 ^ 53 - 1 := of_decide_eq_true hsafe
    omega
  have hwhole : x.wholeMagnitude? = some n ∧ (x.negative = true → n = 0) := by
    unfold Double.natural? at hnatural
    split at hnatural
    · cases hnatural
    · rename_i hsign
      refine ⟨hnatural, fun hnegative => ?_⟩
      simp only [hnegative, Bool.true_and, bne_iff_ne, ne_eq, Decidable.not_not] at hsign
      rw [Double.wholeMagnitude?_eq_zero_iff.mpr hsign, Option.some.injEq] at hnatural
      exact hnatural.symm
  have hinteger : (Datum.double x).integer? = some (n : Int) := by
    rw [Datum.integer?, hwhole.1, Option.map_some]
    split
    · rename_i hnegative
      rw [hwhole.2 hnegative]
      rfl
    · rfl
  refine ⟨.double x, Datum.read?_render hlt hwhole.1, fun k hk => ?_, iff_true_intro hinteger⟩
  have hmodulus : 2 ^ 53 < Field.modulus := by decide
  rw [hinteger, Option.some.injEq] at hk
  omega

theorem standsFor_text {s : String} {n : Nat} (hlt : n < Field.modulus)
    (h : integerText? s.toList = some (n : Int)) : (Scalar.text s).StandsFor n True := by
  refine ⟨.text s, Datum.read?_quote s, fun k hk => ?_, iff_true_intro h⟩
  rw [Datum.integer?, h, Option.some.injEq] at hk
  omega

theorem standsFor_text_none {s : String} (n : Nat) (h : integerText? s.toList = none) :
    (Scalar.text s).StandsFor n False := by
  refine ⟨.text s, Datum.read?_quote s, fun k hk => ?_, ?_⟩
  · rw [Datum.integer?, h] at hk
    cases hk
  · simp [Datum.integer?, h]

theorem StandsFor.of_iff {value : Scalar} {n : Nat} {p q : Prop} (h : value.StandsFor n p)
    (hiff : p ↔ q) : value.StandsFor n q := by
  obtain ⟨datum, hread, hrange, hinteger⟩ := h
  exact ⟨datum, hread, hrange, hinteger.trans hiff⟩

theorem exists_of_fieldDigits {digits : List Char} {x : Field}
    (h : Raw.fieldDigits digits = .ok x) :
    ∃ data, Text.Hex.decode digits = .ok data ∧ x.val = ofBigEndian data := by
  obtain ⟨data, hdata, h⟩ := bind_eq_ok.mp h
  refine ⟨data, mapError_eq_ok.mp hdata, ?_⟩
  split at h
  · cases h
  · by_cases hlt : ofBigEndian data < Field.modulus
    · rw [Field.ofCanonical?, dif_pos hlt] at h
      cases h
      rfl
    · rw [Field.ofCanonical?, dif_neg hlt] at h
      cases h

theorem eq_of_unsigned? {m : Int} {n : Nat} (h : (Number.integer m).unsigned? = some n) :
    m = n ∧ n < capacity 64 := by
  rw [Number.unsigned?, Option.ite_none_right_eq_some, Option.some.injEq] at h
  omega

theorem lt_of_natural? {raw : Json} {n : Nat} (h : Raw.natural? raw = some n) :
    n < capacity 128 := by
  cases raw with
  | number number =>
    cases number with
    | integer m => exact Nat.lt_trans (eq_of_unsigned? h).2 (by decide)
    | double x =>
      obtain ⟨-, hsafe⟩ := Option.filter_eq_some_iff.mp h
      exact Nat.lt_of_le_of_lt (of_decide_eq_true hsafe) (by decide)
  | string s =>
    obtain ⟨-, -, -, -, -, hlt⟩ := Raw.exists_of_decimal? h
    exact hlt
  | _ => cases h

theorem standsFor_natural {value : Scalar} {node : Node} {token : SourceType} {n : Nat}
    (htext : ∀ s, value = .text s → TextReadsAlike s node token)
    (h : Raw.natural? value.toJson = some n) :
    value.StandsFor n (value.ReadsAlike node token) := by
  cases value with
  | number number =>
    cases number with
    | integer m =>
      obtain ⟨rfl, hlt⟩ := eq_of_unsigned? h
      exact standsFor_integer hlt
    | double x => exact standsFor_double h
  | text s =>
    have hlt := Nat.lt_trans (lt_of_natural? h) Field.capacity_lt_modulus
    exact (standsFor_text hlt (integerText?_of_decimal? h)).of_iff
      (iff_of_true trivial (htext s rfl))
  | boolean b => cases h

theorem standsFor_hex {s : String} {digits : List Char} {data : List UInt8}
    (hdigits : Raw.hexDigits? s = some digits) (h : Text.Hex.decode digits = .ok data)
    (hlt : ofBigEndian data < Field.modulus) :
    (Scalar.text s).StandsFor (ofBigEndian data) (digits ≠ []) := by
  have hinteger := integerText?_of_hex hdigits h
  by_cases hempty : digits = []
  · subst hempty
    exact (standsFor_text_none _ hinteger).of_iff (by simp)
  · rw [if_neg (by simpa using hempty)] at hinteger
    exact (standsFor_text hlt hinteger).of_iff (by simpa using hempty)

theorem standsFor_digits {s : String} {data : List UInt8} (hplain : Raw.hexDigits? s = none)
    (h : Text.Hex.decode s.toList = .ok data) (hlt : ofBigEndian data < Field.modulus) :
    (Scalar.text s).StandsFor (ofBigEndian data) (∀ n ∈ numeral? 16 s.toList, n < 10) := by
  have hnumeral := Text.Hex.numeral?_of_decode h
  have hinteger := integerText?_of_digits hplain h
  refine ⟨.text s, Datum.read?_quote s, fun k hk => ?_, ?_⟩
  · rw [Datum.integer?, hinteger] at hk
    obtain ⟨m, hm, rfl⟩ := Option.map_eq_some_iff.mp hk
    have hle := numeral?_ten_le hm hnumeral
    exact ⟨Int.natCast_nonneg m, Int.ofNat_lt.mpr (Nat.lt_of_le_of_lt hle hlt)⟩
  · have hsmall : (∀ n ∈ numeral? 16 s.toList, n < 10) ↔ ofBigEndian data < 10 := by
      simp [hnumeral]
    rw [hsmall, ← numeral?_ten_eq_iff hnumeral, Datum.integer?, hinteger, Option.map_eq_some_iff]
    constructor
    · rintro ⟨m, hm, heq⟩
      rwa [← Int.ofNat_inj.mp heq]
    · exact fun hm => ⟨_, hm, rfl⟩

theorem standsFor_bytes {value : Scalar} {data : List UInt8} (token : SourceType)
    (h : Raw.bytes value.toJson = .ok data) (hlt : ofBigEndian data < Field.modulus) :
    value.StandsFor (ofBigEndian data) (value.ReadsAlike .bytes token) := by
  cases value with
  | number number => cases h
  | boolean b => cases h
  | text s =>
    have h := mapError_eq_ok.mp h
    show StandsFor _ _ (TextReadsAlike s .bytes token)
    unfold TextReadsAlike
    cases hdigits : Raw.hexDigits? s with
    | some digits =>
      rw [hdigits, Option.getD_some] at h
      exact standsFor_hex hdigits h hlt
    | none =>
      rw [hdigits, Option.getD_none] at h
      exact standsFor_digits hdigits h hlt

/-- **Field elements**, which are read from digits behind `0x` or as numbers. -/
theorem standsFor_field {value : Scalar} {x : Field} (token : SourceType)
    (h : Raw.field value.toJson = .ok x) :
    value.StandsFor x.val (value.ReadsAlike .minaField token) := by
  unfold Raw.field at h
  cases hdigits : value.toJson.string?.bind Raw.hexDigits? with
  | some digits =>
    rw [hdigits] at h
    cases value with
    | number number => cases hdigits
    | boolean b => cases hdigits
    | text s =>
      have hdigits : Raw.hexDigits? s = some digits := hdigits
      obtain ⟨data, hdata, hx⟩ := exists_of_fieldDigits h
      have hstands := standsFor_hex hdigits hdata (hx ▸ x.isLt)
      rw [← hx] at hstands
      refine hstands.of_iff ?_
      show _ ↔ Raw.hexDigits? s ≠ some []
      rw [hdigits]
      simp
  | none =>
    rw [hdigits] at h
    obtain ⟨n, hnatural, rfl⟩ := map_eq_ok.mp h
    have hnatural := Raw.natural_eq_ok.mp hnatural
    rw [Field.val_ofNat (lt_of_natural? hnatural)]
    refine standsFor_natural ?_ hnatural
    rintro s rfl
    show Raw.hexDigits? s ≠ some []
    have hnone : Raw.hexDigits? s = none := hdigits
    simp [hnone]

theorem eq_boolWord_of_boolean {s : String} {b : Bool} (h : Raw.boolean (.string s) = .ok b) :
    s = Literal.boolWord b := by
  simp only [Raw.boolean] at h
  split at h
  · rename_i hs
    cases h
    exact hs
  · split at h
    · rename_i hs
      cases h
      exact hs
    · cases h

/-- **Truth values**, of which a constructor of numbers makes nothing if they are texts. -/
theorem standsFor_boolean {value : Scalar} {b : Bool} {node : Node} {token : SourceType}
    (hnode : node = .boolean ∨ node = .minaBool) (htoken : token ≠ .bool)
    (h : Raw.boolean value.toJson = .ok b) :
    value.StandsFor b.toNat (value.ReadsAlike node token) := by
  cases value with
  | number number => cases h
  | boolean b' =>
    cases h
    refine ⟨.boolean b, Datum.read?_boolWord b, fun k hk => ?_, iff_true_intro rfl⟩
    have hmodulus : 2 < Field.modulus := by decide
    have hle : b.toNat ≤ 1 := b.toNat_le
    rw [Datum.integer?, Option.some.injEq] at hk
    omega
  | text s =>
    obtain rfl := eq_boolWord_of_boolean h
    have hword : integerText? (Literal.boolWord b).toList = none := by
      cases b <;> decide
    refine (standsFor_text_none _ hword).of_iff (iff_of_false not_false ?_)
    obtain rfl | rfl := hnode
    · exact htoken
    · exact htoken

/-- **What a raw value stands for as a literal**: the number that its node reads exactly if the
two ways of reading agree. -/
theorem standsFor_of_ofJson {value : Scalar} {node : Node} {token : SourceType} {u : Value}
    {n : Nat} (htoken : token ≠ .bool) (hlt : n < Field.modulus)
    (h : Value.ofJson node value.toJson = .ok u) (hn : u.number? = some (n : Int)) :
    value.StandsFor n (value.ReadsAlike node token) := by
  have hnode := (Value.wellFormed_ofJson h).1
  have h := mapError_eq_ok.mp h
  cases node with
  | bytes =>
    obtain ⟨data, hdata, rfl⟩ := Value.read_eq_ok.mp h
    obtain rfl : ofBigEndian data = n := Int.ofNat_inj.mp (Option.some.inj hn)
    exact standsFor_bytes token hdata hlt
  | uint width =>
    obtain ⟨m, hm, hbits, rfl⟩ := Value.checked_eq_ok.mp h
    have hword := Word.toNat_ofNat (Width.lt_word (Refusal.checkBits_eq_ok.mp hbits))
    obtain rfl : m = n := hword.symm.trans (Int.ofNat_inj.mp (Option.some.inj hn))
    exact standsFor_natural (fun _ _ => trivial) (Raw.natural_eq_ok.mp hm)
  | boolean =>
    obtain ⟨b, hb, rfl⟩ := Value.read_eq_ok.mp h
    obtain rfl : b.toNat = n := Int.ofNat_inj.mp (Option.some.inj hn)
    exact standsFor_boolean (.inl rfl) htoken hb
  | unixTime =>
    simp only [Raw.value] at h
    split at h
    · rename_i millis hmillis
      cases h
      obtain ⟨heq, hlow, hbound⟩ := Json.signed?_eq_some.mp hmillis
      have hword : (Int64.ofInt millis).toInt = millis := Int64.toInt_ofInt_of_le hlow hbound
      obtain rfl : millis = n := hword.symm.trans (Option.some.inj hn)
      cases value with
      | number number =>
        cases heq
        have hcapacity : capacity 63 < capacity 64 := by decide
        exact standsFor_integer (by omega)
      | _ => cases heq
    · cases h
  | minaField =>
    obtain ⟨x, hx, rfl⟩ := Value.read_eq_ok.mp h
    obtain rfl : x.val = n := Int.ofNat_inj.mp (Option.some.inj hn)
    exact standsFor_field token hx
  | minaUInt64 =>
    obtain ⟨m, hm, hbits, rfl⟩ := Value.checked_eq_ok.mp h
    have hword : (UInt64.ofNat m).toNat = m :=
      UInt64.toNat_ofNat_of_lt (Refusal.checkBits_eq_ok.mp hbits)
    obtain rfl : m = n := hword.symm.trans (Int.ofNat_inj.mp (Option.some.inj hn))
    exact standsFor_natural (fun _ _ => trivial) (Raw.natural_eq_ok.mp hm)
  | minaBool =>
    obtain ⟨b, hb, rfl⟩ := Value.read_eq_ok.mp h
    obtain rfl : b.toNat = n := Int.ofNat_inj.mp (Option.some.inj hn)
    exact standsFor_boolean (.inr rfl) htoken hb
  | iso3166Numeric =>
    obtain ⟨m, hm, h⟩ := bind_eq_ok.mp h
    split at h
    · rename_i hnumeric
      rw [Bool.and_eq_true, decide_eq_true_eq] at hnumeric
      have hword : (UInt16.ofNat m).toNat = m := UInt16.toNat_ofNat_of_lt hnumeric.1
      cases h
      obtain rfl : m = n := hword.symm.trans (Int.ofNat_inj.mp (Option.some.inj hn))
      exact standsFor_natural (fun _ _ => trivial) (Raw.natural_eq_ok.mp hm)
    · cases h
  | _ =>
    have hnumeric := Value.isNumeric_of_number hn
    rw [hnode] at hnumeric
    cases hnumeric

theorem eq_text_of_string {value : Scalar} {s : String} (h : Raw.string value.toJson = .ok s) :
    value = .text s := by
  cases value with
  | text s' => cases h; rfl
  | _ => cases h

theorem eq_text_of_ofJson {value : Scalar} {u : Value} {s : String}
    (hu : u = .ascii s ∨ u = .utf8 s ∨ u = .base58 s)
    (h : Value.ofJson u.node value.toJson = .ok u) : value = .text s := by
  have h := mapError_eq_ok.mp h
  obtain rfl | rfl | rfl := hu
  · obtain ⟨text, hs, -, heq⟩ := Value.checked_eq_ok.mp h
    cases heq
    exact eq_text_of_string hs
  · obtain ⟨text, hs, heq⟩ := Value.read_eq_ok.mp h
    cases heq
    exact eq_text_of_string hs
  · obtain ⟨text, hs, -, heq⟩ := Value.checked_eq_ok.mp h
    cases heq
    exact eq_text_of_string hs

/-- The constructor takes the literal of a raw value, and makes of it what a value means exactly
if the two ways of reading agree. -/
def LiteralMeans (value : Scalar) (node : Node) (token : SourceType) (result : Value) : Prop :=
  ∃ datum meaning, (Literal.ofScalar value).Fits token ∧ result.meaning? = some meaning ∧
    Datum.read? ((Literal.ofScalar value).payload token).toList = some datum ∧
    (token.meaning? datum = some meaning ↔ value.ReadsAlike node token)

theorem literalMeans_text {s : String} {node : Node} {token : SourceType} {result : Value}
    (hfits : (Literal.text s).Fits token) (hbool : token ≠ .bool)
    (hmeaning : token.meaning? (.text s) = some (.text s))
    (hresult : result.meaning? = some (.text s)) (halike : TextReadsAlike s node token) :
    (Scalar.text s).LiteralMeans node token result := by
  refine ⟨.text s, .text s, hfits, hresult, ?_, iff_of_true hmeaning halike⟩
  rw [Literal.payload, if_neg hbool]
  exact Datum.read?_quote s

theorem literalMeans_number {value : Scalar} {node : Node} {token : SourceType} {u result : Value}
    {n : Nat} (h : Value.ofJson node value.toJson = .ok u) (htoken : token.Holds n)
    (hn : u.number? = some (n : Int)) (hresult : result.meaning? = some (.number n)) :
    value.LiteralMeans node token result := by
  obtain ⟨datum, hread, hrange, hiff⟩ :=
    standsFor_of_ofJson htoken.ne_bool htoken.lt_modulus h hn
  refine ⟨datum, .number n, .of_holds htoken _, hresult, ?_,
    (SourceType.meaning?_eq_number_iff htoken hrange).trans hiff⟩
  rw [Literal.payload, if_neg htoken.ne_bool]
  exact hread

/-- **A raw literal means what its only link returns exactly if both are read alike**: one case for
every edge to the node of a constructor. -/
theorem literalMeans_of_edge {value : Scalar} {node : Node} {token : SourceType} {u result : Value}
    (h : Value.ofJson node value.toJson = .ok u) (hedge : Value.Edge u result)
    (htoken : SourceType.ofNode? result.node = some token) :
    value.LiteralMeans node token result := by
  obtain ⟨rfl, hwell⟩ := Value.wellFormed_ofJson h
  have hresult := hedge.wellFormed hwell
  have hkept := hedge.number_eq hwell
  cases hedge with
  | @asciiString text =>
    cases htoken
    obtain rfl := eq_text_of_ofJson (.inl rfl) h
    exact literalMeans_text (.circuitString text) (by decide) rfl rfl trivial
  | @utf8String text =>
    cases htoken
    obtain rfl := eq_text_of_ofJson (.inr (.inl rfl)) h
    exact literalMeans_text (.circuitString text) (by decide) rfl rfl trivial
  | base58Signature text =>
    cases htoken
    obtain rfl := eq_text_of_ofJson (.inr (.inr rfl)) h
    exact literalMeans_text (.signature text) (by decide) rfl rfl trivial
  | base58PublicKey text =>
    cases htoken
    obtain rfl := eq_text_of_ofJson (.inr (.inr rfl)) h
    exact literalMeans_text (.publicKey text) (by decide) rfl rfl trivial
  | booleanBool b =>
    cases htoken
    obtain ⟨b', hb, heq⟩ := Value.read_eq_ok.mp (mapError_eq_ok.mp h)
    cases heq
    cases value with
    | number number => cases hb
    | boolean b' =>
      cases hb
      exact ⟨.boolean b, .boolean b, .bool b, rfl, Datum.read?_boolWord b, iff_of_true rfl trivial⟩
    | text s =>
      obtain rfl := eq_boolWord_of_boolean hb
      exact ⟨.boolean b, .boolean b, .word b, rfl, Datum.read?_boolWord b, iff_of_true rfl rfl⟩
  | @bytesUint data width | @uintUint source width n | @timeUint width n | @numberUint width n
  | booleanUint width b =>
    cases width with
    | w64 =>
      cases htoken
      exact literalMeans_number h (.inr ⟨rfl, hresult⟩) (hkept rfl rfl) rfl
    | _ => cases htoken
  | uintUInt64 | fieldUInt64 =>
    cases htoken
    exact literalMeans_number h (.inr ⟨rfl, hresult⟩) (hkept rfl rfl) rfl
  | uintField source n =>
    cases htoken
    have hval : (Field.ofNat n.toNat).val = n.toNat := hwell.wordExact .minaField
    exact literalMeans_number h (.inl ⟨rfl, hval ▸ hresult⟩) rfl (Value.meaning?_ofNat hval)
  | uint64Field n =>
    cases htoken
    have hval : (Field.ofNat n.toNat).val = n.toNat := hwell.wordExact .minaField
    exact literalMeans_number h (.inl ⟨rfl, hval ▸ hresult⟩) rfl (Value.meaning?_ofNat hval)
  | boolField b =>
    cases htoken
    have hval : (Field.ofNat b.toNat).val = b.toNat := hwell.wordExact .minaField
    exact literalMeans_number h (.inl ⟨rfl, hval ▸ hresult⟩) rfl (Value.meaning?_ofNat hval)
  | _ => cases htoken

end Scalar

namespace Literal

/-- **The literal of a raw value means what its only link returns exactly if both read it alike.**
The expression exists in any case. -/
theorem staticExpr_single {value : Scalar} {chain : Chain} {token : SourceType} {v : Value}
    (hsingle : chain.init = []) (htoken : SourceType.ofTypeName? chain.finalType = some token)
    (hv : Value.ofChain value.toJson chain.links = .ok v) :
    ∃ node expr meaning, node.name = chain.last.source ∧
      staticExpr Value.ofChain value chain = .ok expr ∧ v.meaning? = some meaning ∧
      ∀ spell, token.read? (expr.render spell) = some meaning ↔ value.ReadsAlike node token := by
  obtain ⟨init, last⟩ := chain
  subst hsingle
  obtain ⟨node, hnode, hv⟩ := bind_eq_ok.mp hv
  obtain ⟨start, hstart, hv⟩ := bind_eq_ok.mp hv
  have hfollow : start.follow last = .ok v := by simpa [Chain.links] using hv
  obtain ⟨-, htarget, hedge⟩ := Value.edge_of_follow hfollow
  have hresult : SourceType.ofNode? v.node = some token := by
    rw [← SourceType.ofTypeName?_typeName, htarget]
    exact htoken
  obtain ⟨datum, meaning, hfits, hmeaning, hread, hiff⟩ :=
    Scalar.literalMeans_of_edge hstart hedge hresult
  obtain ⟨expr, hconstruct, hrender⟩ := hfits.exists_construct
  refine ⟨node, expr, meaning, Value.name_of_parse hnode, ?_, hmeaning, fun spell => ?_⟩
  · have hstatic : ofStatic Value.ofChain value ⟨[], last⟩ = .ok (ofScalar value) := rfl
    rw [staticExpr_eq_ok htoken hstatic, hconstruct]
  · rw [read?_construct hrender hread]
    exact hiff

/-- An even number beyond `2 ^ 53` is a double, so its literal denotes its field element. -/
theorem staticExpr_single_even :
    Value.ofChain (Scalar.number (.integer 9007199254740994)).toJson [⟨"uint64", "mina:field"⟩]
        = .ok (.field (.ofNat 9007199254740994)) ∧
      ∃ expr meaning, staticExpr Value.ofChain (.number (.integer 9007199254740994))
          ⟨[], ⟨"uint64", "mina:field"⟩⟩ = .ok expr ∧
        (Value.field (.ofNat 9007199254740994)).meaning? = some meaning ∧
        ∀ spell, SourceType.field.read? (expr.render spell) = some meaning := by
  have hlinks : Value.ofChain (Scalar.number (.integer 9007199254740994)).toJson
      (Chain.mk [] ⟨"uint64", "mina:field"⟩).links = .ok (.field (.ofNat 9007199254740994)) :=
    toOption_eq_some.mp (by decide +kernel)
  have htoken : SourceType.ofTypeName? (Chain.mk [] ⟨"uint64", "mina:field"⟩).finalType
      = some .field := by decide
  obtain ⟨node, expr, meaning, -, hexpr, hmeaning, hread⟩ := staticExpr_single rfl htoken hlinks
  have halike : (Scalar.number (.integer 9007199254740994)).ReadsAlike node .field :=
    ⟨4503599627370497, 1, by decide, by decide⟩
  exact ⟨hlinks, expr, meaning, hexpr, hmeaning, fun spell => (hread spell).mpr halike⟩

/-- Bytes read `10` as sixteen, but the literal of the constructor is ten. -/
theorem staticExpr_bytes_ten :
    Value.ofChain (Scalar.text "10").toJson [⟨"bytes", "uint64"⟩] = .ok (.uint .w64 16) ∧
      ∃ expr, staticExpr Value.ofChain (.text "10") ⟨[], ⟨"bytes", "uint64"⟩⟩ = .ok expr ∧
        ∀ spell, expr.render spell = "UInt64.from(Field(\"10\"))" ∧
          SourceType.uint64.read? (expr.render spell) = some (.number 10) := by
  refine ⟨toOption_eq_some.mp (by decide +kernel),
    .call "UInt64.from" [.call "Field" [.atom "\"10\""]], ?_, fun spell => ?_⟩
  · rfl
  · have hrender : (Expr.call "UInt64.from" [.call "Field" [.atom "\"10\""]]).render spell
        = "UInt64.from(Field(\"10\"))" := rfl
    rw [hrender]
    exact ⟨rfl, by decide +kernel⟩

end Literal

end Circuitry
