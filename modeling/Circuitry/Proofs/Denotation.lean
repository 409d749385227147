import Circuitry.Json.Token
import Circuitry.Proofs.Exactness
import Circuitry.Source.Literal

/-!
# What literals denote

A literal is text, and what matters is what the language of the source reads there.  A number
without suffix is a double, a number with the suffix `n` is an integer of any size, a text stands
between quotes with some of its characters escaped, and truth values are words.  `Datum.read?`
reads all four kinds.

The constructors around a literal read it once more.  A field element takes any literal that is an
integer, and a text counts as an integer if its digits are decimal or follow `0x`; the other
constructors take a truth value or a text as it is.  `SourceType.read?` reads a whole expression of
one constructor.

The theorems say what is read from the forms in which the library writes values:
`Datum.read?_quote` for texts, `Datum.read?_bigInt` and `Datum.read?_hex` for integers.  Digits
inside a text are decimal without `0x`, and `numeral?_ten_eq_iff` says when it makes no difference.
-/

namespace Circuitry

open Fallible

/-! ### Reading literals -/

def pushDigit? (base n : Nat) (c : Char) : Option Nat := do
  let digit ← Text.Hex.digitValue? c.toNat
  if digit < base then some (n * base + digit) else none

def numeral? (base : Nat) (digits : List Char) : Option Nat :=
  digits.foldlM (pushDigit? base) 0

def numeral1? (base : Nat) (digits : List Char) : Option Nat :=
  if digits.isEmpty then none else numeral? base digits

/-- Reads an integer literal in front of its suffix: digits behind `0x`, or decimal digits that do
not start with a needless zero. -/
def integerLiteral? : List Char → Option Nat
  | '0' :: 'x' :: digits => numeral1? 16 digits
  | '0' :: _ :: _ => none
  | digits => numeral1? 10 digits

/-- Reads a text as an integer: digits behind `0x`, or decimal digits that may have a sign.  The
empty text is zero. -/
def integerText? : List Char → Option Int
  | '0' :: 'x' :: digits => (numeral1? 16 digits).map Int.ofNat
  | '+' :: digits => (numeral1? 10 digits).map Int.ofNat
  | '-' :: digits => (numeral1? 10 digits).map fun n => -(n : Int)
  | digits => (numeral? 10 digits).map Int.ofNat

/-- Reads the inside of a quoted text and the quote that ends it. -/
def unquote? : List Char → Option (List Char)
  | [] => none
  | '"' :: rest => if rest.isEmpty then some [] else none
  | '\\' :: 'u' :: a :: b :: c :: d :: rest => do
    let point ← numeral? 16 [a, b, c, d]
    if point.isValidChar then return Char.ofNat point :: (← unquote? rest) else none
  | '\\' :: c :: rest => do
    let c ← Json.shortEscape? c
    return c :: (← unquote? rest)
  | c :: rest =>
    if c = '\n' ∨ c = '\r' ∨ c = '\\' then none else (unquote? rest).map (c :: ·)

/-- The decimal that the parts of a number denote, without the sign. -/
def Json.NumberParts.decimal (parts : NumberParts) : Decimal :=
  let fraction := parts.fraction.getD []
  ⟨Nat.ofDigitChars 10 (parts.whole ++ fraction) 0, parts.exponent.getD 0 - fraction.length⟩

inductive Datum where
  | double (x : Double)
  | bigInt (n : Nat)
  | text (s : String)
  | boolean (b : Bool)
  deriving DecidableEq

namespace Datum

def read? (cs : List Char) : Option Datum :=
  match cs with
  | '"' :: rest => (unquote? rest).map fun s => .text (String.ofList s)
  | cs =>
    if cs = (Literal.boolWord true).toList then some (.boolean true)
    else if cs = (Literal.boolWord false).toList then some (.boolean false)
    else if cs.getLast? = some 'n' then (integerLiteral? cs.dropLast).map .bigInt
    else do
      let parts ← Json.numberParts? cs
      return .double (← Double.ofDecimal? parts.negative parts.decimal)

/-- The integer that a literal stands for: a double has to be whole, and truth values count as one
and zero. -/
def integer? : Datum → Option Int
  | .double x => x.wholeMagnitude?.map fun (n : Nat) => if x.negative then -(n : Int) else n
  | .bigInt n => some n
  | .text s => integerText? s.toList
  | .boolean b => some b.toNat

end Datum

/-! ### Reading expressions -/

/-- What an expression of one constructor denotes. -/
inductive Meaning where
  | number (n : Int)
  | text (s : String)
  | boolean (b : Bool)
  deriving DecidableEq

/-- What a value carries. -/
def Value.meaning? : Value → Option Meaning
  | .ascii s | .utf8 s | .base58 s | .isoDate s | .circuitString s | .signature s | .publicKey s
  | .countryCode s => some (.text s)
  | .boolean b | .bool b => some (.boolean b)
  | value => value.number?.map .number

/-- What a literal carries as it stands, without any conversion.  A double is left out: it may have
been rounded. -/
def Datum.exact? : Datum → Option Meaning
  | .double _ => none
  | .bigInt n => some (.number n)
  | .text s => some (.text s)
  | .boolean b => some (.boolean b)

namespace SourceType

def opening : SourceType → String
  | .field => "Field("
  | .uint64 => "UInt64.from(Field("
  | .bool => "Bool("
  | .signature => "Signature.fromBase58("
  | .publicKey => "PublicKey.fromBase58("
  | .circuitString => "CircuitString.fromString("

def closing : SourceType → String
  | .uint64 => "))"
  | _ => ")"

/-- What a constructor makes of a literal.  Field elements are numbers modulo the order of the
field, and a number of sixty-four bits is made from the field element that it is. -/
def meaning? (token : SourceType) (datum : Datum) : Option Meaning :=
  match token, datum with
  | .field, datum => datum.integer?.map fun n => .number (n % Field.modulus)
  | .uint64, datum => do
    let n ← datum.integer?
    if n % Field.modulus < capacity 64 then some (.number (n % Field.modulus)) else none
  | .bool, .boolean b => some (.boolean b)
  | .signature, .text s | .publicKey, .text s | .circuitString, .text s => some (.text s)
  | _, _ => none

def unwrap? (token : SourceType) (cs : List Char) : Option (List Char) :=
  let rest := cs.drop token.opening.toList.length
  let inside := rest.take (rest.length - token.closing.toList.length)
  if token.opening.toList ++ inside ++ token.closing.toList = cs then some inside else none

def read? (token : SourceType) (expression : String) : Option Meaning := do
  let payload ← token.unwrap? expression.toList
  let datum ← Datum.read? payload
  token.meaning? datum

/-- **What an expression denotes is what its constructor makes of its literal.** -/
theorem read?_wrap (token : SourceType) (payload : String) :
    token.read? (token.opening ++ payload ++ token.closing) =
      (Datum.read? payload.toList).bind token.meaning? := by
  have hunwrap : token.unwrap? (token.opening ++ payload ++ token.closing).toList
      = some payload.toList := by
    rw [String.toList_append, String.toList_append, unwrap?]
    simp
  rw [read?, hunwrap]
  rfl

end SourceType

/-! ### Digits -/

theorem pushDigit?_eq_some {base n m : Nat} {c : Char} :
    pushDigit? base n c = some m ↔ ∃ digit, Text.Hex.digitValue? c.toNat = some digit ∧
      digit < base ∧ m = n * base + digit := by
  simp only [pushDigit?, Option.bind_eq_bind, Option.bind_eq_some_iff,
    Option.ite_none_right_eq_some, Option.some.injEq]
  exact exists_congr fun digit => and_congr_right fun _ => and_congr_right fun _ => eq_comm

theorem numeral?_concat_eq_some {base n : Nat} {digits : List Char} {c : Char} :
    numeral? base (digits ++ [c]) = some n ↔ ∃ m digit, numeral? base digits = some m ∧
      Text.Hex.digitValue? c.toNat = some digit ∧ digit < base ∧ n = m * base + digit := by
  simp only [numeral?, List.foldlM_append, List.foldlM_cons, List.foldlM_nil, bind_pure,
    Option.bind_eq_bind, Option.bind_eq_some_iff, pushDigit?_eq_some, exists_and_left]

theorem digitValue?_of_isDigit {c : Char} (h : c.isDigit = true) :
    Text.Hex.digitValue? c.toNat = some (c.toNat - 48) ∧ c.toNat - 48 < 10 := by
  have hrange : 48 ≤ c.toNat ∧ c.toNat ≤ 57 := by
    simpa [Char.isDigit, UInt32.le_iff_toNat_le] using h
  rw [Text.Hex.digitValue?, if_pos hrange]
  exact ⟨rfl, by omega⟩

theorem numeral?_decimal {digits : List Char} (h : ∀ c ∈ digits, c.isDigit = true) :
    numeral? 10 digits = some (Nat.ofDigitChars 10 digits 0) := by
  induction digits using List.reverseRecOn with
  | nil => rfl
  | append_singleton rest c ih =>
    have hc : c.isDigit = true := h c (List.mem_append_right _ List.mem_cons_self)
    obtain ⟨hdigit, hlt⟩ := digitValue?_of_isDigit hc
    refine numeral?_concat_eq_some.mpr ⟨_, _, ih fun d hd => h d (List.mem_append_left _ hd),
      hdigit, hlt, ?_⟩
    rw [Nat.ofDigitChars_append, Nat.ofDigitChars_cons, Nat.ofDigitChars_nil, Nat.mul_comm]
    rfl

theorem isDigit_toDigits {n : Nat} : ∀ c ∈ Nat.toDigits 10 n, c.isDigit = true :=
  fun _ hc => Nat.isDigit_of_mem_toDigits (by decide) (by decide) hc

theorem numeral?_toDigits (n : Nat) : numeral? 10 (Nat.toDigits 10 n) = some n := by
  rw [numeral?_decimal isDigit_toDigits, Nat.ofDigitChars_toDigits (by decide) (by decide)]

theorem numeral?_ten_le {digits : List Char} {n m : Nat} (hn : numeral? 10 digits = some n)
    (hm : numeral? 16 digits = some m) : n ≤ m := by
  induction digits using List.reverseRecOn generalizing n m with
  | nil =>
    cases hn
    cases hm
    exact Nat.le_refl 0
  | append_singleton rest c ih =>
    obtain ⟨a, digit, ha, hdigit, -, rfl⟩ := numeral?_concat_eq_some.mp hn
    obtain ⟨b, digit', hb, hdigit', -, rfl⟩ := numeral?_concat_eq_some.mp hm
    have hle := ih ha hb
    rw [hdigit] at hdigit'
    cases hdigit'
    omega

/-- **Digits denote one number in both bases exactly if it is below ten.** -/
theorem numeral?_ten_eq_iff {digits : List Char} {n : Nat} (h : numeral? 16 digits = some n) :
    numeral? 10 digits = some n ↔ n < 10 := by
  induction digits using List.reverseRecOn generalizing n with
  | nil =>
    cases h
    exact iff_of_true rfl (by decide)
  | append_singleton rest c ih =>
    obtain ⟨b, digit, hb, hdigit, -, rfl⟩ := numeral?_concat_eq_some.mp h
    constructor
    · intro hten
      obtain ⟨a, digit', ha, hdigit', hlt, heq⟩ := numeral?_concat_eq_some.mp hten
      have hle := numeral?_ten_le ha hb
      rw [hdigit] at hdigit'
      cases hdigit'
      omega
    · intro hlt
      have hzero : b = 0 := by omega
      have hten := (ih hb).mpr (by omega)
      exact numeral?_concat_eq_some.mpr ⟨b, digit, hten, hdigit, by omega, by omega⟩

/-! ### Digits of bytes -/

namespace Text.Hex

theorem digitValue?_lt {n digit : Nat} (h : digitValue? n = some digit) : n < 128 ∧ digit < 16 := by
  unfold digitValue? at h
  split at h
  · cases h
    omega
  · split at h
    · cases h
      omega
    · split at h
      · cases h
        omega
      · cases h

theorem decodePairs_eq_ok {position : Nat} {high low : UInt8} {rest data : List UInt8} :
    decodePairs position (high :: low :: rest) = .ok data ↔ ∃ x y tail,
      digitValue? high.toNat = some x ∧ digitValue? low.toNat = some y ∧
      decodePairs (position + 2) rest = .ok tail ∧ data = UInt8.ofNat (16 * x + y) :: tail := by
  rw [decodePairs]
  constructor
  · intro h
    split at h
    · cases h
    · cases h
    · rename_i x y hx hy
      obtain ⟨tail, htail, rfl⟩ := map_eq_ok.mp h
      exact ⟨x, y, tail, hx, hy, htail, rfl⟩
  · rintro ⟨x, y, tail, hx, hy, htail, rfl⟩
    rw [hx, hy, htail]
    rfl

theorem lt_of_decodePairs {position : Nat} {bytes data : List UInt8}
    (heven : bytes.length % 2 = 0) (h : decodePairs position bytes = .ok data) :
    ∀ b ∈ bytes, b.toNat < 128 := by
  fun_induction decodePairs position bytes generalizing data with
  | case1 position high low rest hx => cases h
  | case2 position high low rest x hx hy => cases h
  | case3 position high low rest x y hx hy ih =>
    obtain ⟨tail, htail, -⟩ := map_eq_ok.mp h
    simp only [List.length_cons] at heven
    have hrest := ih (by omega) htail
    simp only [List.mem_cons, forall_eq_or_imp]
    exact ⟨(digitValue?_lt hy).1, (digitValue?_lt hx).1, hrest⟩
  | case4 bytes position hpair =>
    match bytes, heven, hpair with
    | [], _, _ => simp
    | high :: low :: rest, _, hpair => exact absurd rfl (hpair high low rest)

theorem utf8EncodeChar_of_lt {c : Char} (h : ∀ b ∈ String.utf8EncodeChar c, b.toNat < 128) :
    String.utf8EncodeChar c = [UInt8.ofNat c.toNat] ∧ c.toNat < 128 := by
  have hlt : c.val.toNat < 128 := by
    rw [String.utf8EncodeChar.eq_1] at h
    by_contra hlarge
    split at h
    · omega
    · split at h
      · have hhead := h _ List.mem_cons_self
        rw [UInt8.toNat_ofNat'] at hhead
        omega
      · split at h
        · have hhead := h _ List.mem_cons_self
          rw [UInt8.toNat_ofNat'] at hhead
          omega
        · have hhead := h _ List.mem_cons_self
          rw [UInt8.toNat_ofNat'] at hhead
          omega
  rw [String.utf8EncodeChar.eq_1, if_pos (by omega)]
  exact ⟨rfl, hlt⟩

theorem flatMap_utf8EncodeChar {cs : List Char}
    (h : ∀ b ∈ cs.flatMap String.utf8EncodeChar, b.toNat < 128) :
    cs.flatMap String.utf8EncodeChar = cs.map (fun c => UInt8.ofNat c.toNat) ∧
      ∀ c ∈ cs, c.toNat < 128 := by
  induction cs with
  | nil => exact ⟨rfl, by simp⟩
  | cons c rest ih =>
    rw [List.flatMap_cons, List.forall_mem_append] at h
    obtain ⟨hfirst, hlt⟩ := utf8EncodeChar_of_lt h.1
    obtain ⟨hrest, hall⟩ := ih h.2
    rw [List.flatMap_cons, hfirst, hrest]
    exact ⟨rfl, List.forall_mem_cons.mpr ⟨hlt, hall⟩⟩

theorem foldlM_pushDigit?_of_decodePairs {position : Nat} {digits : List Char} {data : List UInt8}
    (heven : digits.length % 2 = 0) (hlt : ∀ c ∈ digits, c.toNat < 128)
    (h : decodePairs position (digits.map fun c => UInt8.ofNat c.toNat) = .ok data) (n : Nat) :
    digits.foldlM (pushDigit? 16) n = some (data.foldl (fun n b => n * 256 + b.toNat) n) := by
  have hbyte {c : Char} (hc : c.toNat < 128) : (UInt8.ofNat c.toNat).toNat = c.toNat := by
    rw [UInt8.toNat_ofNat']
    omega
  match digits, heven, hlt with
  | [], _, _ =>
    cases h
    rfl
  | high :: low :: rest, heven, hlt =>
    simp only [List.mem_cons, forall_eq_or_imp] at hlt
    obtain ⟨hhigh, hlow, hrest⟩ := hlt
    obtain ⟨x, y, tail, hx, hy, htail, rfl⟩ := decodePairs_eq_ok.mp h
    rw [hbyte hhigh] at hx
    rw [hbyte hlow] at hy
    obtain ⟨-, hxlt⟩ := digitValue?_lt hx
    obtain ⟨-, hylt⟩ := digitValue?_lt hy
    have hpair : (UInt8.ofNat (16 * x + y)).toNat = 16 * x + y := by
      rw [UInt8.toNat_ofNat']
      omega
    have hrun := foldlM_pushDigit?_of_decodePairs (by simp only [List.length_cons] at heven; omega)
      hrest htail ((n * 16 + x) * 16 + y)
    rw [List.foldlM_cons, pushDigit?_eq_some.mpr ⟨x, hx, hxlt, rfl⟩, Option.bind_eq_bind,
      Option.bind_some, List.foldlM_cons, pushDigit?_eq_some.mpr ⟨y, hy, hylt, rfl⟩,
      Option.bind_eq_bind, Option.bind_some, hrun, List.foldl_cons, hpair]
    congr 2
    omega

/-- **Pairs of digits denote the number of their bytes.** -/
theorem numeral?_of_decode {digits : List Char} {data : List UInt8}
    (h : decode digits = .ok data) : numeral? 16 digits = some (ofBigEndian data) := by
  simp only [decode] at h
  split at h
  · cases h
  · rename_i hodd
    have hall := lt_of_decodePairs (by omega) h
    obtain ⟨hbytes, hlt⟩ := flatMap_utf8EncodeChar hall
    rw [hbytes] at h hodd
    rw [List.length_map] at hodd
    exact foldlM_pushDigit?_of_decodePairs (by omega) hlt h 0

end Text.Hex

/-! ### Integers in texts -/

theorem Raw.exists_of_decimal? {s : String} {n : Nat} (h : decimal? s = some n) :
    ∃ digits, (s.toList = '+' :: digits ∨ s.toList = digits) ∧ digits ≠ [] ∧
      (∀ c ∈ digits, c.isDigit = true) ∧ n = Nat.ofDigitChars 10 digits 0 ∧ n < capacity 128 := by
  have hread (digits : List Char) (h : (if digits.isEmpty || !digits.all Char.isDigit then none
      else if Nat.ofDigitChars 10 digits 0 < capacity 128 then
        some (Nat.ofDigitChars 10 digits 0) else none) = some n) :
      digits ≠ [] ∧ (∀ c ∈ digits, c.isDigit = true) ∧ n = Nat.ofDigitChars 10 digits 0 ∧
        n < capacity 128 := by
    rw [Option.ite_none_left_eq_some, Option.ite_none_right_eq_some, Option.some.injEq] at h
    obtain ⟨hdigits, hlt, rfl⟩ := h
    simp only [Bool.or_eq_true, not_or, List.isEmpty_iff, Bool.not_eq_true', Bool.not_eq_false]
      at hdigits
    exact ⟨hdigits.1, List.all_eq_true.mp hdigits.2, rfl, hlt⟩
  unfold decimal? at h
  dsimp only at h
  split at h
  · rename_i rest heq
    exact ⟨rest, .inl heq, hread rest h⟩
  · exact ⟨s.toList, .inr rfl, hread s.toList h⟩

/-- **Text that the library reads as a decimal number is an integer.** -/
theorem integerText?_of_decimal? {s : String} {n : Nat} (h : Raw.decimal? s = some n) :
    integerText? s.toList = some n := by
  obtain ⟨digits, htext, hne, hall, rfl, -⟩ := Raw.exists_of_decimal? h
  have hnumeral := numeral?_decimal hall
  cases htext with
  | inl hplus =>
    rw [hplus, integerText?, numeral1?, if_neg (by simpa using hne), hnumeral]
    rfl
  | inr hplain =>
    rw [hplain]
    unfold integerText?
    split
    · exact absurd (hall 'x' (by simp)) (by decide)
    · exact absurd (hall '+' (by simp)) (by decide)
    · exact absurd (hall '-' (by simp)) (by decide)
    · rw [hnumeral]
      rfl

theorem toList_of_hexDigits? {s : String} {digits : List Char}
    (h : Raw.hexDigits? s = some digits) : s.toList = '0' :: 'x' :: digits := by
  unfold Raw.hexDigits? at h
  split at h
  · rename_i rest heq
    rw [heq, Option.some.inj h]
  · cases h

/-- **Digits behind `0x` are the integer of their bytes**, unless there are none. -/
theorem integerText?_of_hex {s : String} {digits : List Char} {data : List UInt8}
    (hdigits : Raw.hexDigits? s = some digits) (h : Text.Hex.decode digits = .ok data) :
    integerText? s.toList = if digits.isEmpty then none else some (ofBigEndian data : Int) := by
  rw [toList_of_hexDigits? hdigits, integerText?, numeral1?, Text.Hex.numeral?_of_decode h]
  split <;> rfl

/-- **Digits of bytes without `0x` are read as decimal ones.** -/
theorem integerText?_of_digits {s : String} {data : List UInt8}
    (hplain : Raw.hexDigits? s = none) (h : Text.Hex.decode s.toList = .ok data) :
    integerText? s.toList = (numeral? 10 s.toList).map Int.ofNat := by
  have hnumeral := Text.Hex.numeral?_of_decode h
  unfold Raw.hexDigits? at hplain
  generalize s.toList = cs at hplain hnumeral
  unfold integerText?
  split
  · cases hplain
  · cases hnumeral
  · cases hnumeral
  · rfl

/-! ### Literals as the library writes them -/

theorem digitChar_ne_zero {n : Nat} (hlt : n < 10) (hn : n ≠ 0) : n.digitChar ≠ '0' := by
  have hall : ∀ m : Fin 10, m.val ≠ 0 → m.val.digitChar ≠ '0' := by decide
  exact hall ⟨n, hlt⟩ hn

theorem exists_toDigits_cons {n : Nat} (hn : n ≠ 0) :
    ∃ c rest, Nat.toDigits 10 n = c :: rest ∧ c ≠ '0' := by
  induction n using Nat.strongRecOn with
  | ind n ih =>
    by_cases hlt : n < 10
    · exact ⟨_, [], Nat.toDigits_of_lt_base hlt, digitChar_ne_zero hlt hn⟩
    · obtain ⟨c, rest, hcons, hc⟩ := ih (n / 10) (by omega) (by omega)
      rw [Nat.toDigits_of_base_le (by decide) (by omega), hcons]
      exact ⟨c, _, rfl, hc⟩

theorem integerLiteral?_toDigits (n : Nat) : integerLiteral? (Nat.toDigits 10 n) = some n := by
  have hnumeral : numeral1? 10 (Nat.toDigits 10 n) = some n := by
    rw [numeral1?, if_neg (by simp), numeral?_toDigits]
  by_cases hn : n = 0
  · subst hn
    rfl
  · obtain ⟨c, rest, hcons, hc⟩ := exists_toDigits_cons hn
    rw [hcons] at hnumeral ⊢
    unfold integerLiteral?
    split
    · rename_i heq
      cases heq
      exact absurd rfl hc
    · rename_i heq
      cases heq
      exact absurd rfl hc
    · exact hnumeral

namespace Literal

theorem unquote?_short {letter c : Char} (hu : letter ≠ 'u')
    (h : Json.shortEscape? letter = some c) (rest : List Char) :
    unquote? ('\\' :: letter :: rest) = (unquote? rest).map (c :: ·) := by
  rw [unquote?, h]
  · cases unquote? rest <;> rfl
  · exact fun _ _ _ _ _ heq _ => hu heq

theorem unquote?_unit {a b c d : Char} {n : Nat} (h : numeral? 16 [a, b, c, d] = some n)
    (hvalid : n.isValidChar) (rest : List Char) :
    unquote? ('\\' :: 'u' :: a :: b :: c :: d :: rest)
      = (unquote? rest).map (Char.ofNat n :: ·) := by
  simp only [unquote?, h, Option.bind_eq_bind, Option.bind_some, if_pos hvalid]
  cases unquote? rest <;> rfl

theorem unquote?_escapedChars (c : Char) (rest : List Char) :
    unquote? (escapedChars c ++ rest) = (unquote? rest).map (c :: ·) := by
  unfold escapedChars
  split_ifs with hslash hquote hfeed hreturn hopen hclose
  · exact unquote?_short (by decide) (by rw [hslash]; rfl) rest
  · exact unquote?_short (by decide) (by rw [hquote]; rfl) rest
  · exact unquote?_short (by decide) (by rw [hfeed]; rfl) rest
  · exact unquote?_short (by decide) (by rw [hreturn]; rfl) rest
  · rw [hopen]
    exact unquote?_unit (n := 0x7b) (by decide) (by decide) rest
  · rw [hclose]
    exact unquote?_unit (n := 0x7d) (by decide) (by decide) rest
  · rw [List.singleton_append, unquote?, if_neg (by simp [hslash, hfeed, hreturn])]
    · exact hquote
    · exact fun _ _ _ _ _ heq _ => hslash heq
    · exact fun _ _ heq _ => hslash heq

theorem unquote?_escape (cs : List Char) :
    unquote? (cs.flatMap escapedChars ++ ['"']) = some cs := by
  induction cs with
  | nil => rfl
  | cons c rest ih =>
    rw [List.flatMap_cons, List.append_assoc, unquote?_escapedChars, ih]
    rfl

end Literal

namespace Datum

theorem read?_quote (s : String) : read? (Literal.quote s).toList = some (.text s) := by
  have hlist : (Literal.quote s).toList
      = '"' :: (s.toList.flatMap Literal.escapedChars ++ ['"']) := by
    simp [Literal.quote, Literal.escape]
  rw [hlist, read?, Literal.unquote?_escape, Option.map_some, String.ofList_toList]

theorem read?_boolWord (b : Bool) : read? (Literal.boolWord b).toList = some (.boolean b) := by
  cases b <;> rfl

theorem read?_suffix {cs : List Char} {n : Nat} (h : integerLiteral? cs = some n) :
    read? (cs ++ ['n']) = some (.bigInt n) := by
  have hlast : (cs ++ ['n']).getLast? = some 'n' := List.getLast?_concat
  unfold read?
  split
  · -- A quote is no digit.
    rename_i rest heq
    cases cs with
    | nil => cases heq
    | cons c tail =>
      cases heq
      cases h
  · rw [if_neg, if_neg, if_pos hlast, List.dropLast_concat, h]
    · rfl
    · intro heq
      rw [heq] at hlast
      exact absurd hlast (by decide)
    · intro heq
      rw [heq] at hlast
      exact absurd hlast (by decide)

theorem read?_bigInt (n : Nat) : read? (n.repr ++ "n").toList = some (.bigInt n) := by
  rw [String.toList_append, Nat.toList_repr]
  exact read?_suffix (integerLiteral?_toDigits n)

theorem read?_hex {data : List UInt8} (h : data ≠ []) :
    read? ("0x" ++ Text.Hex.encode data ++ "n").toList = some (.bigInt (ofBigEndian data)) := by
  rw [String.toList_append, String.toList_append]
  refine read?_suffix ?_
  have hne : ¬ (Text.Hex.encode data).toList.isEmpty = true := by
    cases data with
    | nil => exact absurd rfl h
    | cons b rest => simp [Text.Hex.encode, Text.Hex.byteDigits]
  show numeral1? 16 (Text.Hex.encode data).toList = _
  rw [numeral1?, if_neg hne, Text.Hex.numeral?_of_decode (Text.Hex.decode_encode data)]

end Datum

end Circuitry
