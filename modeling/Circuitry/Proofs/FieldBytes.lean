import Circuitry.Proofs.Denotation
import Circuitry.Proofs.Reversal
import Circuitry.Proofs.RoundTrip

/-!
# Field elements as bytes and as digits

Digits are written with the most significant byte in front, and the bytes that stand for a field
element have it at the end.  So reading reverses the bytes and fills them up behind, and writing
reverses them back.  `Field.ofRepr?` takes the thirty-two bytes of a number below the order of the
field and no others (`Field.ofRepr?_eq_some`), and what is read and written in terms of numbers is
what these bytes give: `Field.ofRepr?_reverse` for digits, `Field.ofRepr?_word` and
`Field.toUInt128?_eq_bytes` for words of 128 bits.

On the side of the text, bytes are read from an even number of digits of either case
(`Text.Hex.exists_decode`) and from nothing else (`Text.Hex.length_of_decode`), and the digits
denote the number of the bytes.
-/

namespace Circuitry

open Fallible

/-! ### The least significant byte first -/

/-- The number that bytes denote, least significant first. -/
def ofLittleEndian : List UInt8 → Nat
  | [] => 0
  | b :: rest => b.toNat + 256 * ofLittleEndian rest

/-- The last `count` bytes of a number, least significant first. -/
def littleEndian : (count : Nat) → Nat → List UInt8
  | 0, _ => []
  | count + 1, n => UInt8.ofNat n :: littleEndian count (n / 256)

theorem ofLittleEndian_eq (bytes : List UInt8) :
    ofLittleEndian bytes = ofBigEndian bytes.reverse := by
  induction bytes with
  | nil => rfl
  | cons b rest ih =>
    rw [ofLittleEndian, ih, List.reverse_cons, ofBigEndian_concat]
    omega

theorem littleEndian_add (count more n : Nat) :
    littleEndian (count + more) n
      = littleEndian count n ++ littleEndian more (n / 256 ^ count) := by
  induction count generalizing n with
  | zero => simp [littleEndian]
  | succ count ih =>
    have hdigit : n / 256 / 256 ^ count = n / 256 ^ (count + 1) := by
      rw [Nat.div_div_eq_div_mul, Nat.pow_succ, Nat.mul_comm]
    rw [Nat.succ_add, littleEndian, ih, hdigit, littleEndian, List.cons_append]

theorem littleEndian_eq (count n : Nat) : littleEndian count n = (bigEndian count n).reverse := by
  induction count with
  | zero => rfl
  | succ count ih =>
    rw [littleEndian_add, ih, bigEndian, List.reverse_cons, Nat.pow_eq]
    rfl

theorem length_littleEndian (count n : Nat) : (littleEndian count n).length = count := by
  rw [littleEndian_eq, List.length_reverse, length_bigEndian]

theorem ofLittleEndian_littleEndian {count n : Nat} (h : n < 256 ^ count) :
    ofLittleEndian (littleEndian count n) = n := by
  rw [ofLittleEndian_eq, littleEndian_eq, List.reverse_reverse, ofBigEndian_bigEndian h]

theorem littleEndian_length_ofLittleEndian (bytes : List UInt8) :
    littleEndian bytes.length (ofLittleEndian bytes) = bytes := by
  rw [littleEndian_eq, ofLittleEndian_eq, ← List.length_reverse, bigEndian_length_ofBigEndian,
    List.reverse_reverse]

theorem littleEndian_eq_replicate {count n : Nat} (h : n < 256 ^ count) :
    littleEndian count n = List.replicate count 0 ↔ n = 0 := by
  constructor
  · intro hzeros
    have hread := congrArg ofLittleEndian hzeros
    have hnone := ofBigEndian_replicate_append count []
    rw [List.append_nil] at hnone
    rw [ofLittleEndian_littleEndian h, ofLittleEndian_eq, List.reverse_replicate, hnone] at hread
    exact hread
  · rintro rfl
    have hroom : 0 < 256 ^ 0 := by decide
    have hzeros : bigEndian count 0 = List.replicate count 0 ++ bigEndian 0 0 :=
      bigEndian_add hroom count
    rw [littleEndian_eq, hzeros, bigEndian, List.append_nil, List.reverse_replicate]

/-! ### The bytes of field elements -/

namespace Field

def toRepr (x : Field) : List UInt8 :=
  littleEndian 32 x.val

def ofRepr? (repr : List UInt8) : Option Field :=
  if repr.length = 32 then ofCanonical? (ofLittleEndian repr) else none

theorem ofCanonical?_eq_some {n : Nat} {x : Field} : ofCanonical? n = some x ↔ n = x.val := by
  rw [ofCanonical?]
  split
  · rw [Option.some.injEq]
    exact ⟨fun h => congrArg Fin.val h, fun h => Fin.ext h⟩
  · rename_i hlarge
    refine iff_of_false (by rintro ⟨⟩) ?_
    rintro rfl
    exact hlarge x.isLt

/-- **Elements stand in their own bytes and in no others.** -/
theorem ofRepr?_eq_some {repr : List UInt8} {x : Field} :
    ofRepr? repr = some x ↔ repr = x.toRepr := by
  rw [ofRepr?, Option.ite_none_right_eq_some, ofCanonical?_eq_some, toRepr]
  constructor
  · intro h
    rw [← h.2, ← h.1, littleEndian_length_ofLittleEndian]
  · intro h
    rw [h, length_littleEndian, ofLittleEndian_littleEndian x.val_lt]
    exact ⟨rfl, rfl⟩

/-- **Reading turns the bytes around and fills them up with zeros.** -/
theorem ofRepr?_reverse {data : List UInt8} (h : data.length ≤ 32) :
    ofRepr? (data.reverse ++ List.replicate (32 - data.length) 0)
      = ofCanonical? (ofBigEndian data) := by
  have hlength : (data.reverse ++ List.replicate (32 - data.length) 0).length = 32 := by
    rw [List.length_append, List.length_reverse, List.length_replicate]
    omega
  rw [ofRepr?, if_pos hlength, ofLittleEndian_eq, List.reverse_append, List.reverse_replicate,
    List.reverse_reverse, ofBigEndian_replicate_append]

theorem toHex_eq_reverse (x : Field) : x.toHex = "0x" ++ Text.Hex.encode x.toRepr.reverse := by
  rw [toHex, toRepr, littleEndian_eq, List.reverse_reverse]

theorem capacity_word : capacity 128 = 256 ^ 16 :=
  capacity_bytes 16

/-- **The bytes of a word stand for its element**: none of them is refused. -/
theorem ofRepr?_word {n : Nat} (h : n < capacity 128) :
    ofRepr? (littleEndian 16 n ++ List.replicate 16 0) = some (ofNat n) := by
  rw [ofRepr?_eq_some, toRepr, val_ofNat h, littleEndian_add 16 16, List.append_cancel_left_eq]
  rw [capacity_word] at h
  rw [Nat.div_eq_of_lt h, eq_comm]
  exact (littleEndian_eq_replicate (by decide)).mpr rfl

/-- **An element is a word if its bytes from the seventeenth on are zeros**, and the others are the
bytes of that word. -/
theorem toUInt128?_eq_bytes (x : Field) :
    x.toUInt128? = if (x.toRepr.drop 16).any (· != 0) then none
      else some (ofLittleEndian (x.toRepr.take 16)) := by
  have hlength := length_littleEndian 16 x.val
  -- The bytes from the seventeenth on are those of the quotient.
  have hhigh : x.val / 256 ^ 16 < 256 ^ 16 := by
    rw [Nat.div_lt_iff_lt_mul (by decide)]
    exact x.val_lt
  have hzeros : (littleEndian 16 (x.val / 256 ^ 16)).any (· != 0) = false ↔
      x.val < capacity 128 := by
    have hreplicate := littleEndian_eq_replicate hhigh
    rw [List.eq_replicate_iff, length_littleEndian, Nat.div_eq_zero_iff_lt (by decide)]
      at hreplicate
    rw [capacity_word]
    simpa using hreplicate
  rw [toRepr, littleEndian_add 16 16, List.drop_left' hlength, List.take_left' hlength, toUInt128?]
  by_cases hword : x.val < capacity 128
  · rw [if_pos hword, hzeros.mpr hword, if_neg (by decide)]
    rw [capacity_word] at hword
    rw [ofLittleEndian_littleEndian hword]
  · rw [if_neg hword, if_pos]
    exact Bool.eq_true_of_not_eq_false fun hnone => hword (hzeros.mp hnone)

theorem toUInt128?_eq_some {x : Field} {n : Nat} :
    x.toUInt128? = some n ↔ n < capacity 128 ∧ ofNat n = x := by
  rw [toUInt128?, Option.ite_none_right_eq_some, Option.some.injEq]
  constructor
  · intro h
    obtain ⟨hlt, rfl⟩ := h
    exact ⟨hlt, Fin.ext (val_ofNat hlt)⟩
  · intro h
    obtain ⟨hlt, rfl⟩ := h
    rw [val_ofNat hlt]
    exact ⟨hlt, rfl⟩

theorem toUInt128?_eq_none {x : Field} : x.toUInt128? = none ↔ capacity 128 ≤ x.val := by
  rw [toUInt128?]
  split
  · rename_i hlt
    exact iff_of_false (by rintro ⟨⟩) (Nat.not_le.mpr hlt)
  · rename_i hlarge
    exact iff_of_true rfl (Nat.not_lt.mp hlarge)

end Field

/-! ### Digits of bytes -/

namespace Text.Hex

theorem utf8EncodeChar_of_digitValue? {c : Char} (h : (digitValue? c.toNat).isSome = true) :
    String.utf8EncodeChar c = [UInt8.ofNat c.toNat] ∧ c.toNat < 128 := by
  obtain ⟨digit, hdigit⟩ := Option.isSome_iff_exists.mp h
  have hlt : c.val.toNat < 128 := (digitValue?_lt hdigit).1
  rw [String.utf8EncodeChar.eq_1, if_pos (by omega)]
  exact ⟨rfl, hlt⟩

theorem isSome_of_numeral? {base n : Nat} {digits : List Char} (h : numeral? base digits = some n) :
    ∀ c ∈ digits, (digitValue? c.toNat).isSome = true := by
  induction digits using List.reverseRecOn generalizing n with
  | nil => simp
  | append_singleton rest c ih =>
    obtain ⟨m, digit, hm, hdigit, -, -⟩ := numeral?_concat_eq_some.mp h
    rw [List.forall_mem_append, List.forall_mem_singleton, hdigit]
    exact ⟨ih hm, rfl⟩

theorem exists_decodePairs {digits : List Char} (heven : digits.length % 2 = 0)
    (h : ∀ c ∈ digits, (digitValue? c.toNat).isSome = true) (position : Nat) :
    ∃ data, decodePairs position (digits.map fun c => UInt8.ofNat c.toNat) = .ok data ∧
      digits.length = 2 * data.length := by
  have hbyte {c : Char} (hc : (digitValue? c.toNat).isSome = true) :
      ∃ digit, digitValue? (UInt8.ofNat c.toNat).toNat = some digit := by
    have hlt := (utf8EncodeChar_of_digitValue? hc).2
    rw [UInt8.toNat_ofNat', Nat.mod_eq_of_lt (by omega)]
    exact Option.isSome_iff_exists.mp hc
  induction digits using List.twoStepInduction generalizing position with
  | nil => exact ⟨[], rfl, rfl⟩
  | singleton c => cases heven
  | cons_cons high low rest ih _ =>
    obtain ⟨hhigh, hlow, hrest⟩ := List.forall_mem_cons.mp h |>.imp_right List.forall_mem_cons.mp
    obtain ⟨x, hx⟩ := hbyte hhigh
    obtain ⟨y, hy⟩ := hbyte hlow
    have heven' : rest.length % 2 = 0 := by
      simp only [List.length_cons] at heven
      omega
    obtain ⟨data, hdata, hlength⟩ := ih heven' hrest (position + 2)
    refine ⟨_, decodePairs_eq_ok.mpr ⟨x, y, data, hx, hy, hdata, rfl⟩, ?_⟩
    simp only [List.length_cons]
    omega

theorem decode_digits {digits : List Char}
    (h : ∀ c ∈ digits, (digitValue? c.toNat).isSome = true) :
    decode digits = if digits.length % 2 = 1 then .error .oddLength
      else decodePairs 0 (digits.map fun c => UInt8.ofNat c.toNat) := by
  have hbytes : digits.flatMap String.utf8EncodeChar
      = digits.map fun c => UInt8.ofNat c.toNat := by
    rw [List.map_eq_flatMap]
    exact List.flatMap_congr fun c hc => (utf8EncodeChar_of_digitValue? (h c hc)).1
  rw [decode, hbytes, List.length_map]

theorem exists_decode {digits : List Char} (heven : digits.length % 2 = 0)
    (h : ∀ c ∈ digits, (digitValue? c.toNat).isSome = true) :
    ∃ data, decode digits = .ok data ∧ digits.length = 2 * data.length := by
  rw [decode_digits h, if_neg (by omega)]
  exact exists_decodePairs heven h 0

theorem length_of_decode {digits : List Char} {data : List UInt8} (h : decode digits = .ok data) :
    digits.length = 2 * data.length := by
  have hdigits := isSome_of_numeral? (numeral?_of_decode h)
  have heven : digits.length % 2 = 0 := by
    rw [decode_digits hdigits] at h
    split at h
    · cases h
    · omega
  obtain ⟨found, hfound, hlength⟩ := exists_decode heven hdigits
  rw [hfound] at h
  cases h
  exact hlength

theorem digitValue?_toLower (c : Char) : digitValue? c.toLower.toNat = digitValue? c.toNat := by
  unfold Char.toLower
  split
  · rename_i hupper
    have hrange : 65 ≤ c.toNat ∧ c.toNat ≤ 90 := hupper
    have hlower : (c.val + 32).toNat = c.toNat + 32 := by
      rw [UInt32.toNat_add]
      show (c.toNat + 32) % 2 ^ 32 = c.toNat + 32
      omega
    show digitValue? (c.val + 32).toNat = _
    rw [hlower]
    by_cases hdigit : c.toNat ≤ 70
    · rw [digitValue?, if_neg (by omega), if_pos (by omega), digitValue?, if_neg (by omega),
        if_neg (by omega), if_pos (by omega)]
      exact congrArg some (by omega)
    · rw [digitValue?, if_neg (by omega), if_neg (by omega), if_neg (by omega), digitValue?,
        if_neg (by omega), if_neg (by omega), if_neg (by omega)]
  · rfl

end Text.Hex

theorem numeral?_eq_of_toLower {base : Nat} {digits other : List Char}
    (h : digits.map Char.toLower = other.map Char.toLower) :
    numeral? base digits = numeral? base other := by
  have hlower (digits : List Char) :
      numeral? base (digits.map Char.toLower) = numeral? base digits := by
    have hpush (n : Nat) (c : Char) : pushDigit? base n c.toLower = pushDigit? base n c := by
      rw [pushDigit?, Text.Hex.digitValue?_toLower, pushDigit?]
    rw [numeral?, List.foldlM_map]
    simp only [hpush, numeral?]
  rw [← hlower digits, h, hlower other]

theorem numeral?_zeros (base more : Nat) (hbase : 0 < base) (digits : List Char) :
    numeral? base (List.replicate more '0' ++ digits) = numeral? base digits := by
  induction more with
  | zero => rfl
  | succ more ih =>
    have hzero : pushDigit? base 0 '0' = some 0 := pushDigit?_eq_some.mpr ⟨0, rfl, hbase, by omega⟩
    rw [List.replicate_succ, List.cons_append, numeral?, List.foldlM_cons, hzero]
    exact ih

/-! ### Digits of field elements -/

namespace Raw

theorem fieldDigits_eq_ok {digits : List Char} {x : Field} :
    fieldDigits digits = .ok x ↔ ∃ data, Text.Hex.decode digits = .ok data ∧ data.length ≤ 32 ∧
      ofBigEndian data = x.val := by
  rw [fieldDigits, bind_eq_ok]
  refine exists_congr fun data => and_congr mapError_eq_ok ?_
  split
  · rename_i hlong
    exact iff_of_false (by rintro ⟨⟩) fun h => Nat.not_lt.mpr h.1 hlong
  · rename_i hshort
    have hcanonical := Field.ofCanonical?_eq_some (n := ofBigEndian data) (x := x)
    cases hread : Field.ofCanonical? (ofBigEndian data) with
    | none =>
      rw [hread] at hcanonical
      refine iff_of_false (by rintro ⟨⟩) fun h => ?_
      cases hcanonical.mpr h.2
    | some found =>
      rw [hread, Option.some.injEq] at hcanonical
      rw [Except.ok.injEq, hcanonical]
      exact (and_iff_right (Nat.not_lt.mp hshort)).symm

/-- **A field element is read from the digits of its number**, in pairs and up to thirty-two of
them. -/
theorem field_digits_iff {digits : String} {x : Field} :
    field (.string ("0x" ++ digits)) = .ok x ↔ digits.toList.length % 2 = 0 ∧
      digits.toList.length ≤ 64 ∧ numeral? 16 digits.toList = some x.val := by
  have hbehind : hexDigits? ("0x" ++ digits) = some digits.toList := by
    rw [hexDigits?, String.toList_append]
    rfl
  rw [field, Json.string?, Option.bind_some, hbehind, fieldDigits_eq_ok]
  constructor
  · intro h
    obtain ⟨data, hdata, hshort, hvalue⟩ := h
    have hlength := Text.Hex.length_of_decode hdata
    refine ⟨by omega, by omega, ?_⟩
    rw [← hvalue]
    exact Text.Hex.numeral?_of_decode hdata
  · intro h
    obtain ⟨heven, hshort, hnumeral⟩ := h
    obtain ⟨data, hdata, hlength⟩ :=
      Text.Hex.exists_decode heven (Text.Hex.isSome_of_numeral? hnumeral)
    have hvalue := (Text.Hex.numeral?_of_decode hdata).symm.trans hnumeral
    exact ⟨data, hdata, by omega, Option.some.inj hvalue⟩

/-- The number of the bytes is the element for which they stand when they are turned around. -/
theorem toOption_field_digits {digits : String} {data : List UInt8}
    (h : Text.Hex.decode digits.toList = .ok data) (hshort : data.length ≤ 32) :
    (field (.string ("0x" ++ digits))).toOption
      = Field.ofRepr? (data.reverse ++ List.replicate (32 - data.length) 0) := by
  ext x
  have hlength := Text.Hex.length_of_decode h
  rw [toOption_eq_some, field_digits_iff, Field.ofRepr?_reverse hshort,
    Field.ofCanonical?_eq_some, Text.Hex.numeral?_of_decode h, Option.some.injEq]
  constructor
  · intro hread
    exact hread.2.2
  · intro hvalue
    exact ⟨by omega, by omega, hvalue⟩

end Raw

/-- **Field elements are read and written exactly.**  Behind `0x` there may be up to sixty-four
digits, an even number of them and of either case, which denote the representative of the element
that is read; it is below the order of the field.  So more zeros in front and the other case change
nothing, and no digits at all are zero.  An element is read back from its digits.

The bytes behind these texts are turned around and filled up, and stand for the same elements.  For
words of 128 bits the bytes are never refused; a word is read back from its element, and an element
that has a word is the element of that word.  Just those from `2 ^ 128` on have none. -/
theorem Field.exactly_read_and_written :
    (∀ (digits : String) (x : Field), Raw.field (.string ("0x" ++ digits)) = .ok x ↔
      digits.toList.length % 2 = 0 ∧ digits.toList.length ≤ 64 ∧
        numeral? 16 digits.toList = some x.val) ∧
    (∀ (digits : String) (x : Field) (more : Nat), Raw.field (.string ("0x" ++ digits)) = .ok x →
      more % 2 = 0 → more + digits.toList.length ≤ 64 →
        Raw.field (.string ("0x" ++ (String.ofList (List.replicate more '0') ++ digits))) = .ok x) ∧
    (∀ digits other : String, digits.toList.map Char.toLower = other.toList.map Char.toLower →
      ∀ x, Raw.field (.string ("0x" ++ digits)) = .ok x ↔
        Raw.field (.string ("0x" ++ other)) = .ok x) ∧
    Raw.field (.string "0x") = .ok (ofNat 0) ∧
    (∀ x : Field, Raw.field (.string x.toHex) = .ok x) ∧
    (∀ (digits : String) (data : List UInt8), Text.Hex.decode digits.toList = .ok data →
      data.length ≤ 32 → (Raw.field (.string ("0x" ++ digits))).toOption
        = ofRepr? (data.reverse ++ List.replicate (32 - data.length) 0)) ∧
    (∀ x : Field, x.toHex = "0x" ++ Text.Hex.encode x.toRepr.reverse) ∧
    (∀ n < capacity 128, (ofNat n).toUInt128? = some n ∧
      ofRepr? (littleEndian 16 n ++ List.replicate 16 0) = some (ofNat n)) ∧
    (∀ (x : Field) (n : Nat), x.toUInt128? = some n → ofNat n = x) ∧
    (∀ x : Field, x.toUInt128? = none ↔ capacity 128 ≤ x.val) ∧
    ∀ x : Field, x.toUInt128? = if (x.toRepr.drop 16).any (· != 0) then none
      else some (ofLittleEndian (x.toRepr.take 16)) := by
  refine ⟨fun digits x => Raw.field_digits_iff, ?_, ?_, ?_, Raw.field_toHex,
    fun digits data => Raw.toOption_field_digits, toHex_eq_reverse,
    fun n hn => ⟨toUInt128?_eq_some.mpr ⟨hn, rfl⟩, ofRepr?_word hn⟩,
    fun x n hword => (toUInt128?_eq_some.mp hword).2, fun x => toUInt128?_eq_none,
    toUInt128?_eq_bytes⟩
  · intro digits x more hread heven hroom
    obtain ⟨hpairs, -, hnumeral⟩ := Raw.field_digits_iff.mp hread
    rw [Raw.field_digits_iff, String.toList_append, String.toList_ofList, List.length_append,
      List.length_replicate, numeral?_zeros 16 more (by decide)]
    exact ⟨by omega, hroom, hnumeral⟩
  · intro digits other hsame x
    have hlength : digits.toList.length = other.toList.length := by
      rw [← List.length_map, hsame, List.length_map]
    rw [Raw.field_digits_iff, Raw.field_digits_iff, hlength, numeral?_eq_of_toLower hsame]
  · have hempty : Raw.field (.string ("0x" ++ "")) = .ok (ofNat 0) :=
      Raw.field_digits_iff.mpr ⟨rfl, by decide, by decide +kernel⟩
    exact hempty

/-- Two bytes in digits of either case, and the largest word. -/
theorem Field.exactly_read_and_written_words :
    Raw.field (.string ("0x" ++ "00fF")) = .ok (ofNat 255) ∧
      (ofNat (capacity 128 - 1)).toUInt128? = some (capacity 128 - 1) ∧
      (ofNat (capacity 128)).toUInt128? = none := by
  obtain ⟨hdigits, -, -, -, -, -, -, hwords, -, hnone, -⟩ := exactly_read_and_written
  refine ⟨(hdigits "00fF" (ofNat 255)).mpr ⟨by decide, by decide, ?_⟩,
    (hwords (capacity 128 - 1) (by decide)).1, (hnone _).mpr (by decide)⟩
  decide +kernel

end Circuitry
