import Circuitry.Conversion.Raw
import Mathlib.Data.List.Induction
import Mathlib.Tactic.Ring

/-!
# Numbers written down

Values carry numbers as bytes, as hexadecimal digits, as decimal digits and as field elements, and
every one of these forms is read back.  This file has the round trip of each of them:
`ofBigEndian_bigEndian` for bytes, `Text.Hex.decode_encode` for hexadecimal digits,
`Raw.decimal?_repr` for decimal text, `Field.val_ofNat` for field elements.

Values compute with words of 128 bits.  `Word.toNat_ofBytes` says that bytes shifted into a word one
after another denote the same number, and `bigEndian_add` that the bytes in front of a narrow number
are zeros.
-/

namespace Circuitry

theorem capacity_eq (bits : Nat) : capacity bits = 2 ^ bits := rfl

theorem capacity_le {small large : Nat} (h : small ≤ large) : capacity small ≤ capacity large :=
  Nat.pow_le_pow_right (by decide) h

theorem capacity_bytes (count : Nat) : capacity (count * 8) = 256 ^ count := by
  rw [capacity_eq, Nat.mul_comm, Nat.pow_mul]

theorem Width.bits_eq (width : Width) : width.bits = width.bytes * 8 := by
  cases width <;> rfl

theorem Width.bits_le (width : Width) : width.bits ≤ 128 := by
  cases width <;> decide

theorem Width.length_le (width : Width) {count : Nat} (h : count * 8 ≤ width.bits) :
    count ≤ 16 := by
  have hbits := width.bits_le
  omega

theorem Width.lt_word {width : Width} {n : Nat} (h : n < capacity width.bits) : n < capacity 128 :=
  Nat.lt_of_lt_of_le h (capacity_le width.bits_le)

theorem Width.lt_bytes {width : Width} {n : Nat} (h : n < capacity width.bits) :
    n < 256 ^ width.bytes := by
  rw [← capacity_bytes, ← width.bits_eq]
  exact h

/-! ### Bytes -/

theorem ofBigEndian_concat (data : List UInt8) (b : UInt8) :
    ofBigEndian (data ++ [b]) = ofBigEndian data * 256 + b.toNat := by
  simp [ofBigEndian]

theorem ofBigEndian_cons (b : UInt8) (data : List UInt8) :
    ofBigEndian (b :: data) = b.toNat * 256 ^ data.length + ofBigEndian data := by
  induction data using List.reverseRecOn with
  | nil => simp [ofBigEndian]
  | append_singleton rest last ih =>
    rw [← List.cons_append, ofBigEndian_concat, ofBigEndian_concat, ih, List.length_append,
      List.length_singleton, Nat.pow_succ]
    ring

theorem ofBigEndian_lt (data : List UInt8) : ofBigEndian data < 256 ^ data.length := by
  induction data using List.reverseRecOn with
  | nil => simp [ofBigEndian]
  | append_singleton rest last ih =>
    have hlast : last.toNat < 256 := last.toNat_lt
    rw [ofBigEndian_concat, List.length_append, List.length_singleton, Nat.pow_succ]
    omega

@[simp] theorem length_bigEndian (count n : Nat) : (bigEndian count n).length = count := by
  induction count with
  | zero => rfl
  | succ count ih => rw [bigEndian, List.length_cons, ih]

theorem ofBigEndian_bigEndian_mod (count n : Nat) :
    ofBigEndian (bigEndian count n) = n % 256 ^ count := by
  induction count with
  | zero => simp [bigEndian, ofBigEndian, Nat.mod_one]
  | succ count ih =>
    have hbyte : (UInt8.ofNat (n / Nat.pow 256 count)).toNat = n / 256 ^ count % 256 :=
      UInt8.toNat_ofNat'
    rw [bigEndian, ofBigEndian_cons, ih, length_bigEndian, hbyte, Nat.pow_succ,
      Nat.mod_mul, Nat.add_comm, Nat.mul_comm (256 ^ count)]

theorem ofBigEndian_bigEndian {count n : Nat} (h : n < 256 ^ count) :
    ofBigEndian (bigEndian count n) = n := by
  rw [ofBigEndian_bigEndian_mod, Nat.mod_eq_of_lt h]

/-- **The bytes in front of a narrow number are zeros.** -/
theorem bigEndian_add {count n : Nat} (h : n < 256 ^ count) (more : Nat) :
    bigEndian (more + count) n = List.replicate more 0 ++ bigEndian count n := by
  induction more with
  | zero => simp
  | succ more ih =>
    have hle : 256 ^ count ≤ Nat.pow 256 (more + count) :=
      Nat.pow_le_pow_right (by decide) (Nat.le_add_left count more)
    have hzero : n / Nat.pow 256 (more + count) = 0 :=
      Nat.div_eq_of_lt (Nat.lt_of_lt_of_le h hle)
    rw [Nat.succ_add, bigEndian, hzero, ih, List.replicate_succ, List.cons_append]
    rfl

theorem ofBigEndian_replicate_append (more : Nat) (data : List UInt8) :
    ofBigEndian (List.replicate more 0 ++ data) = ofBigEndian data := by
  induction more with
  | zero => rfl
  | succ more ih =>
    rw [List.replicate_succ, List.cons_append, ofBigEndian_cons, ih]
    simp

theorem bigEndian_eq_replicate_append {count more n : Nat} (h : n < 256 ^ (more + count)) :
    bigEndian (more + count) n = List.replicate more 0 ++ bigEndian count n ↔ n < 256 ^ count := by
  constructor
  · intro heq
    have hread := congrArg ofBigEndian heq
    have hlt := ofBigEndian_lt (bigEndian count n)
    rw [ofBigEndian_bigEndian h, ofBigEndian_replicate_append] at hread
    rwa [← hread, length_bigEndian] at hlt
  · exact fun hn => bigEndian_add hn more

/-! ### Words -/

namespace Word

theorem toNat_ofNat {n : Nat} (h : n < capacity 128) : (BitVec.ofNat 128 n).toNat = n :=
  Nat.mod_eq_of_lt h

theorem toNat_ofNat_lt {n bound : Nat} (h : n < bound) : (BitVec.ofNat 128 n).toNat < bound :=
  Nat.lt_of_le_of_lt (Nat.mod_le n _) h

theorem ofNat_toNat (word : Word) : BitVec.ofNat 128 word.toNat = word :=
  BitVec.eq_of_toNat_eq (toNat_ofNat word.isLt)

/-- **Shifting up to sixteen bytes into a word loses none of their bits.** -/
theorem toNat_ofBytes {data : List UInt8} (h : data.length ≤ 16) :
    (ofBytes data).toNat = ofBigEndian data := by
  induction data using List.reverseRecOn with
  | nil => rfl
  | append_singleton rest last ih =>
    rw [List.length_append, List.length_singleton] at h
    have hrest := ih (by omega)
    have hlast : last.toNat < 2 ^ 8 := last.toNat_lt
    have hroom : ofBigEndian rest * 2 ^ 8 < 2 ^ 128 := by
      have hpow : 256 ^ rest.length ≤ 256 ^ 15 := Nat.pow_le_pow_right (by decide) (by omega)
      have hlt := ofBigEndian_lt rest
      omega
    have hword : ofBytes (rest ++ [last]) = ofBytes rest <<< 8 ||| last.toBitVec.setWidth 128 := by
      simp [ofBytes]
    have hbyte : last.toNat % 2 ^ 128 = last.toNat :=
      Nat.mod_eq_of_lt (Nat.lt_trans hlast (by decide))
    rw [hword, BitVec.toNat_or, BitVec.toNat_shiftLeft, hrest, BitVec.toNat_setWidth,
      UInt8.toNat_toBitVec, hbyte, Nat.shiftLeft_eq, Nat.mod_eq_of_lt hroom, ← Nat.shiftLeft_eq,
      ← Nat.shiftLeft_add_eq_or_of_lt hlast, Nat.shiftLeft_eq, ofBigEndian_concat]

/-- **Shifting a word to the right leaves something exactly if it needs more bits.** -/
theorem shiftRight_ne_zero (word : Word) (bits : Nat) :
    word >>> bits ≠ 0 ↔ capacity bits ≤ word.toNat := by
  rw [Ne, ← BitVec.toNat_inj, BitVec.toNat_ushiftRight, Nat.shiftRight_eq_div_pow, capacity_eq]
  simp [Nat.div_eq_zero_iff]

end Word

/-! ### Field elements -/

namespace Field

theorem capacity_lt_modulus : capacity 128 < modulus := by
  decide

theorem val_lt (x : Field) : x.val < 256 ^ 32 :=
  Nat.lt_trans x.isLt (by decide)

/-- **A number of up to 128 bits is the canonical representative of its element.** -/
theorem val_ofNat {n : Nat} (h : n < capacity 128) : (ofNat n).val = n :=
  Nat.mod_eq_of_lt (Nat.lt_trans h capacity_lt_modulus)

end Field

/-! ### Hexadecimal digits -/

namespace Text.Hex

theorem digitValue?_digit {n : Nat} (h : n < 16) :
    ∃ b : UInt8, String.utf8EncodeChar (digit n) = [b] ∧ digitValue? b.toNat = some n := by
  have hall : ∀ m : Fin 16, String.utf8EncodeChar (digit m.val)
      = [UInt8.ofNat (digit m.val).toNat] ∧
        digitValue? (UInt8.ofNat (digit m.val).toNat).toNat = some m.val := by decide
  exact ⟨_, hall ⟨n, h⟩⟩

theorem decodePairs_byteDigits (b : UInt8) :
    ∃ high low : UInt8, (byteDigits b).flatMap String.utf8EncodeChar = [high, low] ∧
      ∀ position rest, decodePairs position (high :: low :: rest)
        = (decodePairs (position + 2) rest).map (b :: ·) := by
  have hb : b.toNat < 256 := b.toNat_lt
  obtain ⟨high, hhigh, hx⟩ := digitValue?_digit (show b.toNat / 16 < 16 by omega)
  obtain ⟨low, hlow, hy⟩ := digitValue?_digit (show b.toNat % 16 < 16 by omega)
  refine ⟨high, low, by simp [byteDigits, hhigh, hlow], fun position rest => ?_⟩
  have hjoin : UInt8.ofNat (16 * (b.toNat / 16) + b.toNat % 16) = b := by
    rw [Nat.div_add_mod]
    exact UInt8.ofNat_toNat
  rw [decodePairs, hx, hy]
  simp only [hjoin]

theorem decode_encode (bytes : List UInt8) : decode (encode bytes).toList = .ok bytes := by
  -- The digits are two bytes of text for each byte, which the reader takes in the same pairs.
  have hpairs : ∃ text : List UInt8,
      (bytes.flatMap byteDigits).flatMap String.utf8EncodeChar = text ∧
        text.length = 2 * bytes.length ∧ ∀ position, decodePairs position text = .ok bytes := by
    induction bytes with
    | nil => exact ⟨[], rfl, rfl, fun _ => rfl⟩
    | cons b rest ih =>
      obtain ⟨text, htext, hlength, hread⟩ := ih
      obtain ⟨high, low, hdigits, hpair⟩ := decodePairs_byteDigits b
      refine ⟨high :: low :: text, ?_, ?_, fun position => ?_⟩
      · rw [List.flatMap_cons, List.flatMap_append, hdigits, htext]
        rfl
      · simp only [List.length_cons, hlength]
        omega
      · rw [hpair, hread]
        rfl
  obtain ⟨text, htext, hlength, hread⟩ := hpairs
  rw [decode, encode, String.toList_ofList, htext, if_neg (by omega)]
  exact hread 0

end Text.Hex

/-! ### Decimal digits -/

namespace Raw

theorem decimal?_repr {n : Nat} (h : n < capacity 128) : decimal? n.repr = some n := by
  have hdigit : ∀ c ∈ Nat.toDigits 10 n, c.isDigit = true :=
    fun c hc => Nat.isDigit_of_mem_toDigits (by decide) (by decide) hc
  have hne : Nat.toDigits 10 n ≠ [] := Nat.toDigits_ne_nil
  unfold decimal?
  rw [Nat.toList_repr]
  dsimp only
  split
  · rename_i rest heq
    exact absurd (hdigit '+' (heq ▸ List.mem_cons_self)) (by decide)
  · rw [if_neg (by simpa [hne] using hdigit), Nat.ofDigitChars_toDigits (by decide) (by decide),
      if_pos h]

end Raw

end Circuitry
