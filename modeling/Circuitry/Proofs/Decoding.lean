import Circuitry.Proofs.ByteOrder
import Circuitry.Proofs.Fallible

/-!
# Reading bytes as text

Reading takes the bytes of one character after the other and stops at the first that start none.  So
what it accepts should be exactly what texts are written as, and it is: bytes are read as a text if
and only if they are its bytes (`Text.Utf8.decode_eq_ok`).

`Text.Utf8.Sequence` is the table in between.  It lists the sequences that the reader takes for one
character, with the tests that keep out overlong forms, surrogates and code points beyond the last
one.  With these tests there is one sequence for every character, the one it is written as.
-/

namespace Circuitry.Text.Utf8

open Fallible

/-! ### Tests on bytes -/

theorem isContinuation_iff {b : UInt8} :
    isContinuation b = true ↔ 0x80 ≤ b.toNat ∧ b.toNat ≤ 0xbf := by
  simp [isContinuation, UInt8.le_iff_toNat_le]

theorem isSecondOfThree_iff {b c : UInt8} : isSecondOfThree b c = true ↔
    (b.toNat = 0xe0 → 0xa0 ≤ c.toNat) ∧ (b.toNat = 0xed → c.toNat ≤ 0x9f) ∧
      0x80 ≤ c.toNat ∧ c.toNat ≤ 0xbf := by
  simp [isSecondOfThree, isContinuation, UInt8.le_iff_toNat_le, ← UInt8.toNat_inj, and_assoc,
    ← imp_iff_not_or]

theorem isSecondOfFour_iff {b c : UInt8} : isSecondOfFour b c = true ↔
    (b.toNat = 0xf0 → 0x90 ≤ c.toNat) ∧ (b.toNat = 0xf4 → c.toNat ≤ 0x8f) ∧
      0x80 ≤ c.toNat ∧ c.toNat ≤ 0xbf := by
  simp [isSecondOfFour, isContinuation, UInt8.le_iff_toNat_le, ← UInt8.toNat_inj, and_assoc,
    ← imp_iff_not_or]

theorem between_iff {low high b : UInt8} :
    (decide (low ≤ b) && decide (b ≤ high)) = true ↔
      low.toNat ≤ b.toNat ∧ b.toNat ≤ high.toNat := by
  simp [UInt8.le_iff_toNat_le]

/-! ### What the reader takes for a character -/

/-- The sequences of bytes that stand for one character, with its code point. -/
inductive Sequence : List UInt8 → Nat → Prop
  | one {b : UInt8} (hb : b.toNat ≤ 0x7f) : Sequence [b] b.toNat
  | two {b c : UInt8} (hb : 0xc2 ≤ b.toNat ∧ b.toNat ≤ 0xdf) (hc : isContinuation c = true) :
      Sequence [b, c] (b.toNat % 32 * 64 + payload c)
  | three {b c d : UInt8} (hb : 0xe0 ≤ b.toNat ∧ b.toNat ≤ 0xef)
      (hc : isSecondOfThree b c = true) (hd : isContinuation d = true) :
      Sequence [b, c, d] (b.toNat % 16 * 4096 + payload c * 64 + payload d)
  | four {b c d e : UInt8} (hb : 0xf0 ≤ b.toNat ∧ b.toNat ≤ 0xf4)
      (hc : isSecondOfFour b c = true) (hd : isContinuation d = true)
      (he : isContinuation e = true) : Sequence [b, c, d, e]
        (b.toNat % 8 * 262144 + payload c * 4096 + payload d * 64 + payload e)

/-- **A sequence is read as its character**, whatever follows it. -/
theorem Sequence.decodeFrom {seq : List UInt8} {n : Nat} (h : Sequence seq n) (index : Nat)
    (rest : List UInt8) : decodeFrom index (seq ++ rest)
      = (decodeFrom (index + seq.length) rest).map (Char.ofNat n :: ·) := by
  rw [decodeFrom.eq_def]
  cases h with
  | one hb => simp [UInt8.le_iff_toNat_le, hb]
  | @two b c hb hc =>
    have hone : ¬ b.toNat ≤ 0x7f := by omega
    simp [UInt8.le_iff_toNat_le, hone, hb, hc]
  | @three b c d hb hc hd =>
    have hone : ¬ b.toNat ≤ 0x7f := by omega
    have htwo : ¬ b.toNat ≤ 0xdf := by omega
    simp [UInt8.le_iff_toNat_le, hone, htwo, hb, hc, hd]
  | @four b c d e hb hc hd he =>
    have hone : ¬ b.toNat ≤ 0x7f := by omega
    have htwo : ¬ b.toNat ≤ 0xdf := by omega
    have hthree : ¬ b.toNat ≤ 0xef := by omega
    simp [UInt8.le_iff_toNat_le, hone, htwo, hthree, hb, hc, hd, he]

/-- **What can be read starts with a sequence**, and the rest of it is read behind that. -/
theorem exists_sequence {index : Nat} {b : UInt8} {bytes : List UInt8} {cs : List Char}
    (h : decodeFrom index (b :: bytes) = .ok cs) :
    ∃ seq n rest chars, b :: bytes = seq ++ rest ∧ Sequence seq n ∧ cs = Char.ofNat n :: chars ∧
      decodeFrom (index + seq.length) rest = .ok chars := by
  rw [decodeFrom.eq_def] at h
  dsimp only at h
  split at h
  · rename_i hb
    obtain ⟨chars, hrest, rfl⟩ := map_eq_ok.mp h
    exact ⟨[b], _, bytes, chars, rfl, .one (UInt8.le_iff_toNat_le.mp hb), rfl, hrest⟩
  split at h
  · rename_i hb
    split at h
    · cases h
    split at h
    · rename_i hc
      obtain ⟨chars, hrest, rfl⟩ := map_eq_ok.mp h
      exact ⟨[b, _], _, _, chars, rfl, .two (between_iff.mp hb) hc, rfl, hrest⟩
    · cases h
  split at h
  · rename_i hb
    split at h
    · cases h
    split at h
    · rename_i hc
      split at h
      · cases h
      split at h
      · rename_i hd
        obtain ⟨chars, hrest, rfl⟩ := map_eq_ok.mp h
        exact ⟨[b, _, _], _, _, chars, rfl, .three (between_iff.mp hb) hc hd, rfl, hrest⟩
      · cases h
    · cases h
  split at h
  · rename_i hb
    split at h
    · cases h
    split at h
    · rename_i hc
      split at h
      · cases h
      split at h
      · rename_i hd
        split at h
        · cases h
        split at h
        · rename_i he
          obtain ⟨chars, hrest, rfl⟩ := map_eq_ok.mp h
          exact ⟨[b, _, _, _], _, _, chars, rfl, .four (between_iff.mp hb) hc hd he, rfl, hrest⟩
        · cases h
      · cases h
    · cases h
  · cases h

/-! ### How a character is written -/

theorem toNat_ofNat {n : Nat} (h : n < 0xd800 ∨ 0xdfff < n ∧ n < 0x110000) :
    (Char.ofNat n).toNat = n := by
  rw [Char.ofNat, dif_pos h]
  rfl

theorem cons_eq_cons {n : Nat} {b : UInt8} {s t : List UInt8} (hn : n = b.toNat) (h : s = t) :
    UInt8.ofNat n :: s = b :: t := by
  rw [hn, h, UInt8.ofNat_toNat]

theorem Sequence.encodeChar {seq : List UInt8} {n : Nat} (h : Sequence seq n) :
    String.utf8EncodeChar (Char.ofNat n) = seq := by
  rw [encodeChar_eq]
  cases h with
  | @one b hb =>
    have hcases := trail_cases (n := b.toNat) (by omega)
    obtain ⟨ht, hl⟩ : trail b.toNat = 0 ∧ lead b.toNat = b.toNat := by omega
    rw [toNat_ofNat (.inl (by omega)), ht]
    exact cons_eq_cons hl rfl
  | @two b c hb hc =>
    rw [isContinuation_iff] at hc
    generalize hn : b.toNat % 32 * 64 + payload c = n
    unfold payload at hn
    have hcases := trail_cases (n := n) (by omega)
    obtain ⟨ht, hl⟩ : trail n = 1 ∧ lead n = b.toNat := by omega
    rw [toNat_ofNat (.inl (by omega)), ht]
    simp only [continuation, Nat.pow_eq, Nat.reducePow, Nat.div_one]
    exact cons_eq_cons hl (cons_eq_cons (by omega) rfl)
  | @three b c d hb hc hd =>
    rw [isSecondOfThree_iff] at hc
    rw [isContinuation_iff] at hd
    generalize hn : b.toNat % 16 * 4096 + payload c * 64 + payload d = n
    unfold payload at hn
    have hcases := trail_cases (n := n) (by omega)
    obtain ⟨ht, hl⟩ : trail n = 2 ∧ lead n = b.toNat := by omega
    rw [toNat_ofNat (by omega), ht]
    simp only [continuation, Nat.pow_eq, Nat.reducePow, Nat.div_one]
    exact cons_eq_cons hl (cons_eq_cons (by omega) (cons_eq_cons (by omega) rfl))
  | @four b c d e hb hc hd he =>
    rw [isSecondOfFour_iff] at hc
    rw [isContinuation_iff] at hd he
    generalize hn : b.toNat % 8 * 262144 + payload c * 4096 + payload d * 64 + payload e = n
    unfold payload at hn
    have hcases := trail_cases (n := n) (by omega)
    obtain ⟨ht, hl⟩ : trail n = 3 ∧ lead n = b.toNat := by omega
    rw [toNat_ofNat (by omega), ht]
    simp only [continuation, Nat.pow_eq, Nat.reducePow, Nat.div_one]
    exact cons_eq_cons hl
      (cons_eq_cons (by omega) (cons_eq_cons (by omega) (cons_eq_cons (by omega) rfl)))

theorem exists_byte {k : Nat} (h : k < 256) : ∃ b : UInt8, UInt8.ofNat k = b ∧ b.toNat = k :=
  ⟨_, rfl, UInt8.toNat_ofNat_of_lt' h⟩

/-- **A character is written as a sequence.**  No code point is a surrogate, and the lead byte says
by its mark how many bytes there are. -/
theorem sequence_encodeChar (c : Char) : Sequence (String.utf8EncodeChar c) c.toNat := by
  rw [encodeChar_eq]
  have hvalid : c.toNat < 0xd800 ∨ 0xdfff < c.toNat ∧ c.toNat < 0x110000 := c.valid
  generalize c.toNat = n at hvalid
  rcases trail_cases (n := n) (by omega) with ⟨ht, hl, h⟩ | ⟨ht, hl, h⟩ | ⟨ht, hl, h⟩ | ⟨ht, hl, h⟩
  · rw [ht, hl]
    obtain ⟨b, hb, rfl⟩ := exists_byte (k := n) (by omega)
    rw [hb]
    exact .one (by omega)
  · rw [ht, hl]
    simp only [continuation, Nat.pow_eq, Nat.reducePow, Nat.div_one]
    obtain ⟨b, hb', hb⟩ := exists_byte (k := n / 64 + 0xc0) (by omega)
    obtain ⟨c, hc', hc⟩ := exists_byte (k := n % 64 + 0x80) (by omega)
    rw [hb', hc']
    have hseq := Sequence.two (b := b) (c := c) (by omega) (isContinuation_iff.mpr (by omega))
    have hpoint : b.toNat % 32 * 64 + c.toNat % 64 = n := by omega
    rwa [payload, hpoint] at hseq
  · rw [ht, hl]
    simp only [continuation, Nat.pow_eq, Nat.reducePow, Nat.div_one]
    obtain ⟨b, hb', hb⟩ := exists_byte (k := n / 4096 + 0xe0) (by omega)
    obtain ⟨c, hc', hc⟩ := exists_byte (k := n / 64 % 64 + 0x80) (by omega)
    obtain ⟨d, hd', hd⟩ := exists_byte (k := n % 64 + 0x80) (by omega)
    rw [hb', hc', hd']
    have hseq := Sequence.three (b := b) (c := c) (d := d) (by omega)
      (isSecondOfThree_iff.mpr (by omega)) (isContinuation_iff.mpr (by omega))
    have hpoint : b.toNat % 16 * 4096 + c.toNat % 64 * 64 + d.toNat % 64 = n := by omega
    rwa [payload, payload, hpoint] at hseq
  · rw [ht, hl]
    simp only [continuation, Nat.pow_eq, Nat.reducePow, Nat.div_one]
    obtain ⟨b, hb', hb⟩ := exists_byte (k := n / 262144 + 0xf0) (by omega)
    obtain ⟨c, hc', hc⟩ := exists_byte (k := n / 4096 % 64 + 0x80) (by omega)
    obtain ⟨d, hd', hd⟩ := exists_byte (k := n / 64 % 64 + 0x80) (by omega)
    obtain ⟨e, he', he⟩ := exists_byte (k := n % 64 + 0x80) (by omega)
    rw [hb', hc', hd', he']
    have hseq := Sequence.four (b := b) (c := c) (d := d) (e := e) (by omega)
      (isSecondOfFour_iff.mpr (by omega)) (isContinuation_iff.mpr (by omega))
      (isContinuation_iff.mpr (by omega))
    have hpoint : b.toNat % 8 * 262144 + c.toNat % 64 * 4096 + d.toNat % 64 * 64 + e.toNat % 64
        = n := by omega
    rwa [payload, payload, payload, hpoint] at hseq

/-- **Bytes are read as characters exactly if they are how these are written.** -/
theorem decodeFrom_eq_ok {index : Nat} {data : List UInt8} {cs : List Char} :
    decodeFrom index data = .ok cs ↔ data = cs.flatMap String.utf8EncodeChar := by
  constructor
  · intro h
    induction cs generalizing index data with
    | nil =>
      cases data with
      | nil => rfl
      | cons b bytes =>
        obtain ⟨seq, n, rest, chars, -, -, heq, -⟩ := exists_sequence h
        cases heq
    | cons c cs ih =>
      cases data with
      | nil =>
        rw [decodeFrom.eq_def] at h
        cases h
      | cons b bytes =>
        obtain ⟨seq, n, rest, chars, hdata, hseq, heq, hrest⟩ := exists_sequence h
        cases heq
        rw [hdata, List.flatMap_cons, hseq.encodeChar, ← ih hrest]
  · rintro rfl
    induction cs generalizing index with
    | nil => rw [decodeFrom.eq_def]; rfl
    | cons c cs ih =>
      rw [List.flatMap_cons, (sequence_encodeChar c).decodeFrom, ih, Char.ofNat_toNat]
      rfl

theorem decode_eq_ok {data : List UInt8} {text : String} :
    decode data = .ok text ↔ data = encode text := by
  rw [decode, map_eq_ok, encode]
  constructor
  · rintro ⟨cs, hcs, rfl⟩
    rw [String.toList_ofList]
    exact decodeFrom_eq_ok.mp hcs
  · intro h
    exact ⟨text.toList, decodeFrom_eq_ok.mpr h, String.ofList_toList⟩

end Circuitry.Text.Utf8
