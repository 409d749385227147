import Circuitry.Text.Utf8

/-!
# The order of texts and of their bytes

Keys are kept in the order of their code points.  This is also the order of their UTF-8 bytes
(`Text.Utf8.encode_lt`).

A character is written as a lead byte and continuation bytes, the digits of its code point to the
base 64.  The lead byte holds the highest digits and a mark for the number of bytes, and longer
sequences have higher marks.  So the first byte in which two characters differ tells which of them
is the smaller one, whatever follows them (`Text.Utf8.encodeChar_lt`).
-/

namespace Circuitry.Text.Utf8

/-! ### The parts of a character -/

def trail (n : Nat) : Nat :=
  if n ≤ 0x7f then 0 else if n ≤ 0x7ff then 1 else if n ≤ 0xffff then 2 else 3

/-- The mark by which a lead byte says how many bytes follow it. -/
def mark : Nat → Nat
  | 0 => 0
  | 1 => 0xc0
  | 2 => 0xe0
  | _ => 0xf0

/-- The lead byte of a code point: its highest digits behind the mark. -/
def lead (n : Nat) : Nat :=
  n / Nat.pow 64 (trail n) + mark (trail n)

/-- The last `count` digits of a number to the base 64 as continuation bytes. -/
def continuation : Nat → Nat → List UInt8
  | 0, _ => []
  | count + 1, n => UInt8.ofNat (n / Nat.pow 64 count % 64 + 0x80) :: continuation count n

theorem toNat_lt (c : Char) : c.toNat < 0x110000 := by
  rcases c.valid with h | ⟨-, h⟩
  · exact Nat.lt_trans h (by decide)
  · exact h

/-- The four lengths of a sequence, with the code points and the lead bytes that belong to them. -/
theorem trail_cases {n : Nat} (h : n < 0x110000) :
    trail n = 0 ∧ lead n = n ∧ n < 0x80 ∨
      trail n = 1 ∧ lead n = n / 64 + 0xc0 ∧ 0x80 ≤ n ∧ n < 0x800 ∨
      trail n = 2 ∧ lead n = n / 4096 + 0xe0 ∧ 0x800 ≤ n ∧ n < 0x10000 ∨
      trail n = 3 ∧ lead n = n / 262144 + 0xf0 ∧ 0x10000 ≤ n ∧ n < 0x110000 := by
  have hlead : lead n = n / Nat.pow 64 (trail n) + mark (trail n) := rfl
  have htrail : trail n = if n ≤ 0x7f then 0 else if n ≤ 0x7ff then 1 else
    if n ≤ 0xffff then 2 else 3 := rfl
  split at htrail
  · exact .inl ⟨htrail, by rw [hlead, htrail]; exact Nat.div_one n, by omega⟩
  · split at htrail
    · exact .inr (.inl ⟨htrail, by rw [hlead, htrail]; rfl, by omega⟩)
    · split at htrail
      · exact .inr (.inr (.inl ⟨htrail, by rw [hlead, htrail]; rfl, by omega⟩))
      · exact .inr (.inr (.inr ⟨htrail, by rw [hlead, htrail]; rfl, by omega⟩))

theorem encodeChar_eq (c : Char) :
    String.utf8EncodeChar c
      = UInt8.ofNat (lead c.toNat) :: continuation (trail c.toNat) c.toNat := by
  have hval : c.val.toNat = c.toNat := rfl
  rw [String.utf8EncodeChar.eq_1]
  simp only [hval]
  rcases trail_cases (toNat_lt c) with ⟨ht, hl, h⟩ | ⟨ht, hl, h⟩ | ⟨ht, hl, h⟩ | ⟨ht, hl, h⟩
  · rw [ht, hl, if_pos (by omega)]
    rfl
  · rw [ht, hl, if_neg (by omega), if_pos (by omega),
      Nat.mod_eq_of_lt (by omega : c.toNat / 64 < 0x20)]
    simp [continuation]
  · rw [ht, hl, if_neg (by omega), if_neg (by omega), if_pos (by omega),
      Nat.mod_eq_of_lt (by omega : c.toNat / 4096 < 0x10)]
    simp [continuation]
  · rw [ht, hl, if_neg (by omega), if_neg (by omega), if_neg (by omega),
      Nat.mod_eq_of_lt (by omega : c.toNat / 262144 < 0x08)]
    simp [continuation]

theorem lead_lt (c : Char) : lead c.toNat < 256 := by
  have hcases := trail_cases (toNat_lt c)
  omega

/-- Of two code points the smaller one has the smaller lead byte, or the two have one lead byte and
sequences of one length. -/
theorem lead_cases {c d : Char} (h : c < d) :
    lead c.toNat < lead d.toNat ∨ lead c.toNat = lead d.toNat ∧ trail c.toNat = trail d.toNat ∧
      c.toNat / Nat.pow 64 (trail c.toNat) = d.toNat / Nat.pow 64 (trail c.toNat) := by
  have hnat : c.toNat < d.toNat := h
  have hc := trail_cases (toNat_lt c)
  have hd := trail_cases (toNat_lt d)
  by_cases htrail : trail c.toNat = trail d.toNat
  · have hle : c.toNat / Nat.pow 64 (trail c.toNat) ≤ d.toNat / Nat.pow 64 (trail c.toNat) :=
      Nat.div_le_div_right (Nat.le_of_lt hnat)
    unfold lead
    rw [← htrail]
    omega
  · left
    omega

/-! ### The first byte that differs -/

theorem cons_lt_cons {m n : Nat} {s t : List UInt8} (hm : m < 256) (hn : n < 256)
    (h : m < n ∨ m = n ∧ s < t) : UInt8.ofNat m :: s < UInt8.ofNat n :: t := by
  rw [List.cons_lt_cons_iff, UInt8.lt_iff_toNat_lt, UInt8.toNat_ofNat_of_lt' hm,
    UInt8.toNat_ofNat_of_lt' hn]
  rcases h with h | ⟨rfl, h⟩
  · exact .inl h
  · exact .inr ⟨rfl, h⟩

theorem continuation_lt {m n : Nat} (hlt : m < n) {count : Nat}
    (hsame : m / Nat.pow 64 count = n / Nat.pow 64 count) (s t : List UInt8) :
    continuation count m ++ s < continuation count n ++ t := by
  induction count with
  | zero =>
    rw [show Nat.pow 64 0 = 1 from rfl, Nat.div_one, Nat.div_one] at hsame
    omega
  | succ count ih =>
    have hm : m / Nat.pow 64 count / 64 = m / Nat.pow 64 (count + 1) :=
      Nat.div_div_eq_div_mul m _ _
    have hn : n / Nat.pow 64 count / 64 = n / Nat.pow 64 (count + 1) :=
      Nat.div_div_eq_div_mul n _ _
    have hle : m / Nat.pow 64 count ≤ n / Nat.pow 64 count :=
      Nat.div_le_div_right (Nat.le_of_lt hlt)
    refine cons_lt_cons (by omega) (by omega) ?_
    -- The next digit differs, or it joins those in front that agree.
    by_cases hdigit : m / Nat.pow 64 count = n / Nat.pow 64 count
    · exact .inr ⟨by rw [hdigit], ih hdigit⟩
    · left
      omega

/-- **Characters are in the order of their bytes**, whatever follows them. -/
theorem encodeChar_lt {c d : Char} (h : c < d) (s t : List UInt8) :
    String.utf8EncodeChar c ++ s < String.utf8EncodeChar d ++ t := by
  rw [encodeChar_eq, encodeChar_eq]
  refine cons_lt_cons (lead_lt c) (lead_lt d) ?_
  rcases lead_cases h with hlead | ⟨hlead, htrail, hsame⟩
  · exact .inl hlead
  · rw [← htrail]
    exact .inr ⟨hlead, continuation_lt h hsame s t⟩

theorem flatMap_encodeChar_lt {cs ds : List Char} (h : cs < ds) :
    cs.flatMap String.utf8EncodeChar < ds.flatMap String.utf8EncodeChar := by
  induction h with
  | @nil d ds =>
    rw [List.flatMap_nil, List.flatMap_cons, encodeChar_eq]
    exact List.nil_lt_cons _ _
  | rel hlt => exact encodeChar_lt hlt _ _
  | cons _ ih => exact List.append_left_lt ih

theorem encode_lt {a b : String} (h : a < b) : encode a < encode b :=
  flatMap_encodeChar_lt (String.lt_iff.mp h)

theorem encode_lt_iff {a b : String} : encode a < encode b ↔ a < b := by
  refine ⟨fun h => Decidable.byContradiction fun hn => ?_, encode_lt⟩
  have hle := String.not_lt.mp hn
  by_cases hlt : b < a
  · exact List.lt_asymm h (encode_lt hlt)
  · have heq : a = b := String.le_antisymm (String.not_lt.mp hlt) hle
    rw [heq] at h
    exact List.lt_irrefl _ h

end Circuitry.Text.Utf8
