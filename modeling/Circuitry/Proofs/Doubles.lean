import Circuitry.Json.Writer
import Mathlib.Data.Nat.Log
import Mathlib.Tactic.Ring

/-!
# Whole numbers as doubles

A double keeps fifty-three significant bits.  So a whole number is a double exactly if it is a
number below `2 ^ 53` times a power of two (`Double.IsExact`), and the double nearest to any other
number denotes a different number (`Double.wholeMagnitude?_of_rank`).

A double that denotes a number below `2 ^ 53` is the nearest one to the decimal digits of that
number, so there is a shortest decimal that reads back, and it needs no places behind the point
(`Double.shortest_of_whole`).
-/

namespace Circuitry

/-! ### Rounding -/

namespace Double

theorem binade_eq : binade = 2 ^ 52 := rfl

theorem roundDiv_mul (num den : Nat) {c : Nat} (hc : 0 < c) :
    roundDiv (num * c) (den * c) = roundDiv num den := by
  have hgreater : 2 * (num % den * c) > den * c ↔ 2 * (num % den) > den := by
    rw [← Nat.mul_assoc]
    exact Nat.mul_lt_mul_right hc
  have hequal : 2 * (num % den * c) = den * c ↔ 2 * (num % den) = den := by
    rw [← Nat.mul_assoc]
    exact Nat.mul_left_inj (Nat.ne_of_gt hc)
  simp only [roundDiv, Nat.mul_div_mul_right _ _ hc, Nat.mul_mod_mul_right, hgreater, hequal]

theorem roundDiv_one (n : Nat) : roundDiv n 1 = n := by
  simp [roundDiv, Nat.mod_one]

theorem roundDiv_of_dvd {num den : Nat} (hden : 0 < den) (h : den ∣ num) :
    roundDiv num den = num / den := by
  simp only [roundDiv, Nat.mod_eq_zero_of_dvd h]
  rw [if_neg (by omega)]

theorem roundDiv_le (num den : Nat) :
    num / den ≤ roundDiv num den ∧ roundDiv num den ≤ num / den + 1 := by
  unfold roundDiv
  dsimp only
  split <;> omega

theorem floorLog2_whole {n c : Nat} (hn : n ≠ 0) (hc : 0 < c) :
    floorLog2 (n * c) c = n.log2 := by
  have hcne : c ≠ 0 := Nat.ne_of_gt hc
  have hmul : n * c ≠ 0 := Nat.mul_ne_zero hn hcne
  have hlow : 2 ^ (n.log2 + c.log2) ≤ n * c := by
    rw [Nat.pow_add]
    exact Nat.mul_le_mul (Nat.log2_self_le hn) (Nat.log2_self_le hcne)
  have hhigh : n * c < 2 ^ (n.log2 + c.log2 + 2) := by
    have hprod := Nat.mul_lt_mul'' (Nat.lt_log2_self (n := n)) (Nat.lt_log2_self (n := c))
    rwa [← Nat.pow_add, show n.log2 + 1 + (c.log2 + 1) = n.log2 + c.log2 + 2 by omega] at hprod
  have hle : n.log2 + c.log2 ≤ (n * c).log2 := (Nat.le_log2 hmul).mpr hlow
  have hlt : (n * c).log2 < n.log2 + c.log2 + 2 := (Nat.log2_lt hmul).mpr hhigh
  -- The guess is right, or one too large.
  have hreached (k : Nat) : c * 2 ^ k ≤ n * c ↔ 2 ^ k ≤ n := by
    rw [Nat.mul_comm n c]
    exact Nat.mul_le_mul_left_iff hc
  unfold floorLog2
  obtain heq | heq : (n * c).log2 = n.log2 + c.log2 ∨ (n * c).log2 = n.log2 + c.log2 + 1 := by
    omega
  · have hguess : ((n * c).log2 : Int) - c.log2 = n.log2 := by omega
    have hpow := (hreached n.log2).mpr (Nat.log2_self_le hn)
    simp [hguess, hpow]
  · have hguess : ((n * c).log2 : Int) - c.log2 = (n.log2 + 1 : Nat) := by omega
    have hsign : (0 : Int) ≤ (n.log2 + 1 : Nat) := Int.natCast_nonneg _
    have hpow : ¬ c * 2 ^ (n.log2 + 1) ≤ n * c := by
      intro hle
      exact absurd ((hreached (n.log2 + 1)).mp hle) (Nat.not_le.mpr Nat.lt_log2_self)
    simp only [hguess, ge_iff_le, hsign, if_true, Int.toNat_natCast, Nat.pow_eq, hpow,
      decide_false, Bool.false_eq_true, if_false]
    omega

def wholeSignificand (n : Nat) : Nat :=
  if 52 ≤ n.log2 then roundDiv n (2 ^ (n.log2 - 52)) else n * 2 ^ (52 - n.log2)

def wholeRank (n : Nat) : Nat :=
  (n.log2 + 1022) * binade + wholeSignificand n

theorem nearestRank_whole {n c : Nat} (hn : n ≠ 0) (hc : 0 < c) :
    nearestRank (n * c) c = wholeRank n := by
  have hunit : max ((n.log2 : Int) - 52) (-1074) = n.log2 - 52 := by omega
  simp only [nearestRank, floorLog2_whole hn hc, hunit, wholeRank, wholeSignificand]
  have hexp : ((n.log2 : Int) - 52 + 1074).toNat = n.log2 + 1022 := by omega
  rw [hexp]
  by_cases hlog : 52 ≤ n.log2
  · have hshift : ((n.log2 : Int) - 52).toNat = n.log2 - 52 := by omega
    rw [if_pos hlog, if_pos (by omega), hshift, Nat.mul_comm c]
    exact congrArg _ (roundDiv_mul n _ hc)
  · have hshift : (-((n.log2 : Int) - 52)).toNat = 52 - n.log2 := by omega
    rw [if_neg hlog, if_neg (by omega), hshift]
    have hmove : n * c * Nat.pow 2 (52 - n.log2) = n * 2 ^ (52 - n.log2) * c := by
      show n * c * 2 ^ (52 - n.log2) = _
      ring
    have hone := roundDiv_mul (n * 2 ^ (52 - n.log2)) 1 hc
    rw [Nat.one_mul] at hone
    rw [hmove, hone, roundDiv_one]

/-! ### Whole numbers -/

/-- A number that a double can denote: its significant bits are few enough. -/
def IsExact (n : Nat) : Prop :=
  ∃ m k, m < 2 ^ 53 ∧ n = m * 2 ^ k

/-- A number is a double exactly if rounding it to fifty-three bits changes nothing. -/
theorem isExact_iff_dvd {n : Nat} (hn : n ≠ 0) : IsExact n ↔ 2 ^ (n.log2 - 52) ∣ n := by
  constructor
  · rintro ⟨m, k, hm, rfl⟩
    have hlt : m * 2 ^ k < 2 ^ (53 + k) := by
      rw [Nat.pow_add]
      exact Nat.mul_lt_mul_of_pos_right hm (Nat.two_pow_pos k)
    have hlog : (m * 2 ^ k).log2 < 53 + k := (Nat.log2_lt hn).mpr hlt
    exact Nat.dvd_trans (Nat.pow_dvd_pow 2 (by omega)) (Nat.dvd_mul_left _ _)
  · intro hdvd
    refine ⟨n / 2 ^ (n.log2 - 52), n.log2 - 52, ?_, (Nat.div_mul_cancel hdvd).symm⟩
    rw [Nat.div_lt_iff_lt_mul (Nat.two_pow_pos _), ← Nat.pow_add]
    exact Nat.lt_of_lt_of_le Nat.lt_log2_self (Nat.pow_le_pow_right (by decide) (by omega))

/-- The number that the double nearest to a whole number denotes. -/
def nearestWhole (n : Nat) : Nat :=
  if 52 ≤ n.log2 then wholeSignificand n * 2 ^ (n.log2 - 52) else n

/-- **Rounding keeps exactly the numbers that doubles denote.** -/
theorem nearestWhole_eq_iff {n : Nat} : nearestWhole n = n ↔ IsExact n := by
  by_cases hn : n = 0
  · subst hn
    exact iff_of_true rfl ⟨0, 0, by decide, rfl⟩
  rw [isExact_iff_dvd hn, nearestWhole, wholeSignificand]
  by_cases hlog : 52 ≤ n.log2
  · rw [if_pos hlog, if_pos hlog]
    constructor
    · intro heq
      exact ⟨_, by rw [Nat.mul_comm]; exact heq.symm⟩
    · intro hdvd
      rw [roundDiv_of_dvd (Nat.two_pow_pos _) hdvd, Nat.div_mul_cancel hdvd]
  · rw [if_neg hlog, show n.log2 - 52 = 0 by omega]
    exact iff_of_true rfl (Nat.one_dvd n)

theorem wholeSignificand_bounds {n : Nat} (hn : n ≠ 0) :
    binade ≤ wholeSignificand n ∧ wholeSignificand n ≤ 2 * binade := by
  have hlow := Nat.log2_self_le hn
  have hhigh := Nat.lt_log2_self (n := n)
  unfold wholeSignificand
  by_cases hlog : 52 ≤ n.log2
  · rw [if_pos hlog]
    have hle : binade ≤ n / 2 ^ (n.log2 - 52) := by
      rw [binade_eq, Nat.le_div_iff_mul_le (Nat.two_pow_pos _), ← Nat.pow_add,
        show 52 + (n.log2 - 52) = n.log2 by omega]
      exact hlow
    have hlt : n / 2 ^ (n.log2 - 52) < 2 * binade := by
      rw [binade_eq, ← Nat.pow_succ', Nat.div_lt_iff_lt_mul (Nat.two_pow_pos _), ← Nat.pow_add,
        show 53 + (n.log2 - 52) = n.log2 + 1 by omega]
      exact hhigh
    have hround := roundDiv_le n (2 ^ (n.log2 - 52))
    omega
  · rw [if_neg hlog]
    have hle : 2 ^ n.log2 * 2 ^ (52 - n.log2) ≤ n * 2 ^ (52 - n.log2) :=
      Nat.mul_le_mul_right _ hlow
    have hlt : n * 2 ^ (52 - n.log2) < 2 ^ (n.log2 + 1) * 2 ^ (52 - n.log2) :=
      Nat.mul_lt_mul_of_pos_right hhigh (Nat.two_pow_pos _)
    rw [← Nat.pow_add, show n.log2 + (52 - n.log2) = 52 by omega] at hle
    rw [← Nat.pow_add, show n.log2 + 1 + (52 - n.log2) = 53 by omega] at hlt
    rw [binade_eq]
    omega

theorem nearestWhole_le {n : Nat} (h : n < 2 ^ 64) : nearestWhole n ≤ 2 ^ 64 := by
  rw [nearestWhole]
  split
  · rename_i hlog
    have hn : n ≠ 0 := by
      rintro rfl
      exact absurd hlog (by decide)
    have hshift : 2 ^ (n.log2 - 52) ≤ 2 ^ 11 :=
      Nat.pow_le_pow_right (by decide) (by have := (Nat.log2_lt hn).mpr h; omega)
    have hsig : wholeSignificand n ≤ 2 ^ 53 := (wholeSignificand_bounds hn).2
    calc wholeSignificand n * 2 ^ (n.log2 - 52) ≤ 2 ^ 53 * 2 ^ 11 := Nat.mul_le_mul hsig hshift
      _ = 2 ^ 64 := by norm_num
  · exact Nat.le_of_lt h

theorem wholeRank_lt_count {n : Nat} (hn : n ≠ 0) (h : n < 2 ^ 64) : wholeRank n < count := by
  have hlog := (Nat.log2_lt hn).mpr h
  have hsig := (wholeSignificand_bounds hn).2
  have hexp : (n.log2 + 1022) * binade ≤ 1085 * binade := Nat.mul_le_mul_right _ (by omega)
  have hpos : 0 < binade := by decide
  rw [wholeRank, count]
  omega

/-! ### The number of a rank -/

theorem parts_of_rank {x : Double} {e f : Nat} (he : 1 ≤ e) (hf : f < binade)
    (h : x.rank.val = e * binade + f) : x.significand = binade + f ∧ x.unit = e - 1075 := by
  have hpos : 0 < binade := by decide
  have hdiv : x.rank.val / binade = e := by
    rw [h, Nat.mul_comm, Nat.mul_add_div hpos, Nat.div_eq_of_lt hf, Nat.add_zero]
  have hmod : x.rank.val % binade = f := by
    rw [h, Nat.mul_comm, Nat.mul_add_mod, Nat.mod_eq_of_lt hf]
  have hle : binade ≤ x.rank.val := by
    have hone := Nat.mul_le_mul_right binade he
    omega
  constructor
  · rw [significand, if_neg (Nat.not_lt.mpr hle), hmod, Nat.add_comm]
  · rw [unit, hdiv]
    omega

theorem wholeMagnitude?_of_unit_nonneg {x : Double} {k : Nat} (h : x.unit = k) :
    x.wholeMagnitude? = some (x.significand * 2 ^ k) := by
  simp [wholeMagnitude?, ratio, h, Nat.mod_one]

theorem wholeMagnitude?_of_unit_neg {x : Double} {k : Nat} (hk : 0 < k) (h : x.unit = -k) :
    x.wholeMagnitude? =
      if x.significand % 2 ^ k = 0 then some (x.significand / 2 ^ k) else none := by
  have hsign : ¬ (-(k : Int) ≥ 0) := by omega
  simp only [wholeMagnitude?, ratio, h, if_neg hsign, Int.neg_neg, Int.toNat_natCast, Nat.pow_eq]

/-- **The double nearest to a whole number denotes a whole number.** -/
theorem wholeMagnitude?_of_rank {x : Double} {n : Nat} (hn : n ≠ 0)
    (h : x.rank.val = wholeRank n) : x.wholeMagnitude? = some (nearestWhole n) := by
  obtain ⟨hlow, hhigh⟩ := wholeSignificand_bounds hn
  rw [wholeRank] at h
  by_cases hlog : 52 ≤ n.log2
  · rw [nearestWhole, if_pos hlog]
    by_cases hcarry : wholeSignificand n < 2 * binade
    · obtain ⟨hsig, hunit⟩ := parts_of_rank (x := x) (e := n.log2 + 1023)
        (f := wholeSignificand n - binade) (by omega) (by omega) (by rw [h]; ring_nf; omega)
      rw [wholeMagnitude?_of_unit_nonneg (k := n.log2 - 52) (by omega), hsig,
        show binade + (wholeSignificand n - binade) = wholeSignificand n by omega]
    · -- Rounding up has carried into the next power of two.
      have hsame : wholeSignificand n = 2 * binade := by omega
      obtain ⟨hsig, hunit⟩ := parts_of_rank (x := x) (e := n.log2 + 1024) (f := 0) (by omega)
        (by decide) (by rw [h, hsame]; ring)
      rw [wholeMagnitude?_of_unit_nonneg (k := n.log2 - 52 + 1) (by omega), hsig, hsame,
        Nat.pow_succ]
      ring_nf
  · have hexact : wholeSignificand n = n * 2 ^ (52 - n.log2) := if_neg hlog
    have hcarry : wholeSignificand n < 2 * binade := by
      have hlt := Nat.mul_lt_mul_of_pos_right (Nat.lt_log2_self (n := n))
        (Nat.two_pow_pos (52 - n.log2))
      rw [← Nat.pow_add, show n.log2 + 1 + (52 - n.log2) = 53 by omega] at hlt
      rw [hexact, binade_eq]
      omega
    obtain ⟨hsig, hunit⟩ := parts_of_rank (x := x) (e := n.log2 + 1023)
      (f := wholeSignificand n - binade) (by omega) (by omega) (by rw [h]; ring_nf; omega)
    rw [show binade + (wholeSignificand n - binade) = wholeSignificand n by omega, hexact] at hsig
    rw [wholeMagnitude?_of_unit_neg (k := 52 - n.log2) (by omega) (by omega), hsig,
      Nat.mul_mod_left, if_pos rfl, Nat.mul_div_cancel _ (Nat.two_pow_pos _), nearestWhole,
      if_neg hlog]

theorem ratio_of_whole {x : Double} {n : Nat} (h : x.wholeMagnitude? = some n) :
    0 < x.ratio.2 ∧ x.ratio.1 = n * x.ratio.2 := by
  have hpos : 0 < x.ratio.2 := by
    unfold ratio
    split
    · exact Nat.one_pos
    · exact Nat.two_pow_pos _
  unfold wholeMagnitude? at h
  split at h
  · rename_i hmod
    rw [← Option.some.inj h, Nat.div_mul_cancel (Nat.dvd_of_mod_eq_zero hmod)]
    exact ⟨hpos, rfl⟩
  · cases h

theorem wholeMagnitude?_eq_zero_iff {x : Double} :
    x.wholeMagnitude? = some 0 ↔ x.rank.val = 0 := by
  have hpos : 0 < binade := by decide
  constructor
  · intro h
    obtain ⟨-, hnum⟩ := ratio_of_whole h
    have hsig : x.significand = 0 := by
      rw [Nat.zero_mul, ratio] at hnum
      split at hnum
      · exact (Nat.mul_eq_zero.mp hnum).resolve_right (Nat.ne_of_gt (Nat.two_pow_pos _))
      · exact hnum
    rw [significand] at hsig
    split at hsig <;> omega
  · intro h
    have hsig : x.significand = 0 := by rw [significand, if_pos (by omega), h]
    have hnum : x.ratio.1 = 0 := by
      unfold ratio
      split <;> simp [hsig]
    rw [wholeMagnitude?, hnum, Nat.zero_mod, if_pos rfl, Nat.zero_div]

theorem wholeRank_of_mul {n k : Nat} (hk : k ≤ 52) (hlow : 2 ^ 52 ≤ n * 2 ^ k)
    (hhigh : n * 2 ^ k < 2 ^ 53) : wholeRank n = (1074 - k) * binade + n * 2 ^ k := by
  have hn : n ≠ 0 := by
    rintro rfl
    rw [Nat.zero_mul] at hlow
    exact absurd hlow (by decide)
  have hlog : n.log2 = 52 - k := by
    rw [Nat.log2_eq_iff hn]
    constructor
    · rw [← Nat.mul_le_mul_right_iff (Nat.two_pow_pos k), ← Nat.pow_add,
        show 52 - k + k = 52 by omega]
      exact hlow
    · rw [← Nat.mul_lt_mul_right (Nat.two_pow_pos k), ← Nat.pow_add,
        show 52 - k + 1 + k = 53 by omega]
      exact hhigh
  have hsig : wholeSignificand n = n * 2 ^ k := by
    rw [wholeSignificand, hlog]
    by_cases hzero : k = 0
    · subst hzero
      simp [roundDiv_one]
    · rw [if_neg (by omega), show 52 - (52 - k) = k by omega]
  rw [wholeRank, hsig, hlog, show 52 - k + 1022 = 1074 - k by omega]

/-- **A double is the nearest one to the number that it denotes**, if that is below `2 ^ 53`. -/
theorem rank_of_wholeMagnitude? {x : Double} {n : Nat} (hn : n ≠ 0) (hlt : n < 2 ^ 53)
    (h : x.wholeMagnitude? = some n) : x.rank.val = wholeRank n := by
  have hrank : x.rank.val = x.rank.val / binade * binade + x.rank.val % binade := by
    rw [Nat.mul_comm]
    exact (Nat.div_add_mod _ _).symm
  have hfrac : x.rank.val % binade < binade := Nat.mod_lt _ (by decide)
  generalize x.rank.val / binade = e at hrank
  generalize x.rank.val % binade = f at hrank hfrac
  by_cases he : 1 ≤ e
  · obtain ⟨hsig, hunit⟩ := parts_of_rank he hfrac hrank
    by_cases hbig : 1075 ≤ e
    · -- The significand has fifty-three bits already, so the number is the significand.
      rw [wholeMagnitude?_of_unit_nonneg (k := e - 1075) (by omega), hsig, Option.some.injEq] at h
      obtain rfl : e = 1075 := by
        by_contra hne
        have htwo : 2 ^ 1 ≤ 2 ^ (e - 1075) := Nat.pow_le_pow_right (by decide) (by omega)
        have hle := Nat.mul_le_mul_left (binade + f) htwo
        rw [h, binade_eq] at hle
        omega
      rw [Nat.sub_self, Nat.pow_zero, Nat.mul_one] at h
      have hwhole := wholeRank_of_mul (n := n) (k := 0) (by decide)
        (by rw [← h, binade_eq]; omega) (by omega)
      rw [hrank, hwhole, ← h]
      omega
    · rw [wholeMagnitude?_of_unit_neg (k := 1075 - e) (by omega) (by omega), hsig] at h
      split at h
      · rename_i hdvd
        rw [Option.some.injEq] at h
        have hmul : n * 2 ^ (1075 - e) = binade + f := by
          rw [← h]
          exact Nat.div_mul_cancel (Nat.dvd_of_mod_eq_zero hdvd)
        have hk : 1075 - e ≤ 52 := by
          by_contra hlarge
          have hle : 2 ^ 53 ≤ 2 ^ (1075 - e) := Nat.pow_le_pow_right (by decide) (by omega)
          have hone := Nat.mul_le_mul_right (2 ^ (1075 - e)) (Nat.pos_of_ne_zero hn)
          rw [hmul, binade_eq] at hone
          rw [binade_eq] at hfrac
          omega
        have hwhole := wholeRank_of_mul hk (by rw [hmul, binade_eq]; omega)
          (by rw [hmul]; rw [binade_eq] at *; omega)
        rw [hrank, hwhole, hmul, show 1074 - (1075 - e) = e - 1 by omega]
        have hstep : e * binade = (e - 1) * binade + binade := by
          rw [← Nat.succ_mul, Nat.succ_eq_add_one, Nat.sub_add_cancel he]
        omega
      · cases h
  · -- The smallest doubles lie between zero and one.
    have hsmall : x.rank.val < binade := by
      rw [hrank, show e = 0 by omega]
      omega
    have hsig : x.significand = x.rank.val := if_pos hsmall
    obtain ⟨k, hk, hunit⟩ : ∃ k : Nat, 52 ≤ k ∧ x.unit = -k := by
      refine ⟨1074, by decide, ?_⟩
      rw [unit, Nat.div_eq_of_lt hsmall]
      rfl
    have hle : binade ≤ 2 ^ k := Nat.pow_le_pow_right Nat.two_pos hk
    have hdiv : x.rank.val / 2 ^ k = 0 := Nat.div_eq_of_lt (Nat.lt_of_lt_of_le hsmall hle)
    rw [wholeMagnitude?_of_unit_neg (by omega) hunit, hsig, hdiv] at h
    split at h
    · exact absurd (Option.some.inj h).symm hn
    · cases h

end Double

/-! ### Decimals of whole numbers -/

namespace Decimal

theorem toDigits_mul_pow {n : Nat} (hn : n ≠ 0) (j : Nat) :
    Nat.toDigits 10 (n * 10 ^ j) = Nat.toDigits 10 n ++ List.replicate j '0' := by
  induction j with
  | zero => simp
  | succ j ih =>
    have hpos : 0 < n * 10 ^ j := Nat.mul_pos (Nat.pos_of_ne_zero hn) (Nat.pow_pos (by decide))
    have hnext := Nat.toDigits_append_toDigits (b := 10) (d := 0) (by decide) hpos (by decide)
    rw [ih, Nat.toDigits_zero, List.append_assoc, ← List.replicate_succ', Nat.add_zero] at hnext
    rw [hnext]
    congr 1
    ring

theorem width_mul_pow {n : Nat} (hn : n ≠ 0) (j : Nat) : width (n * 10 ^ j) = width n + j := by
  rw [width, toDigits_mul_pow hn, List.length_append, List.length_replicate]
  rfl

end Decimal

namespace Double

/-- The rank of a decimal that denotes a whole number, however it is split into digits and an
exponent. -/
theorem decimalRank_whole {d : Decimal} {n c : Nat} (hn : n ≠ 0) (hc : 0 < c)
    (hratio : d.ratio = (n * c, c)) (hscale : Decimal.width d.digits + d.exponent
      = Decimal.width n) :
    decimalRank d = if 400 < Decimal.width n then count else wholeRank n := by
  have hdigits : d.digits ≠ 0 := by
    intro hzero
    have hnum : d.ratio.1 = 0 := by
      unfold Decimal.ratio
      split <;> simp [hzero]
    rw [hratio] at hnum
    exact Nat.mul_ne_zero hn (Nat.ne_of_gt hc) hnum
  have hlow : ¬ ((Decimal.width n : Int) < -400) := by omega
  simp only [decimalRank, hscale, hdigits, hlow, or_self, if_false, hratio,
    nearestRank_whole hn hc]
  by_cases hwide : 400 < Decimal.width n
  · rw [if_pos hwide, if_pos (by omega)]
  · rw [if_neg hwide, if_neg (by omega)]

theorem decimalRank_mul_pow {n : Nat} (hn : n ≠ 0) (e : Nat) :
    decimalRank ⟨n, e⟩ = if 400 < Decimal.width (n * 10 ^ e) then count
      else wholeRank (n * 10 ^ e) := by
  have hne : n * 10 ^ e ≠ 0 := Nat.mul_ne_zero hn (Nat.ne_of_gt (Nat.pow_pos (by decide)))
  refine decimalRank_whole (c := 1) hne (by decide) ?_ ?_
  · simp [Decimal.ratio]
  · rw [Decimal.width_mul_pow hn, Int.natCast_add]

/-- **Trailing zeros can be moved into the exponent.** -/
theorem decimalRank_shift {n : Nat} (hn : n ≠ 0) (e j : Nat) :
    decimalRank ⟨n * 10 ^ j, e⟩ = decimalRank ⟨n, (e + j : Nat)⟩ := by
  have hne : n * 10 ^ j ≠ 0 := Nat.mul_ne_zero hn (Nat.ne_of_gt (Nat.pow_pos (by decide)))
  rw [decimalRank_mul_pow hne, decimalRank_mul_pow hn, Nat.mul_assoc, ← Nat.pow_add,
    Nat.add_comm j e]

theorem decimalRank_point {n : Nat} (hn : n ≠ 0) :
    decimalRank ⟨n * 10, -1⟩ = decimalRank ⟨n, 0⟩ := by
  have hwidth := Decimal.width_mul_pow hn 1
  rw [Nat.pow_one] at hwidth
  have hsplit : decimalRank ⟨n * 10, -1⟩
      = if 400 < Decimal.width n then count else wholeRank n := by
    refine decimalRank_whole (c := 10) hn (by decide) rfl ?_
    dsimp only
    omega
  have hplain := decimalRank_mul_pow hn 0
  rw [Nat.pow_zero, Nat.mul_one] at hplain
  rw [hsplit]
  exact hplain.symm

theorem ofDecimal?_congr {d d' : Decimal} (h : decimalRank d = decimalRank d') (negative : Bool) :
    ofDecimal? negative d = ofDecimal? negative d' := by
  simp only [ofDecimal?, h]

theorem ofDecimal?_of_rank {x : Double} {d : Decimal} (h : decimalRank d = x.rank.val) :
    ofDecimal? x.negative d = some x := by
  rw [ofDecimal?, dif_pos (by rw [h]; exact x.rank.isLt)]
  simp only [h]

/-! ### The shortest decimal -/

theorem neighbour?_eq_some {x : Double} {e : Int} {d : Decimal} (h : x.neighbour? e = some d) :
    decimalRank d = x.rank.val ∧ d.exponent = e := by
  unfold neighbour? at h
  generalize (if e ≥ 0 then x.ratio.1 else x.ratio.1 * Nat.pow 10 (-e).toNat) = num at h
  generalize (if e ≥ 0 then x.ratio.2 * Nat.pow 10 e.toNat else x.ratio.2) = den at h
  dsimp only at h
  split at h
  · rename_i hbelow habove
    split at h
    · cases h
      exact ⟨beq_iff_eq.mp hbelow, rfl⟩
    · cases h
      exact ⟨beq_iff_eq.mp habove, rfl⟩
  · rename_i hbelow _
    cases h
    exact ⟨beq_iff_eq.mp hbelow, rfl⟩
  · rename_i _ habove
    cases h
    exact ⟨beq_iff_eq.mp habove, rfl⟩
  · cases h

theorem exists_neighbour?_zero {x : Double} {n : Nat} (hn : n ≠ 0) (hlt : n < 2 ^ 53)
    (h : x.wholeMagnitude? = some n) : ∃ d, x.neighbour? 0 = some d := by
  obtain ⟨hpos, hratio⟩ := ratio_of_whole h
  have hwidth : Decimal.width n ≤ 16 :=
    (Nat.length_toDigits_le_iff (by decide) (by decide)).mpr (Nat.lt_trans hlt (by decide))
  have hrank : decimalRank ⟨n, 0⟩ = x.rank.val := by
    have hplain := decimalRank_mul_pow hn 0
    rw [Nat.pow_zero, Nat.mul_one, if_neg (by omega)] at hplain
    rw [rank_of_wholeMagnitude? hn hlt h]
    exact hplain
  have hbelow : x.ratio.1 / (x.ratio.2 * Nat.pow 10 (0 : Int).toNat) = n := by
    show x.ratio.1 / (x.ratio.2 * 1) = n
    rw [hratio, Nat.mul_one, Nat.mul_div_cancel _ hpos]
  unfold neighbour?
  simp only [ge_iff_le, Int.le_refl, if_true, hbelow, hrank, beq_self_eq_true]
  cases decimalRank ⟨n + 1, 0⟩ == x.rank.val with
  | true =>
    dsimp only
    split
    · exact ⟨_, rfl⟩
    · exact ⟨_, rfl⟩
  | false => exact ⟨_, rfl⟩

/-- **The shortest decimal of a small number** reads back and has no places behind the point. -/
theorem shortest_of_whole {x : Double} {n : Nat} (hn : n ≠ 0) (hlt : n < 2 ^ 53)
    (h : x.wholeMagnitude? = some n) :
    decimalRank x.shortest = x.rank.val ∧ 0 ≤ x.shortest.exponent := by
  obtain ⟨hpos, hratio⟩ := ratio_of_whole h
  obtain ⟨m, hm⟩ : ∃ m, Decimal.width n = m + 1 :=
    ⟨Decimal.width n - 1, (Nat.sub_add_cancel Nat.length_toDigits_pos).symm⟩
  have hwidth : Decimal.width n ≤ 16 :=
    (Nat.length_toDigits_le_iff (by decide) (by decide)).mpr (Nat.lt_trans hlt (by decide))
  have hlead : floorLog10 x.ratio.1 x.ratio.2 = m := by
    have hle : x.ratio.2 ≤ x.ratio.1 := by
      rw [hratio]
      exact Nat.le_mul_of_pos_left _ (Nat.pos_of_ne_zero hn)
    rw [floorLog10, if_pos hle, hratio, Nat.mul_div_cancel _ hpos, hm]
    omega
  -- The places up to the point are tried first, and the last of them reads back.
  have hsplit : List.range 17 = List.range (m + 1) ++ (List.range (16 - m)).map (m + 1 + ·) := by
    rw [← List.range_add, show m + 1 + (16 - m) = 17 by omega]
  obtain ⟨d, hd⟩ : ∃ d, (List.range (m + 1)).findSome? (fun extra : Nat =>
      x.neighbour? ((m : Int) - extra)) = some d := by
    rw [← Option.isSome_iff_exists, List.findSome?_isSome_iff]
    refine ⟨m, List.mem_range.mpr (Nat.lt_succ_self m), ?_⟩
    rw [Int.sub_self, Option.isSome_iff_exists]
    exact exists_neighbour?_zero hn hlt h
  have hshortest : x.shortest = d := by
    simp only [shortest, hlead]
    rw [hsplit, List.findSome?_append, hd]
    rfl
  obtain ⟨extra, hextra, hneighbour⟩ := List.exists_of_findSome?_eq_some hd
  obtain ⟨hrank, hexponent⟩ := neighbour?_eq_some hneighbour
  rw [List.mem_range] at hextra
  rw [hshortest]
  exact ⟨hrank, by omega⟩

end Double

end Circuitry
