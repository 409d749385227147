import Circuitry.Proofs.Denotation
import Circuitry.Proofs.Doubles
import Mathlib.Data.Nat.Multiplicity

/-!
# Numbers as they are written

A number stands in a source as the library writes it: an integer as its digits, a double as the
shortest decimal that reads back.  Without a suffix both are read as doubles.  So an integer is
rounded (`Datum.read?_natural`), while a double that denotes a number below `2 ^ 53` is itself what
is read (`Datum.read?_render`).
-/

namespace Circuitry

/-! ### The parts of a number -/

namespace Json

theorem takeWhile_isDigit {digits rest : List Char} (h : ∀ c ∈ digits, c.isDigit = true)
    (hrest : ∀ c ∈ rest.head?, c.isDigit = false) :
    (digits ++ rest).takeWhile Char.isDigit = digits ∧
      (digits ++ rest).dropWhile Char.isDigit = rest := by
  rw [List.takeWhile_append_of_pos h, List.dropWhile_append_of_pos h]
  cases rest with
  | nil => simp
  | cons c rest =>
    have hc : c.isDigit = false := hrest c rfl
    simp [hc]

def fractionText : Option (List Char) → List Char
  | none => []
  | some digits => '.' :: digits

def exponentText : Option Nat → List Char
  | none => []
  | some n => 'e' :: '+' :: Nat.toDigits 10 n

theorem exponent?_toDigits (n : Nat) : exponent? ('+' :: Nat.toDigits 10 n) = some (n : Int) := by
  have hdigits : (Nat.toDigits 10 n).all Char.isDigit = true :=
    List.all_eq_true.mpr isDigit_toDigits
  simp [exponent?, hdigits, Nat.ofDigitChars_toDigits]

/-- **A number is cut into the parts from which its text is made.** -/
theorem numberParts?_text {negative : Bool} {whole : List Char} {fraction : Option (List Char)}
    {exponent : Option Nat} (hne : whole ≠ []) (hwhole : ∀ c ∈ whole, c.isDigit = true)
    (hzero : 1 < whole.length → whole.head? ≠ some '0')
    (hfraction : ∀ digits ∈ fraction, digits ≠ [] ∧ ∀ c ∈ digits, c.isDigit = true) :
    numberParts? ((if negative then ['-'] else []) ++ whole ++ fractionText fraction ++
        exponentText exponent) =
      some ⟨negative, whole, fraction, exponent.map Int.ofNat⟩ := by
  have hboundary : ∀ c ∈ (fractionText fraction ++ exponentText exponent).head?,
      c.isDigit = false := by
    cases fraction <;> cases exponent <;> simp [fractionText, exponentText]
  obtain ⟨htake, hdrop⟩ := takeWhile_isDigit hwhole hboundary
  unfold numberParts?
  split
  rename_i sign rest hsign
  obtain ⟨rfl, rfl⟩ : negative = sign ∧ whole ++ (fractionText fraction ++ exponentText exponent)
      = rest := by
    cases negative with
    | true => simpa using hsign
    | false =>
      obtain ⟨c, tail, rfl⟩ := List.exists_cons_of_ne_nil hne
      have hc : c ≠ '-' := by
        rintro rfl
        exact absurd (hwhole '-' List.mem_cons_self) (by decide)
      simpa [hc] using hsign
  dsimp only
  rw [htake, hdrop, if_neg (by simpa [hne] using hzero)]
  cases fraction with
  | none =>
    cases exponent with
    | none => rfl
    | some n => simp [fractionText, exponentText, exponent?_toDigits]
  | some digits =>
    obtain ⟨hdigits, hall⟩ := hfraction digits rfl
    have hmark : ∀ c ∈ (exponentText exponent).head?, c.isDigit = false := by
      cases exponent <;> simp [exponentText]
    obtain ⟨htake, hdrop⟩ := takeWhile_isDigit hall hmark
    simp only [fractionText, List.cons_append, htake, hdrop]
    cases exponent with
    | none => simp [exponentText, hdigits]
    | some n => simp [exponentText, exponent?_toDigits, hdigits]

end Json

/-! ### Digits without trailing zeros -/

namespace Decimal

theorem exists_toDigits_concat {n : Nat} (h : ¬ 10 ∣ n) :
    ∃ front c, Nat.toDigits 10 n = front ++ [c] ∧ c ≠ '0' := by
  have hlast : (n % 10).digitChar ≠ '0' :=
    digitChar_ne_zero (Nat.mod_lt _ (by decide)) fun hmod => h (Nat.dvd_of_mod_eq_zero hmod)
  by_cases hlt : n < 10
  · rw [Nat.mod_eq_of_lt hlt] at hlast
    exact ⟨[], _, Nat.toDigits_of_lt_base hlt, hlast⟩
  · exact ⟨_, _, Nat.toDigits_of_base_le (by decide) (by omega), hlast⟩

/-- **Trimming moves trailing zeros into the exponent.** -/
theorem trimmed_eq {d : Decimal} (h : d.digits ≠ 0) :
    ∃ m j : Nat, m ≠ 0 ∧ d.digits = m * 10 ^ j ∧
      d.trimmed = (Nat.toDigits 10 m, d.exponent + j) := by
  obtain ⟨j, m, hdvd, heq⟩ := Nat.exists_eq_pow_mul_and_not_dvd h 10 (by decide)
  rw [Nat.mul_comm] at heq
  have hm : m ≠ 0 := by
    rintro rfl
    exact hdvd (Nat.dvd_zero 10)
  obtain ⟨front, c, hconcat, hc⟩ := exists_toDigits_concat hdvd
  have hkept : ((Nat.toDigits 10 d.digits).reverse.dropWhile (· == '0')).reverse
      = Nat.toDigits 10 m := by
    rw [heq, toDigits_mul_pow hm, List.reverse_append, List.reverse_replicate, hconcat,
      List.dropWhile_append_of_pos (by simp)]
    simp [hc]
  have hlength : (Nat.toDigits 10 d.digits).length - (Nat.toDigits 10 m).length = j := by
    rw [heq, toDigits_mul_pow hm, List.length_append, List.length_replicate]
    omega
  refine ⟨m, j, hm, heq, ?_⟩
  simp only [trimmed, hkept, hlength]

theorem render_whole {m e : Nat} (hm : m ≠ 0)
    (hlead : (e : Int) + (Nat.toDigits 10 m).length - 1 < 16) :
    render (Nat.toDigits 10 m) e = Nat.toDigits 10 (m * 10 ^ e) ++ ['.', '0'] := by
  have hpos : 0 < (Nat.toDigits 10 m).length := Nat.length_toDigits_pos
  rw [toDigits_mul_pow hm]
  simp only [render]
  rw [if_pos ⟨by omega, hlead⟩, if_pos (by omega), Int.toNat_natCast]

theorem render_scientific {m e : Nat} {c : Char} {rest : List Char}
    (hdigits : Nat.toDigits 10 m = c :: rest) (hlead : 16 ≤ e + rest.length) :
    render (Nat.toDigits 10 m) e = [c] ++ Json.fractionText (if rest = [] then none else some rest)
      ++ Json.exponentText (some (e + rest.length)) := by
  have hexp : (e : Int) + (rest.length + 1 : Nat) - 1 = (e + rest.length : Nat) := by omega
  have hsign : ((e + rest.length : Nat) : Int) ≥ 0 := Int.natCast_nonneg _
  simp only [hdigits, render, List.length_cons, hexp]
  rw [if_neg (by omega), if_pos hsign, Int.natAbs_natCast]
  cases rest with
  | nil => rfl
  | cons d tail => simp [Json.fractionText, Json.exponentText]

end Decimal

/-! ### Reading numbers -/

namespace Datum

theorem read?_number {cs : List Char} {parts : Json.NumberParts}
    (hchars : ∀ c ∈ cs, Json.isNumberChar c = true) (h : Json.numberParts? cs = some parts) :
    read? cs = (Double.ofDecimal? parts.negative parts.decimal).map .double := by
  have hother {c : Char} (hc : Json.isNumberChar c = false) : c ∉ cs := fun hmem => by
    rw [hchars c hmem] at hc
    cases hc
  unfold read?
  split
  · exact absurd List.mem_cons_self (hother (c := '"') rfl)
  · rw [if_neg, if_neg, if_neg]
    · cases hread : Double.ofDecimal? parts.negative parts.decimal <;> simp [h, hread]
    · exact fun hlast => hother (c := 'n') rfl (List.mem_of_getLast? hlast)
    · rintro rfl
      exact hother (c := 'f') rfl (by decide)
    · rintro rfl
      exact hother (c := 't') rfl (by decide)

theorem read?_text (negative : Bool) (whole : List Char) (fraction : Option (List Char))
    (exponent : Option Nat) (hne : whole ≠ []) (hwhole : ∀ c ∈ whole, c.isDigit = true)
    (hzero : 1 < whole.length → whole.head? ≠ some '0')
    (hfraction : ∀ digits ∈ fraction, digits ≠ [] ∧ ∀ c ∈ digits, c.isDigit = true) :
    read? ((if negative then ['-'] else []) ++ whole ++ Json.fractionText fraction ++
        Json.exponentText exponent) =
      (Double.ofDecimal? negative ⟨Nat.ofDigitChars 10 (whole ++ fraction.getD []) 0,
        (exponent.getD 0 : Nat) - (fraction.getD []).length⟩).map .double := by
  have hchars : ∀ c ∈ (if negative then ['-'] else []) ++ whole ++ Json.fractionText fraction ++
      Json.exponentText exponent, Json.isNumberChar c = true := by
    have hdigits {digits : List Char} (h : ∀ c ∈ digits, c.isDigit = true) :
        ∀ c ∈ digits, Json.isNumberChar c = true := fun c hc => by
      simp [Json.isNumberChar, h c hc]
    simp only [List.forall_mem_append]
    refine ⟨⟨⟨by cases negative <;> simp [Json.isNumberChar], hdigits hwhole⟩, ?_⟩, ?_⟩
    · cases fraction with
      | none => simp [Json.fractionText]
      | some digits => exact List.forall_mem_cons.mpr ⟨rfl, hdigits (hfraction digits rfl).2⟩
    · cases exponent with
      | none => simp [Json.exponentText]
      | some n =>
        exact List.forall_mem_cons.mpr ⟨rfl, List.forall_mem_cons.mpr
          ⟨rfl, hdigits isDigit_toDigits⟩⟩
  rw [read?_number hchars (Json.numberParts?_text hne hwhole hzero hfraction)]
  cases exponent <;> rfl

theorem head_toDigits {n : Nat} (h : 1 < (Nat.toDigits 10 n).length) :
    (Nat.toDigits 10 n).head? ≠ some '0' := by
  have hn : n ≠ 0 := by
    rintro rfl
    exact absurd h (by decide)
  obtain ⟨c, rest, hcons, hc⟩ := exists_toDigits_cons hn
  rw [hcons]
  exact fun heq => hc (Option.some.inj heq)

theorem read?_natural {n : Nat} (h : n < capacity 64) :
    ∃ x, read? n.repr.toList = some (.double x) ∧ x.negative = false ∧
      x.wholeMagnitude? = some (Double.nearestWhole n) := by
  have hread : read? n.repr.toList = (Double.ofDecimal? false ⟨n, 0⟩).map .double := by
    have htext := read?_text false (Nat.toDigits 10 n) none none Nat.toDigits_ne_nil
      isDigit_toDigits head_toDigits (by simp)
    simpa [Json.fractionText, Json.exponentText, Nat.ofDigitChars_toDigits] using htext
  by_cases hn : n = 0
  · subst hn
    exact ⟨⟨false, ⟨0, by decide⟩⟩, hread, rfl, Double.wholeMagnitude?_eq_zero_iff.mpr rfl⟩
  · have hwidth : Decimal.width n ≤ 20 :=
      (Nat.length_toDigits_le_iff (by decide) (by decide)).mpr (Nat.lt_trans h (by decide))
    have hrank : Double.decimalRank ⟨n, 0⟩ = Double.wholeRank n := by
      have hplain := Double.decimalRank_mul_pow hn 0
      rwa [Nat.pow_zero, Nat.mul_one, if_neg (by omega)] at hplain
    have hfinite := Double.wholeRank_lt_count hn h
    refine ⟨⟨false, ⟨Double.wholeRank n, hfinite⟩⟩, ?_, rfl, ?_⟩
    · rw [hread, Double.ofDecimal?, hrank, dif_pos hfinite]
      rfl
    · exact Double.wholeMagnitude?_of_rank hn rfl

theorem read?_decimal (negative : Bool) {m e : Nat} (hm : m ≠ 0) :
    read? ((if negative then ['-'] else []) ++ Decimal.render (Nat.toDigits 10 m) e) =
      (Double.ofDecimal? negative ⟨m, e⟩).map .double := by
  obtain ⟨c, rest, hcons, -⟩ := exists_toDigits_cons hm
  by_cases hlead : e + rest.length < 16
  · -- All digits stand in front of the point, and a zero behind it.
    have hne : m * 10 ^ e ≠ 0 := Nat.mul_ne_zero hm (Nat.ne_of_gt (Nat.pow_pos (by decide)))
    have htext := read?_text negative (Nat.toDigits 10 (m * 10 ^ e)) (some ['0']) none
      Nat.toDigits_ne_nil isDigit_toDigits head_toDigits (by simp)
    have hdigits : Nat.ofDigitChars 10 (Nat.toDigits 10 (m * 10 ^ e) ++ ['0']) 0
        = m * 10 ^ e * 10 := by
      rw [Nat.ofDigitChars_append, Nat.ofDigitChars_toDigits (by decide) (by decide)]
      simp [Nat.ofDigitChars_cons, Nat.mul_comm]
    have hrank : Double.decimalRank ⟨m * 10 ^ e * 10, -1⟩ = Double.decimalRank ⟨m, e⟩ := by
      have hshift := Double.decimalRank_shift hm 0 e
      rw [Nat.zero_add] at hshift
      rw [Double.decimalRank_point hne]
      exact hshift
    rw [Decimal.render_whole hm (by rw [hcons, List.length_cons]; omega),
      ← Double.ofDecimal?_congr hrank, ← List.append_assoc]
    simpa [Json.fractionText, Json.exponentText, hdigits] using htext
  · -- One digit stands in front of the point, and the exponent counts the others.
    have hall : ∀ d ∈ c :: rest, d.isDigit = true := hcons ▸ isDigit_toDigits
    have htext := read?_text negative [c] (if rest = [] then none else some rest)
      (some (e + rest.length)) (by simp) (by simpa using hall c List.mem_cons_self)
      (by simp) (by
        intro digits hdigits
        split at hdigits
        · cases hdigits
        · rename_i hrest
          cases hdigits
          exact ⟨hrest, fun d hd => hall d (List.mem_cons_of_mem _ hd)⟩)
    have hfraction : (if rest = [] then none else some rest).getD [] = rest := by
      split
      · rename_i hrest
        exact hrest.symm
      · rfl
    have hdigits : Nat.ofDigitChars 10 ([c] ++ rest) 0 = m := by
      rw [List.singleton_append, ← hcons, Nat.ofDigitChars_toDigits (by decide) (by decide)]
    have hexponent : (((some (e + rest.length)).getD 0 : Nat) : Int) - rest.length = e := by
      rw [Option.getD_some]
      omega
    rw [hfraction, hdigits, hexponent] at htext
    rw [Decimal.render_scientific hcons (by omega), ← htext]
    simp only [List.append_assoc]

theorem read?_render {x : Double} {n : Nat} (hlt : n < 2 ^ 53)
    (h : x.wholeMagnitude? = some n) : read? x.render.toList = some (.double x) := by
  unfold Double.render
  by_cases hzero : x.rank.val = 0
  · have htext := read?_text x.negative ['0'] (some ['0']) none (by simp) (by simp) (by simp)
      (by simp)
    have hrank : Double.decimalRank ⟨0, -1⟩ = x.rank.val := hzero.symm
    have hdigits : Nat.ofDigitChars 10 ['0', '0'] 0 = 0 := rfl
    rw [if_pos hzero, String.toList_ofList]
    simpa [Json.fractionText, Json.exponentText, hdigits, Double.ofDecimal?_of_rank hrank]
      using htext
  · have hn : n ≠ 0 := by
      rintro rfl
      exact hzero (Double.wholeMagnitude?_eq_zero_iff.mp h)
    obtain ⟨hrank, hexp⟩ := Double.shortest_of_whole hn hlt h
    have hdigits : x.shortest.digits ≠ 0 := by
      intro hnone
      rw [Double.decimalRank, if_pos (.inl hnone)] at hrank
      exact hzero hrank.symm
    obtain ⟨m, j, hm, hsplit, htrimmed⟩ := Decimal.trimmed_eq hdigits
    obtain ⟨k, hk⟩ := Int.eq_ofNat_of_zero_le hexp
    have hsame : Double.decimalRank ⟨m, (k + j : Nat)⟩ = x.rank.val := by
      rw [← Double.decimalRank_shift hm, ← hrank, ← hsplit, ← hk]
    rw [if_neg hzero, htrimmed]
    simp only [String.toList_ofList]
    rw [hk, ← Int.natCast_add, read?_decimal x.negative hm, Double.ofDecimal?_of_rank hsame]
    rfl

end Datum

end Circuitry
