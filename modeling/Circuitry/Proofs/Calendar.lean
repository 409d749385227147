import Circuitry.Bits
import Circuitry.Calendar
import Mathlib.Algebra.Ring.Nat
import Mathlib.Data.List.Induction
import Mathlib.Data.List.TakeWhile

/-!
# The range of instants

The calendar covers a finite range of years, so every instant that is read from a text is a number
of milliseconds of sixty-four bits, sign included (`Calendar.millis?_range`).  The readers bound
every part that they add up: the date by the range of years, the time of day and the offset by the
checks on their numbers, and the fraction by its three digits.
-/

namespace Circuitry

namespace Date

theorem daysInMonth_le (year : Int) (month : Nat) : daysInMonth year month ≤ 31 := by
  unfold daysInMonth
  split
  · split <;> decide
  all_goals decide

theorem daysBeforeMonth_le (year : Int) (month : Nat) :
    daysBeforeMonth year month ≤ 31 * (month - 1) := by
  have hfold : ∀ (months : List Nat) (days : Nat),
      months.foldl (fun days m => days + daysInMonth year (m + 1)) days
        ≤ days + 31 * months.length := by
    intro months
    induction months with
    | nil => intro days; exact Nat.le_refl days
    | cons m rest ih =>
      intro days
      have hrest := ih (days + daysInMonth year (m + 1))
      have hmonth := daysInMonth_le year (m + 1)
      rw [List.foldl_cons, List.length_cons]
      omega
  simpa [daysBeforeMonth] using hfold (List.range (month - 1)) 0

/-- **The dates of the calendar lie within a hundred million days of 1970.** -/
theorem epochDays_range {date : Date} (h : date.isValid = true) :
    -100000000 ≤ date.epochDays ∧ date.epochDays ≤ 100000000 := by
  simp only [isValid, Bool.and_eq_true, decide_eq_true_eq] at h
  obtain ⟨⟨⟨⟨⟨hfirst, hlast⟩, -⟩, hmonth⟩, -⟩, hday⟩ := h
  have hdays := daysInMonth_le date.year date.month
  have hbefore := daysBeforeMonth_le date.year date.month
  simp only [epochDays, daysBeforeYear]
  omega

end Date

namespace Calendar

theorem ofDigitChars_lt {digits : List Char} (hdigits : ∀ c ∈ digits, c.isDigit = true) :
    Nat.ofDigitChars 10 digits 0 < 10 ^ digits.length := by
  induction digits using List.reverseRecOn with
  | nil => decide
  | append_singleton rest last ih =>
    have hlast := Char.isDigit_iff_toNat.mp (hdigits last (by simp))
    have hrest := ih fun c hc => hdigits c (by simp [hc])
    rw [Nat.ofDigitChars_append, Nat.ofDigitChars_cons, Nat.ofDigitChars_nil, List.length_append,
      List.length_singleton, Nat.pow_succ]
    change 48 ≤ last.toNat ∧ last.toNat ≤ 57 at hlast
    change 10 * Nat.ofDigitChars 10 rest 0 + (last.toNat - 48) < _
    omega

theorem fraction?_lt {cs rest : List Char} {millis : Nat} (h : fraction? cs = some (millis, rest)) :
    millis < 1000 := by
  unfold fraction? at h
  split at h
  · rename_i cs
    dsimp only at h
    split at h
    · cases h
    · cases h
      have hdigits : ∀ c ∈ (cs.takeWhile Char.isDigit ++ ['0', '0']).take 3, c.isDigit = true := by
        intro c hc
        rcases List.mem_append.mp (List.mem_of_mem_take hc) with hc | hc
        · exact List.mem_takeWhile_imp hc
        · rcases List.mem_cons.mp hc with rfl | hc
          · decide
          · rw [List.mem_singleton.mp hc]
            decide
      have hpow : 10 ^ ((cs.takeWhile Char.isDigit ++ ['0', '0']).take 3).length ≤ 10 ^ 3 :=
        Nat.pow_le_pow_right (by decide) (List.length_take_le _ _)
      exact Nat.lt_of_lt_of_le (ofDigitChars_lt hdigits) hpow
  · cases h
    decide

theorem offset?_range {cs rest : List Char} {offset : Int}
    (h : offset? cs = some (offset, rest)) : -1440 < offset ∧ offset < 1440 := by
  unfold offset? at h
  split at h
  · cases h
  · split at h
    · cases h
      decide
    · split at h
      · simp only [Option.bind_eq_bind, Option.bind_eq_some_iff] at h
        obtain ⟨hours, -, _, -, minutes, -, h⟩ := h
        split at h
        · rename_i hbounds
          cases h
          split <;> omega
        · cases h
      · cases h

theorem instant_range {date : Date} (hdate : date.isValid = true) {ofDay offset : Int}
    (hday : 0 ≤ ofDay ∧ ofDay ≤ 86400999) (hoffset : -1440 < offset ∧ offset < 1440) :
    -capacity 63 ≤ date.millis + ofDay - offset * 60000 ∧
      date.millis + ofDay - offset * 60000 < capacity 63 := by
  have hdays := date.epochDays_range hdate
  have hcapacity : (capacity 63 : Int) = 9223372036854775808 := rfl
  rw [hcapacity, Date.millis]
  omega

theorem timestamp?_range {cs : List Char} {millis : Int} (h : timestamp? cs = some millis) :
    -capacity 63 ≤ millis ∧ millis < capacity 63 := by
  obtain ⟨⟨year, _⟩, -, h⟩ := Option.bind_eq_some_iff.mp h
  obtain ⟨_, -, h⟩ := Option.bind_eq_some_iff.mp h
  obtain ⟨⟨month, _⟩, -, h⟩ := Option.bind_eq_some_iff.mp h
  obtain ⟨_, -, h⟩ := Option.bind_eq_some_iff.mp h
  obtain ⟨⟨day, _⟩, -, h⟩ := Option.bind_eq_some_iff.mp h
  obtain ⟨_, -, h⟩ := Option.bind_eq_some_iff.mp h
  obtain ⟨⟨hour, _⟩, -, h⟩ := Option.bind_eq_some_iff.mp h
  obtain ⟨_, -, h⟩ := Option.bind_eq_some_iff.mp h
  obtain ⟨⟨minute, _⟩, -, h⟩ := Option.bind_eq_some_iff.mp h
  obtain ⟨_, -, h⟩ := Option.bind_eq_some_iff.mp h
  obtain ⟨⟨second, _⟩, -, h⟩ := Option.bind_eq_some_iff.mp h
  obtain ⟨⟨fraction, _⟩, hfraction, h⟩ := Option.bind_eq_some_iff.mp h
  obtain ⟨⟨offset, _⟩, hoffset, h⟩ := Option.bind_eq_some_iff.mp h
  dsimp only at h
  split at h
  · rename_i hvalid
    cases h
    simp only [Bool.and_eq_true, decide_eq_true_eq] at hvalid
    obtain ⟨⟨⟨⟨-, hdate⟩, hhour⟩, hminute⟩, hsecond⟩ := hvalid
    have hlt := fraction?_lt hfraction
    exact instant_range hdate (by omega) (offset?_range hoffset)
  · cases h

theorem date?_range {cs : List Char} {millis : Int} (h : date? cs = some millis) :
    -capacity 63 ≤ millis ∧ millis < capacity 63 := by
  obtain ⟨⟨year, _⟩, -, h⟩ := Option.bind_eq_some_iff.mp h
  obtain ⟨_, -, h⟩ := Option.bind_eq_some_iff.mp h
  obtain ⟨⟨month, _⟩, -, h⟩ := Option.bind_eq_some_iff.mp h
  obtain ⟨_, -, h⟩ := Option.bind_eq_some_iff.mp h
  obtain ⟨⟨day, _⟩, -, h⟩ := Option.bind_eq_some_iff.mp h
  dsimp only at h
  split at h
  · rename_i hvalid
    cases h
    have hdate := (Bool.and_eq_true_iff.mp hvalid).2
    have hday : (0 : Int) ≤ 0 ∧ (0 : Int) ≤ 86400999 := by decide
    have hoffset : (-1440 : Int) < 0 ∧ (0 : Int) < 1440 := by decide
    simpa using instant_range hdate hday hoffset
  · cases h

/-- **An instant that is read from a text has sixty-four bits, sign included.** -/
theorem millis?_range {text : String} {millis : Int} (h : millis? text = some millis) :
    -capacity 63 ≤ millis ∧ millis < capacity 63 := by
  unfold millis? at h
  cases htime : timestamp? text.toList with
  | some found =>
    rw [htime] at h
    cases h
    exact timestamp?_range htime
  | none =>
    rw [htime] at h
    exact date?_range h

end Calendar

end Circuitry
