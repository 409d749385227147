import Circuitry.Proofs.Calendar
import Mathlib.Logic.Function.Iterate

/-!
# Counting days

The calendar is a sequence of days: `Date.next` is the day after a day, by the lengths of the months
and nothing else.  The number of a day since the start of 1970 is computed from its year, its month
and its day in one go, and it is the number that counting would give (`Date.isDaysAfter_epoch_iff`).

One step makes the number greater by one, within a month, from month to month and from year to year
(`Date.epochDays_next`).  The numbers are also in the order of the dates (`Date.epochDays_lt`), so
that no two days have the same one, and a day is found from its number in both directions.
-/

namespace Circuitry.Date

/-! ### The sequence of days -/

/-- The calendar has the date, in whatever year. -/
structure InCalendar (date : Date) : Prop where
  month_pos : 1 ≤ date.month
  month_le : date.month ≤ 12
  day_pos : 1 ≤ date.day
  day_le : date.day ≤ daysInMonth date.year date.month

def next (date : Date) : Date :=
  if date.day < daysInMonth date.year date.month then { date with day := date.day + 1 }
  else if date.month < 12 then ⟨date.year, date.month + 1, 1⟩
  else ⟨date.year + 1, 1, 1⟩

def epoch : Date :=
  ⟨1970, 1, 1⟩

/-- Counting `n` days from one date leads to the other one; if `n` is negative, counting leads from
the other one back to the first. -/
def IsDaysAfter (n : Int) (start date : Date) : Prop :=
  next^[n.toNat] start = next^[(-n).toNat] date

def Before (date later : Date) : Prop :=
  date.year < later.year ∨ date.year = later.year ∧
    (date.month < later.month ∨ date.month = later.month ∧ date.day < later.day)

variable {date later : Date}

theorem isValid_iff :
    date.isValid = true ↔ date.InCalendar ∧ -262143 ≤ date.year ∧ date.year ≤ 262142 := by
  simp only [isValid, Bool.and_eq_true, decide_eq_true_eq]
  constructor
  · rintro ⟨⟨⟨⟨⟨hfirst, hlast⟩, hmonth⟩, hmonth'⟩, hday⟩, hday'⟩
    exact ⟨⟨hmonth, hmonth', hday, hday'⟩, hfirst, hlast⟩
  · rintro ⟨⟨hmonth, hmonth', hday, hday'⟩, hfirst, hlast⟩
    exact ⟨⟨⟨⟨⟨hfirst, hlast⟩, hmonth⟩, hmonth'⟩, hday⟩, hday'⟩

theorem daysInMonth_pos (year : Int) (month : Nat) : 1 ≤ daysInMonth year month := by
  unfold daysInMonth
  split
  · split <;> decide
  all_goals decide

theorem inCalendar_next (h : date.InCalendar) : date.next.InCalendar := by
  unfold Date.next
  split
  · rename_i hday
    exact ⟨h.month_pos, h.month_le, Nat.succ_pos _, hday⟩
  · split
    · rename_i hmonth
      exact ⟨Nat.succ_pos _, hmonth, Nat.le_refl 1, daysInMonth_pos _ _⟩
    · exact ⟨Nat.le_refl 1, Nat.succ_pos 11, Nat.le_refl 1, daysInMonth_pos _ _⟩

theorem inCalendar_iterate (h : date.InCalendar) (n : Nat) : (next^[n] date).InCalendar := by
  induction n with
  | zero => exact h
  | succ n ih =>
    rw [Function.iterate_succ_apply']
    exact inCalendar_next ih

theorem inCalendar_epoch : epoch.InCalendar :=
  ⟨by decide, by decide, by decide, by decide⟩

/-! ### Months and years -/

theorem daysBeforeMonth_succ (year : Int) {month : Nat} (h : 1 ≤ month) :
    daysBeforeMonth year (month + 1) = daysBeforeMonth year month + daysInMonth year month := by
  obtain ⟨m, rfl⟩ := Nat.exists_eq_add_of_le' h
  rw [daysBeforeMonth, daysBeforeMonth, Nat.add_sub_cancel, Nat.add_sub_cancel, List.range_succ,
    List.foldl_append]
  rfl

def daysInYear (year : Int) : Nat :=
  if isLeapYear year then 366 else 365

theorem daysBeforeMonth_december (year : Int) :
    daysBeforeMonth year 12 + 31 = daysInYear year := by
  by_cases hleap : isLeapYear year
  · simp [daysBeforeMonth, daysInYear, daysInMonth, hleap, List.range_succ]
  · simp [daysBeforeMonth, daysInYear, daysInMonth, hleap, List.range_succ]

theorem daysBeforeYear_succ (year : Int) :
    daysBeforeYear (year + 1) = daysBeforeYear year + daysInYear year := by
  have hleap : isLeapYear year = true ↔ year % 4 = 0 ∧ (year % 100 ≠ 0 ∨ year % 400 = 0) := by
    simp [isLeapYear]
  unfold daysInYear
  split
  · rename_i hlong
    have hrule := hleap.mp hlong
    simp only [daysBeforeYear]
    omega
  · rename_i hshort
    have hrule := mt hleap.mpr hshort
    simp only [daysBeforeYear]
    omega

/-- **The day after a date has the next number.** -/
theorem epochDays_next (h : date.InCalendar) : date.next.epochDays = date.epochDays + 1 := by
  have hmonths := daysBeforeMonth_succ date.year h.month_pos
  unfold Date.next
  split
  · rename_i hday
    simp only [epochDays]
    omega
  · -- The last day of a month; behind it there is another month, or another year.
    rename_i hlast
    have hday : date.day = daysInMonth date.year date.month :=
      Nat.le_antisymm h.day_le (Nat.not_lt.mp hlast)
    split
    · simp only [epochDays]
      omega
    · rename_i hdecember
      have hmonth : date.month = 12 := Nat.le_antisymm h.month_le (Nat.not_lt.mp hdecember)
      have hyear := daysBeforeYear_succ date.year
      have hmonths := daysBeforeMonth_december date.year
      have hlength : daysInMonth date.year 12 = 31 := rfl
      have hfirst : daysBeforeMonth (date.year + 1) 1 = 0 := rfl
      rw [hmonth, hlength] at hday
      simp only [epochDays, hmonth, hfirst]
      omega

theorem epochDays_iterate (h : date.InCalendar) (n : Nat) :
    (next^[n] date).epochDays = date.epochDays + n := by
  induction n with
  | zero => exact (Int.add_zero _).symm
  | succ n ih =>
    rw [Function.iterate_succ_apply', epochDays_next (inCalendar_iterate h n), ih]
    omega

/-! ### The order of dates -/

theorem daysBeforeMonth_add_le (year : Int) {month later : Nat} (hpos : 1 ≤ month)
    (h : month < later) :
    daysBeforeMonth year month + daysInMonth year month ≤ daysBeforeMonth year later := by
  induction later, h using Nat.le_induction with
  | base => exact Nat.le_of_eq (daysBeforeMonth_succ year hpos).symm
  | succ later hle ih =>
    rw [daysBeforeMonth_succ year (by omega)]
    omega

theorem InCalendar.le_daysInYear (h : date.InCalendar) :
    daysBeforeMonth date.year date.month + date.day ≤ daysInYear date.year := by
  have hday := h.day_le
  have hmonths := daysBeforeMonth_december date.year
  by_cases hdecember : date.month = 12
  · rw [hdecember] at hday ⊢
    have hlength : daysInMonth date.year 12 = 31 := rfl
    omega
  · have hmonth := h.month_le
    have hle := daysBeforeMonth_add_le date.year h.month_pos
      (show date.month < 12 by omega)
    omega

theorem daysBeforeYear_add_le {year later : Int} (h : year < later) :
    daysBeforeYear year + daysInYear year ≤ daysBeforeYear later := by
  rw [← daysBeforeYear_succ]
  simp only [daysBeforeYear]
  omega

theorem epochDays_lt (h : date.InCalendar) (hlater : later.InCalendar)
    (hbefore : date.Before later) : date.epochDays < later.epochDays := by
  have hday := hlater.day_pos
  rcases hbefore with hyear | ⟨hyear, hmonth | ⟨hmonth, hday'⟩⟩
  · have hwithin := h.le_daysInYear
    have hyears := daysBeforeYear_add_le hyear
    simp only [epochDays]
    omega
  · have hwithin := h.day_le
    have hmonths := daysBeforeMonth_add_le date.year h.month_pos hmonth
    simp only [epochDays, ← hyear]
    omega
  · simp only [epochDays, ← hyear, ← hmonth]
    omega

theorem before_trichotomy (date later : Date) :
    date.Before later ∨ date = later ∨ later.Before date := by
  obtain ⟨year, month, day⟩ := date
  obtain ⟨year', month', day'⟩ := later
  simp only [Before, mk.injEq]
  omega

theorem epochDays_inj (h : date.InCalendar) (hlater : later.InCalendar) :
    date.epochDays = later.epochDays ↔ date = later := by
  constructor
  · intro heq
    rcases before_trichotomy date later with hbefore | hsame | hafter
    · have hlt := epochDays_lt h hlater hbefore
      omega
    · exact hsame
    · have hlt := epochDays_lt hlater h hafter
      omega
  · intro heq
    rw [heq]

/-- **The number of a date is the number of days that are counted from the start of 1970 to it**,
and no other number is. -/
theorem isDaysAfter_epoch_iff (h : date.InCalendar) {n : Int} :
    IsDaysAfter n epoch date ↔ n = date.epochDays := by
  have hstart : epoch.epochDays = 0 := by decide
  -- Counting stays in the calendar, so the days that it ends with are equal if their numbers are.
  rw [IsDaysAfter, ← epochDays_inj (inCalendar_iterate inCalendar_epoch _) (inCalendar_iterate h _),
    epochDays_iterate inCalendar_epoch, epochDays_iterate h, hstart]
  omega

end Circuitry.Date
