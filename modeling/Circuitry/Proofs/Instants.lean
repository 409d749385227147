import Circuitry.Proofs.DayCount
import Circuitry.Proofs.Graph

/-!
# The instants of dates and timestamps

There are two readers, one for timestamps and one for bare dates, and the second one gets what the
first one refuses.  A date as it is usually written is such a text: where a timestamp goes on with
the time of day it has come to its end.  Both count days the same way, so a date is the first
millisecond of its day (`Calendar.millis?_date`), and a timestamp adds to it the time of day and
takes off the offset (`Calendar.millis?_timestamp`).

Texts are written here from their parts: numbers as digits with zeros in front (`Calendar.padded`),
and a time of day with its fraction and its zone (`Clock`).  Every reader takes just its part and
leaves what is behind it.
-/

namespace Circuitry

/-! ### Texts of dates and times -/

/-- A number as decimal digits, with zeros in front if it has fewer. -/
def Calendar.padded : (width : Nat) → Nat → List Char
  | 0, _ => []
  | width + 1, n => padded width (n / 10) ++ [Nat.digitChar (n % 10)]

open Calendar

/-- A date as `YYYY-MM-DD`, for years of four digits. -/
def Date.chars (date : Date) : List Char :=
  padded 4 date.year.toNat ++ '-' :: (padded 2 date.month ++ '-' :: padded 2 date.day)

inductive Separator where
  | capital
  | small
  | space

def Separator.char : Separator → Char
  | .capital => 'T'
  | .small => 't'
  | .space => ' '

/-- The sign of an offset; there are two for the minus. -/
inductive OffsetSign where
  | plus
  | hyphen
  | minus

def OffsetSign.char : OffsetSign → Char
  | .plus => '+'
  | .hyphen => '-'
  | .minus => '−'

inductive Zone where
  | universal (letter : Bool)
  | shifted (sign : OffsetSign) (hours : Fin 24) (minutes : Fin 60)

namespace Zone

def chars : Zone → List Char
  | .universal true => ['Z']
  | .universal false => ['z']
  | .shifted sign hours minutes =>
    sign.char :: (padded 2 hours.val ++ ':' :: padded 2 minutes.val)

def millis : Zone → Int
  | .universal _ => 0
  | .shifted .plus hours minutes => (hours.val * 60 + minutes.val) * 60000
  | .shifted _ hours minutes => -((hours.val * 60 + minutes.val) * 60000)

end Zone

/-- A time of day with the digits of its fraction, behind a date. -/
structure Clock where
  separator : Separator
  hour : Fin 24
  minute : Fin 60
  second : Fin 60
  fraction : List (Fin 10)
  zone : Zone

namespace Clock

def fractionChars : List (Fin 10) → List Char
  | [] => []
  | digit :: rest => '.' :: (digit :: rest).map fun digit => Nat.digitChar digit.val

def chars (clock : Clock) : List Char :=
  clock.separator.char :: (padded 2 clock.hour.val ++ ':' :: (padded 2 clock.minute.val ++
    ':' :: (padded 2 clock.second.val ++ (fractionChars clock.fraction ++ clock.zone.chars))))

/-- The whole milliseconds of a fraction: as many thousandths as fit into it. -/
def fractionMillis (fraction : List (Fin 10)) : Nat :=
  fraction.foldl (fun n digit => n * 10 + digit.val) 0 * 1000 / Nat.pow 10 fraction.length

def millis (clock : Clock) : Nat :=
  ((clock.hour.val * 60 + clock.minute.val) * 60 + clock.second.val) * 1000 +
    fractionMillis clock.fraction

end Clock

/-! ### Readers of parts -/

namespace Calendar

variable {rest : List Char}

theorem bind_of_eq_some {α β : Type} {read : Option α} {a : α} (h : read = some a)
    (f : α → Option β) : (read >>= f) = f a := by
  rw [h]
  rfl

theorem length_padded (width n : Nat) : (padded width n).length = width := by
  induction width generalizing n with
  | zero => rfl
  | succ width ih => rw [padded, List.length_append, ih, List.length_singleton]

theorem isDigit_padded (width n : Nat) : ∀ c ∈ padded width n, c.isDigit = true := by
  induction width generalizing n with
  | zero => simp [padded]
  | succ width ih =>
    have hlast : (Nat.digitChar (n % 10)).isDigit = true := by
      rw [Nat.isDigit_digitChar]
      exact decide_eq_true (Nat.mod_lt n (by decide))
    rw [padded, List.forall_mem_append, List.forall_mem_singleton]
    exact ⟨ih _, hlast⟩

/-- **Digits denote the number that they were written for**, if there is room for it. -/
theorem ofDigitChars_padded {width n : Nat} (h : n < 10 ^ width) :
    Nat.ofDigitChars 10 (padded width n) 0 = n := by
  induction width generalizing n with
  | zero =>
    rw [Nat.pow_zero] at h
    rw [padded, Nat.ofDigitChars_nil]
    omega
  | succ width ih =>
    have hfront : n / 10 < 10 ^ width := by
      rw [Nat.pow_succ] at h
      omega
    have hlast : n % 10 < 10 := Nat.mod_lt n (by decide)
    rw [padded, Nat.ofDigitChars_append, ih hfront, Nat.ofDigitChars_cons_digitChar_of_lt_ten hlast,
      Nat.ofDigitChars_nil]
    omega

theorem digits?_padded {least width n : Nat} (hleast : least ≤ width) (h : n < 10 ^ width) :
    digits? least width (padded width n ++ rest) = some (n, rest) := by
  have hlength := length_padded width n
  have htake : (padded width n ++ rest).take width = padded width n := List.take_left' hlength
  have hall : (padded width n).takeWhile Char.isDigit = padded width n :=
    List.takeWhile_eq_self_iff.mpr (isDigit_padded width n)
  rw [digits?, htake, hall, hlength, if_neg (Nat.not_lt.mpr hleast), ofDigitChars_padded h,
    List.drop_left' hlength]

theorem char?_cons (c : Char) : char? c (c :: rest) = some rest := by
  rw [char?, if_pos rfl]

theorem char?_separator (separator : Separator) :
    (char? 'T' (separator.char :: rest) <|> char? 't' (separator.char :: rest) <|>
      char? ' ' (separator.char :: rest)) = some rest := by
  cases separator <;> rfl

theorem exists_padded {width : Nat} (h : 1 ≤ width) (n : Nat) :
    ∃ c tail, padded width n = c :: tail ∧ c.isDigit = true := by
  have hlength := length_padded width n
  have hdigits := isDigit_padded width n
  cases hpadded : padded width n with
  | nil =>
    rw [hpadded, List.length_nil] at hlength
    omega
  | cons c tail =>
    rw [hpadded] at hdigits
    exact ⟨c, tail, rfl, hdigits c List.mem_cons_self⟩

theorem skipBlanks_padded {width : Nat} (h : 1 ≤ width) (n : Nat) :
    skipBlanks (padded width n ++ rest) = padded width n ++ rest := by
  obtain ⟨c, tail, hpadded, hdigit⟩ := exists_padded h n
  have hrange := Char.isDigit_iff_toNat.mp hdigit
  have hblank : ¬ Text.isBlank c = true := by
    change 48 ≤ c.toNat ∧ c.toNat ≤ 57 at hrange
    simp only [Text.isBlank, Bool.or_eq_true, Bool.and_eq_true, decide_eq_true_eq, beq_iff_eq]
    omega
  rw [hpadded, List.cons_append, skipBlanks, List.dropWhile_cons_of_neg hblank]

theorem year?_padded {n : Nat} (h : n < 10 ^ 4) :
    year? (padded 4 n ++ rest) = some ((n : Int), rest) := by
  obtain ⟨c, tail, hpadded, hdigit⟩ := exists_padded (show 1 ≤ 4 by decide) n
  have hsign {d : Char} (hd : d.isDigit = false) {other : List Char} :
      padded 4 n ++ rest ≠ d :: other := by
    intro heq
    rw [hpadded, List.cons_append] at heq
    rw [(List.cons.inj heq).1, hd] at hdigit
    cases hdigit
  unfold year?
  split
  · rename_i heq
    exact absurd heq (hsign rfl)
  · rename_i heq
    exact absurd heq (hsign rfl)
  · rw [digits?_padded (by decide) h, Option.map_some]

/-! ### Fractions -/

theorem ofDigitChars_take {digits : List Char} (hdigits : ∀ c ∈ digits, c.isDigit = true)
    (count : Nat) :
    Nat.ofDigitChars 10 (digits.take count) 0
      = Nat.ofDigitChars 10 digits 0 / 10 ^ (digits.length - count) := by
  have hbehind := ofDigitChars_lt fun c hc => hdigits c (List.mem_of_mem_drop (i := count) hc)
  rw [List.length_drop] at hbehind
  have hsplit : Nat.ofDigitChars 10 digits 0
      = 10 ^ (digits.length - count) * Nat.ofDigitChars 10 (digits.take count) 0 +
        Nat.ofDigitChars 10 (digits.drop count) 0 := by
    rw [← List.length_drop, ← Nat.ofDigitChars_eq_ofDigitChars_zero, ← Nat.ofDigitChars_append,
      List.take_append_drop]
  rw [hsplit, Nat.mul_add_div (Nat.pow_pos (by decide)), Nat.div_eq_of_lt hbehind, Nat.add_zero]

theorem isDigit_digitChars (digits : List (Fin 10)) :
    ∀ c ∈ digits.map fun digit => Nat.digitChar digit.val, c.isDigit = true := by
  intro c hc
  obtain ⟨digit, -, rfl⟩ := List.mem_map.mp hc
  rw [Nat.isDigit_digitChar]
  exact decide_eq_true digit.isLt

theorem ofDigitChars_digitChars (digits : List (Fin 10)) (n : Nat) :
    Nat.ofDigitChars 10 (digits.map fun digit => Nat.digitChar digit.val) n
      = digits.foldl (fun n digit => n * 10 + digit.val) n := by
  induction digits generalizing n with
  | nil => rfl
  | cons digit rest ih =>
    rw [List.map_cons, Nat.ofDigitChars_cons_digitChar_of_lt_ten digit.isLt, ih, List.foldl_cons,
      Nat.mul_comm]

/-- **The first three digits of a fraction are its whole milliseconds**, with zeros for those that
are missing. -/
theorem ofDigitChars_fraction {digits : List (Fin 10)} (h : digits ≠ []) :
    Nat.ofDigitChars 10
        ((digits.map (fun digit => Nat.digitChar digit.val) ++ ['0', '0']).take 3) 0
      = Clock.fractionMillis digits := by
  have hpos := List.length_pos_iff.mpr h
  have hdigits : ∀ c ∈ digits.map (fun digit => Nat.digitChar digit.val) ++ ['0', '0'],
      c.isDigit = true := by
    rw [List.forall_mem_append]
    exact ⟨isDigit_digitChars digits, List.all_eq_true.mp rfl⟩
  have hlength : (digits.map (fun digit => Nat.digitChar digit.val) ++ ['0', '0']).length
      = digits.length + 2 := by
    rw [List.length_append, List.length_map]
    rfl
  have hzeros (n : Nat) : Nat.ofDigitChars 10 ['0', '0'] n = n * 100 := by
    show 10 * (10 * n + 0) + 0 = n * 100
    omega
  have hpow : 10 ^ digits.length = 10 ^ (digits.length + 2 - 3) * 10 := by
    rw [← Nat.pow_succ]
    congr 1
    omega
  rw [ofDigitChars_take hdigits, hlength, Nat.ofDigitChars_append,
    ofDigitChars_digitChars, hzeros, Clock.fractionMillis, Nat.pow_eq, hpow,
    ← Nat.mul_div_mul_right _ _ (show 0 < 10 by decide), Nat.mul_assoc]

theorem head?_zone (zone : Zone) :
    ∃ c rest, zone.chars = c :: rest ∧ c ≠ '.' ∧ c.isDigit = false := by
  cases zone with
  | universal letter => cases letter <;> exact ⟨_, _, rfl, by decide, by decide⟩
  | shifted sign hours minutes => cases sign <;> exact ⟨_, _, rfl, by decide, by decide⟩

theorem fraction?_chars (fraction : List (Fin 10)) (zone : Zone) :
    fraction? (Clock.fractionChars fraction ++ zone.chars)
      = some (Clock.fractionMillis fraction, zone.chars) := by
  obtain ⟨c, rest, hzone, hdot, hdigit⟩ := head?_zone zone
  cases fraction with
  | nil =>
    rw [Clock.fractionChars, List.nil_append, hzone]
    unfold fraction?
    split
    · rename_i hpoint
      exact absurd (List.cons.inj hpoint).1 hdot
    · rfl
  | cons digit others =>
    have hne : digit :: others ≠ [] := List.cons_ne_nil digit others
    have hdigits := isDigit_digitChars (digit :: others)
    have htake : ((digit :: others).map (fun digit => Nat.digitChar digit.val) ++
        zone.chars).takeWhile Char.isDigit
          = (digit :: others).map fun digit => Nat.digitChar digit.val := by
      rw [List.takeWhile_append_of_pos hdigits, hzone,
        List.takeWhile_cons_of_neg (by simp [hdigit]), List.append_nil]
    rw [Clock.fractionChars, List.cons_append, fraction?, htake, if_neg (by simp),
      ofDigitChars_fraction hne, List.drop_left]

theorem offset?_chars (zone : Zone) : ∃ minutes, offset? zone.chars = some (minutes, []) ∧
    zone.millis = minutes * 60000 := by
  cases zone with
  | universal letter => cases letter <;> exact ⟨0, rfl, rfl⟩
  | shifted sign hours minutes =>
    have hhours : digits? 2 2 (padded 2 hours.val ++ ':' :: padded 2 minutes.val)
        = some (hours.val, ':' :: padded 2 minutes.val) :=
      digits?_padded (by decide) (Nat.lt_trans hours.isLt (by decide))
    have hminutes : digits? 2 2 (padded 2 minutes.val ++ []) = some (minutes.val, []) :=
      digits?_padded (by decide) (Nat.lt_trans minutes.isLt (by decide))
    have hbounds : hours.val ≤ 23 ∧ minutes.val ≤ 59 := by omega
    rw [List.append_nil] at hminutes
    have hread (c : Char) (hletter : ¬ (c = 'Z' ∨ c = 'z')) (hsign : c = '+' ∨ c = '-' ∨ c = '−') :
        offset? (c :: (padded 2 hours.val ++ ':' :: padded 2 minutes.val))
          = some (if c = '+' then ((hours.val : Int) * 60 + minutes.val)
            else -((hours.val : Int) * 60 + minutes.val), []) := by
      rw [offset?, if_neg hletter, if_pos hsign, hhours]
      simp only [Option.bind_eq_bind, Option.bind_some, char?_cons, hminutes, if_pos hbounds]
    cases sign with
    | plus => exact ⟨_, hread '+' (by decide) (by decide), rfl⟩
    | hyphen => exact ⟨_, hread '-' (by decide) (by decide), (Int.neg_mul _ _).symm⟩
    | minus => exact ⟨_, hread '−' (by decide) (by decide), (Int.neg_mul _ _).symm⟩

/-! ### Dates -/

section

variable {date : Date} (h : date.InCalendar) (hyear : 0 ≤ date.year ∧ date.year ≤ 9999)

include hyear in
theorem digits?_year (rest : List Char) :
    digits? 4 4 (padded 4 date.year.toNat ++ rest) = some (date.year.toNat, rest) :=
  digits?_padded (Nat.le_refl 4) (show date.year.toNat < 10000 by omega)

include h in
theorem digits?_month {least : Nat} (hleast : least ≤ 2) (rest : List Char) :
    digits? least 2 (padded 2 date.month ++ rest) = some (date.month, rest) :=
  digits?_padded hleast (Nat.lt_of_le_of_lt h.month_le (by decide))

include h in
theorem digits?_day {least : Nat} (hleast : least ≤ 2) (rest : List Char) :
    digits? least 2 (padded 2 date.day ++ rest) = some (date.day, rest) := by
  have hlength := Nat.le_trans h.day_le (Date.daysInMonth_le _ _)
  exact digits?_padded hleast (Nat.lt_of_le_of_lt hlength (by decide))

include hyear in
theorem eq_date : (⟨(date.year.toNat : Int), date.month, date.day⟩ : Date) = date := by
  rw [Int.toNat_of_nonneg hyear.1]

include h hyear in
theorem isValid_date : date.isValid = true :=
  Date.isValid_iff.mpr ⟨h, by omega, by omega⟩

include h hyear in
/-- **A timestamp is the date, the time of day and the offset.** -/
theorem timestamp?_chars (clock : Clock) :
    timestamp? (date.chars ++ clock.chars)
      = some (date.millis + clock.millis - clock.zone.millis) := by
  obtain ⟨offset, hoffset, hzone⟩ := offset?_chars clock.zone
  have htwo {bound : Nat} (digit : Fin bound) (hbound : bound ≤ 100) (rest : List Char) :
      digits? 2 2 (padded 2 digit.val ++ rest) = some (digit.val, rest) :=
    digits?_padded (Nat.le_refl 2) (Nat.lt_of_lt_of_le digit.isLt hbound)
  have hbounds : clock.hour.val ≤ 23 ∧ clock.minute.val ≤ 59 ∧ clock.second.val ≤ 60 := by omega
  rw [Date.chars, Clock.chars, List.append_assoc, List.cons_append, List.append_assoc,
    List.cons_append]
  -- Every reader takes its part, in the order in which the parts stand.
  refine (bind_of_eq_some (digits?_year hyear _) _).trans ?_
  refine (bind_of_eq_some (char?_cons '-') _).trans ?_
  refine (bind_of_eq_some (digits?_month h (Nat.le_refl 2) _) _).trans ?_
  refine (bind_of_eq_some (char?_cons '-') _).trans ?_
  refine (bind_of_eq_some (digits?_day h (Nat.le_refl 2) _) _).trans ?_
  refine (bind_of_eq_some (char?_separator clock.separator) _).trans ?_
  refine (bind_of_eq_some (htwo clock.hour (by decide) _) _).trans ?_
  refine (bind_of_eq_some (char?_cons ':') _).trans ?_
  refine (bind_of_eq_some (htwo clock.minute (by decide) _) _).trans ?_
  refine (bind_of_eq_some (char?_cons ':') _).trans ?_
  refine (bind_of_eq_some (htwo clock.second (by decide) _) _).trans ?_
  refine (bind_of_eq_some (fraction?_chars clock.fraction clock.zone) _).trans ?_
  refine (bind_of_eq_some hoffset _).trans ?_
  simp only [eq_date hyear, isValid_date h hyear, hbounds]
  rw [if_pos (by simp), hzone, Clock.millis]
  push_cast
  rfl

include h hyear in
theorem date?_chars : date? date.chars = some date.millis := by
  have hfour : date.year.toNat < 10 ^ 4 := show date.year.toNat < 10000 by omega
  -- Nothing stands behind the day.
  have hday := digits?_day h (show 1 ≤ 2 by decide) []
  have hblanks : skipBlanks (padded 2 date.day ++ []) = padded 2 date.day ++ [] :=
    skipBlanks_padded (by decide) date.day
  rw [List.append_nil] at hday hblanks
  rw [date?, Date.chars, skipBlanks_padded (by decide)]
  refine (bind_of_eq_some (year?_padded hfour) _).trans ?_
  refine (bind_of_eq_some (char?_cons '-') _).trans ?_
  dsimp only
  rw [skipBlanks_padded (by decide)]
  refine (bind_of_eq_some (digits?_month h (by decide) _) _).trans ?_
  refine (bind_of_eq_some (char?_cons '-') _).trans ?_
  dsimp only
  rw [hblanks]
  refine (bind_of_eq_some hday _).trans ?_
  simp only [eq_date hyear, isValid_date h hyear]
  rfl

include h hyear in
/-- A bare date is no timestamp: it ends where the time of day would begin. -/
theorem timestamp?_date : timestamp? date.chars = none := by
  have hday := digits?_day h (Nat.le_refl 2) []
  rw [List.append_nil] at hday
  rw [Date.chars]
  refine (bind_of_eq_some (digits?_year hyear _) _).trans ?_
  refine (bind_of_eq_some (char?_cons '-') _).trans ?_
  refine (bind_of_eq_some (digits?_month h (Nat.le_refl 2) _) _).trans ?_
  refine (bind_of_eq_some (char?_cons '-') _).trans ?_
  refine (bind_of_eq_some hday _).trans ?_
  rfl

end

end Calendar

/-! ### Conversions -/

def Date.text (date : Date) : String :=
  String.ofList date.chars

def Clock.text (clock : Clock) : String :=
  String.ofList clock.chars

section

variable {date : Date} (h : date.InCalendar) (hyear : 0 ≤ date.year ∧ date.year ≤ 9999)

include h hyear

theorem Calendar.millis?_date : millis? date.text = some date.millis := by
  rw [millis?, Date.text, String.toList_ofList, timestamp?_date h hyear, date?_chars h hyear]
  rfl

theorem Calendar.millis?_timestamp (clock : Clock) :
    millis? (date.text ++ clock.text)
      = some (date.millis + clock.millis - clock.zone.millis) := by
  rw [millis?, String.toList_append, Date.text, Clock.text, String.toList_ofList,
    String.toList_ofList, timestamp?_chars h hyear]
  rfl

end

/-- Whether a text is converted to the instant so many milliseconds after the start of 1970. -/
def Value.IsInstant (text : String) (instant : Int) : Prop :=
  ∃ millis : Int64, (isoDate text).convert .unixTime = .ok (.unixTime millis) ∧
    millis.toInt = instant

theorem Value.isInstant_of_millis? {text : String} {millis : Int}
    (h : Calendar.millis? text = some millis) : IsInstant text millis := by
  obtain ⟨hlow, hhigh⟩ := Calendar.millis?_range h
  exact ⟨.ofInt millis, by rw [convert, h], Int64.toInt_ofInt_of_le hlow hhigh⟩

/-- **Dates and timestamps are the right instants.**  A date of a year from 0 to 9999 is its first
millisecond in universal time, as a day has 86400000 of them and `days` is the number of days that
are counted from the start of 1970, back or forth.  With midnight in universal time behind it the
date is the same instant, and later dates are later instants.  With any time of day behind it the
milliseconds since midnight are added, a fraction in whole milliseconds, and the offset is taken
off. -/
theorem Value.isoDate_instant {date : Date} (h : date.InCalendar)
    (hyear : 0 ≤ date.year ∧ date.year ≤ 9999) :
    ∃ days : Int, (∀ n, Date.IsDaysAfter n Date.epoch date ↔ n = days) ∧
      IsInstant date.text (86400000 * days) ∧
      IsInstant (date.text ++ "T00:00:00Z") (86400000 * days) ∧
      (∀ later : Date, later.InCalendar → later.year ≤ 9999 → date.Before later →
        ∃ instant, IsInstant later.text instant ∧ 86400000 * days < instant) ∧
      ∀ clock : Clock, IsInstant (date.text ++ clock.text)
        (86400000 * days + clock.millis - clock.zone.millis) := by
  refine ⟨date.epochDays, fun n => Date.isDaysAfter_epoch_iff h,
    isInstant_of_millis? (Calendar.millis?_date h hyear), ?_, ?_,
    fun clock => isInstant_of_millis? (Calendar.millis?_timestamp h hyear clock)⟩
  · have hmidnight := Calendar.millis?_timestamp h hyear
      ⟨.capital, 0, 0, 0, [], .universal true⟩
    have hzero : date.millis + ((0 : Nat) : Int) - 0 = 86400000 * date.epochDays := by
      rw [Date.millis]
      omega
    exact isInstant_of_millis? (hmidnight.trans (congrArg some hzero))
  · intro later hlater hlast hbefore
    have hfirst : 0 ≤ later.year := by
      rcases hbefore with hbefore | ⟨hbefore, -⟩ <;> omega
    refine ⟨later.millis, isInstant_of_millis? (Calendar.millis?_date hlater ⟨hfirst, hlast⟩), ?_⟩
    have hlt := Date.epochDays_lt h hlater hbefore
    rw [Date.millis]
    omega

/-- A quarter past five and some fraction of a second, five and a half hours ahead of universal
time. -/
def earlyClock : Clock :=
  ⟨.space, 5, 15, 0, [0, 0, 1, 9], .shifted .plus 5 30⟩

/-- The last day of 1969, and that time on it. -/
theorem Value.isoDate_instant_early :
    (isoDate "1969-12-31").convert .unixTime = .ok (.unixTime (-86400000)) ∧
      (isoDate "1969-12-31 05:15:00.0019+05:30").convert .unixTime
        = .ok (.unixTime (-87299999)) := by
  have h : (⟨1969, 12, 31⟩ : Date).InCalendar := ⟨by decide, by decide, by decide, by decide⟩
  obtain ⟨days, hdays, hdate, -, -, hclock⟩ := isoDate_instant h (by decide)
  have hcount : -1 = days := (hdays (-1)).mp (by unfold Date.IsDaysAfter; decide)
  have htext : (⟨1969, 12, 31⟩ : Date).text = "1969-12-31" := by decide +kernel
  have hwhole : "1969-12-31" ++ earlyClock.text = "1969-12-31 05:15:00.0019+05:30" := by
    decide +kernel
  have hmillis : 86400000 * (-1) + (earlyClock.millis : Int) - earlyClock.zone.millis
      = -87299999 := by decide
  have hread := hclock earlyClock
  rw [← hcount, htext] at hdate
  rw [← hcount, htext, hwhole, hmillis] at hread
  obtain ⟨midnight, hmidnight, hvalue⟩ := hdate
  obtain ⟨early, hearly, hinstant⟩ := hread
  obtain rfl : midnight = -86400000 := Int64.toInt_inj.mp hvalue
  obtain rfl : early = -87299999 := Int64.toInt_inj.mp hinstant
  exact ⟨hmidnight, hearly⟩

end Circuitry
