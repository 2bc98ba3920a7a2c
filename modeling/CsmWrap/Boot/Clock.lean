import CsmWrap.Calendar
import Mathlib.Data.UInt
import Mathlib.Tactic.IntervalCases
import Mathlib.Tactic.Linarith

/-!
# The clock of uACPI

`acpi.c` tells uACPI how much time has passed since boot, from two readings of the
firmware's clock. Each reading becomes a count of nanoseconds through a Julian day
number. The day number is right; of the nanoseconds of a reading only 16 bits are
taken.
-/

namespace CsmWrap.Boot
open Calendar

def InInt (x : Int) : Prop := -2 ^ 31 ≤ x ∧ x < 2 ^ 31

instance (x : Int) : Decidable (InInt x) := inferInstanceAs (Decidable (_ ∧ _))

/-- A value computed in `int`; an overflow is `none`. -/
def checked (x : Int) : Option Int := if InInt x then some x else none

def add (x y : Int) : Option Int := checked (x + y)
def sub (x y : Int) : Option Int := checked (x - y)
def mul (x y : Int) : Option Int := checked (x * y)

/-- Division truncates towards zero. -/
def div (x y : Int) : Option Int := if y = 0 then none else checked (x.tdiv y)

section
variable {x y : Int}

theorem add_eq (h : InInt (x + y)) : add x y = some (x + y) := if_pos h

theorem sub_eq (h : InInt (x - y)) : sub x y = some (x - y) := if_pos h

theorem mul_eq (h : InInt (x * y)) : mul x y = some (x * y) := if_pos h

theorem div_eq (hx : 0 ≤ x) (h : InInt x) (hy : 0 < y) : div x y = some (x / y) := by
  have hle := Int.ediv_le_self y hx
  have hnonneg := Int.ediv_nonneg hx hy.le
  unfold InInt at h
  rw [div, if_neg hy.ne', Int.tdiv_eq_ediv_of_nonneg hx]
  exact if_pos ⟨by omega, by omega⟩

end

/-- The first line of `get_jdn`, with the value of `(months - 14) / 12`. -/
def yearsTerm (years adjust : Int) : Option Int := do
  div (← mul 1461 (← add (← add years 4800) adjust)) 4

def monthsTerm (months adjust : Int) : Option Int := do
  div (← mul 367 (← sub (← sub months 2) (← mul 12 adjust))) 12

def centuriesTerm (years adjust : Int) : Option Int := do
  div (← mul 3 (← div (← add (← add years 4900) adjust) 100)) 4

def getJdn (days months years : Int) : Option Int := do
  let adjust ← div (← sub months 14) 12
  let terms ← add (← yearsTerm years adjust) (← monthsTerm months adjust)
  let terms ← sub terms (← centuriesTerm years adjust)
  sub (← add terms days) 32075

/-- `(months - 14) / 12`: January and February count as the end of the year before. -/
def monthAdjust (months : Int) : Int := if months ≤ 2 then -1 else 0

theorem monthAdjust_cases (months : Int) :
    monthAdjust months = -1 ∧ months ≤ 2 ∨ monthAdjust months = 0 ∧ 2 < months := by
  unfold monthAdjust
  split <;> omega

/-- The value of `get_jdn`. -/
def jdnValue (days months years adjust : Int) : Int :=
  1461 * (years + 4800 + adjust) / 4 + 367 * (months - 2 - 12 * adjust) / 12 -
    3 * ((years + 4900 + adjust) / 100) / 4 + days - 32075

section
variable {years adjust : Int} (hyear : 0 ≤ years ∧ years ≤ 65536)
  (hadjust : adjust = -1 ∨ adjust = 0)
include hyear hadjust

theorem yearsTerm_eq : yearsTerm years adjust = some (1461 * (years + 4800 + adjust) / 4) := by
  have h₁ := add_eq (x := years) (y := 4800) (by unfold InInt; omega)
  have h₂ := add_eq (x := years + 4800) (y := adjust) (by unfold InInt; omega)
  have h₃ := mul_eq (x := 1461) (y := years + 4800 + adjust) (by unfold InInt; omega)
  have h₄ := div_eq (x := 1461 * (years + 4800 + adjust)) (y := 4) (by omega)
    (by unfold InInt; omega) (by decide)
  simp only [yearsTerm, h₁, h₂, h₃, h₄, Option.bind_eq_bind, Option.bind_some]

theorem centuriesTerm_eq :
    centuriesTerm years adjust = some (3 * ((years + 4900 + adjust) / 100) / 4) := by
  have h₁ := add_eq (x := years) (y := 4900) (by unfold InInt; omega)
  have h₂ := add_eq (x := years + 4900) (y := adjust) (by unfold InInt; omega)
  have h₃ := div_eq (x := years + 4900 + adjust) (y := 100) (by omega) (by unfold InInt; omega)
    (by decide)
  have h₄ := mul_eq (x := 3) (y := (years + 4900 + adjust) / 100) (by unfold InInt; omega)
  have h₅ := div_eq (x := 3 * ((years + 4900 + adjust) / 100)) (y := 4) (by omega)
    (by unfold InInt; omega) (by decide)
  simp only [centuriesTerm, h₁, h₂, h₃, h₄, h₅, Option.bind_eq_bind, Option.bind_some]

end

theorem monthsTerm_eq {months adjust : Int} (hmonth : 1 ≤ months ∧ months ≤ 12)
    (hadjust : adjust = -1 ∧ months ≤ 2 ∨ adjust = 0 ∧ 2 < months) :
    monthsTerm months adjust = some (367 * (months - 2 - 12 * adjust) / 12) := by
  have h₁ := sub_eq (x := months) (y := 2) (by unfold InInt; omega)
  have h₂ := mul_eq (x := 12) (y := adjust) (by unfold InInt; omega)
  have h₃ := sub_eq (x := months - 2) (y := 12 * adjust) (by unfold InInt; omega)
  have h₄ := mul_eq (x := 367) (y := months - 2 - 12 * adjust) (by unfold InInt; omega)
  have h₅ := div_eq (x := 367 * (months - 2 - 12 * adjust)) (y := 12) (by omega)
    (by unfold InInt; omega) (by decide)
  simp only [monthsTerm, h₁, h₂, h₃, h₄, h₅, Option.bind_eq_bind, Option.bind_some]

/-- No step of `get_jdn` overflows. -/
theorem getJdn_eq {days months years : Int} (hday : 1 ≤ days ∧ days ≤ 31)
    (hmonth : 1 ≤ months ∧ months ≤ 12) (hyear : 0 ≤ years ∧ years ≤ 65536) :
    getJdn days months years =
      some (jdnValue days months years (monthAdjust months)) := by
  have hdiv : div (months - 14) 12 = some (monthAdjust months) := by
    obtain ⟨hlo, hhi⟩ := hmonth
    interval_cases months <;> rfl
  have hadjust := monthAdjust_cases months
  generalize monthAdjust months = adjust at hdiv hadjust
  have hsub := sub_eq (x := months) (y := 14) (by unfold InInt; omega)
  have heither : adjust = -1 ∨ adjust = 0 := by omega
  have hyears := yearsTerm_eq hyear heither
  have hmonths := monthsTerm_eq hmonth hadjust
  have hcenturies := centuriesTerm_eq hyear heither
  unfold getJdn jdnValue
  simp only [hsub, hdiv, hyears, hmonths, hcenturies, Option.bind_eq_bind, Option.bind_some]
  generalize h₁ : 1461 * (years + 4800 + adjust) / 4 = ofYears
  generalize h₂ : 367 * (months - 2 - 12 * adjust) / 12 = ofMonths
  generalize h₃ : 3 * ((years + 4900 + adjust) / 100) / 4 = ofCenturies
  rw [add_eq (by unfold InInt; omega), Option.bind_some, sub_eq (by unfold InInt; omega),
    Option.bind_some, add_eq (by unfold InInt; omega), Option.bind_some,
    sub_eq (by unfold InInt; omega)]

/-- The day that a leap year adds to the months from March on. -/
def leapDay (year : Nat) : Int := if IsLeap year then 1 else 0

/-- The terms for years and centuries: `n` years of 365 days, and the leap days. -/
theorem years_term (n : Int) :
    1461 * (n + 4800) / 4 - 3 * ((n + 4900) / 100) / 4 =
      365 * n + n / 4 - n / 100 + n / 400 + 1753164 := by
  have hyears : 1461 * (n + 4800) / 4 = 365 * n + n / 4 + 1753200 := by omega
  have hcentury : (n + 4900) / 100 = n / 100 + 49 := by omega
  have hfour : n / 400 = n / 100 / 4 := by omega
  rw [hyears, hcentury, hfour]
  generalize n / 100 = century
  omega

/-- Up to the end of February they count the years before. -/
theorem years_before (year : Nat) :
    1461 * ((year : Int) + 4800 + -1) / 4 - 3 * ((year + 4900 + -1) / 100) / 4 =
      daysBeforeYear year + 1752798 := by
  have h := years_term ((year : Int) - 1)
  rw [daysBeforeYear_eq]
  rw [show (year : Int) - 1 + 4800 = year + 4800 + -1 by omega,
    show (year : Int) - 1 + 4900 = year + 4900 + -1 by omega] at h
  rw [h]
  linarith

/-- From March on they count the year itself, with its leap day. -/
theorem years_after (year : Nat) :
    1461 * ((year : Int) + 4800 + 0) / 4 - 3 * ((year + 4900 + 0) / 100) / 4 =
      daysBeforeYear year + leapDay year + 1753163 := by
  have hnext := daysBeforeYear_eq (year + 1)
  have hlength : (yearLength year : Int) = 365 + leapDay year := by
    unfold yearLength leapDay
    split <;> rfl
  rw [daysBeforeYear] at hnext
  push_cast at hnext
  rw [add_zero, add_zero, years_term]
  rw [hlength, add_sub_cancel_right] at hnext
  linarith

theorem months_before (year : Nat) {month : Nat} (hlo : 1 ≤ month) (hhi : month ≤ 2) :
    367 * ((month : Int) - 2 - 12 * -1) / 12 = daysBeforeMonth year month + 336 := by
  interval_cases month <;> simp [daysBeforeMonth, monthLength]

theorem months_after (year : Nat) {month : Nat} (hlo : 2 < month) (hhi : month ≤ 12) :
    367 * ((month : Int) - 2 - 12 * 0) / 12 + leapDay year =
      daysBeforeMonth year month - 29 := by
  unfold leapDay
  interval_cases month <;> simp only [daysBeforeMonth, monthLength] <;> split <;> rfl

/-- The day number is the number of the day in the calendar, counted from elsewhere. -/
theorem getJdn_date (d : Date) (hyear : d.year ≤ 65536) :
    getJdn d.day d.month d.year = some ((d.ordinal : Int) + 1721059) := by
  have hday := d.day_pos
  have hlength := d.day_le.trans (monthLength_le _ _)
  have hmonth := d.month_pos
  have hmonth' := d.month_le
  rw [getJdn_eq (by omega) (by omega) (by omega), Option.some.injEq, jdnValue, Date.ordinal,
    Calendar.ordinal]
  rcases monthAdjust_cases d.month with ⟨hadjust, hle⟩ | ⟨hadjust, hlt⟩
  · have hy := years_before d.year
    have hm := months_before d.year hmonth (by omega)
    rw [hadjust]
    omega
  · have hy := years_after d.year
    have hm := months_after d.year (by omega) hmonth'
    rw [hadjust]
    omega

/-- A day does not end more than a year after it began. -/
theorem year_next_le (d : Date) : d.next.year ≤ d.year + 1 := by
  unfold Date.next
  split
  · exact Nat.le_succ _
  · split
    · exact Nat.le_succ _
    · exact le_rfl

theorem getJdn_1970 : getJdn 1 1 1970 = some 2440588 := by decide

/-- **`get_jdn` counts days.** The day after a date has the next number, through every
end of a month, a year and a century, and no step of the computation overflows. -/
theorem get_jdn_counts_days :
    (∀ d : Date, 1 ≤ d.year → d.year ≤ 65535 →
      ∃ jdn, getJdn d.day d.month d.year = some jdn ∧
        getJdn d.next.day d.next.month d.next.year = some (jdn + 1)) ∧
    getJdn 1 1 1970 = some 2440588 := by
  constructor
  · intro d _ hyear
    have hnext := year_next_le d
    refine ⟨_, getJdn_date d (by omega), ?_⟩
    rw [getJdn_date d.next (by omega), ordinal_next, Option.some.injEq]
    omega
  · exact getJdn_1970

/-- The leap day of 2000, a century that has one. -/
def leapDate : Date := ⟨2000, 2, 29, by decide, by decide, by decide, by decide⟩

theorem get_jdn_counts_days_leap : leapDate.next.month = 3 ∧
    ∃ jdn, getJdn leapDate.day leapDate.month leapDate.year = some jdn ∧
      getJdn leapDate.next.day leapDate.next.month leapDate.next.year = some (jdn + 1) :=
  ⟨by decide, get_jdn_counts_days.1 leapDate (by decide) (by decide)⟩

/-- The fields of `EFI_TIME` that are read; time zone and daylight saving are not. -/
structure EfiTime where
  year : UInt16
  month : UInt8
  day : UInt8
  hour : UInt8
  minute : UInt8
  second : UInt8
  nanosecond : UInt32
  deriving DecidableEq, Repr

/-- `NS_PER_S`. -/
def nsPerS : UInt64 := 1000000000

/-- The products with hours and minutes start in `int` and stay small there. -/
def getUnixEpoch (nanoseconds : UInt16) (seconds minutes hours days months : UInt8)
    (years : UInt16) : Option UInt64 := do
  let jdnCurrent := UInt64.ofInt (← getJdn days.toNat months.toNat years.toNat)
  let jdn1970 := UInt64.ofInt (← getJdn 1 1 1970)
  let jdnDiff := jdnCurrent - jdn1970
  return jdnDiff * 60 * 60 * 24 * nsPerS + UInt64.ofNat (hours.toNat * 3600) * nsPerS +
    UInt64.ofNat (minutes.toNat * 60) * nsPerS + seconds.toUInt64 * nsPerS +
    nanoseconds.toUInt64

/-- The call with the fields of a reading, where `Nanosecond` loses its upper half. -/
def EfiTime.epoch (t : EfiTime) : Option UInt64 :=
  getUnixEpoch t.nanosecond.toUInt16 t.second t.minute t.hour t.day t.month t.year

/-- `getTime` is the answer of the firmware, if it has one. -/
def uacpiKernelGetNanosecondsSinceBoot (gTimeAtBoot : EfiTime) (getTime : Option EfiTime) :
    Option UInt64 :=
  match getTime with
  | none => some 0
  | some time => do
    let bootTime ← gTimeAtBoot.epoch
    let currentTime ← time.epoch
    return currentTime - bootTime

/-- A reading that is a date and a time of day. -/
structure EfiTime.Valid (t : EfiTime) : Prop where
  year : 1900 ≤ t.year.toNat ∧ t.year.toNat ≤ 9999
  month : 1 ≤ t.month.toNat ∧ t.month.toNat ≤ 12
  day : 1 ≤ t.day.toNat ∧ t.day.toNat ≤ monthLength t.year.toNat t.month.toNat
  hour : t.hour.toNat < 24
  minute : t.minute.toNat < 60
  second : t.second.toNat < 60
  nanosecond : t.nanosecond.toNat < 10 ^ 9

/-- The seconds up to a reading, from the start of year 0. -/
def EfiTime.seconds (t : EfiTime) : Nat :=
  ((ordinal t.year.toNat t.month.toNat t.day.toNat * 24 + t.hour.toNat) * 60 +
    t.minute.toNat) * 60 + t.second.toNat

/-- The nanoseconds up to a reading. -/
def EfiTime.instant (t : EfiTime) : Nat := t.seconds * 10 ^ 9 + t.nanosecond.toNat

theorem toNat_ofInt64 (x : Int) : ((UInt64.ofInt x).toNat : Int) = x % 2 ^ 64 := by
  unfold UInt64.ofInt
  rw [UInt64.toNat_ofNat']
  omega

/-- An epoch is right to the second, and has the lower half of the nanoseconds. -/
theorem EfiTime.Valid.epoch_eq {t : EfiTime} (h : t.Valid) :
    ∃ e, t.epoch = some e ∧
      (e.toNat : Int) = ((t.seconds - 719529 * 86400) * 10 ^ 9 + t.nanosecond.toNat % 65536 : Int) %
        2 ^ 64 := by
  obtain ⟨hyear, hmonth, hday, hhour, hminute, hsecond, -⟩ := h
  have hjdn := getJdn_date ⟨t.year.toNat, t.month.toNat, t.day.toNat, hmonth.1, hmonth.2, hday.1,
    hday.2⟩ (by omega : t.year.toNat ≤ 65536)
  unfold EfiTime.epoch getUnixEpoch EfiTime.seconds
  simp only [Date.ordinal] at hjdn
  rw [hjdn, getJdn_1970]
  refine ⟨_, rfl, ?_⟩
  have hcurrent := toNat_ofInt64 (ordinal t.year.toNat t.month.toNat t.day.toNat + 1721059)
  have h1970 := toNat_ofInt64 2440588
  simp only [UInt64.toNat_add, UInt64.toNat_mul, UInt64.toNat_sub, nsPerS, UInt64.toNat_ofNat',
    UInt64.reduceToNat, UInt8.toNat_toUInt64, UInt16.toNat_toUInt64, UInt32.toNat_toUInt16,
    Nat.mod_add_mod, Nat.add_mod_mod, Nat.mod_mul_mod]
  generalize ordinal t.year.toNat t.month.toNat t.day.toNat = day at hcurrent ⊢
  generalize (UInt64.ofInt (day + 1721059)).toNat = current at hcurrent ⊢
  generalize (UInt64.ofInt 2440588).toNat = epoch at h1970 ⊢
  omega

/-- The value returned is the time from `boot` to `now`. -/
def ReturnsElapsed (boot now : EfiTime) : Prop :=
  ∃ r, uacpiKernelGetNanosecondsSinceBoot boot (some now) = some r ∧
    r.toNat = now.instant - boot.instant

/-- **When the elapsed time is exact.** Days, hours, minutes and seconds always cancel
out, whatever wraps in between; the nanoseconds do just when the halves that are cut off
are the same. -/
theorem returns_elapsed_iff (boot now : EfiTime) (hboot : boot.Valid) (hnow : now.Valid)
    (hle : boot.instant ≤ now.instant) (hlt : now.instant - boot.instant < 2 ^ 64) :
    ReturnsElapsed boot now ↔
      now.nanosecond.toNat / 65536 = boot.nanosecond.toNat / 65536 := by
  obtain ⟨eb, hb, hbval⟩ := hboot.epoch_eq
  obtain ⟨en, hn, hnval⟩ := hnow.epoch_eq
  have hnb := hboot.nanosecond
  have hnn := hnow.nanosecond
  have hreturn : uacpiKernelGetNanosecondsSinceBoot boot (some now) = some (en - eb) := by
    simp only [uacpiKernelGetNanosecondsSinceBoot, hb, hn]
    rfl
  have hvalue : ReturnsElapsed boot now ↔ (en - eb).toNat = now.instant - boot.instant := by
    unfold ReturnsElapsed
    rw [hreturn]
    constructor
    · rintro ⟨r, hr, hval⟩
      rw [Option.some.inj hr]
      exact hval
    · intro hval
      exact ⟨_, rfl, hval⟩
  -- the epochs count from the same second, so that it cancels out
  have hdiff : ((en - eb).toNat : Int) =
      (((now.seconds : Int) - boot.seconds) * 10 ^ 9 +
        (now.nanosecond.toNat % 65536 - boot.nanosecond.toNat % 65536)) % 2 ^ 64 := by
    rw [UInt64.toNat_sub]
    omega
  rw [hvalue]
  unfold EfiTime.instant at hle hlt ⊢
  clear hbval hnval
  omega

/-- A time on the first day of 2000. -/
def timeAt (second : UInt8) (nanosecond : UInt32) : EfiTime :=
  ⟨2000, 1, 1, 0, 0, second, nanosecond⟩

theorem valid_timeAt {second : UInt8} {nanosecond : UInt32} (hs : second.toNat < 60)
    (hn : nanosecond.toNat < 10 ^ 9) : (timeAt second nanosecond).Valid :=
  ⟨by simp [timeAt], by simp [timeAt], by simp [timeAt, monthLength], by simp [timeAt],
    by simp [timeAt], hs, hn⟩

theorem instant_timeAt (second : UInt8) (nanosecond : UInt32) :
    (timeAt second nanosecond).instant =
      (timeAt 0 0).instant + second.toNat * 10 ^ 9 + nanosecond.toNat := by
  simp only [EfiTime.instant, EfiTime.seconds, timeAt, UInt8.toNat_zero, UInt32.toNat_zero]
  omega

theorem returns_elapsed_iff_second : ReturnsElapsed (timeAt 0 500) (timeAt 1 600) := by
  have hboot := instant_timeAt 0 500
  have hnow := instant_timeAt 1 600
  simp only [UInt8.reduceToNat, UInt32.reduceToNat] at hboot hnow
  exact (returns_elapsed_iff (timeAt 0 500) (timeAt 1 600) (valid_timeAt (by decide) (by decide))
    (valid_timeAt (by decide) (by decide)) (by omega) (by omega)).mpr (by decide)

/-- Time jumps back: 65535 ns after boot the answer is right, and one nanosecond later
it is 0. -/
theorem elapsed_jumps_back :
    uacpiKernelGetNanosecondsSinceBoot (timeAt 0 0) (some (timeAt 0 65535)) = some 65535 ∧
      uacpiKernelGetNanosecondsSinceBoot (timeAt 0 0) (some (timeAt 0 65536)) = some 0 ∧
      ¬ ReturnsElapsed (timeAt 0 0) (timeAt 0 65536) := by
  have hzero :
      uacpiKernelGetNanosecondsSinceBoot (timeAt 0 0) (some (timeAt 0 65536)) = some 0 := by
    decide
  refine ⟨by decide, hzero, ?_⟩
  rintro ⟨r, hr, hval⟩
  have hnow := instant_timeAt 0 65536
  simp only [UInt8.reduceToNat, UInt32.reduceToNat] at hnow
  rw [hzero] at hr
  cases hr
  rw [UInt64.toNat_zero] at hval
  omega

end CsmWrap.Boot
