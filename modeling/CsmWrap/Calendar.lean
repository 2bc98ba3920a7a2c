import Mathlib.Order.Nat

/-!
# The Gregorian calendar

Dates with the lengths of the months and the leap rule, the day after a date, and
the number of a day as the days of the years and months before it. The day after
has the next number, and the days before a year have a closed form.
-/

namespace CsmWrap.Calendar

def IsLeap (year : Nat) : Prop := year % 4 = 0 ∧ (year % 100 ≠ 0 ∨ year % 400 = 0)

instance (year : Nat) : Decidable (IsLeap year) := inferInstanceAs (Decidable (_ ∧ _))

def monthLength (year : Nat) : Nat → Nat
  | 2 => if IsLeap year then 29 else 28
  | 4 | 6 | 9 | 11 => 30
  | _ => 31

def yearLength (year : Nat) : Nat := if IsLeap year then 366 else 365

/-- A day of the calendar. -/
@[ext] structure Date where
  year : Nat
  month : Nat
  day : Nat
  month_pos : 1 ≤ month
  month_le : month ≤ 12
  day_pos : 1 ≤ day
  day_le : day ≤ monthLength year month

theorem monthLength_pos (year month : Nat) : 1 ≤ monthLength year month := by
  unfold monthLength
  split
  · split <;> omega
  all_goals omega

theorem monthLength_le (year month : Nat) : monthLength year month ≤ 31 := by
  unfold monthLength
  split
  · split <;> omega
  all_goals omega

/-- The following day. -/
def Date.next (d : Date) : Date :=
  if hday : d.day < monthLength d.year d.month then
    ⟨d.year, d.month, d.day + 1, d.month_pos, d.month_le, by omega, hday⟩
  else if hmonth : d.month < 12 then
    ⟨d.year, d.month + 1, 1, by omega, hmonth, le_rfl, monthLength_pos _ _⟩
  else ⟨d.year + 1, 1, 1, le_rfl, by omega, le_rfl, monthLength_pos _ _⟩

/-- The days of the years from 0 on, up to a year. -/
def daysBeforeYear : Nat → Nat
  | 0 => 0
  | year + 1 => daysBeforeYear year + yearLength year

/-- The days of the months from 1 on, up to a month. -/
def daysBeforeMonth (year : Nat) : Nat → Nat
  | 0 | 1 => 0
  | month + 2 => daysBeforeMonth year (month + 1) + monthLength year (month + 1)

def ordinal (year month day : Nat) : Nat := daysBeforeYear year + daysBeforeMonth year month + day

def Date.ordinal (d : Date) : Nat := Calendar.ordinal d.year d.month d.day

theorem daysBeforeMonth_succ (year : Nat) {month : Nat} (h : 1 ≤ month) :
    daysBeforeMonth year (month + 1) = daysBeforeMonth year month + monthLength year month := by
  obtain ⟨month, rfl⟩ := Nat.exists_eq_add_of_le' h
  rfl

/-- The months make up the year. -/
theorem daysBeforeMonth_year (year : Nat) : daysBeforeMonth year 13 = yearLength year := by
  simp only [daysBeforeMonth, monthLength, yearLength]
  split <;> rfl

/-- The following day has the following number. -/
theorem ordinal_next (d : Date) : d.next.ordinal = d.ordinal + 1 := by
  have hday := d.day_le
  have hmonth := daysBeforeMonth_succ d.year d.month_pos
  unfold Date.next Date.ordinal Calendar.ordinal
  split
  · rfl
  · split
    · dsimp only
      omega
    · -- the last day of the year
      have hlast : d.month = 12 := by
        have := d.month_le
        omega
      have hyear : daysBeforeMonth d.year 12 + monthLength d.year 12 = yearLength d.year :=
        (daysBeforeMonth_succ d.year (by decide)).symm.trans (daysBeforeMonth_year d.year)
      have hend : d.day = monthLength d.year 12 := by
        rw [← hlast]
        omega
      change daysBeforeYear d.year + yearLength d.year + 0 + 1 = _
      rw [hlast]
      omega

/-- A year adds one to the multiples of `d` before it when it is one of them. -/
theorem ediv_step {d : Int} (hd : 0 < d) (y : Int) :
    y / d = (y - 1) / d + if y % d = 0 then 1 else 0 := by
  have hy := Int.mul_ediv_add_emod (y - 1) d
  have hlow := Int.emod_nonneg (y - 1) (Int.ne_of_gt hd)
  have hhigh := Int.emod_lt_of_pos (y - 1) hd
  by_cases hlast : (y - 1) % d + 1 = d
  · -- the next multiple of d
    have hnext : y / d = (y - 1) / d + 1 ∧ y % d = 0 :=
      (Int.ediv_emod_unique hd).mpr ⟨by rw [Int.mul_add]; omega, Int.le_refl 0, hd⟩
    rw [if_pos hnext.2, hnext.1]
  · have hsame : y / d = (y - 1) / d ∧ y % d = (y - 1) % d + 1 :=
      (Int.ediv_emod_unique hd).mpr ⟨by omega, by omega, by omega⟩
    rw [if_neg (by omega), hsame.1, Int.add_zero]

theorem yearLength_eq (year : Nat) :
    (yearLength year : Int) = 365 + (if (year : Int) % 4 = 0 then 1 else 0)
      - (if (year : Int) % 100 = 0 then 1 else 0) + if (year : Int) % 400 = 0 then 1 else 0 := by
  by_cases hleap : IsLeap year
  · rw [yearLength, if_pos hleap]
    unfold IsLeap at hleap
    omega
  · rw [yearLength, if_neg hleap]
    unfold IsLeap at hleap
    omega

/-- The days before a year, by the leap rule. -/
theorem daysBeforeYear_eq (year : Nat) :
    (daysBeforeYear year : Int) =
      365 * year + (year - 1) / 4 - (year - 1) / 100 + (year - 1) / 400 + 1 := by
  induction year with
  | zero => rfl
  | succ year ih =>
    have h4 := ediv_step (by decide : (0 : Int) < 4) year
    have h100 := ediv_step (by decide : (0 : Int) < 100) year
    have h400 := ediv_step (by decide : (0 : Int) < 400) year
    rw [daysBeforeYear]
    push_cast
    rw [ih, yearLength_eq, Int.add_sub_cancel, h4, h100, h400]
    generalize ((year : Int) - 1) / 4 = a, ((year : Int) - 1) / 100 = b,
      ((year : Int) - 1) / 400 = c
    omega

end CsmWrap.Calendar
