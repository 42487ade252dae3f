import Mathlib.Tactic.IntervalCases

/-! The proleptic Gregorian calendar: its dates, and the days between them and 1970-01-01. -/

namespace Gregorian

def Leap (y : Int) : Prop :=
  4 ∣ y ∧ (¬ 100 ∣ y ∨ 400 ∣ y)

instance decidableLeap (y : Int) : Decidable (Leap y) :=
  inferInstanceAs (Decidable (4 ∣ y ∧ (¬ 100 ∣ y ∨ 400 ∣ y)))

def monthLength (y m : Int) : Int :=
  if m = 2 then if Leap y then 29 else 28
  else if m = 4 ∨ m = 6 ∨ m = 9 ∨ m = 11 then 30
  else 31

structure Date where
  year : Int
  month : Int
  day : Int
  deriving DecidableEq, Repr

structure Date.Valid (t : Date) : Prop where
  month_pos : 1 ≤ t.month
  month_le : t.month ≤ 12
  day_pos : 1 ≤ t.day
  day_le : t.day ≤ monthLength t.year t.month

/-- Leap years from year 1 up to a year. -/
def leapsUpTo (y : Int) : Int :=
  y / 4 - y / 100 + y / 400

/-- The days of the first months of a year. -/
def monthStart (y : Int) : Nat → Int
  | 0 => 0
  | m + 1 => monthStart y m + monthLength y (m + 1)

/-- Days from 1970-01-01. -/
def days (t : Date) : Int :=
  365 * (t.year - 1970) + (leapsUpTo (t.year - 1) - leapsUpTo 1969) +
    monthStart t.year (t.month - 1).toNat + (t.day - 1)

/-- The following day. -/
def Date.next (t : Date) : Date :=
  if t.day < monthLength t.year t.month then ⟨t.year, t.month, t.day + 1⟩
  else if t.month < 12 then ⟨t.year, t.month + 1, 1⟩
  else ⟨t.year + 1, 1, 1⟩

theorem leapsUpTo_succ (y : Int) :
    leapsUpTo y = leapsUpTo (y - 1) + if Leap y then 1 else 0 := by
  unfold leapsUpTo Leap
  split_ifs <;> omega

theorem yearLength (y : Int) : monthStart y 12 = 365 + if Leap y then 1 else 0 := by
  simp only [monthStart, monthLength]
  by_cases h : Leap y
  · simp [h]
  · simp [h]

example : days ⟨1970, 1, 1⟩ = 0 := by decide

theorem monthLength_pos (y m : Int) : 28 ≤ monthLength y m := by
  unfold monthLength
  split_ifs <;> omega

theorem monthLength_le (y m : Int) : monthLength y m ≤ 31 := by
  unfold monthLength
  split_ifs <;> omega

/-- `days` counts: a day later is a day more. -/
theorem days_next {t : Date} (h : t.Valid) : days t.next = days t + 1 := by
  have hday := h.day_le
  have hmonth := h.month_pos
  unfold Date.next
  by_cases hin : t.day < monthLength t.year t.month
  · rw [if_pos hin]
    simp only [days]
    omega
  · rw [if_neg hin]
    by_cases hyear : t.month < 12
    · have hstart : monthStart t.year (t.month + 1 - 1).toNat =
          monthStart t.year (t.month - 1).toNat + monthLength t.year t.month := by
        have hsucc : (t.month + 1 - 1).toNat = (t.month - 1).toNat + 1 := by omega
        have hback : ((t.month - 1).toNat : Int) + 1 = t.month := by omega
        rw [hsucc, monthStart, hback]
      rw [if_pos hyear]
      simp only [days, hstart]
      omega
    · have hlast : t.month = 12 := by
        have hle := h.month_le
        omega
      have hstart : monthStart t.year (t.month - 1).toNat + monthLength t.year t.month =
          monthStart t.year 12 := by
        rw [hlast]
        rfl
      have hleap := leapsUpTo_succ t.year
      have hlength := yearLength t.year
      have hfirst : monthStart (t.year + 1) ((1 : Int) - 1).toNat = 0 := rfl
      rw [if_neg hyear]
      simp only [days, hfirst, Int.add_sub_cancel]
      omega

theorem valid_next {t : Date} (h : t.Valid) : t.next.Valid := by
  have hday := h.day_pos
  have hmonth := h.month_pos
  have hle := h.month_le
  unfold Date.next
  by_cases hin : t.day < monthLength t.year t.month
  · rw [if_pos hin]
    exact ⟨hmonth, hle, by simp only; omega, hin⟩
  · rw [if_neg hin]
    by_cases hyear : t.month < 12
    · rw [if_pos hyear]
      have hlength := monthLength_pos t.year (t.month + 1)
      exact ⟨by simp only; omega, hyear, Int.le_refl 1, by simp only; omega⟩
    · rw [if_neg hyear]
      have hlength := monthLength_pos (t.year + 1) 1
      exact ⟨Int.le_refl 1, by simp only; omega, Int.le_refl 1, by simp only; omega⟩

theorem monthStart_bounds (y : Int) (m : Nat) : 0 ≤ monthStart y m ∧ monthStart y m ≤ 31 * m := by
  induction m with
  | zero => exact ⟨Int.le_refl 0, Int.le_refl 0⟩
  | succ m ih =>
    have hpos := monthLength_pos y (m + 1)
    have hle := monthLength_le y (m + 1)
    rw [monthStart]
    omega

/-- A year has more than one day. -/
theorem year_near {t : Date} (h : t.Valid) : (t.year - 1970).natAbs ≤ (days t).natAbs + 1 := by
  obtain ⟨hm, hm', hd, hd'⟩ := h
  have hstart := monthStart_bounds t.year (t.month - 1).toNat
  have hlength := monthLength_le t.year t.month
  unfold days leapsUpTo
  omega

/-- The month of a year that begins in March, and its calendar year. -/
def marchMonth (mp : Int) : Int :=
  if mp < 10 then mp + 3 else mp - 9

def marchYear (y mp : Int) : Int :=
  if marchMonth mp ≤ 2 then y + 1 else y

theorem monthStart_march (y mp : Int) (hmp : 0 ≤ mp) (hle : mp ≤ 9) :
    monthStart y (mp + 2).toNat = (153 * mp + 2) / 5 + 59 + if Leap y then 1 else 0 := by
  by_cases h : Leap y
  · interval_cases mp <;> simp [monthStart, monthLength, h]
  · interval_cases mp <;> simp [monthStart, monthLength, h]

/-- Counted in years that begin in March the leap day comes last, and the months before it
follow one formula. -/
theorem days_march (y mp d : Int) (hmp : 0 ≤ mp) (hle : mp ≤ 11) :
    days ⟨marchYear y mp, marchMonth mp, d⟩ =
      365 * y + leapsUpTo y + (153 * mp + 2) / 5 + d - 1 - 719468 := by
  have hstart : leapsUpTo 1969 = 477 := by decide
  by_cases hsame : mp < 10
  · have hmonth : marchMonth mp = mp + 3 := if_pos hsame
    have hyear : marchYear y mp = y := by
      rw [marchYear, hmonth]
      exact if_neg (by omega)
    have hback : mp + 3 - 1 = mp + 2 := by omega
    have hleap := leapsUpTo_succ y
    have hdays := monthStart_march y mp hmp (by omega)
    simp only [days, hyear, hmonth, hback, hstart]
    omega
  · have hmonth : marchMonth mp = mp - 9 := if_neg hsame
    have hyear : marchYear y mp = y + 1 := by
      rw [marchYear, hmonth]
      exact if_pos (by omega)
    have hdays : monthStart (y + 1) (mp - 9 - 1).toNat = 31 * (mp - 10) := by
      have hlast : mp = 10 ∨ mp = 11 := by omega
      rcases hlast with rfl | rfl <;> rfl
    simp only [days, hyear, hmonth, hdays, hstart, Int.add_sub_cancel]
    omega

/-- The same with the days of a month that begins in March. -/
theorem monthLength_march (y mp : Int) (hmp : 0 ≤ mp) (hle : mp ≤ 10) :
    monthLength (marchYear y mp) (marchMonth mp) =
      (153 * (mp + 1) + 2) / 5 - (153 * mp + 2) / 5 := by
  interval_cases mp <;> rfl

theorem monthLength_february (y : Int) :
    monthLength (marchYear y 11) (marchMonth 11) = 28 + if Leap (y + 1) then 1 else 0 := by
  have hyear : marchYear y 11 = y + 1 := rfl
  have hmonth : marchMonth 11 = 2 := rfl
  rw [hyear, hmonth, monthLength, if_pos rfl]
  split_ifs <;> rfl

end Gregorian
