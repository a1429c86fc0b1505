import Mathlib.Order.Compare
import Mathlib.Algebra.Order.Ring.Int
import Mathlib.Tactic.Linarith

/-!
# The order of calendar dates

Days of the Gregorian calendar are numbered from the first day of the year `0`. Of two valid dates
the one with the smaller year, or else month, or else day has the smaller number
(`compare_dayNumber`).

Numbers with several places are compared place by place (`compare_radix`).
-/

namespace RulesForge

/-! ### Places -/

section Places

variable {a a' b b' base : ℤ}

/-- A number and a place below it, in one number. -/
theorem compare_radix (hb : 0 ≤ b ∧ b < base) (hb' : 0 ≤ b' ∧ b' < base) :
    (compare a a').then (compare b b') = compare (a * base + b) (a' * base + b') := by
  have hfirst : ∀ {a a' b b' : ℤ}, a < a' → b < base → 0 ≤ b' →
      a * base + b < a' * base + b' := by
    intro a a' b b' h hb hb'
    nlinarith
  rcases lt_trichotomy a a' with h | h | h
  · rw [compare_lt_iff_lt.mpr h, compare_lt_iff_lt.mpr (hfirst h hb.2 hb'.1)]
    rfl
  · rw [h, compare_eq_iff_eq.mpr rfl, Ordering.eq_then]
    rcases lt_trichotomy b b' with h' | h' | h'
    · rw [compare_lt_iff_lt.mpr h', compare_lt_iff_lt.mpr (by omega)]
    · rw [h', compare_eq_iff_eq.mpr rfl, compare_eq_iff_eq.mpr rfl]
    · rw [compare_gt_iff_gt.mpr h', compare_gt_iff_gt.mpr (by omega)]
  · rw [compare_gt_iff_gt.mpr h, compare_gt_iff_gt.mpr (hfirst h hb'.2 hb.1)]
    rfl

end Places

/-! ### Dates -/

/-- Whether a year has 366 days. -/
def isLeapYear (year : ℤ) : Bool :=
  year % 4 = 0 ∧ (year % 100 ≠ 0 ∨ year % 400 = 0)

/-- The days of a year before a month. -/
def daysBeforeMonth (leap : Bool) (month : ℤ) : ℤ :=
  (([31, if leap then 29 else 28, 31, 30, 31, 30, 31, 31, 30, 31, 30, 31] : List ℤ).take
    (month - 1).toNat).sum

def daysInMonth (leap : Bool) (month : ℤ) : ℤ :=
  daysBeforeMonth leap (month + 1) - daysBeforeMonth leap month

/-- The days from the beginning of the year `0` to that of another one. -/
def daysBeforeYear (year : ℤ) : ℤ :=
  365 * year + (year + 3) / 4 - (year + 99) / 100 + (year + 399) / 400

/-- A day of the calendar. -/
structure ValidDate (year month day : ℤ) : Prop where
  month_pos : 1 ≤ month
  month_le : month ≤ 12
  day_pos : 1 ≤ day
  day_le : day ≤ daysInMonth (isLeapYear year) month

def dayNumber (year month day : ℤ) : ℤ :=
  daysBeforeYear year + daysBeforeMonth (isLeapYear year) month + day - 1

theorem daysBeforeMonth_mono {leap : Bool} {m m' : ℤ} (hm : 1 ≤ m) (h : m ≤ m') (hm' : m' ≤ 13) :
    daysBeforeMonth leap m ≤ daysBeforeMonth leap m' := by
  have hall : ∀ leap : Bool, ∀ i j : Fin 13, i ≤ j →
      daysBeforeMonth leap (i + 1) ≤ daysBeforeMonth leap (j + 1) := by decide
  have hle := hall leap ⟨(m - 1).toNat, by omega⟩ ⟨(m' - 1).toNat, by omega⟩
    (Fin.mk_le_mk.mpr (by omega))
  have hi : (((m - 1).toNat : ℕ) : ℤ) + 1 = m := by omega
  have hj : (((m' - 1).toNat : ℕ) : ℤ) + 1 = m' := by omega
  rwa [hi, hj] at hle

theorem daysBeforeMonth_one (leap : Bool) : daysBeforeMonth leap 1 = 0 := rfl

/-- The months fill the year. -/
theorem daysBeforeYear_succ (year : ℤ) :
    daysBeforeYear (year + 1) = daysBeforeYear year + daysBeforeMonth (isLeapYear year) 13 := by
  have hlength : ∀ leap : Bool, daysBeforeMonth leap 13 = if leap then 366 else 365 := by decide
  rw [hlength, daysBeforeYear, daysBeforeYear]
  by_cases hleap : isLeapYear year = true
  · have hdivides : year % 4 = 0 ∧ (year % 100 ≠ 0 ∨ year % 400 = 0) := of_decide_eq_true hleap
    rw [if_pos hleap]
    omega
  · have hdivides : ¬ (year % 4 = 0 ∧ (year % 100 ≠ 0 ∨ year % 400 = 0)) :=
      fun h ↦ hleap (decide_eq_true h)
    rw [if_neg hleap]
    omega

theorem daysBeforeYear_mono {y y' : ℤ} (h : y ≤ y') : daysBeforeYear y ≤ daysBeforeYear y' := by
  unfold daysBeforeYear
  omega

section Order

variable {y m d y' m' d' : ℤ}

/-- A date is before the end of its month. -/
theorem ValidDate.dayNumber_lt (h : ValidDate y m d) :
    dayNumber y m d < daysBeforeYear y + daysBeforeMonth (isLeapYear y) (m + 1) := by
  have hday := h.day_le
  unfold daysInMonth at hday
  unfold dayNumber
  omega

theorem ValidDate.le_dayNumber (h : ValidDate y m d) :
    daysBeforeYear y + daysBeforeMonth (isLeapYear y) m ≤ dayNumber y m d := by
  have hday := h.day_pos
  unfold dayNumber
  omega

theorem dayNumber_lt_of_year (h : ValidDate y m d) (h' : ValidDate y' m' d') (hlt : y < y') :
    dayNumber y m d < dayNumber y' m' d' := by
  have hend := h.dayNumber_lt
  have hmonths : daysBeforeMonth (isLeapYear y) (m + 1) ≤ daysBeforeMonth (isLeapYear y) 13 :=
    daysBeforeMonth_mono (by have := h.month_pos; omega) (by have := h.month_le; omega) (by omega)
  have hsucc := daysBeforeYear_succ y
  have hyears : daysBeforeYear (y + 1) ≤ daysBeforeYear y' := daysBeforeYear_mono hlt
  have hbegin := h'.le_dayNumber
  have hzero : daysBeforeMonth (isLeapYear y') 1 ≤ daysBeforeMonth (isLeapYear y') m' :=
    daysBeforeMonth_mono (by omega) h'.month_pos (by have := h'.month_le; omega)
  rw [daysBeforeMonth_one] at hzero
  omega

theorem dayNumber_lt_of_month (h : ValidDate y m d) (h' : ValidDate y m' d') (hlt : m < m') :
    dayNumber y m d < dayNumber y m' d' := by
  have hend := h.dayNumber_lt
  have hmonths : daysBeforeMonth (isLeapYear y) (m + 1) ≤ daysBeforeMonth (isLeapYear y) m' :=
    daysBeforeMonth_mono (by have := h.month_pos; omega) hlt (by have := h'.month_le; omega)
  have hbegin := h'.le_dayNumber
  omega

/-- **Dates** are ordered by year, month and day. -/
theorem compare_dayNumber (h : ValidDate y m d) (h' : ValidDate y' m' d') :
    (compare y y').then ((compare m m').then (compare d d')) =
      compare (dayNumber y m d) (dayNumber y' m' d') := by
  rcases lt_trichotomy y y' with hy | hy | hy
  · rw [compare_lt_iff_lt.mpr hy, compare_lt_iff_lt.mpr (dayNumber_lt_of_year h h' hy)]
    rfl
  · subst hy
    rw [compare_eq_iff_eq.mpr rfl, Ordering.eq_then]
    rcases lt_trichotomy m m' with hm | hm | hm
    · rw [compare_lt_iff_lt.mpr hm, compare_lt_iff_lt.mpr (dayNumber_lt_of_month h h' hm)]
      rfl
    · subst hm
      rw [compare_eq_iff_eq.mpr rfl, Ordering.eq_then]
      unfold dayNumber
      rcases lt_trichotomy d d' with hd | hd | hd
      · rw [compare_lt_iff_lt.mpr hd, compare_lt_iff_lt.mpr (by omega)]
      · rw [hd, compare_eq_iff_eq.mpr rfl, compare_eq_iff_eq.mpr rfl]
      · rw [compare_gt_iff_gt.mpr hd, compare_gt_iff_gt.mpr (by omega)]
    · rw [compare_gt_iff_gt.mpr hm, compare_gt_iff_gt.mpr (dayNumber_lt_of_month h' h hm)]
      rfl
  · rw [compare_gt_iff_gt.mpr hy, compare_gt_iff_gt.mpr (dayNumber_lt_of_year h' h hy)]
    rfl

end Order

end RulesForge
