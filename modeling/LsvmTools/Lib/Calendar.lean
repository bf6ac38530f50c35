import Mathlib.Algebra.BigOperators.Intervals
import Mathlib.Algebra.Order.BigOperators.Group.Finset

/-! # The Gregorian calendar

Dates are counted by adding up the days of the years and months before them. -/
namespace LsvmTools.Lib.Calendar

def isLeap (year : Nat) : Bool := year % 4 = 0 && (year % 100 ≠ 0 || year % 400 = 0)

def daysInYear (year : Nat) : Nat := if isLeap year then 366 else 365

def daysInMonth (year month : Nat) : Nat :=
  if month = 2 then if isLeap year then 29 else 28
  else if month ∈ [4, 6, 9, 11] then 30 else 31

structure Date where
  year : Nat
  month : Nat
  day : Nat
  month_pos : 0 < month
  month_le : month ≤ 12
  day_pos : 0 < day
  day_le : day ≤ daysInMonth year month

structure Time where
  hour : Nat
  minute : Nat
  second : Nat
  hour_lt : hour < 24
  minute_lt : minute < 60
  second_lt : second < 60

structure Moment where
  date : Date
  time : Time

/-- The days from the first of January of the year to a date. -/
def Date.daysSince (d : Date) (epoch : Nat) : Nat :=
  ∑ y ∈ Finset.Ico epoch d.year, daysInYear y +
    ∑ m ∈ Finset.Ico 1 d.month, daysInMonth d.year m + (d.day - 1)

def Time.seconds (t : Time) : Nat := t.hour * 3600 + t.minute * 60 + t.second

def Moment.secondsSince (t : Moment) (epoch : Nat) : Nat :=
  t.date.daysSince epoch * 86400 + t.time.seconds

/-- What moments are ordered by. -/
def Moment.fields (t : Moment) : List Nat :=
  [t.date.year, t.date.month, t.date.day, t.time.hour, t.time.minute, t.time.second]

variable {year month epoch : Nat}

/-! ## Years and months -/

theorem isLeap_iff : isLeap year = true ↔ year % 4 = 0 ∧ (year % 100 ≠ 0 ∨ year % 400 = 0) := by
  simp [isLeap]

theorem sum_year (year : Nat) : ∑ m ∈ Finset.Ico 1 13, daysInMonth year m = daysInYear year := by
  cases h : isLeap year <;> simp [Finset.sum_Ico_succ_top, daysInMonth, daysInYear, h]

/-- The number of leap years before a year. -/
def leapsBefore (year : Nat) : Nat := (year + 3) / 4 - (year + 99) / 100 + (year + 399) / 400

/-- The numbers below one that is divided, counted. -/
theorem div_succ (year : Nat) {n : Nat} (hn : 0 < n) :
    (year + 1 + (n - 1)) / n = (year + (n - 1)) / n + if year % n = 0 then 1 else 0 := by
  have hsum : year + 1 + (n - 1) = year + n := by omega
  rw [hsum, Nat.add_div_right _ hn]
  split
  · rename_i h
    obtain ⟨k, rfl⟩ := Nat.dvd_of_mod_eq_zero h
    rw [Nat.mul_add_div hn, Nat.mul_div_cancel_left _ hn, Nat.div_eq_of_lt (Nat.sub_one_lt_of_lt hn)]
  · rename_i h
    have hr := Nat.mod_lt year hn
    have hdiv : (year + (n - 1)) / n = year / n + 1 := by
      refine Nat.div_eq_of_lt_le ?_ ?_
      · have hsplit := Nat.div_add_mod year n
        rw [Nat.succ_mul, Nat.mul_comm]
        omega
      · have hsplit := Nat.div_add_mod year n
        rw [Nat.succ_mul, Nat.succ_mul, Nat.mul_comm]
        omega
    rw [hdiv]

theorem leapsBefore_succ (year : Nat) :
    leapsBefore (year + 1) = leapsBefore year + if isLeap year then 1 else 0 := by
  have h4 : (year + 1 + 3) / 4 = (year + 3) / 4 + if year % 4 = 0 then 1 else 0 :=
    div_succ year (Nat.succ_pos _)
  have h100 : (year + 1 + 99) / 100 = (year + 99) / 100 + if year % 100 = 0 then 1 else 0 :=
    div_succ year (Nat.succ_pos _)
  have h400 : (year + 1 + 399) / 400 = (year + 399) / 400 + if year % 400 = 0 then 1 else 0 :=
    div_succ year (Nat.succ_pos _)
  have hle : (year + 99) / 100 ≤ (year + 3) / 4 := by omega
  rw [leapsBefore, leapsBefore, h4, h100, h400]
  by_cases hleap : year % 4 = 0 ∧ (year % 100 ≠ 0 ∨ year % 400 = 0)
  · rw [if_pos (isLeap_iff.mpr hleap), if_pos hleap.1]
    split_ifs <;> omega
  · rw [if_neg (mt isLeap_iff.mp hleap)]
    split_ifs <;> omega

/-- The days of the years from one to another. -/
theorem sum_years (h : epoch ≤ year) :
    ∑ y ∈ Finset.Ico epoch year, daysInYear y + (epoch * 365 + leapsBefore epoch) =
      year * 365 + leapsBefore year := by
  induction year, h using Nat.le_induction with
  | base => rw [Finset.Ico_self, Finset.sum_empty, Nat.zero_add]
  | succ year h ih =>
    rw [Finset.sum_Ico_succ_top h, leapsBefore_succ, daysInYear]
    split <;> omega

/-- A date is one of its year. -/
theorem Date.day_of_year (d : Date) :
    ∑ m ∈ Finset.Ico 1 d.month, daysInMonth d.year m + d.day ≤ daysInYear d.year := by
  have hsub : Finset.Ico 1 (d.month + 1) ⊆ Finset.Ico 1 13 :=
    Finset.Ico_subset_Ico_right (Nat.succ_le_succ d.month_le)
  have hle := Finset.sum_le_sum_of_subset (f := daysInMonth d.year) hsub
  rw [sum_year, Finset.sum_Ico_succ_top (Nat.one_le_of_lt d.month_pos)] at hle
  have hday := d.day_le
  omega

/-! ## Order -/

/-- A later month begins behind a date. -/
theorem Date.day_of_month (d : Date) (h : d.month < month) :
    ∑ m ∈ Finset.Ico 1 d.month, daysInMonth d.year m + d.day ≤
      ∑ m ∈ Finset.Ico 1 month, daysInMonth d.year m := by
  have hsub : Finset.Ico 1 (d.month + 1) ⊆ Finset.Ico 1 month := Finset.Ico_subset_Ico_right h
  have hle := Finset.sum_le_sum_of_subset (f := daysInMonth d.year) hsub
  rw [Finset.sum_Ico_succ_top (Nat.one_le_of_lt d.month_pos)] at hle
  have hday := d.day_le
  omega

/-- A later year begins behind a date. -/
theorem Date.daysSince_year (d : Date) (he : epoch ≤ d.year) (h : d.year < year) :
    d.daysSince epoch < ∑ y ∈ Finset.Ico epoch year, daysInYear y := by
  have hsub : Finset.Ico epoch (d.year + 1) ⊆ Finset.Ico epoch year :=
    Finset.Ico_subset_Ico_right h
  have hle := Finset.sum_le_sum_of_subset (f := daysInYear) hsub
  rw [Finset.sum_Ico_succ_top he] at hle
  have hyear := d.day_of_year
  have hpos := d.day_pos
  rw [daysSince]
  omega

theorem Date.daysSince_lt {d d' : Date} (he : epoch ≤ d.year)
    (h : [d.year, d.month, d.day] < [d'.year, d'.month, d'.day]) :
    d.daysSince epoch < d'.daysSince epoch := by
  rw [List.cons_lt_cons_iff, List.cons_lt_cons_iff, List.cons_lt_cons_iff] at h
  rcases h with h | ⟨hyear, h | ⟨hmonth, h | ⟨-, h⟩⟩⟩
  · exact Nat.lt_of_lt_of_le (d.daysSince_year he h)
      (Nat.le_trans (Nat.le_add_right _ _) (Nat.le_add_right _ _))
  · have hle := d.day_of_month h
    have hpos := d.day_pos
    rw [daysSince, daysSince, ← hyear]
    omega
  · have hpos := d.day_pos
    rw [daysSince, daysSince, ← hyear, ← hmonth]
    omega
  · cases h

theorem Time.seconds_lt (t : Time) : t.seconds < 86400 := by
  have hh := t.hour_lt
  have hm := t.minute_lt
  have hs := t.second_lt
  rw [seconds]
  omega

/-- The later of two moments has the greater number. -/
theorem Moment.secondsSince_lt {t t' : Moment} (he : epoch ≤ t.date.year)
    (h : t.fields < t'.fields) : t.secondsSince epoch < t'.secondsSince epoch := by
  have hs := t.time.seconds_lt
  by_cases hdate : [t.date.year, t.date.month, t.date.day] <
      [t'.date.year, t'.date.month, t'.date.day]
  · have hlt := Date.daysSince_lt he hdate
    rw [secondsSince, secondsSince]
    omega
  · simp only [fields, List.cons_lt_cons_iff, List.not_lt_nil, and_false, or_false] at h hdate
    obtain ⟨hyear, hmonth, hday, htime⟩ : t.date.year = t'.date.year ∧
        t.date.month = t'.date.month ∧ t.date.day = t'.date.day ∧
        t.time.seconds < t'.time.seconds := by
      have hm := t.time.minute_lt
      have hsec := t.time.second_lt
      rw [Time.seconds, Time.seconds]
      omega
    have hsame : t.date.daysSince epoch = t'.date.daysSince epoch := by
      rw [Date.daysSince, hyear, hmonth, hday, Date.daysSince]
    rw [secondsSince, secondsSince, hsame]
    omega

end LsvmTools.Lib.Calendar
