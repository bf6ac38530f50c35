import LsvmTools.Lib.Calendar
import Mathlib.Tactic.IntervalCases

/-! # The time of the day

`_secs_since_epoch` computes with years that begin in March. -/
namespace LsvmTools.Posix.Time
open Lib.Calendar

/-- `_secs_since_epoch`. -/
def secsSinceEpoch (year month day hours minutes seconds : UInt64) : UInt64 :=
  let tmp := (14 - month) / 12
  let y := year + 4800 - tmp
  let m := month + 12 * tmp - 3
  let julianDays :=
    day + (153 * m + 2) / 5 + y * 365 + y / 4 - y / 100 + y / 400 - 32045
  let posixDays := julianDays - 2440588
  posixDays * 24 * 60 * 60 + hours * 60 * 60 + minutes * 60 + seconds

/-- `EFI_TIME`. -/
structure EfiTime where
  year : UInt16
  month : UInt8
  day : UInt8
  hour : UInt8
  minute : UInt8
  second : UInt8

/-- `posix_time`, with what `GetTime` returns: the result and what is stored for the caller. -/
def posixTime (now : Option EfiTime) (timer : Bool) : UInt64 × Option UInt64 :=
  match now with
  | none => (0, if timer then some 0 else none)
  | some t =>
    let secs := secsSinceEpoch t.year.toUInt64 t.month.toUInt64 t.day.toUInt64 t.hour.toUInt64
      t.minute.toUInt64 t.second.toUInt64
    (secs, if timer then some secs else none)

/-- The moment as arguments of `_secs_since_epoch`. -/
def secs (t : Moment) : UInt64 :=
  secsSinceEpoch (.ofNat t.date.year) (.ofNat t.date.month) (.ofNat t.date.day)
    (.ofNat t.time.hour) (.ofNat t.time.minute) (.ofNat t.time.second)

/-! ## Counting from March -/

/-- The number of days that the source computes, before the epoch is taken off. -/
def marchDays (year month day : Nat) : Nat :=
  let tmp := (14 - month) / 12
  let y := year + 4800 - tmp
  day + (153 * (month + 12 * tmp - 3) + 2) / 5 + y * 365 + y / 4 - y / 100 + y / 400

theorem leaps_eq (y : Nat) : y / 4 - y / 100 + y / 400 + 1 = leapsBefore (y + 1) := by
  have hle : y / 100 ≤ y / 4 := by omega
  have h4 : (y + 1 + 3) / 4 = y / 4 + 1 := Nat.add_div_right y (Nat.succ_pos _)
  have h100 : (y + 1 + 99) / 100 = y / 100 + 1 := Nat.add_div_right y (Nat.succ_pos _)
  have h400 : (y + 1 + 399) / 400 = y / 400 + 1 := Nat.add_div_right y (Nat.succ_pos _)
  rw [leapsBefore, h4, h100, h400]
  omega

theorem leapsBefore_shift (y : Nat) : leapsBefore (y + 4800) = leapsBefore y + 1164 := by
  have hle : (y + 99) / 100 ≤ (y + 3) / 4 := by omega
  have h4 : (y + 4800 + 3) / 4 = (y + 3) / 4 + 1200 := by omega
  have h100 : (y + 4800 + 99) / 100 = (y + 99) / 100 + 48 := by omega
  have h400 : (y + 4800 + 399) / 400 = (y + 399) / 400 + 12 := by omega
  rw [leapsBefore, leapsBefore, h4, h100, h400]
  omega

/-- The days of the months before one, counted from March. -/
theorem marchMonths (year : Nat) {month : Nat} (hpos : 0 < month) (hle : month ≤ 12) :
    (153 * (month + 12 * ((14 - month) / 12) - 3) + 2) / 5 +
        (if month ≤ 2 then 0 else daysInMonth year 1 + daysInMonth year 2) =
      ∑ m ∈ Finset.Ico 1 month, daysInMonth year m + if month ≤ 2 then 306 else 0 := by
  interval_cases month <;> cases h : isLeap year <;>
    simp [Finset.sum_Ico_succ_top, daysInMonth, h]

/-- Counting from March is counting. -/
theorem marchDays_eq (d : Date) (h : 1970 ≤ d.year) :
    marchDays d.year d.month d.day = d.daysSince 1970 + 2472633 := by
  have hyears := sum_years h
  have hday := d.day_pos
  have hmonths := marchMonths d.year d.month_pos d.month_le
  have hshift := leapsBefore_shift d.year
  have hepoch : leapsBefore 1970 = 478 := by decide
  rw [Date.daysSince, marchDays]
  by_cases hmarch : d.month ≤ 2
  · -- the year before, in which February comes last
    have htmp : (14 - d.month) / 12 = 1 := by
      have hpos := d.month_pos
      omega
    have hleaps := leaps_eq (d.year + 4799)
    have hyear : d.year + 4800 - 1 = d.year + 4799 := rfl
    have hnext : d.year + 4799 + 1 = d.year + 4800 := rfl
    have hdiv : (d.year + 4799) / 100 ≤ (d.year + 4799) / 4 := by omega
    rw [htmp] at hmonths ⊢
    rw [if_pos hmarch, if_pos hmarch] at hmonths
    rw [hnext] at hleaps
    rw [hyear]
    omega
  · have htmp : (14 - d.month) / 12 = 0 := by omega
    have hleaps := leaps_eq (d.year + 4800)
    have hshift' := leapsBefore_shift (d.year + 1)
    have hsucc := leapsBefore_succ d.year
    have hdiv : (d.year + 4800) / 100 ≤ (d.year + 4800) / 4 := by omega
    have hfeb : daysInMonth d.year 1 + daysInMonth d.year 2 =
        59 + if isLeap d.year then 1 else 0 := by
      cases h : isLeap d.year <;> simp [daysInMonth, h]
    have hnext : d.year + 4800 + 1 = d.year + 1 + 4800 := by omega
    rw [htmp] at hmonths ⊢
    rw [if_neg hmarch, if_neg hmarch, hfeb] at hmonths
    rw [hnext] at hleaps
    rw [Nat.sub_zero]
    omega

/-! ## 64-bit arithmetic -/

section Words

variable {year month day hours minutes seconds : UInt64}

theorem toNat_add_of {a b : UInt64} {x y : Nat} (ha : a.toNat = x) (hb : b.toNat = y)
    (h : x + y < 2 ^ 64) : (a + b).toNat = x + y := by
  rw [UInt64.toNat_add, ha, hb, Nat.mod_eq_of_lt h]

theorem toNat_mul_of {a b : UInt64} {x y : Nat} (ha : a.toNat = x) (hb : b.toNat = y)
    (h : x * y < 2 ^ 64) : (a * b).toNat = x * y := by
  rw [UInt64.toNat_mul, ha, hb, Nat.mod_eq_of_lt h]

theorem toNat_sub_of {a b : UInt64} {x y : Nat} (ha : a.toNat = x) (hb : b.toNat = y)
    (h : y ≤ x) : (a - b).toNat = x - y := by
  rw [UInt64.toNat_sub_of_le _ _ (by rwa [UInt64.le_iff_toNat_le, ha, hb]), ha, hb]

theorem toNat_div_of {a b : UInt64} {x y : Nat} (ha : a.toNat = x) (hb : b.toNat = y) :
    (a / b).toNat = x / y := by
  rw [UInt64.toNat_div, ha, hb]

/-- No step wraps around. -/
theorem toNat_secsSinceEpoch (hy : year.toNat < 2 ^ 32) (hm : 0 < month.toNat)
    (hm' : month.toNat ≤ 12) (hd : day.toNat ≤ 31) (hh : hours.toNat < 24)
    (hmin : minutes.toNat < 60) (hs : seconds.toNat < 60)
    (hepoch : 2472633 ≤ marchDays year.toNat month.toNat day.toNat) :
    (secsSinceEpoch year month day hours minutes seconds).toNat =
      (marchDays year.toNat month.toNat day.toNat - 2472633) * 86400 + hours.toNat * 3600 +
        minutes.toNat * 60 + seconds.toNat := by
  have htmp : ((14 - month) / 12).toNat = (14 - month.toNat) / 12 :=
    toNat_div_of (toNat_sub_of rfl rfl (by omega)) rfl
  have hyear : (year + 4800 - (14 - month) / 12).toNat =
      year.toNat + 4800 - (14 - month.toNat) / 12 :=
    toNat_sub_of (toNat_add_of rfl rfl (by omega)) htmp (by omega)
  have hmonth : (month + 12 * ((14 - month) / 12) - 3).toNat =
      month.toNat + 12 * ((14 - month.toNat) / 12) - 3 :=
    toNat_sub_of (toNat_add_of rfl (toNat_mul_of rfl htmp (by omega)) (by omega)) rfl (by omega)
  have hdays : ((153 * (month + 12 * ((14 - month) / 12) - 3) + 2) / 5).toNat =
      (153 * (month.toNat + 12 * ((14 - month.toNat) / 12) - 3) + 2) / 5 :=
    toNat_div_of (toNat_add_of (toNat_mul_of rfl hmonth (by omega)) rfl (by omega)) rfl
  have hbound : (153 * (month.toNat + 12 * ((14 - month.toNat) / 12) - 3) + 2) / 5 < 2 ^ 12 := by
    omega
  rw [marchDays] at hepoch ⊢
  rw [secsSinceEpoch]
  generalize year + 4800 - (14 - month) / 12 = y at hyear ⊢
  generalize (153 * (month + 12 * ((14 - month) / 12) - 3) + 2) / 5 = m at hdays ⊢
  have hylt : year.toNat + 4800 - (14 - month.toNat) / 12 < 2 ^ 33 := by omega
  generalize year.toNat + 4800 - (14 - month.toNat) / 12 = y' at *
  generalize (153 * (month.toNat + 12 * ((14 - month.toNat) / 12) - 3) + 2) / 5 = m' at *
  have hmarch : (day + m + y * 365 + y / 4 - y / 100 + y / 400).toNat =
      day.toNat + m' + y' * 365 + y' / 4 - y' / 100 + y' / 400 :=
    toNat_add_of (toNat_sub_of (toNat_add_of (toNat_add_of (toNat_add_of rfl hdays (by omega))
      (toNat_mul_of hyear rfl (by omega)) (by omega)) (toNat_div_of hyear rfl) (by omega))
      (toNat_div_of hyear rfl) (by omega)) (toNat_div_of hyear rfl) (by omega)
  have hlt : day.toNat + m' + y' * 365 + y' / 4 - y' / 100 + y' / 400 < 2 ^ 42 := by omega
  generalize day + m + y * 365 + y / 4 - y / 100 + y / 400 = j at hmarch ⊢
  generalize day.toNat + m' + y' * 365 + y' / 4 - y' / 100 + y' / 400 = j' at *
  have hposix : (j - 32045 - 2440588).toNat = j' - 32045 - 2440588 :=
    toNat_sub_of (toNat_sub_of hmarch rfl (by omega)) rfl (by omega)
  have hsecs : ((j - 32045 - 2440588) * 24 * 60 * 60).toNat =
      (j' - 32045 - 2440588) * 24 * 60 * 60 :=
    toNat_mul_of (toNat_mul_of (toNat_mul_of hposix rfl (by omega)) rfl (by omega)) rfl (by omega)
  have hhours : (hours * 60 * 60).toNat = hours.toNat * 60 * 60 :=
    toNat_mul_of (toNat_mul_of rfl rfl (by omega)) rfl (by omega)
  have hminutes : (minutes * 60).toNat = minutes.toNat * 60 := toNat_mul_of rfl rfl (by omega)
  have hall : ((j - 32045 - 2440588) * 24 * 60 * 60 + hours * 60 * 60 + minutes * 60 +
      seconds).toNat = (j' - 32045 - 2440588) * 24 * 60 * 60 + hours.toNat * 60 * 60 +
        minutes.toNat * 60 + seconds.toNat :=
    toNat_add_of (toNat_add_of (toNat_add_of hsecs hhours (by omega)) hminutes (by omega)) rfl
      (by omega)
  rw [hall]
  omega

end Words

/-! ## Seconds since the epoch -/

/-- The seconds of a moment from the epoch on are counted exactly. -/
theorem toNat_secs (t : Moment) (hy : t.date.year < 2 ^ 32) (he : 1970 ≤ t.date.year) :
    (secs t).toNat = t.secondsSince 1970 := by
  have hmarch := marchDays_eq t.date he
  have hday : t.date.day ≤ 31 := by
    refine Nat.le_trans t.date.day_le ?_
    rw [daysInMonth]
    split_ifs <;> decide
  have hmonth := t.date.month_le
  have hh := t.time.hour_lt
  have hm := t.time.minute_lt
  have hs := t.time.second_lt
  have hof : ∀ n, n < 2 ^ 64 → (UInt64.ofNat n).toNat = n := fun n h => UInt64.toNat_ofNat_of_lt' h
  have hyear := hof t.date.year (by omega)
  have hmonth' := hof t.date.month (by omega)
  have hday' := hof t.date.day (by omega)
  have hhour := hof t.time.hour (by omega)
  have hminute := hof t.time.minute (by omega)
  have hsecond := hof t.time.second (by omega)
  have hpos := t.date.month_pos
  have hepoch : 2472633 ≤ marchDays (UInt64.ofNat t.date.year).toNat
      (UInt64.ofNat t.date.month).toNat (UInt64.ofNat t.date.day).toNat := by
    rw [hyear, hmonth', hday', hmarch]
    exact Nat.le_add_left _ _
  rw [secs, toNat_secsSinceEpoch (by omega) (by omega) (by omega) (by omega) (by omega) (by omega)
    (by omega) hepoch, hyear, hmonth', hday', hhour, hminute, hsecond, hmarch,
    Nat.add_sub_cancel, Moment.secondsSince, Time.seconds, ← Nat.add_assoc, ← Nat.add_assoc]

/-- The number is the one of seconds that have passed, and grows with the moment. -/
theorem secs_exact {t : Moment} (he : 1970 ≤ t.date.year) (hy : t.date.year < 2 ^ 32) :
    (secs t).toNat = t.secondsSince 1970 ∧
      ∀ t' : Moment, t'.date.year < 2 ^ 32 → t.fields < t'.fields → secs t < secs t' := by
  refine ⟨toNat_secs t hy he, fun t' hy' hlt => ?_⟩
  have hle : t.date.year ≤ t'.date.year := by
    rw [Moment.fields, Moment.fields, List.cons_lt_cons_iff] at hlt
    omega
  rw [UInt64.lt_iff_toNat_lt, toNat_secs t hy he, toNat_secs t' hy' (Nat.le_trans he hle)]
  exact Moment.secondsSince_lt he hlt

/-- The last second of a leap day. -/
def leapDay : Moment :=
  ⟨⟨2000, 2, 29, by decide, by decide, by decide, by decide⟩,
    ⟨23, 59, 59, by decide, by decide, by decide⟩⟩

/-- The second after it. -/
def march : Moment :=
  ⟨⟨2000, 3, 1, by decide, by decide, by decide, by decide⟩,
    ⟨0, 0, 0, by decide, by decide, by decide⟩⟩

theorem secs_leapDay : (secs leapDay).toNat = leapDay.secondsSince 1970 ∧ secs leapDay < secs march :=
  have h := secs_exact (t := leapDay) (by decide) (by decide)
  ⟨h.1, h.2 march (by decide) (by decide)⟩

example : (secs leapDay).toNat = 951868799 := by decide

/-- The time that the firmware tells. -/
theorem posixTime_exact (now : EfiTime) (t : Moment) (timer : Bool) (he : 1970 ≤ t.date.year)
    (hdate : [now.year.toNat, now.month.toNat, now.day.toNat, now.hour.toNat, now.minute.toNat,
      now.second.toNat] = t.fields) :
    (posixTime (some now) timer).1.toNat = t.secondsSince 1970 := by
  rw [Moment.fields] at hdate
  simp only [List.cons.injEq, and_true] at hdate
  obtain ⟨hyear, hmonth, hday, hhour, hminute, hsecond⟩ := hdate
  have hlt : t.date.year < 2 ^ 32 := by
    have hword := now.year.toNat_lt
    omega
  rw [← toNat_secs t hlt he, secs, posixTime, ← hyear, ← hmonth, ← hday, ← hhour, ← hminute,
    ← hsecond]
  simp only [UInt64.ofNat_uInt16ToNat, UInt64.ofNat_uInt8ToNat]

end LsvmTools.Posix.Time
