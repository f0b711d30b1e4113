import JACLibc.Lib.Parts
import Mathlib.Data.List.Lex
import Mathlib.Tactic.Common

/-!
# `gmtime` and `mktime`

The fields of a `tm` are `int`s; a `time_t` and the `long`s that the functions compute with are integers.  `gmtime`
takes whole years and then whole months off the days since 1970, and `mktime` adds them up again.  A valid date with a
time of day (`DateTime`) is what both are about: the days are cut into years and the years into months, which are
parts in the sense of `Lib/Parts`, and so dates are ordered as the times are (`DateTime.time_lt_iff`).  `gmtime`
answers the fields of the date of its time (`gmtime_eq`), and `mktime` reads them back (`mktime_tm`), but it does not
bring the fields of other dates into range.
-/

namespace JACLibc.Time

open Parts

/-! ### The functions -/

/-- `__jacl_is_leap_year` -/
def isLeapYear (year : ℕ) : Prop := (year % 4 = 0 ∧ year % 100 ≠ 0) ∨ year % 400 = 0

instance (year : ℕ) : Decidable (isLeapYear year) := by
  unfold isLeapYear
  infer_instance

def daysTable : List ℕ := [31, 28, 31, 30, 31, 30, 31, 31, 30, 31, 30, 31]

/-- `__jacl_days_in_month` -/
def daysInMonth (year month : ℕ) : ℕ := if month = 1 ∧ isLeapYear year then 29 else daysTable.getD month 0

/-- `__jacl_is_leap_year(year) ? 366 : 365` -/
def daysInYear (year : ℕ) : ℕ := if isLeapYear year then 366 else 365

theorem daysInYear_pos (year : ℕ) : 0 < daysInYear year := by
  unfold daysInYear
  split <;> omega

structure Tm where
  tm_sec : Int32
  tm_min : Int32
  tm_hour : Int32
  tm_mday : Int32
  tm_mon : Int32
  tm_year : Int32
  tm_wday : Int32
  tm_yday : Int32
  tm_isdst : Int32
  deriving DecidableEq

/-- `int year = t->tm_year + 1900;` -/
def Tm.year (t : Tm) : Int32 := t.tm_year + 1900

/-- `mktime`: the answer, and the structure afterwards. -/
def mktime (t : Tm) : ℤ × Tm :=
  if t.year < 1970 ∨ t.tm_mon < 0 ∨ 11 < t.tm_mon ∨ t.tm_mday < 1 ∨ 31 < t.tm_mday then (-1, t)
  else
    let year := t.year.toInt.toNat
    let month := t.tm_mon.toInt.toNat
    let years := (List.range (year - 1970)).foldl (fun days y => days + daysInYear (1970 + y)) 0
    let days := (List.range month).foldl (fun days m => days + daysInMonth year m) years + (t.tm_mday.toInt - 1)
    let yday := (List.range month).foldl (fun days m => days + daysInMonth year m) 0 + (t.tm_mday.toInt - 1)
    (days * 86400 + t.tm_hour.toInt * 3600 + t.tm_min.toInt * 60 + t.tm_sec.toInt,
      { t with tm_wday := Int32.ofInt ((days + 4) % 7), tm_yday := Int32.ofInt yday, tm_isdst := 0 })

/-- The loop of `gmtime` over the years: what is left of the days, and the year. -/
def yearLoop (days year : ℕ) : ℕ × ℕ := if days < daysInYear year then (days, year)
    else yearLoop (days - daysInYear year) (year + 1)
termination_by days
decreasing_by
  have := daysInYear_pos year
  omega

/-- The loop of `gmtime` over the months. -/
def monthLoop (year days month : ℕ) : ℕ × ℕ :=
  if month < 12 then if days < daysInMonth year month then (days, month)
    else monthLoop year (days - daysInMonth year month) (month + 1)
  else (days, month)
termination_by 12 - month

/-- `gmtime`; nothing for `NULL`.  With `t >= 0` neither the rest nor the weekday is negative. -/
def gmtime (t : ℤ) : Option Tm :=
  if t < 0 then none
  else
    let days := (t / 86400).toNat
    let rem := (t % 86400).toNat
    let (yday, year) := yearLoop days 1970
    let (mday, month) := monthLoop year yday 0
    some
      { tm_sec := Int32.ofNat (rem % 3600 % 60)
        tm_min := Int32.ofNat (rem % 3600 / 60)
        tm_hour := Int32.ofNat (rem / 3600)
        tm_mday := Int32.ofNat (mday + 1)
        tm_mon := Int32.ofNat month
        tm_year := Int32.ofInt (year - 1900)
        tm_wday := Int32.ofNat ((days + 4) % 7)
        tm_yday := Int32.ofNat yday
        tm_isdst := 0 }

/-! ### Dates -/

/-- The lengths of the years from 1970 on. -/
def yearLength (k : ℕ) : ℕ := daysInYear (1970 + k)

/-- A valid date and time of day; the year is counted from 1970 and the day of the month from 0. -/
structure DateTime where
  year : ℕ
  mon : ℕ
  mday : ℕ
  hour : ℕ
  min : ℕ
  sec : ℕ
  mon_lt : mon < 12
  mday_lt : mday < daysInMonth (1970 + year) mon
  hour_lt : hour < 24
  min_lt : min < 60
  sec_lt : sec < 60

namespace DateTime

variable (d e : DateTime)

def monthPlace : Place (daysInMonth (1970 + d.year)) := ⟨d.mon, d.mday, d.mday_lt⟩

/-- The day of the year, from 0. -/
def yday : ℕ := d.monthPlace.pos

end DateTime

/-- The months make up the year. -/
theorem before_twelve (year : ℕ) : before (daysInMonth year) 12 = daysInYear year := by
  by_cases h : isLeapYear year <;> simp [before, Finset.sum_range_succ, daysInMonth, daysInYear, daysTable, h]

namespace DateTime

variable (d e : DateTime)

theorem yday_lt : d.yday < yearLength d.year := by
  rw [yearLength, ← before_twelve]
  exact d.monthPlace.pos_lt_before d.mon_lt

def yearPlace : Place yearLength := ⟨d.year, d.yday, d.yday_lt⟩

/-- The days since 1 January 1970. -/
def days : ℕ := d.yearPlace.pos

/-- The seconds since then. -/
def time : ℕ := d.days * 86400 + d.hour * 3600 + d.min * 60 + d.sec

def tuple : List ℕ := [d.year, d.mon, d.mday, d.hour, d.min, d.sec]

variable {d e}

theorem days_lt_iff : d.days < e.days ↔ d.year < e.year ∨ d.year = e.year ∧
    (d.mon < e.mon ∨ d.mon = e.mon ∧ d.mday < e.mday) := by
  rw [days, days, Place.pos_lt_iff]
  refine or_congr_right (and_congr_right fun hyear => ?_)
  rcases d with ⟨y, m, n, _, _, _, hm, hn, _, _, _⟩
  rcases e with ⟨y', m', n', _, _, _, hm', hn', _, _, _⟩
  obtain rfl : y = y' := hyear
  exact Place.pos_lt_iff (⟨m, n, hn⟩ : Place (daysInMonth (1970 + y))) ⟨m', n', hn'⟩

/-- The times are ordered as the dates are. -/
theorem time_lt_iff : d.time < e.time ↔ d.tuple < e.tuple := by
  have hd := @days_lt_iff d e
  have he := @days_lt_iff e d
  have := d.hour_lt
  have := d.min_lt
  have := d.sec_lt
  have := e.hour_lt
  have := e.min_lt
  have := e.sec_lt
  unfold time tuple
  simp only [List.cons_lt_cons_iff, List.not_lt_nil, and_false, or_false]
  rcases Nat.lt_trichotomy d.days e.days with h | h | h
  · have := hd.1 h
    omega
  · have := hd.not.1 (Nat.not_lt.2 h.ge)
    have := he.not.1 (Nat.not_lt.2 h.le)
    omega
  · have := he.1 h
    omega

/-- A time is the time of one date. -/
theorem eq_of_time_eq (h : d.time = e.time) : d = e := by
  have hd := time_lt_iff.not.1 (Nat.not_lt.2 h.ge)
  have he := time_lt_iff.not.1 (Nat.not_lt.2 h.le)
  have htuple : d.tuple = e.tuple := le_antisymm (not_lt.1 he) (not_lt.1 hd)
  rcases d
  rcases e
  simpa [tuple] using htuple

end DateTime

/-! ### The loops -/

/-- The loop over the years finds the place of a day. -/
theorem yearLoop_eq (days k : ℕ) :
    ∃ p : Place yearLength, yearLoop days (1970 + k) = (p.offset, 1970 + p.part) ∧
    p.pos = before yearLength k + days := by
  induction days using Nat.strong_induction_on generalizing k with
  | _ days ih =>
    rw [yearLoop]
    split
    next h => exact ⟨⟨k, days, h⟩, rfl, rfl⟩
    next h =>
      have hpos := daysInYear_pos (1970 + k)
      obtain ⟨p, hp, hpos'⟩ := ih (days - daysInYear (1970 + k)) (by omega) (k + 1)
      refine ⟨p, hp, ?_⟩
      rw [hpos', before_succ, yearLength]
      omega

/-- The loop over the months finds the place of a day of the year. -/
theorem monthLoop_eq (year : ℕ) {days month : ℕ} (hm : month ≤ 12)
    (h : before (daysInMonth year) month + days < daysInYear year) :
    ∃ p : Place (daysInMonth year), monthLoop year days month = (p.offset, p.part) ∧ p.part < 12 ∧
      p.pos = before (daysInMonth year) month + days := by
  induction hk : 12 - month generalizing days month with
  | zero =>
    obtain rfl : month = 12 := by omega
    rw [before_twelve] at h
    omega
  | succ n ih =>
    rw [monthLoop, if_pos (by omega)]
    split
    next hlt => exact ⟨⟨month, days, hlt⟩, rfl, show month < 12 by omega, rfl⟩
    next hlt =>
      have hsucc := before_succ (daysInMonth year) month
      obtain ⟨p, hp, hpart, hpos⟩ := @ih (days - daysInMonth year month) (month + 1) (by omega) (by omega) (by omega)
      exact ⟨p, hp, hpart, by omega⟩

/-! ### The fields of a date -/

/-- The fields of a date. -/
def DateTime.tm (d : DateTime) : Tm where
  tm_sec := Int32.ofNat d.sec
  tm_min := Int32.ofNat d.min
  tm_hour := Int32.ofNat d.hour
  tm_mday := Int32.ofNat (d.mday + 1)
  tm_mon := Int32.ofNat d.mon
  tm_year := Int32.ofInt ((1970 + d.year : ℕ) - 1900)
  tm_wday := Int32.ofNat ((d.days + 4) % 7)
  tm_yday := Int32.ofNat d.yday
  tm_isdst := 0

/-- `gmtime` answers the fields of the date of its time. -/
theorem gmtime_eq (t : ℕ) : ∃ d : DateTime, gmtime t = some d.tm ∧ d.time = t := by
  obtain ⟨p, hp, hpos⟩ := yearLoop_eq (t / 86400) 0
  obtain ⟨q, hq, hpart, hqpos⟩ :=
    monthLoop_eq (1970 + p.part) (Nat.zero_le 12) (by rw [before_zero, Nat.zero_add]; exact p.lt)
  rw [before_zero, Nat.zero_add] at hpos hqpos
  let d : DateTime :=
    { year := p.part, mon := q.part, mday := q.offset
      hour := t % 86400 / 3600, min := t % 86400 % 3600 / 60, sec := t % 86400 % 3600 % 60
      mon_lt := hpart, mday_lt := q.lt, hour_lt := by omega, min_lt := by omega, sec_lt := by omega }
  have hyday : d.yday = p.offset := hqpos
  have hdays : d.days = t / 86400 := by
    rw [← hpos]
    exact congrArg (before yearLength p.part + ·) hyday
  refine ⟨d, ?_, ?_⟩
  · have hdiv : ((t : ℤ) / 86400).toNat = t / 86400 := by omega
    have hmod : ((t : ℤ) % 86400).toNat = t % 86400 := by omega
    rw [Nat.add_zero] at hp
    simp only [gmtime, if_neg (Int.not_lt.2 (Int.natCast_nonneg t)), hdiv, hmod, hp, hq]
    rw [DateTime.tm, hdays, hyday]
  · show d.days * 86400 + _ * 3600 + _ * 60 + _ = t
    rw [hdays]
    show t / 86400 * 86400 + t % 86400 / 3600 * 3600 + t % 86400 % 3600 / 60 * 60 + t % 86400 % 3600 % 60 = t
    omega

/-- What `mktime` makes of a structure with a month and a day of the month that it takes. -/
theorem mktime_eq {t : Tm} {k m n : ℕ} (hyear : t.year.toInt = 1970 + k) (hmon : t.tm_mon.toInt = m)
    (hmday : t.tm_mday.toInt = n + 1) (hm : m < 12) (hn : n < 31) :
    mktime t =
      ((before yearLength k + (before (daysInMonth (1970 + k)) m + n) : ℕ) * 86400 + t.tm_hour.toInt * 3600 +
      t.tm_min.toInt * 60 +
          t.tm_sec.toInt,
        { t with
          tm_wday := Int32.ofNat ((before yearLength k + (before (daysInMonth (1970 + k)) m + n) + 4) % 7)
          tm_yday := Int32.ofNat (before (daysInMonth (1970 + k)) m + n), tm_isdst := 0 }) := by
  have hguard : ¬(t.year < 1970 ∨ t.tm_mon < 0 ∨ 11 < t.tm_mon ∨ t.tm_mday < 1 ∨ 31 < t.tm_mday) := by
    simp only [Int32.lt_iff_toInt_lt, hyear, hmon, hmday]
    rw [show (1970 : Int32).toInt = 1970 from rfl, show (0 : Int32).toInt = 0 from rfl,
      show (11 : Int32).toInt = 11 from rfl,
      show (1 : Int32).toInt = 1 from rfl, show (31 : Int32).toInt = 31 from rfl]
    omega
  have hyears : (List.range k).foldl (fun days y => days + daysInYear (1970 + y)) 0 = before yearLength k := by
    rw [← Nat.zero_add (before yearLength k)]
    exact foldl_before yearLength 0 k
  have hy : t.year.toInt.toNat = 1970 + k := by omega
  have hm' : t.tm_mon.toInt.toNat = m := by omega
  have hd : (before yearLength k + before (daysInMonth (1970 + k)) m : ℕ) + ((n + 1 : ℤ) - 1) =
      (before yearLength k + (before (daysInMonth (1970 + k)) m + n) : ℕ) := by omega
  have hyd : (0 + before (daysInMonth (1970 + k)) m : ℕ) + ((n + 1 : ℤ) - 1) =
    (before (daysInMonth (1970 + k)) m + n : ℕ) := by omega
  simp only [mktime, if_neg hguard, hy, hm', hmday, Nat.add_sub_cancel_left, hyears, foldl_before, hd, hyd]
  refine Prod.ext rfl ?_
  congr 1

/-- The calendar fields of `t` are the ones of `d`. -/
structure Tm.Has (t : Tm) (d : DateTime) : Prop where
  year : t.year.toInt = (1970 + d.year : ℕ)
  mon : t.tm_mon.toInt = d.mon
  mday : t.tm_mday.toInt = (d.mday + 1 : ℕ)
  hour : t.tm_hour.toInt = d.hour
  min : t.tm_min.toInt = d.min
  sec : t.tm_sec.toInt = d.sec

theorem eq_ofNat {x : Int32} {n : ℕ} (h : x.toInt = n) : x = Int32.ofNat n := by
  rw [← Int32.ofInt_toInt x, h, Int32.ofInt_eq_ofNat]

theorem daysInMonth_le (year : ℕ) {m : ℕ} (hm : m < 12) : daysInMonth year m ≤ 31 := by
  have htable : ∀ m < 12, daysTable.getD m 0 ≤ 31 := by decide
  unfold daysInMonth
  split
  · omega
  · exact htable m hm

/-- `mktime` reads back the time of a date. -/
theorem mktime_has {t : Tm} {d : DateTime} (h : t.Has d) : mktime t = ((d.time : ℤ), d.tm) := by
  have hmday : d.mday < 31 := d.mday_lt.trans_le (daysInMonth_le _ d.mon_lt)
  have hyear : t.tm_year = Int32.ofInt ((1970 + d.year : ℕ) - 1900) := by
    rw [Int32.ofInt_sub, ← h.year, Int32.ofInt_toInt]
    exact (Int32.add_sub_cancel t.tm_year 1900).symm
  have hdays : before yearLength d.year + (before (daysInMonth (1970 + d.year)) d.mon + d.mday) = d.days := rfl
  have hk : t.year.toInt = 1970 + (d.year : ℤ) := by rw [h.year, Nat.cast_add]; rfl
  have hn : t.tm_mday.toInt = (d.mday : ℤ) + 1 := by rw [h.mday, Nat.cast_add]; rfl
  rw [mktime_eq hk h.mon hn d.mon_lt hmday, h.hour, h.min, h.sec, hdays]
  refine Prod.ext ?_ ?_
  · rw [DateTime.time]
    push_cast
    rfl
  · rw [hyear, eq_ofNat h.mon, eq_ofNat h.mday, eq_ofNat h.hour, eq_ofNat h.min, eq_ofNat h.sec]
    rfl

/-- The fields of a date, where the year is an `int`. -/
theorem DateTime.tm_has {d : DateTime} (h : 1970 + d.year < 2 ^ 31) : d.tm.Has d := by
  have hmday : d.mday < 31 := d.mday_lt.trans_le (daysInMonth_le _ d.mon_lt)
  have := d.mon_lt
  have := d.hour_lt
  have := d.min_lt
  have := d.sec_lt
  constructor
  · show (Int32.ofInt ((1970 + d.year : ℕ) - 1900) + 1900).toInt = _
    rw [Int32.ofInt_sub]
    show (Int32.ofInt (1970 + d.year : ℕ) - 1900 + 1900).toInt = _
    rw [Int32.sub_add_cancel, Int32.toInt_ofInt_of_le (by omega) (by omega)]
  all_goals exact Int32.toInt_ofNat_of_lt (by omega)

/-! ### There and back -/

/-- The leap years up to a year. -/
def leaps (year : ℤ) : ℤ := year / 4 - year / 100 + year / 400

/-- The days from 1 January 1970 to 1 January of a year. -/
def yearStart (year : ℤ) : ℤ := 365 * (year - 1970) + (leaps (year - 1) - leaps 1969)

/-- The years are as long as the Gregorian calendar has them. -/
theorem before_yearLength (k : ℕ) : (before yearLength k : ℤ) = yearStart (1970 + k) := by
  induction k with
  | zero => rfl
  | succ k ih =>
    rw [before_succ, Nat.cast_add, ih, yearLength, daysInYear]
    by_cases h : isLeapYear (1970 + k)
    · rw [if_pos h]
      unfold isLeapYear at h
      unfold yearStart leaps
      omega
    · rw [if_neg h]
      unfold isLeapYear at h
      unfold yearStart leaps
      omega

/-- The year of `t` is an `int`. -/
def YearFits (t : ℤ) : Prop := t < 86400 * yearStart (2 ^ 31)

theorem DateTime.year_lt {d : DateTime} (h : YearFits d.time) : 1970 + d.year < 2 ^ 31 := by
  by_contra hlt
  have hmono := before_mono yearLength (show 2147481678 ≤ d.year by omega)
  have hstart := before_yearLength 2147481678
  have hdays : before yearLength d.year ≤ d.days := Nat.le_add_right _ _
  have htime : d.days * 86400 ≤ d.time := by
    unfold DateTime.time
    omega
  have hyear : yearStart (1970 + (2147481678 : ℕ)) = yearStart (2 ^ 31) := rfl
  unfold YearFits at h
  omega

/-- The fields are in range, and the day of the week and of the year are the ones of the date. -/
structure Tm.Consistent (g : Tm) : Prop where
  sec : 0 ≤ g.tm_sec.toInt ∧ g.tm_sec.toInt < 60
  min : 0 ≤ g.tm_min.toInt ∧ g.tm_min.toInt < 60
  hour : 0 ≤ g.tm_hour.toInt ∧ g.tm_hour.toInt < 24
  mon : 0 ≤ g.tm_mon.toInt ∧ g.tm_mon.toInt < 12
  mday : 1 ≤ g.tm_mday.toInt ∧ g.tm_mday.toInt ≤ daysInMonth g.year.toInt.toNat g.tm_mon.toInt.toNat
  year : 1970 ≤ g.year.toInt
  yday : g.tm_yday.toInt = before (daysInMonth g.year.toInt.toNat) g.tm_mon.toInt.toNat + (g.tm_mday.toInt - 1)
  wday : g.tm_wday.toInt = (yearStart g.year.toInt + g.tm_yday.toInt + 4) % 7

def Tm.tuple (g : Tm) : List ℤ :=
  [g.tm_year.toInt, g.tm_mon.toInt, g.tm_mday.toInt, g.tm_hour.toInt, g.tm_min.toInt, g.tm_sec.toInt]

theorem DateTime.consistent {d : DateTime} (h : 1970 + d.year < 2 ^ 31) : d.tm.Consistent := by
  have hhas := d.tm_has h
  have hyear : d.tm.year.toInt.toNat = 1970 + d.year := by
    have := hhas.year
    omega
  have hmon : d.tm.tm_mon.toInt.toNat = d.mon := by
    have := hhas.mon
    omega
  have hlt := d.yday_lt
  have hle : yearLength d.year ≤ 366 := by
    unfold yearLength daysInYear
    split <;> omega
  have hyday : d.tm.tm_yday.toInt = d.yday := Int32.toInt_ofNat_of_lt (by omega)
  have hwday : d.tm.tm_wday.toInt = ((d.days + 4) % 7 : ℕ) := Int32.toInt_ofNat_of_lt (by omega)
  have hstart := before_yearLength d.year
  have hdays : d.days = before yearLength d.year + d.yday := rfl
  have hpos : d.yday = before (daysInMonth (1970 + d.year)) d.mon + d.mday := rfl
  have := d.mon_lt
  have := d.mday_lt
  have := d.hour_lt
  have := d.min_lt
  have := d.sec_lt
  constructor
  · rw [hhas.sec]; omega
  · rw [hhas.min]; omega
  · rw [hhas.hour]; omega
  · rw [hhas.mon]; omega
  · rw [hhas.mday, hyear, hmon]; omega
  · rw [hhas.year]; omega
  · rw [hyday, hyear, hmon, hhas.mday, hpos]; omega
  · rw [hwday, hyday, hhas.year]
    push_cast at hstart ⊢
    rw [← hstart]
    omega

theorem DateTime.toInt_tm_year {d : DateTime} (h : 1970 + d.year < 2 ^ 31) : d.tm.tm_year.toInt = 70 + d.year := by
  refine (Int32.toInt_ofInt_of_le ?_ ?_).trans ?_ <;> omega

theorem DateTime.tuple_lt_iff {d e : DateTime} (hd : 1970 + d.year < 2 ^ 31) (he : 1970 + e.year < 2 ^ 31) :
    d.tm.tuple < e.tm.tuple ↔ d.tuple < e.tuple := by
  have hdyear := DateTime.toInt_tm_year hd
  have heyear := DateTime.toInt_tm_year he
  have hd := d.tm_has hd
  have he := e.tm_has he
  unfold Tm.tuple tuple
  simp only [List.cons_lt_cons_iff, List.not_lt_nil, and_false, or_false, hdyear, heyear, hd.mon, hd.mday, hd.hour,
    hd.min, hd.sec, he.mon, he.mday, he.hour, he.min, he.sec]
  omega

/-- `mktime` undoes `gmtime`, whose fields are in range and ordered as the times are. -/
theorem gmtime_mktime :
    (∀ t, 0 ≤ t → YearFits t → ∃ g, gmtime t = some g ∧ g.Consistent ∧ (mktime g).1 = t) ∧
      ∀ t u, 0 ≤ t → t < u → YearFits u → ∃ g h, gmtime t = some g ∧ gmtime u = some h ∧ g.tuple < h.tuple := by
  constructor
  · intro t h0 hfits
    obtain ⟨n, rfl⟩ := Int.eq_ofNat_of_zero_le h0
    obtain ⟨d, hd, rfl⟩ := gmtime_eq n
    have hyear := DateTime.year_lt hfits
    refine ⟨d.tm, hd, DateTime.consistent hyear, ?_⟩
    rw [mktime_has (DateTime.tm_has hyear)]
  · intro t u h0 hlt hfits
    obtain ⟨n, rfl⟩ := Int.eq_ofNat_of_zero_le h0
    obtain ⟨m, rfl⟩ := Int.eq_ofNat_of_zero_le (h0.trans hlt.le)
    obtain ⟨d, hd, rfl⟩ := gmtime_eq n
    obtain ⟨e, he, rfl⟩ := gmtime_eq m
    refine ⟨d.tm, e.tm, hd, he, ?_⟩
    have hdfits : YearFits d.time := lt_trans hlt hfits
    rw [DateTime.tuple_lt_iff (DateTime.year_lt hdfits) (DateTime.year_lt hfits)]
    exact DateTime.time_lt_iff.1 (Int.ofNat_lt.1 hlt)

/-- The last second before 1 March 2000 and the first one of it. -/
theorem gmtime_mktime_leap :
    (∃ g, gmtime 951868799 = some g ∧ g.Consistent ∧ (mktime g).1 = 951868799) ∧
      ∃ g h, gmtime 951868799 = some g ∧ gmtime 951868800 = some h ∧ g.tuple < h.tuple :=
  ⟨gmtime_mktime.1 951868799 (by decide) (show _ < _ by decide),
    gmtime_mktime.2 951868799 951868800 (by decide) (by decide) (show _ < _ by decide)⟩

/-! ### Fields out of range -/

/-- Seconds, minutes, hours and the day of the month are in range. -/
structure Tm.Normal (t : Tm) : Prop where
  sec : 0 ≤ t.tm_sec.toInt ∧ t.tm_sec.toInt < 60
  min : 0 ≤ t.tm_min.toInt ∧ t.tm_min.toInt < 60
  hour : 0 ≤ t.tm_hour.toInt ∧ t.tm_hour.toInt < 24
  mday : t.tm_mday.toInt ≤ daysInMonth t.year.toInt.toNat t.tm_mon.toInt.toNat

theorem mktime_accepts {t : Tm} (h : (mktime t).1 ≠ -1) :
    ∃ k m n : ℕ, t.year.toInt = 1970 + k ∧ t.tm_mon.toInt = m ∧ t.tm_mday.toInt = n + 1 ∧ m < 12 ∧ n < 31 := by
  have hguard : ¬(t.year < 1970 ∨ t.tm_mon < 0 ∨ 11 < t.tm_mon ∨ t.tm_mday < 1 ∨ 31 < t.tm_mday) := by
    intro hg
    apply h
    rw [mktime, if_pos hg]
  simp only [Int32.lt_iff_toInt_lt] at hguard
  rw [show (1970 : Int32).toInt = 1970 from rfl, show (0 : Int32).toInt = 0 from rfl,
    show (11 : Int32).toInt = 11 from rfl,
    show (1 : Int32).toInt = 1 from rfl, show (31 : Int32).toInt = 31 from rfl] at hguard
  exact ⟨(t.year.toInt - 1970).toNat, t.tm_mon.toInt.toNat, (t.tm_mday.toInt - 1).toNat, by omega⟩

theorem le_daysInMonth (year : ℕ) {m : ℕ} (hm : m < 12) : 28 ≤ daysInMonth year m := by
  have htable : ∀ m < 12, 28 ≤ daysTable.getD m 0 := by decide
  unfold daysInMonth
  split
  · omega
  · exact htable m hm

/-- `gmtime` answers the date of a time. -/
theorem gmtime_time (d : DateTime) : gmtime d.time = some d.tm := by
  obtain ⟨e, he, htime⟩ := gmtime_eq d.time
  rw [he, DateTime.eq_of_time_eq htime]

theorem gmtime_nonneg {t : ℤ} {g : Tm} (h : gmtime t = some g) : ∃ d : DateTime, g = d.tm ∧ t = d.time := by
  have h0 : 0 ≤ t := by
    by_contra hneg
    rw [gmtime, if_pos (not_le.1 hneg)] at h
    cases h
  obtain ⟨n, rfl⟩ := Int.eq_ofNat_of_zero_le h0
  obtain ⟨d, hd, rfl⟩ := gmtime_eq n
  exact ⟨d, Option.some.inj (h.symm.trans hd), rfl⟩

/-- A day behind the end of a month, of a time that `mktime` takes, is a day of the next month. -/
theorem DateTime.mon_ne {d : DateTime} {k m n : ℕ} (hm : m < 12) (hn : n < 31) (hlong : daysInMonth (1970 + k) m ≤ n)
    (hdays : d.days = before yearLength k + (before (daysInMonth (1970 + k)) m + n)) : d.mon ≠ m := by
  have hle := le_daysInMonth (1970 + k) hm
  have hm' : m + 1 < 12 := by
    rcases Nat.lt_or_ge (m + 1) 12 with h | h
    · exact h
    · obtain rfl : m = 11 := by omega
      have hdec : daysInMonth (1970 + k) 11 = 31 := by
        rw [daysInMonth, if_neg fun h => absurd h.1 (by decide)]
        rfl
      omega
  have hle' := le_daysInMonth (1970 + k) hm'
  let e : DateTime :=
    { year := k, mon := m + 1, mday := n - daysInMonth (1970 + k) m, hour := d.hour, min := d.min, sec := d.sec
      mon_lt := hm', mday_lt := by omega, hour_lt := d.hour_lt, min_lt := d.min_lt, sec_lt := d.sec_lt }
  have hedays : e.days = d.days := by
    have hyday : e.days = before yearLength k + (before (daysInMonth (1970 + k)) (m + 1) +
      (n - daysInMonth (1970 + k) m)) := rfl
    have hsucc := before_succ (daysInMonth (1970 + k)) m
    omega
  have htime : e.time = d.time := by
    unfold DateTime.time
    rw [hedays]
  rw [← DateTime.eq_of_time_eq htime]
  exact Nat.succ_ne_self m

/-- The structure that `mktime` leaves behind is the one of the time it answers exactly where its fields were in range
before. -/
theorem mktime_normal_iff (t : Tm) (h : (mktime t).1 ≠ -1) : gmtime (mktime t).1 = some (mktime t).2 ↔ t.Normal := by
  obtain ⟨k, m, n, hyear, hmon, hmday, hm, hn⟩ := mktime_accepts h
  have hk : t.year.toInt.toNat = 1970 + k := by omega
  have hm' : t.tm_mon.toInt.toNat = m := by omega
  constructor
  · intro hg
    obtain ⟨d, hd, htime⟩ := gmtime_nonneg hg
    rw [mktime_eq hyear hmon hmday hm hn] at hd htime
    have := d.mon_lt
    have := d.hour_lt
    have := d.min_lt
    have := d.sec_lt
    have hsec : t.tm_sec.toInt = d.sec := by
      rw [show t.tm_sec = Int32.ofNat d.sec from congrArg Tm.tm_sec hd, Int32.toInt_ofNat_of_lt (by omega)]
    have hmin : t.tm_min.toInt = d.min := by
      rw [show t.tm_min = Int32.ofNat d.min from congrArg Tm.tm_min hd, Int32.toInt_ofNat_of_lt (by omega)]
    have hhour : t.tm_hour.toInt = d.hour := by
      rw [show t.tm_hour = Int32.ofNat d.hour from congrArg Tm.tm_hour hd, Int32.toInt_ofNat_of_lt (by omega)]
    have hdmon : t.tm_mon.toInt = d.mon := by
      rw [show t.tm_mon = Int32.ofNat d.mon from congrArg Tm.tm_mon hd, Int32.toInt_ofNat_of_lt (by omega)]
    refine ⟨by omega, by omega, by omega, ?_⟩
    rw [hk, hm', hmday]
    by_contra hlong
    refine @DateTime.mon_ne d k m n hm hn (by omega) ?_ (by omega)
    simp only [hsec, hmin, hhour, DateTime.time] at htime
    push_cast at htime
    omega
  · intro hn
    obtain ⟨⟨hs0, hs⟩, ⟨hmin0, hmin⟩, ⟨hh0, hh⟩, hmd⟩ := hn
    rw [hk, hm', hmday] at hmd
    let d : DateTime :=
      { year := k, mon := m, mday := n
        hour := t.tm_hour.toInt.toNat, min := t.tm_min.toInt.toNat, sec := t.tm_sec.toInt.toNat
        mon_lt := hm, mday_lt := by omega, hour_lt := by omega, min_lt := by omega, sec_lt := by omega }
    have hhas : t.Has d := by
      constructor
      · rw [hyear]; rfl
      · exact hmon
      · rw [hmday]; rfl
      · exact (Int.toNat_of_nonneg hh0).symm
      · exact (Int.toNat_of_nonneg hmin0).symm
      · exact (Int.toNat_of_nonneg hs0).symm
    rw [mktime_has hhas]
    exact gmtime_time d

/-- One minute after the epoch, given as 60 seconds. -/
def sixtySeconds : Tm :=
  { tm_sec := 60, tm_min := 0, tm_hour := 0, tm_mday := 1, tm_mon := 0, tm_year := 70, tm_wday := 0, tm_yday := 0,
    tm_isdst := 0 }

/-- The 59 seconds are kept, as they should. -/
theorem mktime_normal_iff_epoch : (mktime { sixtySeconds with tm_sec := 59 }).1 = 59 ∧
    gmtime (mktime { sixtySeconds with tm_sec := 59 }).1 = some (mktime { sixtySeconds with tm_sec := 59 }).2 :=
  ⟨by decide, (mktime_normal_iff _ (by decide)).2 ⟨by decide, by decide, by decide, by decide⟩⟩

/-- The 60 seconds stay in the structure, while the time is the first minute. -/
theorem mktime_unnormalised : ¬∀ t : Tm, (mktime t).1 ≠ -1 → gmtime (mktime t).1 = some (mktime t).2 := by
  intro h
  obtain ⟨d, hd, -⟩ := gmtime_nonneg (h sixtySeconds (by decide))
  have hsec : (60 : Int32) = Int32.ofNat d.sec := congrArg Tm.tm_sec hd
  have hlt := d.sec_lt
  have hval := congrArg Int32.toInt hsec
  rw [Int32.toInt_ofNat_of_lt (by omega), show (60 : Int32).toInt = 60 from rfl] at hval
  omega

end JACLibc.Time
