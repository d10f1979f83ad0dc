import Mathlib.Tactic

/-! Times in seconds since 1970 and their dates in the calendar. -/
namespace Exploidus.Libc

/-- `days_from_civil`, for the date of a day: then no unsigned value wraps. -/
def daysFromCivil (y m d : ℤ) : ℤ :=
  let y := if m ≤ 2 then y - 1 else y
  let era := (if 0 ≤ y then y else y - 399).tdiv 400
  let yoe := y - era * 400
  let doy := (153 * (m + if m > 2 then -3 else 9) + 2) / 5 + d - 1
  let doe := yoe * 365 + yoe / 4 - yoe / 100 + doy
  era * 146097 + doe - 719468

/-- `civil_from_days`. -/
def civilFromDays (z : ℤ) : ℤ × ℤ × ℤ :=
  let z := z + 719468
  let era := (if 0 ≤ z then z else z - 146096).tdiv 146097
  let doe := z - era * 146097
  let yoe := (doe - doe / 1460 + doe / 36524 - doe / 146096) / 365
  let yy := yoe + era * 400
  let doy := doe - (365 * yoe + yoe / 4 - yoe / 100)
  let mp := (5 * doy + 2) / 153
  let dd := doy - (153 * mp + 2) / 5 + 1
  let mm := mp + if mp < 10 then 3 else -9
  (yy + if mm ≤ 2 then 1 else 0, mm, dd)

/-- `struct tm`, without the flag for daylight saving, which is always 0. -/
structure Tm where
  sec : ℤ
  min : ℤ
  hour : ℤ
  mday : ℤ
  mon : ℤ
  year : ℤ
  wday : ℤ
  yday : ℤ

/-- `time_to_tm`; `gmtime` is the same. -/
def gmtime (t : ℤ) : Tm :=
  let days := if t.tmod 86400 < 0 then t.tdiv 86400 - 1 else t.tdiv 86400
  let rem := if t.tmod 86400 < 0 then t.tmod 86400 + 86400 else t.tmod 86400
  let (y, m, d) := civilFromDays days
  { sec := rem % 60, min := rem % 3600 / 60, hour := rem / 3600, mday := d, mon := m - 1
    year := (y - 1900).bmod (2 ^ 32), wday := (days.tmod 7 + 7 + 4) % 7
    yday := days - daysFromCivil y 1 1 }

/-- `mktime`: the time and the normalised fields. When the `int` sum `tm_year + 1900` overflows, the
behaviour is undefined, which is `none`. -/
def mktime (tm : Tm) : Option (ℤ × Tm) :=
  if tm.year + 1900 < 2 ^ 31 then
    let days := daysFromCivil (tm.year + 1900) (tm.mon + 1) tm.mday
    let t := days * 86400 + tm.hour * 3600 + tm.min * 60 + tm.sec
    some (t, gmtime t)
  else none

/-! ### The Gregorian calendar -/

/-- The number of days of a month. -/
def monthDays (y m : ℤ) : ℤ :=
  if m = 2 then if y % 4 = 0 ∧ (y % 100 ≠ 0 ∨ y % 400 = 0) then 29 else 28
  else if m = 4 ∨ m = 6 ∨ m = 9 ∨ m = 11 then 30 else 31

/-- A date, as year, month and day. -/
def IsDate : ℤ × ℤ × ℤ → Prop
  | (y, m, d) => 1 ≤ m ∧ m ≤ 12 ∧ 1 ≤ d ∧ d ≤ monthDays y m

def nextDate : ℤ × ℤ × ℤ → ℤ × ℤ × ℤ
  | (y, m, d) =>
    if d < monthDays y m then (y, m, d + 1) else if m < 12 then (y, m + 1, 1) else (y + 1, 1, 1)

def dayNumber (date : ℤ × ℤ × ℤ) : ℤ := daysFromCivil date.1 date.2.1 date.2.2

theorem tdiv_eq_floor {k n : ℤ} (hk : 0 ≤ k) (hn : k + 1 = n) (a : ℤ) :
    (if 0 ≤ a then a else a - k).tdiv n = a / n := by
  split_ifs with ha
  · exact Int.tdiv_eq_ediv_of_nonneg ha
  · have hmod := Int.emod_add_mul_ediv a n
    have hlow := Int.emod_nonneg a (by omega : n ≠ 0)
    have hhigh := Int.emod_lt_of_pos a (by omega : 0 < n)
    have hneg : -(a - k) / n = -(a / n) :=
      ((Int.ediv_emod_unique (by omega) (r := k - a % n)).mpr
        ⟨by linarith, by linarith, by linarith⟩).1
    rw [← neg_neg (a - k), Int.neg_tdiv, Int.tdiv_eq_ediv_of_nonneg (by omega), hneg, neg_neg]

theorem daysFromCivil_eq {y m Y : ℤ} (d : ℤ) (hY : Y = if m ≤ 2 then y - 1 else y) :
    daysFromCivil y m d = 365 * Y + Y / 4 - Y / 100 + Y / 400 +
      (153 * (m + if m > 2 then -3 else 9) + 2) / 5 + d - 1 - 719468 := by
  simp only [daysFromCivil, ← hY, tdiv_eq_floor (by decide) (by decide : (399 : ℤ) + 1 = 400)]
  omega

theorem yearOfEra {yoe doy doe : ℤ} (h0 : 0 ≤ yoe) (h1 : yoe < 400) (h2 : 0 ≤ doy)
    (h3 : doy < 365 ∨ doy = 365 ∧ (yoe + 1) % 4 = 0 ∧ ((yoe + 1) % 100 ≠ 0 ∨ yoe = 399))
    (hdoe : doe = 365 * yoe + yoe / 4 - yoe / 100 + doy) :
    (doe - doe / 1460 + doe / 36524 - doe / 146096) / 365 = yoe := by
  obtain ⟨c, q, k, rfl, hc, hc', hq, hq', hk, hk'⟩ : ∃ c q k, yoe = 100 * c + 4 * q + k ∧
      0 ≤ c ∧ c < 4 ∧ 0 ≤ q ∧ q < 25 ∧ 0 ≤ k ∧ k < 4 :=
    ⟨yoe / 100, yoe % 100 / 4, yoe % 4, by omega⟩
  have hdays : doy < 365 ∨ doy = 365 ∧ k = 3 ∧ (q < 24 ∨ c = 3) := by omega
  replace hdoe : doe = 36524 * c + 1461 * q + 365 * k + doy := by omega
  clear h0 h1 h3
  have hcentury : doe / 36524 - doe / 146096 = c := by
    rcases (by omega : doe = 146096 ∨ doe < 36524 * (c + 1)) with hlast | hlast <;> omega
  have hfour : doe / 1460 = 25 * c + q + (24 * c + q + 365 * k + doy) / 1460 := by omega
  omega

theorem isDate_next {date : ℤ × ℤ × ℤ} (h : IsDate date) : IsDate (nextDate date) := by
  obtain ⟨y, m, d⟩ := date
  obtain ⟨h1, h2, h3, h4⟩ := h
  unfold nextDate
  dsimp only
  split_ifs
  · exact ⟨h1, h2, by omega, by omega⟩
  · refine ⟨by omega, by omega, le_rfl, ?_⟩
    unfold monthDays
    split_ifs <;> omega
  · exact ⟨le_rfl, by omega, le_rfl, by norm_num [monthDays]⟩

theorem dayNumber_next {date : ℤ × ℤ × ℤ} (h : IsDate date) :
    dayNumber (nextDate date) = dayNumber date + 1 := by
  obtain ⟨y, m, d⟩ := date
  obtain ⟨h1, h2, h3, h4⟩ := h
  unfold dayNumber nextDate
  dsimp only
  split_ifs with hlt hm <;> rw [daysFromCivil_eq _ rfl, daysFromCivil_eq d rfl] <;> dsimp only
  · omega
  · have hlast : d = monthDays y m := by omega
    unfold monthDays at hlast
    interval_cases m <;> simp at hlast ⊢ <;> omega
  · have hlast : d = monthDays y m := by omega
    obtain rfl : m = 12 := by omega
    simp [monthDays] at hlast
    simp
    omega

theorem civilFromDays_dayNumber {date : ℤ × ℤ × ℤ} (h : IsDate date) :
    civilFromDays (dayNumber date) = date := by
  obtain ⟨y, m, d⟩ := date
  obtain ⟨h1, h2, h3, h4⟩ := h
  obtain ⟨Y, hY⟩ : ∃ Y, Y = if m ≤ 2 then y - 1 else y := ⟨_, rfl⟩
  obtain ⟨mp, hmp⟩ : ∃ mp, mp = m + if m > 2 then -3 else 9 := ⟨_, rfl⟩
  obtain ⟨doy, hdoy⟩ : ∃ doy, doy = (153 * mp + 2) / 5 + d - 1 := ⟨_, rfl⟩
  obtain ⟨doe, hdoe⟩ : ∃ doe, doe = 365 * (Y % 400) + Y % 400 / 4 - Y % 400 / 100 + doy := ⟨_, rfl⟩
  have hz : daysFromCivil y m d + 719468 = doe + Y / 400 * 146097 := by
    rw [daysFromCivil_eq d hY]
    omega
  have hrange : 0 ≤ doy ∧ (doy < 365 ∨ doy = 365 ∧ (Y % 400 + 1) % 4 = 0 ∧
      ((Y % 400 + 1) % 100 ≠ 0 ∨ Y % 400 = 399)) ∧ (5 * doy + 2) / 153 = mp := by
    clear hdoe hz
    unfold monthDays at h4
    interval_cases m <;> simp at h4 hY hmp <;> omega
  have hyoe := yearOfEra (by omega) (by omega) hrange.1 hrange.2.1 hdoe
  have hera : (doe + Y / 400 * 146097) / 146097 = Y / 400 := by
    clear hY hz hmp h4
    omega
  have hrest : doe - (365 * (Y % 400) + Y % 400 / 4 - Y % 400 / 100) = doy := by omega
  have hday : doy - (153 * mp + 2) / 5 + 1 = d := by omega
  have hyear : Y % 400 + Y / 400 * 400 = Y := by omega
  simp only [dayNumber, civilFromDays, hz,
    tdiv_eq_floor (by decide) (by decide : (146096 : ℤ) + 1 = 146097), hera,
    add_sub_cancel_right, hyoe, hrest, hrange.2.2, hday, hyear]
  clear hz hrange hyoe hera hrest hday hyear hdoe hdoy h4
  interval_cases m <;> simp at hY hmp <;> simp [hY, hmp]

theorem civilFromDays_spec (z : ℤ) : IsDate (civilFromDays z) ∧ dayNumber (civilFromDays z) = z ∧
    civilFromDays (z + 1) = nextDate (civilFromDays z) := by
  -- every day comes after the first day of its era
  have hdate : ∀ n : ℕ, ∃ date, IsDate date ∧
      dayNumber date = 146097 * ((z + 719468) / 146097) - 719468 + n := by
    intro n
    induction n with
    | zero =>
      refine ⟨(400 * ((z + 719468) / 146097), 3, 1), by simp [IsDate, monthDays], ?_⟩
      rw [dayNumber, daysFromCivil_eq 1 rfl]
      simp
      omega
    | succ n ih =>
      obtain ⟨date, hd, hdays⟩ := ih
      refine ⟨nextDate date, isDate_next hd, ?_⟩
      rw [dayNumber_next hd, hdays]
      push_cast
      ring
  obtain ⟨date, hd, hdays⟩ := hdate ((z + 719468) % 146097).toNat
  obtain rfl : dayNumber date = z := by omega
  rw [← dayNumber_next hd, civilFromDays_dayNumber hd, civilFromDays_dayNumber (isDate_next hd)]
  exact ⟨hd, rfl, rfl⟩

/-! ### `gmtime` and `mktime` -/

def Tm.date (tm : Tm) : ℤ × ℤ × ℤ := (tm.year + 1900, tm.mon + 1, tm.mday)

/-- The year of a time fits in `tm_year`. -/
def YearFits (t : ℤ) : Prop :=
  -2 ^ 31 ≤ (civilFromDays (t / 86400)).1 - 1900 ∧ (civilFromDays (t / 86400)).1 - 1900 < 2 ^ 31
  deriving Decidable

/-- The fields of a time are those of its day and its second in the Gregorian calendar, and `mktime`
gives the time back. -/
structure GmtimeOk (t : ℤ) : Prop where
  date : IsDate (gmtime t).date
  epoch : (gmtime 0).date = (1970, 1, 1)
  next : YearFits (t + 86400) → (gmtime (t + 86400)).date = nextDate (gmtime t).date
  clock : (gmtime t).hour ∈ Set.Ico 0 24 ∧ (gmtime t).min ∈ Set.Ico 0 60 ∧
    (gmtime t).sec ∈ Set.Ico 0 60
  wday : (gmtime t).wday = (4 + t / 86400) % 7
  yday : (gmtime t).yday = ∑ i ∈ Finset.range (gmtime t).mon.toNat,
    monthDays ((gmtime t).year + 1900) (i + 1) + (gmtime t).mday - 1
  back : (mktime (gmtime t)).map Prod.fst = some t

theorem gmtime_eq {t y m d : ℤ} (h : civilFromDays (t / 86400) = (y, m, d)) (hy : YearFits t) :
    gmtime t = ⟨t % 86400 % 60, t % 86400 % 3600 / 60, t % 86400 / 3600, d, m - 1, y - 1900,
      (4 + t / 86400) % 7, t / 86400 - daysFromCivil y 1 1⟩ := by
  have hdiv : t.tdiv 86400 = t / 86400 + if 0 ≤ t ∨ 86400 ∣ t then 0 else 1 := Int.tdiv_eq_ediv
  have hmod : t.tmod 86400 = t - 86400 * t.tdiv 86400 := Int.tmod_def t 86400
  have hdays : (if t.tmod 86400 < 0 then t.tdiv 86400 - 1 else t.tdiv 86400) = t / 86400 := by
    split_ifs at hdiv ⊢ <;> omega
  have hrem : (if t.tmod 86400 < 0 then t.tmod 86400 + 86400 else t.tmod 86400) = t % 86400 := by
    split_ifs at hdiv ⊢ <;> omega
  have hwday : ((t / 86400).tmod 7 + 7 + 4) % 7 = (4 + t / 86400) % 7 := by
    have hmod := Int.tmod_def (t / 86400) 7
    omega
  have hyear : (y - 1900).bmod (2 ^ 32) = y - 1900 := by
    rw [YearFits, h] at hy
    exact Int.bmod_eq_of_le (by omega) (by omega)
  simp only [gmtime, hdays, hrem, h, hwday, hyear]

theorem dayOfYear {y m d : ℤ} (h : IsDate (y, m, d)) : daysFromCivil y m d - daysFromCivil y 1 1 =
    ∑ i ∈ Finset.range (m - 1).toNat, monthDays y (i + 1) + d - 1 := by
  obtain ⟨h1, h2, -, -⟩ := h
  rw [daysFromCivil_eq d rfl, daysFromCivil_eq 1 rfl]
  interval_cases m <;> simp [Finset.sum_range_succ, monthDays] <;> omega

theorem lt_intMax_iff {y m d : ℤ} (h : IsDate (y, m, d)) :
    daysFromCivil y m d < 784351576777 ↔ y < 2 ^ 31 := by
  obtain ⟨h1, h2, h3, h4⟩ := h
  have hd : d ≤ 31 := by
    unfold monthDays at h4
    split_ifs at h4 <;> omega
  rw [daysFromCivil_eq d rfl]
  split_ifs <;> omega

/-- `gmtime` and `mktime` are right for every time up to the end of the year `INT_MAX`; after it the
sum in `mktime` overflows. -/
theorem gmtimeOk_iff (t : ℤ) (h : YearFits t) : GmtimeOk t ↔ t < 67767976233532800 := by
  obtain ⟨hdate, hday, hnext⟩ := civilFromDays_spec (t / 86400)
  obtain ⟨⟨y, m, d⟩, hc⟩ : ∃ date, civilFromDays (t / 86400) = date := ⟨_, rfl⟩
  rw [hc] at hdate hday hnext
  replace hday : daysFromCivil y m d = t / 86400 := hday
  have hlast : t < 67767976233532800 ↔ y < 2 ^ 31 := by
    rw [← lt_intMax_iff hdate, hday]
    omega
  have hg := gmtime_eq hc h
  constructor
  · intro hok
    have hback := hok.back
    rw [hg, mktime] at hback
    split_ifs at hback with hy
    · exact hlast.mpr (by simpa using hy)
    · simp at hback
  · intro hlt
    have hy := hlast.mp hlt
    refine ⟨?_, by decide, fun hfits => ?_, ?_, ?_, ?_, ?_⟩
    all_goals rw [hg]
    · simpa [Tm.date] using hdate
    · have hstep : (t + 86400) / 86400 = t / 86400 + 1 := by omega
      obtain ⟨⟨y', m', d'⟩, hc'⟩ : ∃ date, civilFromDays ((t + 86400) / 86400) = date := ⟨_, rfl⟩
      rw [gmtime_eq hc' hfits]
      simpa [Tm.date, ← hnext, ← hstep] using hc'.symm
    · simp only [Set.mem_Ico]
      omega
    · rw [← hday]
      simpa using dayOfYear hdate
    · simp [mktime, hday]
      omega

theorem gmtimeOk_zero : YearFits 0 ∧ GmtimeOk 0 :=
  ⟨by decide, (gmtimeOk_iff 0 (by decide)).mpr (by decide)⟩

/-- The first second of the year 2147483648 has a `tm_year` that fits, and `mktime` overflows. -/
theorem mktime_overflow : YearFits 67767976233532800 ∧
    (gmtime 67767976233532800).year = 2147481748 ∧
    mktime (gmtime 67767976233532800) = none := by
  decide

end Exploidus.Libc
