import CppPrivate.Lib.Calendar

/-! The broken-down time of `nolocks_localtime`, and the Gregorian calendar it computes. -/
namespace CppPrivate.Public
open CppPrivate.Calendar

/-- The conversion to a `time_t`, of 64 bits. -/
def time_t (n : Int) : Int := n.bmod (2 ^ 64)

def int (n : Int) : Int := n.bmod (2 ^ 32)

structure Tm where
  tm_sec : Int
  tm_min : Int
  tm_hour : Int
  tm_mday : Int
  tm_mon : Int
  tm_year : Int
  tm_wday : Int
  tm_yday : Int
  tm_isdst : Int
deriving DecidableEq

def is_leap_year (year : Int) : Int :=
  if year.tmod 4 ≠ 0 then 0
  else if year.tmod 100 ≠ 0 then 1
  else if year.tmod 400 ≠ 0 then 0
  else 1

theorem is_leap_year_eq (year : Int) : is_leap_year year = leapDay year := by
  have hleap : IsLeap year ↔ 4 ∣ year ∧ (¬ 100 ∣ year ∨ 400 ∣ year) := Iff.rfl
  simp only [is_leap_year, leapDay, ne_eq, ← Int.dvd_iff_tmod_eq_zero]
  split
  · rw [if_neg (by rw [hleap]; omega)]
  · split
    · rw [if_pos (by rw [hleap]; omega)]
    · split
      · rw [if_neg (by rw [hleap]; omega)]
      · rw [if_pos (by rw [hleap]; omega)]

theorem days_this_year (year : Int) : 365 + is_leap_year year = yearLength year := by
  rw [is_leap_year_eq, yearLength]

/-- The loop over the years: what is left in `days`, and `tm_year`. -/
def yearLoop (days tm_year : Int) : Int × Int :=
  if 365 + is_leap_year tm_year > days then (days, tm_year)
  else yearLoop (days - (365 + is_leap_year tm_year)) (int (tm_year + 1))
termination_by days.toNat
decreasing_by
  have := yearLength_pos tm_year
  rw [days_this_year] at *
  omega

def mdays (tm_year : Int) : List Int :=
  [31, 28 + is_leap_year tm_year, 31, 30, 31, 30, 31, 31, 30, 31, 30, 31]

/-- The loop over the months. It gives nothing when it reads behind `mdays`. -/
def monthLoop : List Int → Int → Int → Option (Int × Int)
  | [], _, _ => none
  | l :: ls, days, tm_mon =>
    if days ≥ l then monthLoop ls (days - l) (tm_mon + 1) else some (days, tm_mon)

def adjust (t tz dst : Int) : Int := time_t (time_t (t - tz) + int (3600 * dst))

def nolocks_localtime (t tz dst : Int) : Option Tm :=
  let t := adjust t tz dst
  let days := t.tdiv 86400
  let seconds := t.tmod 86400
  let y := yearLoop days 1970
  (monthLoop (mdays y.2) y.1 0).map fun m =>
    { tm_isdst := dst
      tm_hour := int (seconds.tdiv 3600)
      tm_min := int ((seconds.tmod 3600).tdiv 60)
      tm_sec := int ((seconds.tmod 3600).tmod 60)
      tm_wday := int ((days + 4).tmod 7)
      tm_yday := int y.1
      tm_mon := m.2
      tm_mday := int (m.1 + 1)
      tm_year := int (y.2 - 1900) }

section Conversions
variable {n : Int}

theorem int_of_fits (h : -2 ^ 31 ≤ n) (h' : n < 2 ^ 31) : int n = n := by
  rw [int]
  rw [Int.bmod_eq_of_le] <;> omega

theorem time_t_of_fits (h : -2 ^ 63 ≤ n) (h' : n < 2 ^ 63) : time_t n = n := by
  rw [time_t]
  rw [Int.bmod_eq_of_le] <;> omega

end Conversions

section Loops
variable {days y r : Int} {ls : List Int} {m : Int}

/-- The loop over the years leaves a day of the year it stops at. -/
theorem yearLoop_range (h : 0 ≤ days) :
    0 ≤ (yearLoop days y).1 ∧ (yearLoop days y).1 < yearLength (yearLoop days y).2 := by
  induction days, y using yearLoop.induct with
  | case1 days y hlt =>
    rw [yearLoop, if_pos hlt]
    rw [days_this_year] at hlt
    exact ⟨h, hlt⟩
  | case2 days y hlt ih =>
    rw [yearLoop, if_neg hlt]
    rw [days_this_year] at hlt ih ⊢
    exact ih (by omega)

/-- It stops at the year the day is in. -/
theorem yearLoop_eq {y' : Int} (h0 : 0 ≤ r) (hr : r < yearLength y') (hy : 0 ≤ y) (hle : y ≤ y')
    (hy' : y' < 2 ^ 31) (h : daysBeforeYear y + days = daysBeforeYear y' + r) :
    yearLoop days y = (r, y') := by
  induction days, y using yearLoop.induct with
  | case1 days y hlt =>
    rw [yearLoop, if_pos hlt]
    rw [days_this_year] at hlt
    have hdays : 0 ≤ days := by
      have := daysBeforeYear_le hle
      omega
    obtain ⟨rfl, rfl⟩ := year_unique hdays hlt h0 hr h
    rfl
  | case2 days y hlt ih =>
    rw [yearLoop, if_neg hlt]
    rw [days_this_year] at hlt ih ⊢
    have hne : y ≠ y' := by
      intro heq
      subst heq
      omega
    have hsucc : int (y + 1) = y + 1 := int_of_fits (by omega) (by omega)
    rw [hsucc] at ih ⊢
    exact ih (by omega) (by omega) (by rw [daysBeforeYear_succ]; omega)

theorem yearLoop_of_lt (h : days < 365) : yearLoop days y = (days, y) := by
  have hleap := leapDay_mem y
  rw [yearLoop, is_leap_year_eq, if_pos (by omega)]

theorem mdays_eq (y : Int) : mdays y = monthLengths y := by
  rw [mdays, is_leap_year_eq, monthLengths]

theorem monthLoop_eq (ls : List Int) (days m : Int) :
    monthLoop ls days m = (walk ls days).map fun p => (p.2, m + p.1) := by
  induction ls generalizing days m with
  | nil => rfl
  | cons l ls ih =>
    rw [monthLoop, walk]
    by_cases h : days < l
    · rw [if_pos h, if_neg (by omega)]
      simp
    · rw [if_neg h, if_pos (by omega), ih]
      rw [Option.map_map]
      congr 1
      funext p
      simp only [Function.comp, Prod.mk.injEq, true_and]
      omega

end Loops

section Civil
variable {t tz dst u : Int} {c : DateTime}

def epoch : Date := ⟨1970, 0, 1⟩

def Tm.ofCivil (dst : Int) (c : DateTime) : Tm where
  tm_sec := c.second
  tm_min := c.minute
  tm_hour := c.hour
  tm_mday := c.date.day
  tm_mon := c.date.month
  tm_year := c.date.year - 1900
  tm_wday := weekday c.date.number
  tm_yday := c.date.yday
  tm_isdst := dst

theorem adjust_eq (hdst : dst = 0 ∨ dst = 1) (h0 : 0 ≤ t - tz + 3600 * dst)
    (h : t - tz + 3600 * dst < 2 ^ 63) : adjust t tz dst = t - tz + 3600 * dst := by
  have hsub : time_t (t - tz) = t - tz := time_t_of_fits (by omega) (by omega)
  have hmul : int (3600 * dst) = 3600 * dst := int_of_fits (by omega) (by omega)
  rw [adjust, hsub, hmul]
  exact time_t_of_fits (by omega) (by omega)

/-- After 1970 the divisions are those of the calendar. -/
theorem nolocks_localtime_of_nonneg (hu : adjust t tz dst = u) (h : 0 ≤ u) :
    nolocks_localtime t tz dst =
      (monthLoop (mdays (yearLoop (u / 86400) 1970).2) (yearLoop (u / 86400) 1970).1 0).map fun m =>
        { tm_isdst := dst
          tm_hour := u % 86400 / 3600
          tm_min := u % 3600 / 60
          tm_sec := u % 60
          tm_wday := weekday (719163 + u / 86400)
          tm_yday := int (yearLoop (u / 86400) 1970).1
          tm_mon := m.2
          tm_mday := int (m.1 + 1)
          tm_year := int ((yearLoop (u / 86400) 1970).2 - 1900) } := by
  have hdays : u.tdiv 86400 = u / 86400 := Int.tdiv_eq_ediv_of_nonneg h
  have hsec : u.tmod 86400 = u % 86400 := Int.tmod_eq_emod_of_nonneg h
  have hrest : (u % 86400).tmod 3600 = u % 3600 := by
    rw [Int.tmod_eq_emod_of_nonneg (by omega)]
    omega
  have hhour : int ((u % 86400).tdiv 3600) = u % 86400 / 3600 := by
    rw [Int.tdiv_eq_ediv_of_nonneg (by omega)]
    exact int_of_fits (by omega) (by omega)
  have hmin : int ((u % 3600).tdiv 60) = u % 3600 / 60 := by
    rw [Int.tdiv_eq_ediv_of_nonneg (by omega)]
    exact int_of_fits (by omega) (by omega)
  have hsecond : int ((u % 3600).tmod 60) = u % 60 := by
    rw [Int.tmod_eq_emod_of_nonneg (by omega), int_of_fits (by omega) (by omega)]
    omega
  have hwday : int ((u / 86400 + 4).tmod 7) = weekday (719163 + u / 86400) := by
    rw [Int.tmod_eq_emod_of_nonneg (by omega), int_of_fits (by omega) (by omega), weekday]
    omega
  rw [nolocks_localtime, hu]
  simp only [hdays, hsec, hrest, hhour, hmin, hsecond, hwday]

/-- A civil time between the epoch and the last year of an `int` is the one that is computed. -/
theorem nolocks_localtime_eq (hc : c.Valid) (hu : adjust t tz dst = u) (h : 0 ≤ u)
    (hs : c.since epoch = u) (hyear : c.date.year < 2 ^ 31) :
    nolocks_localtime t tz dst = some (Tm.ofCivil dst c) := by
  have hepoch : epoch.number = daysBeforeYear 1970 + 1 := by decide
  have hnumber : c.date.number = daysBeforeYear c.date.year + c.date.yday + 1 := rfl
  have hday := hc.since_day (o := epoch)
  have hsec := hc.since_second (o := epoch)
  have hlt := hc.date.yday_lt
  have hnonneg := hc.date.yday_nonneg
  rw [hs] at hday hsec
  have hlow : 1970 ≤ c.date.year := by
    by_contra hlow
    have hle : daysBeforeYear (c.date.year + 1) ≤ daysBeforeYear 1970 :=
      daysBeforeYear_le (by omega)
    rw [daysBeforeYear_succ] at hle
    omega
  have hloop : yearLoop (u / 86400) 1970 = (c.date.yday, c.date.year) :=
    yearLoop_eq hnonneg hlt (by decide) hlow hyear (by omega)
  have hmonth : monthLoop (mdays c.date.year) c.date.yday 0 =
      some (c.date.day - 1, (c.date.month : Int)) := by
    rw [monthLoop_eq, mdays_eq, hc.date.walk]
    simp
  have hleap := leapDay_mem c.date.year
  have hyday : int c.date.yday = c.date.yday := by
    rw [yearLength] at hlt
    exact int_of_fits (by omega) (by omega)
  have hmday : int (c.date.day - 1 + 1) = c.date.day := by
    obtain ⟨l, hl, h1, hle⟩ := hc.date
    have hmem := monthLengths_range c.date.year l (List.mem_of_getElem? hl)
    rw [Int.sub_add_cancel]
    exact int_of_fits (by omega) (by omega)
  have hy : int (c.date.year - 1900) = c.date.year - 1900 := int_of_fits (by omega) (by omega)
  have hwday : 719163 + u / 86400 = c.date.number := by
    have : daysBeforeYear 1970 = 719162 := by decide
    omega
  have h1 := hc.hour
  have h2 := hc.minute
  have h3 := hc.second
  rw [nolocks_localtime_of_nonneg hu h, hloop, hmonth]
  simp only [Option.map_some, Tm.ofCivil, hyday, hmday, hy, hwday, Option.some.injEq, Tm.mk.injEq,
    and_true]
  exact ⟨by omega, by omega, by omega⟩

theorem since_lt (hc : c.Valid) (hyear : c.date.year < 2 ^ 31) : c.since epoch < 2 ^ 63 := by
  have hday := hc.since_day (o := epoch)
  have hlt := hc.date.yday_lt
  have hleap := leapDay_mem c.date.year
  have hepoch : epoch.number = 719163 := by decide
  have hnumber : c.date.number = daysBeforeYear c.date.year + c.date.yday + 1 := rfl
  rw [daysBeforeYear] at hnumber
  rw [yearLength] at hlt
  omega

/-- Every time from 1970 on has one civil time. If its year is an `int`, then both loops end within
their bounds, and this civil time is what `nolocks_localtime` writes, with its weekday and its day
of the year. -/
theorem nolocks_localtime_civil (hdst : dst = 0 ∨ dst = 1) (h0 : 0 ≤ t - tz + 3600 * dst) :
    ∃ c : DateTime, (c.Valid ∧ c.since epoch = t - tz + 3600 * dst) ∧
      (∀ c' : DateTime, c'.Valid ∧ c'.since epoch = t - tz + 3600 * dst → c' = c) ∧
      (c.date.year < 2 ^ 31 →
        nolocks_localtime t tz dst = some (Tm.ofCivil dst c) ∧ c.date.month ≤ 11) := by
  obtain ⟨c, hc, hs⟩ := DateTime.exists_since epoch (t - tz + 3600 * dst)
  refine ⟨c, ⟨hc, hs⟩, ?_, fun hyear => ⟨?_, hc.date.month_le⟩⟩
  · intro c' hc'
    exact DateTime.since_inj hc'.1 hc (hc'.2.trans hs.symm)
  · have hlt := since_lt hc hyear
    exact nolocks_localtime_eq hc (adjust_eq hdst h0 (by omega)) h0 hs hyear

/-- The leap day of the year 2000. -/
theorem nolocks_localtime_leap :
    0 ≤ (951782400 : Int) - 0 + 3600 * 0 ∧
      nolocks_localtime 951782400 0 0 = some (Tm.ofCivil 0 ⟨⟨2000, 1, 29⟩, 0, 0, 0⟩) := by
  have h0 : 0 ≤ (951782400 : Int) - 0 + 3600 * 0 := by decide
  obtain ⟨c, -, huniq, heq⟩ := nolocks_localtime_civil (Or.inl rfl) h0
  have hcivil : DateTime.mk ⟨2000, 1, 29⟩ 0 0 0 = c :=
    huniq _ ⟨⟨⟨29, by decide, by decide, by decide⟩, by decide, by decide, by decide⟩, by decide⟩
  subst hcivil
  exact ⟨h0, (heq (by decide)).1⟩

end Civil

end CppPrivate.Public
