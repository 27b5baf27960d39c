import CppPrivate.Public.Localtime

/-! The class `CDatetime`: its values, its arithmetic and its getters. -/
namespace CppPrivate.Public
open CppPrivate.Calendar

structure CDuration where
  m_TimeSec : Int
deriving DecidableEq

def CDuration.new (nDay nHour nMinute nSecond : UInt32) : CDuration where
  m_TimeSec := int (nSecond + nMinute * 60 + nHour * 60 * 60 + nDay * 24 * 60 * 60).toNat

def CDuration.getTimeSec (duration : CDuration) : Int := duration.m_TimeSec

structure CDatetime where
  m_TimeSec : Int
  m_TimesMillisec : Int
deriving DecidableEq

/-- The timezone of the process, in seconds west, and the flag that `CLocaltime` reads once. -/
structure CLocaltime where
  timezone : Int
  daylightActive : Int

def CLocaltime.nolocksLocaltime (clocaltime : CLocaltime) (timep : Int) : Option Tm :=
  nolocks_localtime timep clocaltime.timezone clocaltime.daylightActive

def CLocaltime.localTime (clocaltime : CLocaltime) (a : CDatetime) : Int :=
  adjust a.m_TimeSec clocaltime.timezone clocaltime.daylightActive

def WEEKDAY : List String :=
  ["Sunday", "Monday", "Tuesday", "Wednesday", "Thursday", "Friday", "Saturday"]

namespace CDatetime

/-- `CDatetime()` and `flushTime`, with what `gettimeofday` gives. -/
def now (tv_sec tv_usec : Int) : CDatetime where
  m_TimeSec := tv_sec
  m_TimesMillisec := time_t (time_t (tv_sec * 1000) + tv_usec.tdiv 1000)

/-- The constructor from a `time_t`, and `setSec`, `setTimestamp` and the assignment of one. -/
def ofTime (nTime : Int) : CDatetime where
  m_TimeSec := nTime
  m_TimesMillisec := time_t (nTime * 1000)

def getTimestamp (a : CDatetime) : Int := a.m_TimeSec

def assign (t : CDatetime) : CDatetime where
  m_TimeSec := t.m_TimeSec
  m_TimesMillisec := time_t (t.m_TimeSec * 1000)

def addAssign (a : CDatetime) (duration : CDuration) : CDatetime :=
  ofTime (time_t (a.m_TimeSec + duration.getTimeSec))

def subAssign (a : CDatetime) (duration : CDuration) : CDatetime :=
  ofTime (time_t (a.m_TimeSec - duration.getTimeSec))

/-- `a + duration`: the copy `tmp` is what `+=` changes. -/
def plus (a : CDatetime) (duration : CDuration) : CDatetime := a.addAssign duration

def minus (a : CDatetime) (duration : CDuration) : CDatetime := a.subAssign duration

def eq (a right : CDatetime) : Bool := a.m_TimesMillisec = right.m_TimesMillisec

def diff (a right : CDatetime) : Int := time_t (a.m_TimesMillisec - right.m_TimesMillisec)

section Getters
variable (clocaltime : CLocaltime) (a : CDatetime)

def getMonth : Option Int :=
  (clocaltime.nolocksLocaltime a.m_TimeSec).map fun ptm => int (ptm.tm_mon + 1)

def getDay : Option Int := (clocaltime.nolocksLocaltime a.m_TimeSec).map Tm.tm_mday

def getHour : Option Int := (clocaltime.nolocksLocaltime a.m_TimeSec).map Tm.tm_hour

def getMinute : Option Int := (clocaltime.nolocksLocaltime a.m_TimeSec).map Tm.tm_min

def getSecond : Option Int := (clocaltime.nolocksLocaltime a.m_TimeSec).map Tm.tm_sec

def getYday : Option Int := (clocaltime.nolocksLocaltime a.m_TimeSec).map Tm.tm_yday

def getDayOfWeek : Option Int := (clocaltime.nolocksLocaltime a.m_TimeSec).map Tm.tm_wday

/-- It gives nothing when it reads outside of `WEEKDAY`. -/
def getWeekday : Option String :=
  (clocaltime.nolocksLocaltime a.m_TimeSec).bind fun ptm =>
    if 0 ≤ ptm.tm_wday then WEEKDAY[ptm.tm_wday.toNat]? else none

def getWeekOfYear : Option Int :=
  (clocaltime.nolocksLocaltime a.m_TimeSec).map fun ptm =>
    let m := ptm.tm_yday + 1 - (ptm.tm_wday + 1)
    if m ≤ 0 then 1
    else
      let baseWeekDay := 7 - m.tmod 7
      let baseWeekDay := if baseWeekDay = 7 then 0 else baseWeekDay
      (baseWeekDay + ptm.tm_yday).tdiv 7 + 1

end Getters

end CDatetime

section Ranges
variable {t tz dst u q : Int}

def Within (o : Option Int) (lo hi : Int) : Prop := ∃ n, o = some n ∧ lo ≤ n ∧ n ≤ hi

/-- The ranges of the getters, and an index inside of `WEEKDAY`. -/
structure Documented (clocaltime : CLocaltime) (a : CDatetime) : Prop where
  month : Within (a.getMonth clocaltime) 1 12
  day : Within (a.getDay clocaltime) 1 31
  hour : Within (a.getHour clocaltime) 0 23
  minute : Within (a.getMinute clocaltime) 0 59
  second : Within (a.getSecond clocaltime) 0 60
  yday : Within (a.getYday clocaltime) 0 365
  dayOfWeek : Within (a.getDayOfWeek clocaltime) 0 6
  weekday : (a.getWeekday clocaltime).isSome

structure Tm.InRange (ptm : Tm) : Prop where
  mon : 0 ≤ ptm.tm_mon ∧ ptm.tm_mon ≤ 11
  mday : 1 ≤ ptm.tm_mday ∧ ptm.tm_mday ≤ 31
  hour : 0 ≤ ptm.tm_hour ∧ ptm.tm_hour ≤ 23
  min : 0 ≤ ptm.tm_min ∧ ptm.tm_min ≤ 59
  sec : 0 ≤ ptm.tm_sec ∧ ptm.tm_sec ≤ 60
  yday : 0 ≤ ptm.tm_yday ∧ ptm.tm_yday ≤ 365
  wday : 0 ≤ ptm.tm_wday ∧ ptm.tm_wday ≤ 6

/-- The loop over the months ends inside of `mdays`, or has read behind it. -/
theorem tm_mon_range {ptm : Tm} (h : nolocks_localtime t tz dst = some ptm) :
    0 ≤ ptm.tm_mon ∧ ptm.tm_mon ≤ 11 := by
  rw [nolocks_localtime, monthLoop_eq, mdays_eq, Option.map_map] at h
  obtain ⟨⟨m, r⟩, hm, rfl⟩ := Option.map_eq_some_iff.mp h
  obtain ⟨l, hl, -⟩ := walk_spec hm
  have hle := month_le hl
  simp only [Function.comp]
  omega

theorem tm_inRange_of_nonneg (hu : adjust t tz dst = u) (h : 0 ≤ u) :
    ∃ ptm, nolocks_localtime t tz dst = some ptm ∧ ptm.InRange := by
  obtain ⟨h0, hlt⟩ : 0 ≤ (yearLoop (u / 86400) 1970).1 ∧ _ := yearLoop_range (by omega)
  have hsum := sum_monthLengths (yearLoop (u / 86400) 1970).2
  obtain ⟨⟨m, r⟩, hm⟩ := Option.isSome_iff_exists.mp (walk_isSome h0 (hlt.trans_eq hsum.symm))
  obtain ⟨l, hl, hr, -, hpos⟩ := walk_spec hm
  have hr0 := hpos h0
  have hmem := monthLengths_range _ l (List.mem_of_getElem? hl)
  have hmonth : m ≤ 11 := month_le hl
  have hleap := leapDay_mem (yearLoop (u / 86400) 1970).2
  have hmday : int (r + 1) = r + 1 := int_of_fits (by omega) (by omega)
  have hyday : int (yearLoop (u / 86400) 1970).1 = (yearLoop (u / 86400) 1970).1 := by
    rw [yearLength] at hlt
    exact int_of_fits (by omega) (by omega)
  rw [nolocks_localtime_of_nonneg hu h, monthLoop_eq, mdays_eq, hm]
  simp only [Option.map_some, Option.some.injEq, exists_eq_left', hmday, hyday]
  rw [yearLength] at hlt
  have hweek := weekday_range (719163 + u / 86400)
  constructor
  case mon => simp only; omega
  case mday => simp only; omega
  case hour => simp only; omega
  case min => simp only; omega
  case sec => simp only; omega
  case yday => simp only; omega
  case wday => exact hweek

/-- Before 1970 the loops stop at once, and the divisions round to zero. -/
theorem nolocks_localtime_of_neg (hu : adjust t tz dst = -q) (h : 0 < q) :
    nolocks_localtime t tz dst = some
      { tm_isdst := dst
        tm_hour := -(q % 86400 / 3600)
        tm_min := -(q % 3600 / 60)
        tm_sec := -(q % 60)
        tm_wday := (4 - q / 86400).tmod 7
        tm_yday := int (-(q / 86400))
        tm_mon := 0
        tm_mday := int (1 - q / 86400)
        tm_year := 70 } := by
  have hdays : (-q).tdiv 86400 = -(q / 86400) := by
    rw [Int.neg_tdiv, Int.tdiv_eq_ediv_of_nonneg (by omega)]
  have hsec : (-q).tmod 86400 = -(q % 86400) := by
    rw [Int.neg_tmod, Int.tmod_eq_emod_of_nonneg (by omega)]
  have hrest : (-(q % 86400)).tmod 3600 = -(q % 3600) := by
    rw [Int.neg_tmod, Int.tmod_eq_emod_of_nonneg (by omega)]
    omega
  have hhour : int ((-(q % 86400)).tdiv 3600) = -(q % 86400 / 3600) := by
    rw [Int.neg_tdiv, Int.tdiv_eq_ediv_of_nonneg (by omega)]
    exact int_of_fits (by omega) (by omega)
  have hmin : int ((-(q % 3600)).tdiv 60) = -(q % 3600 / 60) := by
    rw [Int.neg_tdiv, Int.tdiv_eq_ediv_of_nonneg (by omega)]
    exact int_of_fits (by omega) (by omega)
  have hsecond : int ((-(q % 3600)).tmod 60) = -(q % 60) := by
    rw [Int.neg_tmod, Int.tmod_eq_emod_of_nonneg (by omega), int_of_fits (by omega) (by omega)]
    omega
  have hwday : int ((-(q / 86400) + 4).tmod 7) = (4 - q / 86400).tmod 7 := by
    have hlow := Int.lt_tmod_of_pos (4 - q / 86400) (b := 7) (by decide)
    have hhigh := Int.tmod_lt_of_pos (4 - q / 86400) (b := 7) (by decide)
    rw [Int.add_comm, ← Int.sub_eq_add_neg]
    exact int_of_fits (by omega) (by omega)
  have hyear : yearLoop (-(q / 86400)) 1970 = (-(q / 86400), 1970) := yearLoop_of_lt (by omega)
  have hmonth : monthLoop (mdays 1970) (-(q / 86400)) 0 = some (-(q / 86400), 0) := by
    rw [mdays, monthLoop, if_neg (by omega)]
  have hmday : -(q / 86400) + 1 = 1 - q / 86400 := by omega
  rw [nolocks_localtime, hu]
  simp only [hdays, hsec, hrest, hhour, hmin, hsecond, hwday, hyear, hmonth, Option.map_some, hmday]
  rfl

theorem int_mem {n lo hi : Int} (hlo : 0 ≤ lo) (hhi : hi < 2 ^ 31) :
    lo ≤ int n ∧ int n ≤ hi ↔ lo ≤ n % 2 ^ 32 ∧ n % 2 ^ 32 ≤ hi := by
  rw [int, Int.bmod_def]
  split
  · omega
  · omega

theorem january {n : Int} :
    1 ≤ (1 - n) % 2 ^ 32 ∧ (1 - n) % 2 ^ 32 ≤ 31 ↔ -n % 2 ^ 32 ≤ 30 := by
  omega

/-- The fields before 1970 are in their ranges only at a midnight that begins a Sunday, if the
number of the day, cut to 32 bits, is one of a January. -/
theorem tm_inRange_of_neg (hu : adjust t tz dst = u) (h : u < 0) :
    (∃ ptm, nolocks_localtime t tz dst = some ptm ∧ ptm.InRange) ↔
      u % 86400 = 0 ∧ (u / 86400 + 4) % 7 = 0 ∧ u / 86400 % 2 ^ 32 ≤ 30 := by
  obtain ⟨q, rfl⟩ : ∃ q, u = -q := ⟨-u, (Int.neg_neg u).symm⟩
  rw [nolocks_localtime_of_neg hu (by omega)]
  simp only [Option.some.injEq, exists_eq_left']
  constructor
  · intro hr
    have h1 := hr.hour
    have h2 := hr.min
    have h3 := hr.sec
    have hmday := january.mp ((int_mem (by decide) (by decide)).mp hr.mday)
    have hyday := (int_mem (by decide) (by decide)).mp hr.yday
    have hwday := hr.wday
    simp only at h1 h2 h3 hmday hyday hwday
    have hmidnight : q % 86400 = 0 := by omega
    -- the four days before 1970 have a weekday, but no number in a year
    have hbefore : 4 ≤ q / 86400 := by omega
    have hsunday : (q / 86400 - 4) % 7 = 0 := by
      rw [← Int.neg_sub, Int.neg_tmod, Int.tmod_eq_emod_of_nonneg (by omega)] at hwday
      omega
    have hneg : -q / 86400 = -(q / 86400) := by omega
    rw [hneg]
    exact ⟨by omega, by omega, hmday⟩
  · intro hc
    obtain ⟨hmidnight, hsunday, hday⟩ := hc
    have hneg : -q / 86400 = -(q / 86400) := by omega
    rw [hneg] at hsunday hday
    have hwday : (4 - q / 86400).tmod 7 = 0 := by
      rw [← Int.dvd_iff_tmod_eq_zero]
      omega
    constructor
    case mon => simp only; omega
    case mday => exact (int_mem (by decide) (by decide)).mpr (january.mpr hday)
    case hour => simp only; omega
    case min => simp only; omega
    case sec => simp only; omega
    case yday => exact (int_mem (by decide) (by decide)).mpr (by omega)
    case wday => simp only [hwday]; omega

theorem within_map {o : Option Tm} {f : Tm → Int} {lo hi : Int} :
    Within (o.map f) lo hi ↔ ∃ ptm, o = some ptm ∧ lo ≤ f ptm ∧ f ptm ≤ hi := by
  cases o with
  | none => simp [Within]
  | some ptm => simp [Within]

theorem index_isSome {i : Int} :
    (if 0 ≤ i then WEEKDAY[i.toNat]? else none).isSome ↔ 0 ≤ i ∧ i ≤ 6 := by
  split
  · rw [isSome_getElem?, WEEKDAY]
    simp only [List.length_cons, List.length_nil]
    omega
  · simp
    omega

theorem documented_iff {clocaltime : CLocaltime} {a : CDatetime} :
    Documented clocaltime a ↔
      ∃ ptm, clocaltime.nolocksLocaltime a.m_TimeSec = some ptm ∧ ptm.InRange := by
  constructor
  · intro hd
    obtain ⟨ptm, hptm, hmday⟩ := within_map.mp hd.day
    have hhour := hd.hour
    have hmin := hd.minute
    have hsec := hd.second
    have hyday := hd.yday
    have hwday := hd.dayOfWeek
    simp only [CDatetime.getHour, CDatetime.getMinute, CDatetime.getSecond, CDatetime.getYday,
      CDatetime.getDayOfWeek, within_map, hptm, Option.some.injEq, exists_eq_left']
      at hhour hmin hsec hyday hwday
    exact ⟨ptm, hptm, tm_mon_range hptm, hmday, hhour, hmin, hsec, hyday, hwday⟩
  · intro h
    obtain ⟨ptm, hptm, hr⟩ := h
    have hmon : int (ptm.tm_mon + 1) = ptm.tm_mon + 1 := by
      have := hr.mon
      exact int_of_fits (by omega) (by omega)
    constructor
    case month =>
      have := hr.mon
      exact within_map.mpr ⟨ptm, hptm, by omega, by omega⟩
    case day => exact within_map.mpr ⟨ptm, hptm, hr.mday⟩
    case hour => exact within_map.mpr ⟨ptm, hptm, hr.hour⟩
    case minute => exact within_map.mpr ⟨ptm, hptm, hr.min⟩
    case second => exact within_map.mpr ⟨ptm, hptm, hr.sec⟩
    case yday => exact within_map.mpr ⟨ptm, hptm, hr.yday⟩
    case dayOfWeek => exact within_map.mpr ⟨ptm, hptm, hr.wday⟩
    case weekday =>
      rw [CDatetime.getWeekday, hptm]
      exact index_isSome.mpr hr.wday

/-- The getters keep to their ranges from 1970 on, and before 1970 only where the cut of the day to
an `int` hides that it is negative. -/
theorem documented_iff_local (clocaltime : CLocaltime) (a : CDatetime) :
    Documented clocaltime a ↔
      0 ≤ clocaltime.localTime a ∨
        (clocaltime.localTime a % 86400 = 0 ∧ (clocaltime.localTime a / 86400 + 4) % 7 = 0 ∧
          clocaltime.localTime a / 86400 % 2 ^ 32 ≤ 30) := by
  rw [documented_iff, CLocaltime.nolocksLocaltime]
  by_cases h : 0 ≤ clocaltime.localTime a
  · simp only [h, true_or, iff_true]
    exact tm_inRange_of_nonneg rfl h
  · simp only [h, false_or]
    exact tm_inRange_of_neg rfl (by omega)

/-- One second before 1970 the second is negative. -/
theorem not_documented_before_1970 :
    ¬ ∀ (clocaltime : CLocaltime) (a : CDatetime), Documented clocaltime a := by
  intro h
  have hsec := (h ⟨0, 0⟩ (CDatetime.ofTime (-1))).second
  rw [CDatetime.getSecond, CLocaltime.nolocksLocaltime,
    nolocks_localtime_of_neg (q := 1) (by decide) (by decide)] at hsec
  obtain ⟨n, hn, h0, -⟩ := hsec
  cases hn
  exact absurd h0 (by decide)

end Ranges

section Weeks
variable {clocaltime : CLocaltime} {a b : CDatetime} {c c' : DateTime}

/-- What `tzset` and `localtime` give: an offset of a week at most, and a flag. -/
structure CLocaltime.Documented (clocaltime : CLocaltime) : Prop where
  timezone : -604800 ≤ clocaltime.timezone ∧ clocaltime.timezone ≤ 604800
  daylight : clocaltime.daylightActive = 0 ∨ clocaltime.daylightActive = 1

/-- The milliseconds of a value fit into its second field. -/
def CDatetime.Fits (a : CDatetime) : Prop :=
  -2 ^ 63 ≤ a.m_TimeSec * 1000 ∧ a.m_TimeSec * 1000 < 2 ^ 63

instance CDatetime.decidableFits (a : CDatetime) : Decidable a.Fits :=
  inferInstanceAs (Decidable (_ ∧ _))

structure Civil (clocaltime : CLocaltime) (a : CDatetime) (c : DateTime) : Prop where
  valid : c.Valid
  since : c.since epoch = a.m_TimeSec - clocaltime.timezone + 3600 * clocaltime.daylightActive

theorem Civil.nolocksLocaltime (hc : Civil clocaltime a c) (hz : clocaltime.Documented)
    (ha : a.Fits) (h0 : 0 ≤ c.since epoch) :
    clocaltime.nolocksLocaltime a.m_TimeSec =
      some (Tm.ofCivil clocaltime.daylightActive c) := by
  have htz := hz.timezone
  have hdst := hz.daylight
  have hs := hc.since
  rw [CDatetime.Fits] at ha
  have hyear : c.date.year < 2 ^ 31 := by
    have hday := hc.valid.since_day (o := epoch)
    have hepoch : epoch.number = 719163 := by decide
    have hnumber : c.date.number = daysBeforeYear c.date.year + c.date.yday + 1 := rfl
    have hyday := hc.valid.date.yday_nonneg
    rw [daysBeforeYear] at hnumber
    omega
  have hu := adjust_eq hdst (hs ▸ h0) (by omega)
  exact nolocks_localtime_eq hc.valid hu (hs ▸ h0) hs hyear

/-- The week that is computed from a weekday and a day of the year, both from zero. -/
theorem weekOfYear_eq {n y : Int} (hy : 0 ≤ y) :
    (if y + 1 - (weekday (n + y) + 1) ≤ 0 then 1
      else
        ((if 7 - (y + 1 - (weekday (n + y) + 1)).tmod 7 = 7 then 0
          else 7 - (y + 1 - (weekday (n + y) + 1)).tmod 7) + y).tdiv 7 + 1) =
      1 + (sundays n y.toNat : Int) := by
  rw [sundays_eq]
  unfold weekday
  split
  · omega
  · rw [Int.tmod_eq_emod_of_nonneg (by omega)]
    split
    · rw [Int.tdiv_eq_ediv_of_nonneg (by omega)]
      omega
    · rw [Int.tdiv_eq_ediv_of_nonneg (by omega)]
      omega

theorem getWeekOfYear_eq (hc : Civil clocaltime a c) (hz : clocaltime.Documented) (ha : a.Fits)
    (h0 : 0 ≤ c.since epoch) :
    a.getWeekOfYear clocaltime =
      some (1 + (sundays (Date.mk c.date.year 0 1).number c.date.yday.toNat : Int)) := by
  have hnumber : c.date.number = (Date.mk c.date.year 0 1).number + c.date.yday := by
    simp only [Date.number, Date.yday, List.take_zero, List.sum_nil]
    omega
  rw [CDatetime.getWeekOfYear, hc.nolocksLocaltime hz ha h0]
  simp only [Option.map_some, Tm.ofCivil, Option.some.injEq, hnumber]
  exact weekOfYear_eq hc.valid.date.yday_nonneg

/-- The week is one more than the Sundays after January 1. So from a day to the next one of the
same year it goes on by one if that day is a Sunday, and stays otherwise. -/
theorem getWeekOfYear_sundays (hz : clocaltime.Documented) (ha : a.Fits)
    (h0 : 0 ≤ a.m_TimeSec - clocaltime.timezone + 3600 * clocaltime.daylightActive) :
    ∃ c, Civil clocaltime a c ∧ (∀ c', Civil clocaltime a c' → c' = c) ∧
      a.getWeekOfYear clocaltime =
        some (1 + (sundays (Date.mk c.date.year 0 1).number c.date.yday.toNat : Int)) ∧
      ∀ b c', b.Fits → Civil clocaltime b c' → c'.date.year = c.date.year →
        c'.date.number = c.date.number + 1 → ∃ w, a.getWeekOfYear clocaltime = some w ∧
          b.getWeekOfYear clocaltime =
            some (w + if weekday c'.date.number = 0 then 1 else 0) := by
  obtain ⟨c, hc, hs⟩ := DateTime.exists_since epoch
    (a.m_TimeSec - clocaltime.timezone + 3600 * clocaltime.daylightActive)
  have hcivil : Civil clocaltime a c := ⟨hc, hs⟩
  have hweek := getWeekOfYear_eq hcivil hz ha (hs ▸ h0)
  refine ⟨c, hcivil, fun c' hc' => ?_, hweek, fun b c' hb hc' hyear hnext => ?_⟩
  · exact DateTime.since_inj hc'.valid hc (hc'.since.trans hs.symm)
  · have hday := hc.since_day (o := epoch)
    have hday' := hc'.valid.since_day (o := epoch)
    rw [getWeekOfYear_eq hc' hz hb (by omega), hyear]
    refine ⟨_, hweek, ?_⟩
    have hyday := hc.date.yday_nonneg
    have hnumber : c.date.number = daysBeforeYear c.date.year + c.date.yday + 1 := rfl
    have hnumber' : c'.date.number = daysBeforeYear c.date.year + c'.date.yday + 1 := by
      rw [← hyear]
      rfl
    have hjan : (Date.mk c.date.year 0 1).number = daysBeforeYear c.date.year + 1 := by
      simp only [Date.number, Date.yday, List.take_zero, List.sum_nil]
      omega
    have hsucc : c'.date.yday.toNat = c.date.yday.toNat + 1 := by omega
    have hthis : (Date.mk c.date.year 0 1).number + 1 + (c.date.yday.toNat : Int) =
        c'.date.number := by omega
    rw [hsucc, sundays_succ, hthis, Int.natCast_add, Int.add_assoc]
    split
    · rfl
    · rfl

/-- The first Sunday of 1970 begins its second week. -/
theorem getWeekOfYear_first_sunday :
    (CLocaltime.mk 0 0).Documented ∧ (CDatetime.ofTime 259200).Fits ∧
      ∃ w, (CDatetime.ofTime 172800).getWeekOfYear ⟨0, 0⟩ = some w ∧
        (CDatetime.ofTime 259200).getWeekOfYear ⟨0, 0⟩ = some (w + 1) := by
  have hz : (CLocaltime.mk 0 0).Documented := ⟨by decide, by decide⟩
  have hb : (CDatetime.ofTime 259200).Fits := ⟨by decide, by decide⟩
  obtain ⟨c, -, huniq, -, hnext⟩ := getWeekOfYear_sundays
    (a := CDatetime.ofTime 172800) hz ⟨by decide, by decide⟩ (by decide)
  have hvalid : ∀ d : Int, 1 ≤ d → d ≤ 31 → (DateTime.mk ⟨1970, 0, d⟩ 0 0 0).Valid :=
    fun _ h1 h31 => ⟨⟨31, rfl, h1, h31⟩, (by decide : (0 : Int) ≤ 0 ∧ (0 : Int) < 24),
      (by decide : (0 : Int) ≤ 0 ∧ (0 : Int) < 60), (by decide : (0 : Int) ≤ 0 ∧ (0 : Int) < 60)⟩
  have hc : DateTime.mk ⟨1970, 0, 3⟩ 0 0 0 = c :=
    huniq _ ⟨hvalid 3 (by decide) (by decide), by decide⟩
  subst hc
  exact ⟨hz, hb, hnext (CDatetime.ofTime 259200) ⟨⟨1970, 0, 4⟩, 0, 0, 0⟩ hb
    ⟨hvalid 4 (by decide) (by decide), by decide⟩ rfl (by decide)⟩

end Weeks

end CppPrivate.Public
