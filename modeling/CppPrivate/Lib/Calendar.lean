import Mathlib.Algebra.Group.Nat.Defs
import Mathlib.Algebra.Order.BigOperators.Group.List
import Mathlib.Algebra.Order.Group.Int
import Mathlib.Algebra.Ring.Int.Defs
import Mathlib.Data.List.Basic

/-! The Gregorian calendar, carried on before its introduction. Days are numbered from January 1 of
the year 1, which is day 1 and a Monday. -/
namespace CppPrivate.Calendar

/-- The place of an offset in a row of lengths: an index, and an offset into what it stands for. -/
def walk : List Int → Int → Option (Nat × Int)
  | [], _ => none
  | l :: ls, d => if d < l then some (0, d) else (walk ls (d - l)).map fun p => (p.1 + 1, p.2)

section Walk
variable {ls : List Int} {d l r : Int} {i : Nat}

theorem walk_isSome (h0 : 0 ≤ d) (h : d < ls.sum) : (walk ls d).isSome := by
  induction ls generalizing d with
  | nil => exact absurd h (Int.not_lt.mpr h0)
  | cons l ls ih =>
    rw [walk]
    split
    · rfl
    · rw [List.sum_cons] at h
      rw [Option.isSome_map]
      exact ih (by omega) (by omega)

theorem walk_spec (h : walk ls d = some (i, r)) :
    ∃ l, ls[i]? = some l ∧ r < l ∧ d = (ls.take i).sum + r ∧ (0 ≤ d → 0 ≤ r) := by
  induction ls generalizing d i with
  | nil => cases h
  | cons l ls ih =>
    rw [walk] at h
    split at h
    · rename_i hlt
      cases h
      exact ⟨l, rfl, hlt, by simp, id⟩
    · obtain ⟨⟨j, q⟩, hj, he⟩ := Option.map_eq_some_iff.mp h
      obtain ⟨rfl, rfl⟩ := Prod.mk.inj he
      obtain ⟨l', hl', hlt, hd, hpos⟩ := ih hj
      refine ⟨l', hl', hlt, ?_, fun _ => hpos (by omega)⟩
      simp only [List.take_succ_cons, List.sum_cons]
      omega

theorem sum_take_nonneg (hpos : ∀ l ∈ ls, 0 ≤ l) (i : Nat) : 0 ≤ (ls.take i).sum :=
  List.sum_nonneg fun l hl => hpos l (List.mem_of_mem_take hl)

theorem sum_take_le (hpos : ∀ l ∈ ls, 0 ≤ l) (hl : ls[i]? = some l) :
    (ls.take i).sum + l ≤ ls.sum := by
  have hdrop : ls.drop i = l :: ls.drop (i + 1) := by
    obtain ⟨hi, rfl⟩ := List.getElem?_eq_some_iff.mp hl
    exact List.drop_eq_getElem_cons hi
  have hsum := List.sum_take_add_sum_drop ls i
  have hrest : 0 ≤ (ls.drop (i + 1)).sum :=
    List.sum_nonneg fun l hl => hpos l (List.mem_of_mem_drop hl)
  rw [hdrop, List.sum_cons] at hsum
  omega

/-- An offset has one place only. -/
theorem walk_take (hpos : ∀ l ∈ ls, 0 ≤ l) (hl : ls[i]? = some l) (hr : 0 ≤ r) (hlt : r < l) :
    walk ls ((ls.take i).sum + r) = some (i, r) := by
  induction ls generalizing i with
  | nil => cases hl
  | cons k ls ih =>
    have hpos' : ∀ l ∈ ls, 0 ≤ l := fun l hl => hpos l (List.mem_cons_of_mem k hl)
    rw [walk]
    cases i with
    | zero =>
      cases hl
      simp [hlt]
    | succ i =>
      have hsum := sum_take_nonneg hpos' i
      rw [List.take_succ_cons, List.sum_cons, if_neg (by omega)]
      have hrest : k + (ls.take i).sum + r - k = (ls.take i).sum + r := by omega
      rw [hrest, ih hpos' hl]
      rfl

end Walk

def IsLeap (y : Int) : Prop := 4 ∣ y ∧ (¬ 100 ∣ y ∨ 400 ∣ y)

instance (y : Int) : Decidable (IsLeap y) := inferInstanceAs (Decidable (_ ∧ _))

def leapDay (y : Int) : Int := if IsLeap y then 1 else 0

def yearLength (y : Int) : Int := 365 + leapDay y

def monthLengths (y : Int) : List Int :=
  [31, 28 + leapDay y, 31, 30, 31, 30, 31, 31, 30, 31, 30, 31]

def daysBeforeYear (y : Int) : Int :=
  365 * (y - 1) + (y - 1) / 4 - (y - 1) / 100 + (y - 1) / 400

/-- A day, with its month counted from zero. -/
structure Date where
  year : Int
  month : Nat
  day : Int
deriving DecidableEq

namespace Date

def Valid (d : Date) : Prop := ∃ l, (monthLengths d.year)[d.month]? = some l ∧ 1 ≤ d.day ∧ d.day ≤ l

/-- The day of the year, from zero. -/
def yday (d : Date) : Int := ((monthLengths d.year).take d.month).sum + (d.day - 1)

def number (d : Date) : Int := daysBeforeYear d.year + d.yday + 1

end Date

/-- From Sunday, which is zero. -/
def weekday (n : Int) : Int := n % 7

/-- How many of the `k` days after the day `n` are Sundays. -/
def sundays (n : Int) (k : Nat) : Nat := (List.range k).countP fun i => weekday (n + 1 + i) = 0

section Years
variable {y y' d : Int}

theorem leapDay_mem (y : Int) : leapDay y = 0 ∨ leapDay y = 1 := by
  rw [leapDay]
  split
  · exact Or.inr rfl
  · exact Or.inl rfl

theorem yearLength_pos (y : Int) : 0 < yearLength y := by
  have := leapDay_mem y
  rw [yearLength]
  omega

theorem daysBeforeYear_succ (y : Int) : daysBeforeYear (y + 1) = daysBeforeYear y + yearLength y := by
  unfold daysBeforeYear yearLength leapDay
  by_cases h : IsLeap y
  · rw [if_pos h]
    unfold IsLeap at h
    omega
  · rw [if_neg h]
    unfold IsLeap at h
    omega

theorem daysBeforeYear_le (h : y ≤ y') : daysBeforeYear y ≤ daysBeforeYear y' := by
  unfold daysBeforeYear
  omega

theorem sum_monthLengths (y : Int) : (monthLengths y).sum = yearLength y := by
  rw [monthLengths, yearLength]
  simp only [List.sum_cons, List.sum_nil]
  omega

theorem monthLengths_range (y : Int) : ∀ l ∈ monthLengths y, 0 ≤ l ∧ l ≤ 31 := by
  have := leapDay_mem y
  intro l hl
  simp only [monthLengths, List.mem_cons, List.not_mem_nil, or_false] at hl
  omega

theorem monthLengths_nonneg (y : Int) : ∀ l ∈ monthLengths y, 0 ≤ l :=
  fun l hl => (monthLengths_range y l hl).1

theorem month_le {m : Nat} {l : Int} (h : (monthLengths y)[m]? = some l) : m ≤ 11 := by
  obtain ⟨hlt, -⟩ := List.getElem?_eq_some_iff.mp h
  simp only [monthLengths, List.length_cons, List.length_nil] at hlt
  omega

theorem exists_year (n : Int) : ∃ y, daysBeforeYear y ≤ n ∧ n < daysBeforeYear (y + 1) := by
  induction n using Int.induction_on with
  | zero => exact ⟨1, by decide, by decide⟩
  | succ n ih =>
    obtain ⟨y, hle, hlt⟩ := ih
    by_cases h : (n : Int) + 1 < daysBeforeYear (y + 1)
    · exact ⟨y, by omega, h⟩
    · have hpos := yearLength_pos (y + 1)
      have hsucc := daysBeforeYear_succ (y + 1)
      exact ⟨y + 1, by omega, by omega⟩
  | pred n ih =>
    obtain ⟨y, hle, hlt⟩ := ih
    by_cases h : daysBeforeYear y ≤ -(n : Int) - 1
    · exact ⟨y, h, by omega⟩
    · have hpos := yearLength_pos (y - 1)
      have hsucc := daysBeforeYear_succ (y - 1)
      rw [Int.sub_add_cancel] at hsucc
      exact ⟨y - 1, by omega, by rw [Int.sub_add_cancel]; omega⟩

/-- A day belongs to one year only. -/
theorem year_unique {r r' : Int} (h0 : 0 ≤ r) (hr : r < yearLength y) (h0' : 0 ≤ r')
    (hr' : r' < yearLength y') (h : daysBeforeYear y + r = daysBeforeYear y' + r') :
    y = y' ∧ r = r' := by
  have hlt : ∀ {y y' r r' : Int}, y < y' → r < yearLength y → 0 ≤ r' →
      daysBeforeYear y + r < daysBeforeYear y' + r' := by
    intro y y' r r' hy hr h0'
    have hle := daysBeforeYear_le (Int.add_one_le_of_lt hy)
    rw [daysBeforeYear_succ] at hle
    omega
  rcases Int.lt_trichotomy y y' with hy | rfl | hy
  · exact absurd h (Int.ne_of_lt (hlt hy hr h0'))
  · exact ⟨rfl, by omega⟩
  · exact absurd h.symm (Int.ne_of_lt (hlt hy hr' h0))

end Years

namespace Date
variable {d e : Date}

theorem Valid.walk (h : d.Valid) : walk (monthLengths d.year) d.yday = some (d.month, d.day - 1) := by
  obtain ⟨l, hl, h1, hle⟩ := h
  exact walk_take (monthLengths_nonneg _) hl (by omega) (by omega)

theorem Valid.yday_nonneg (h : d.Valid) : 0 ≤ d.yday := by
  obtain ⟨l, -, h1, -⟩ := h
  have hsum := sum_take_nonneg (monthLengths_nonneg d.year) d.month
  rw [yday]
  omega

theorem Valid.yday_lt (h : d.Valid) : d.yday < yearLength d.year := by
  obtain ⟨l, hl, -, hle⟩ := h
  have hsum := sum_take_le (monthLengths_nonneg d.year) hl
  rw [sum_monthLengths] at hsum
  rw [yday]
  omega

/-- A number stands for one day only. -/
theorem number_inj (hd : d.Valid) (he : e.Valid) (h : d.number = e.number) : d = e := by
  obtain ⟨y, m, a⟩ := d
  obtain ⟨y', m', a'⟩ := e
  unfold number at h
  obtain ⟨hy, hyday⟩ := year_unique hd.yday_nonneg hd.yday_lt he.yday_nonneg he.yday_lt (by omega)
  simp only at hy
  subst hy
  have hwalk := hd.walk
  rw [hyday, he.walk] at hwalk
  simp only [Option.some.injEq, Prod.mk.injEq] at hwalk
  obtain ⟨rfl, ha⟩ := hwalk
  simp only [mk.injEq, true_and]
  omega

theorem Valid.month_le (h : d.Valid) : d.month ≤ 11 := by
  obtain ⟨l, hl, -⟩ := h
  exact Calendar.month_le hl

/-- Every number stands for a day. -/
theorem exists_number (n : Int) : ∃ d : Date, d.Valid ∧ d.number = n := by
  obtain ⟨y, hle, hlt⟩ := exists_year (n - 1)
  rw [daysBeforeYear_succ] at hlt
  have h0 : 0 ≤ n - 1 - daysBeforeYear y := by omega
  have hsum : n - 1 - daysBeforeYear y < (monthLengths y).sum := by
    rw [sum_monthLengths]
    omega
  obtain ⟨⟨m, r⟩, hm⟩ := Option.isSome_iff_exists.mp (walk_isSome h0 hsum)
  obtain ⟨l, hl, hr, heq, hpos⟩ := walk_spec hm
  have hr0 := hpos h0
  refine ⟨⟨y, m, r + 1⟩, ⟨l, hl, ?_, hr⟩, ?_⟩
  · simp only
    omega
  · simp only [number, yday]
    omega

end Date

/-- A time of a day, without leap seconds. -/
structure DateTime where
  date : Date
  hour : Int
  minute : Int
  second : Int
deriving DecidableEq

namespace DateTime

structure Valid (c : DateTime) : Prop where
  date : c.date.Valid
  hour : 0 ≤ c.hour ∧ c.hour < 24
  minute : 0 ≤ c.minute ∧ c.minute < 60
  second : 0 ≤ c.second ∧ c.second < 60

/-- The seconds from the midnight that begins the day `o`. -/
def since (o : Date) (c : DateTime) : Int :=
  86400 * (c.date.number - o.number) + 3600 * c.hour + 60 * c.minute + c.second

variable {o : Date} {c c' : DateTime}

theorem Valid.since_day (h : c.Valid) : c.since o / 86400 = c.date.number - o.number := by
  have h1 := h.hour
  have h2 := h.minute
  have h3 := h.second
  rw [since]
  omega

theorem Valid.since_second (h : c.Valid) :
    c.since o % 86400 = 3600 * c.hour + 60 * c.minute + c.second := by
  have h1 := h.hour
  have h2 := h.minute
  have h3 := h.second
  rw [since]
  omega

theorem since_inj (hc : c.Valid) (hc' : c'.Valid) (h : c.since o = c'.since o) : c = c' := by
  have hday := hc.since_day (o := o)
  have hsec := hc.since_second (o := o)
  rw [h] at hday hsec
  rw [hc'.since_day] at hday
  rw [hc'.since_second] at hsec
  have hdate : c.date = c'.date := Date.number_inj hc.date hc'.date (by omega)
  have h1 := hc.hour
  have h2 := hc.minute
  have h3 := hc.second
  have h1' := hc'.hour
  have h2' := hc'.minute
  have h3' := hc'.second
  cases c
  cases c'
  simp only [mk.injEq] at *
  exact ⟨hdate, by omega, by omega, by omega⟩

theorem exists_since (o : Date) (n : Int) : ∃ c : DateTime, c.Valid ∧ c.since o = n := by
  obtain ⟨d, hd, hn⟩ := Date.exists_number (o.number + n / 86400)
  refine ⟨⟨d, n % 86400 / 3600, n % 3600 / 60, n % 60⟩, ⟨hd, ?_, ?_, ?_⟩, ?_⟩
  · simp only
    omega
  · simp only
    omega
  · simp only
    omega
  · simp only [since, hn]
    omega

end DateTime

theorem weekday_range (n : Int) : 0 ≤ weekday n ∧ weekday n ≤ 6 := by
  rw [weekday]
  omega

theorem sundays_succ (n : Int) (k : Nat) :
    sundays n (k + 1) = sundays n k + if weekday (n + 1 + k) = 0 then 1 else 0 := by
  simp [sundays, List.range_succ, List.countP_singleton]

/-- The weeks that have begun. -/
theorem sundays_eq (n : Int) (k : Nat) : (sundays n k : Int) = (weekday n + k) / 7 := by
  induction k with
  | zero =>
    have := weekday_range n
    simp [sundays]
    omega
  | succ k ih =>
    rw [sundays_succ]
    unfold weekday at *
    split
    · push_cast
      omega
    · push_cast
      omega

end CppPrivate.Calendar
