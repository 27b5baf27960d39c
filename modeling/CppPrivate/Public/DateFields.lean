import CppPrivate.Public.DateFormat

/-! What the directives of a format do together: the hour and the year depend on the order they come
in. -/
namespace CppPrivate.Public.Strptime
open CppPrivate.Calendar

/-- `tm_hour` behind a directive other than `%p`. -/
def hourStep (hour : Int) : Int → Directive → Int
  | _, .H => hour
  | _, .I => hour % 12
  | tm_hour, _ => tm_hour

/-- `tm_hour` in the end, unless a `%p` fails. -/
def hours (hour : Int) : List Item → Int → Option Int
  | [], tm_hour => some tm_hour
  | (.p, sep) :: items, tm_hour =>
    if (sep = [] ∧ items = []) ∧ tm_hour ≤ 11 then
      some (if hour < 12 then tm_hour else tm_hour + 12)
    else none
  | (directive, _) :: items, tm_hour => hours hour items (hourStep hour tm_hour directive)

/-- `split_year` with `tm_year`. -/
def yearStep (year : Int) : Bool × Int → Directive → Bool × Int
  | (split, _), .Y => (split, year - 1900)
  | (true, tm_year), .C => (true, tm_year.tmod 100 + year / 100 * 100)
  | (false, _), .C => (true, year / 100 * 100)
  | (true, tm_year), .y => (true, tm_year.tdiv 100 * 100 + year % 100)
  | (false, _), .y => (true, if year % 100 ≤ 68 then year % 100 + 100 else year % 100)
  | x, _ => x

def years (year : Int) (ds : List Directive) (x : Bool × Int) : Bool × Int :=
  ds.foldl (yearStep year) x

def fieldStep (c : DateTime) (tm : Tm) : Directive → Tm
  | .m => { tm with tm_mon := c.date.month }
  | .d => { tm with tm_mday := c.date.day }
  | .M => { tm with tm_min := c.minute }
  | .S => { tm with tm_sec := c.second }
  | _ => tm

/-- The other fields, which are those of the date where their directive is there. -/
def fields (c : DateTime) (ds : List Directive) (tm : Tm) : Tm :=
  { tm with
    tm_mon := if .m ∈ ds then c.date.month else tm.tm_mon
    tm_mday := if .d ∈ ds then c.date.day else tm.tm_mday
    tm_min := if .M ∈ ds then c.minute else tm.tm_min
    tm_sec := if .S ∈ ds then c.second else tm.tm_sec }

def directives (items : List Item) : List Directive := items.map Prod.fst

section Effects
variable {w : Nat} {c : DateTime} {items : List Item} {directive : Directive} {s : Scan}

theorem fields_cons (directive : Directive) (ds : List Directive) (tm : Tm) :
    fields c (directive :: ds) tm = fields c ds (fieldStep c tm directive) := by
  cases directive <;> simp [fields, fieldStep]

theorem hours_cons {hour tm_hour : Int} {sep : Bytes} (hp : directive ≠ .p) :
    hours hour ((directive, sep) :: items) tm_hour =
      hours hour items (hourStep hour tm_hour directive) := by
  cases directive <;> first | rfl | exact absurd rfl hp

/-- A directive sets `tm_hour`, the year, or one of the other fields. -/
theorem store_amount (hp : directive ≠ .p) (s : Scan) :
    directive.store (directive.amount c) s =
      { s with
        split_year := (yearStep c.date.year (s.split_year, s.tm.tm_year) directive).1
        tm := { fieldStep c s.tm directive with
          tm_hour := hourStep c.hour s.tm.tm_hour directive
          tm_year := (yearStep c.date.year (s.split_year, s.tm.tm_year) directive).2 } } := by
  cases directive with
  | p => exact absurd rfl hp
  | Y | d | H | M | S => rfl
  | C =>
    rw [Directive.store, storeCentury]
    cases s.split_year with
    | true => rfl
    | false => rfl
  | y =>
    have hcentury : c.date.year % 100 + 2000 - TM_YEAR_BASE = c.date.year % 100 + 100 := by
      rw [TM_YEAR_BASE]
      omega
    have hlast : c.date.year % 100 + 1900 - TM_YEAR_BASE = c.date.year % 100 := by
      rw [TM_YEAR_BASE]
      omega
    rw [Directive.store, storeYear, Directive.amount, hcentury, hlast]
    cases s.split_year with
    | true => rfl
    | false =>
      by_cases hle : c.date.year % 100 ≤ 68
      · simp [yearStep, hourStep, fieldStep, hle]
      · simp [yearStep, hourStep, fieldStep, hle]
  | m =>
    have hmonth : (c.date.month : Int) + 1 - 1 = c.date.month := Int.add_sub_cancel _ 1
    simp only [Directive.store, Strptime.store, Directive.amount, hmonth]
    rfl
  | I =>
    have hnoon : (if (c.hour + 11) % 12 + 1 = 12 then (0 : Int) else (c.hour + 11) % 12 + 1) =
        c.hour % 12 := by
      split
      · omega
      · omega
    rw [Directive.store, Strptime.store, Directive.amount, storeHour12, hnoon]
    rfl

/-- The three kinds of fields do not depend on each other. -/
theorem effects_eq (h : Dated w c) (items : List Item) (s : Scan) : effects c items s =
    (hours c.hour items s.tm.tm_hour).map fun hour =>
      { s with
        split_year := (years c.date.year (directives items) (s.split_year, s.tm.tm_year)).1
        tm := { fields c (directives items) s.tm with
          tm_hour := hour
          tm_year := (years c.date.year (directives items) (s.split_year, s.tm.tm_year)).2 } } := by
  induction items generalizing s with
  | nil => rfl
  | cons it items ih =>
    obtain ⟨directive, sep⟩ := it
    rw [effects]
    by_cases hp : directive = .p
    · subst hp
      by_cases hlast : sep = [] ∧ items = []
      · obtain ⟨rfl, rfl⟩ := hlast
        simp only [Directive.effect, hours, and_self, decide_true, true_and]
        split
        · rfl
        · rfl
      · simp only [Directive.effect, hours, hlast, decide_false, false_and]
        rfl
    · have heffect : directive.effect c (decide (sep = [] ∧ items = [])) s =
          some (directive.store (directive.value c) s) := by
        cases directive <;> first | rfl | exact absurd rfl hp
      have hdirectives : directives ((directive, sep) :: items) = directive :: directives items := rfl
      rw [heffect, Option.bind_some, h.value_eq, store_amount hp, ih, hours_cons hp, hdirectives,
        fields_cons]
      rfl

end Effects

section Hours
variable {hour tm_hour : Int} {items : List Item} {ds before after : List Directive}
  {directive : Directive}

/-- Every `%p` is the last directive, with nothing behind it. -/
def PmLast (items : List Item) : Prop :=
  ∀ before sep after, items = before ++ (.p, sep) :: after → sep = [] ∧ after = []

/-- The last one of `%H` and `%I` is `%I` if there is a `%p`, and `%H` if there is none; in the first
half of the day it may be either. -/
def HourOk (hour : Int) (ds : List Directive) : Prop :=
  (∀ e ∈ ds, e ∉ [Directive.H, .I]) ∨ hour < 12 ∨ ∃ before directive after,
    ds = before ++ directive :: after ∧ directive ∈ [Directive.H, .I] ∧
      (∀ e ∈ after, e ∉ [Directive.H, .I]) ∧ (directive = .I ↔ .p ∈ ds)

theorem pmLast_cons (hp : directive ≠ .p) {sep : Bytes} :
    PmLast ((directive, sep) :: items) ↔ PmLast items := by
  constructor
  · intro h before sep' after heq
    exact h ((directive, sep) :: before) sep' after (by rw [heq, List.cons_append])
  · intro h before sep' after heq
    cases before with
    | nil =>
      obtain ⟨hit, -⟩ := List.cons.inj heq
      exact absurd (congrArg Prod.fst hit) hp
    | cons it before =>
      obtain ⟨-, hitems⟩ := List.cons.inj heq
      exact h before sep' after hitems

theorem hours_pmLast {r : Int} (h : hours hour items tm_hour = some r) : PmLast items := by
  induction items generalizing tm_hour with
  | nil =>
    intro before sep after heq
    cases before <;> cases heq
  | cons it items ih =>
    obtain ⟨directive, sep⟩ := it
    by_cases hp : directive = .p
    · subst hp
      rw [hours] at h
      split at h
      · rename_i hlast
        obtain ⟨⟨rfl, rfl⟩, -⟩ := hlast
        intro before sep after heq
        cases before with
        | nil =>
          cases heq
          exact ⟨rfl, rfl⟩
        | cons it before =>
          obtain ⟨-, hnil⟩ := List.cons.inj heq
          cases before <;> cases hnil
      · cases h
    · rw [hours_cons hp] at h
      exact (pmLast_cons hp).mpr (ih h)

/-- Of a `%p` that is the last one. -/
theorem hours_eq (h : PmLast items) : hours hour items tm_hour =
    if .p ∈ directives items then
      if (directives items).foldl (hourStep hour) tm_hour ≤ 11 then
        some (if hour < 12 then (directives items).foldl (hourStep hour) tm_hour
          else (directives items).foldl (hourStep hour) tm_hour + 12)
      else none
    else some ((directives items).foldl (hourStep hour) tm_hour) := by
  induction items generalizing tm_hour with
  | nil => rfl
  | cons it items ih =>
    obtain ⟨directive, sep⟩ := it
    have hdirectives : directives ((directive, sep) :: items) = directive :: directives items := rfl
    by_cases hp : directive = .p
    · subst hp
      obtain ⟨rfl, rfl⟩ := h [] sep items rfl
      simp [hours, directives, hourStep]
    · have hmem : .p ∈ directive :: directives items ↔ .p ∈ directives items := by
        simp [Ne.symm hp]
      rw [hours_cons hp, ih ((pmLast_cons hp).mp h), hdirectives, List.foldl_cons]
      by_cases hpm : .p ∈ directives items
      · rw [if_pos hpm, if_pos (hmem.mpr hpm)]
      · rw [if_neg hpm, if_neg fun hcons => hpm (hmem.mp hcons)]

/-- Only `%H` and `%I` count. -/
theorem hour_unchanged (h : ∀ e ∈ ds, e ∉ [Directive.H, .I]) :
    ds.foldl (hourStep hour) tm_hour = tm_hour := by
  induction ds generalizing tm_hour with
  | nil => rfl
  | cons directive ds ih =>
    obtain ⟨hd, hds⟩ := List.forall_mem_cons.mp h
    rw [List.foldl_cons, ih hds]
    cases directive <;> first | rfl | exact absurd (by decide) hd

/-- The last one of them decides. -/
theorem hour_last (hds : ds = before ++ directive :: after) (hd : directive ∈ [Directive.H, .I])
    (hafter : ∀ e ∈ after, e ∉ [Directive.H, .I]) :
    ds.foldl (hourStep hour) tm_hour = if directive = .H then hour else hour % 12 := by
  rw [hds, List.foldl_append, List.foldl_cons, hour_unchanged hafter]
  cases directive <;> first | rfl | exact absurd hd (by decide)

/-- Where the hour comes out right, the directives have come in an order for it. -/
theorem hours_ok (hhour : 0 ≤ hour ∧ hour < 24)
    (hset : ∃ e ∈ directives items, e ∈ [Directive.H, .I]) (h : hours hour items tm_hour = some hour) :
    HourOk hour (directives items) := by
  right
  by_cases hmorning : hour < 12
  · exact Or.inl hmorning
  · obtain ⟨before, directive, after, hds, hd, hafter⟩ := exists_last hset
    rw [hours_eq (hours_pmLast h), hour_last hds hd hafter, if_neg hmorning] at h
    refine Or.inr ⟨before, directive, after, hds, hd, hafter, ?_⟩
    by_cases hp : .p ∈ directives items
    · have hI : directive = .I := by
        by_contra hI
        have hH : directive = .H := by simpa [hI] using hd
        rw [if_pos hp, if_pos hH, if_neg (by omega)] at h
        cases h
      exact iff_of_true hI hp
    · have hI : directive ≠ .I := by
        intro hI
        rw [if_neg hp, hI, if_neg (by decide), Option.some.injEq] at h
        omega
      exact iff_of_false hI hp

theorem hours_of_ok (hhour : 0 ≤ hour ∧ hour < 24)
    (hset : ∃ e ∈ directives items, e ∈ [Directive.H, .I]) (hlast : PmLast items)
    (hok : HourOk hour (directives items)) :
    hours hour items tm_hour = some hour := by
  rw [hours_eq hlast]
  obtain hnone | hmorning | ⟨before, directive, after, hds, hd, hafter, hiff⟩ := hok
  · obtain ⟨e, he, hmem⟩ := hset
    exact absurd hmem (hnone e he)
  · obtain ⟨before, directive, after, hds, hd, hafter⟩ := exists_last hset
    have hfold : (directives items).foldl (hourStep hour) tm_hour = hour := by
      rw [hour_last hds hd hafter]
      split
      · rfl
      · omega
    rw [hfold, if_pos hmorning]
    split
    · rw [if_pos (by omega)]
    · rfl
  · rw [hour_last hds hd hafter]
    by_cases hp : .p ∈ directives items
    · have hI : ¬ Directive.I = .H := by decide
      have hle : hour % 12 ≤ 11 := by omega
      rw [if_pos hp, hiff.mpr hp, if_neg hI, if_pos hle, Option.some.injEq]
      split
      · omega
      · omega
    · have hI : directive ≠ .I := fun hI => hp (hiff.mp hI)
      have hH : directive = .H := by simpa [hI] using hd
      rw [if_neg hp, if_pos hH]

theorem hours_iff (hhour : 0 ≤ hour ∧ hour < 24)
    (hpm : .p ∈ directives items → ∃ e ∈ directives items, e ∈ [Directive.H, .I]) :
    hours hour items tm_hour =
        some (if ∃ e ∈ directives items, e ∈ [Directive.H, .I, .p] then hour else tm_hour) ↔
      PmLast items ∧ HourOk hour (directives items) := by
  by_cases hset : ∃ e ∈ directives items, e ∈ [Directive.H, .I]
  · have hgiven : ∃ e ∈ directives items, e ∈ [Directive.H, .I, .p] := by
      obtain ⟨e, he, hmem⟩ := hset
      exact ⟨e, he, List.mem_append_left [Directive.p] hmem⟩
    rw [if_pos hgiven]
    constructor
    · intro h
      exact ⟨hours_pmLast h, hours_ok hhour hset h⟩
    · intro h
      exact hours_of_ok hhour hset h.1 h.2
  · have hnone : ∀ e ∈ directives items, e ∉ [Directive.H, .I] :=
      fun e he hmem => hset ⟨e, he, hmem⟩
    have hp : .p ∉ directives items := fun hp => hset (hpm hp)
    have hgiven : ¬ ∃ e ∈ directives items, e ∈ [Directive.H, .I, .p] := by
      intro h
      obtain ⟨e, he, hmem⟩ := h
      cases List.mem_append.mp (show e ∈ [Directive.H, .I] ++ [.p] from hmem) with
      | inl hmem => exact hnone e he hmem
      | inr hmem => exact hp (List.mem_singleton.mp hmem ▸ he)
    have hlast : PmLast items := by
      intro before sep after heq
      refine absurd ?_ hp
      rw [heq, directives, List.map_append, List.map_cons]
      exact List.mem_append_right _ List.mem_cons_self
    rw [hours_eq hlast, if_neg hp, if_neg hgiven, hour_unchanged hnone]
    exact iff_of_true rfl ⟨hlast, Or.inl hnone⟩

end Hours

section Years
variable {year v lo : Int} {ds before after : List Directive} {x : Bool × Int}

/-- After the last `%Y` there is no `%C`. If there is a `%y` the year is one that it keeps: not before
1900 or the first one of a century where the year has been split already, else one of the hundred years
that `%y` stands for. -/
def YearOk (year : Int) (ds : List Directive) : Prop :=
  (∀ e ∈ ds, e ∉ [Directive.Y, .C, .y]) ∨ ∃ before after, ds = before ++ .Y :: after ∧
    .Y ∉ after ∧ .C ∉ after ∧ (.y ∈ after →
      if .C ∈ before ∨ .y ∈ before then 1900 ≤ year ∨ 100 ∣ year
      else 1969 ≤ year ∧ year ≤ 2068)

theorem tdiv_hundred (v : Int) :
    v.tdiv 100 = if 0 ≤ v ∨ 100 ∣ v then v / 100 else v / 100 + 1 := by
  rw [Int.tdiv_eq_ediv]
  split
  · exact Int.add_zero _
  · rfl

theorem years_cons (e : Directive) (ds : List Directive) (x : Bool × Int) :
    years year (e :: ds) x = years year ds (yearStep year x e) := rfl

theorem years_append (before after : List Directive) (x : Bool × Int) :
    years year (before ++ after) x = years year after (years year before x) := List.foldl_append

theorem yearStep_split (x : Bool × Int) (e : Directive) :
    (yearStep year x e).1 = true ↔ x.1 = true ∨ e = .C ∨ e = .y := by
  obtain ⟨split, v⟩ := x
  cases split <;> cases e <;> simp [yearStep]

/-- The year is split from the first `%C` or `%y` on. -/
theorem years_split (ds : List Directive) (x : Bool × Int) :
    (years year ds x).1 = true ↔ x.1 = true ∨ .C ∈ ds ∨ .y ∈ ds := by
  induction ds generalizing x with
  | nil => simp [years]
  | cons e ds ih =>
    rw [years_cons, ih, yearStep_split, List.mem_cons, List.mem_cons, eq_comm (a := e),
      eq_comm (a := e)]
    tauto

theorem years_unchanged (h : ∀ e ∈ ds, e ∉ [Directive.Y, .C, .y]) : years year ds x = x := by
  induction ds generalizing x with
  | nil => rfl
  | cons e ds ih =>
    obtain ⟨he, hds⟩ := List.forall_mem_cons.mp h
    have hstep : yearStep year x e = x := by
      cases e <;> first | rfl | exact absurd (by decide) he
    rw [years_cons, hstep, ih hds]

theorem no_year (hY : .Y ∉ ds) (hC : .C ∉ ds) (hy : .y ∉ ds) :
    ∀ e ∈ ds, e ∉ [Directive.Y, .C, .y] := by
  intro e he hmem
  simp only [List.mem_cons, List.not_mem_nil, or_false] at hmem
  obtain rfl | rfl | rfl := hmem
  · exact hY he
  · exact hC he
  · exact hy he

/-- Without another `%Y` what is at least `lo` stays so. -/
theorem years_ge (hY : .Y ∉ ds) (hC : .C ∈ ds → lo ≤ year / 100 * 100 - 99)
    (hy : lo ≤ lo.tdiv 100 * 100 + year % 100) (hv : lo ≤ v) :
    lo ≤ (years year ds (true, v)).2 := by
  induction ds generalizing v with
  | nil => exact hv
  | cons e ds ih =>
    obtain ⟨heY, hds⟩ := not_or.mp fun h => hY (List.mem_cons.mpr h)
    have hrest := fun {v} => ih (v := v) hds fun hmem => hC (List.mem_cons_of_mem _ hmem)
    rw [years_cons]
    cases e with
    | Y => exact absurd rfl heY
    | C =>
      have hlow := hC List.mem_cons_self
      have hmod := Int.lt_tmod_of_pos v (b := 100) (by decide)
      apply hrest
      omega
    | y =>
      have hdiv : lo.tdiv 100 ≤ v.tdiv 100 := by
        rw [tdiv_hundred, tdiv_hundred]
        split <;> split <;> omega
      apply hrest
      omega
    | m | d | H | I | p | M | S => exact hrest hv

/-- A `%C` that no `%Y` comes after leaves a year that is too high. -/
theorem years_century (hY : .Y ∉ ds) (hC : .C ∈ ds) (x : Bool × Int) :
    year - 1900 < (years year ds x).2 := by
  obtain ⟨before, after, rfl⟩ := List.append_of_mem hC
  have hafter : .Y ∉ after := fun h => hY (by simp [h])
  obtain ⟨v, hstep, hv⟩ : ∃ v, yearStep year (years year before x) .C = (true, v) ∧
      year / 100 * 100 - 99 ≤ v := by
    obtain ⟨split, u⟩ := years year before x
    cases split with
    | true =>
      have hmod := Int.lt_tmod_of_pos u (b := 100) (by decide)
      exact ⟨_, rfl, by omega⟩
    | false => exact ⟨_, rfl, by omega⟩
  rw [years_append, years_cons, hstep]
  have hge : year / 100 * 100 - 100 ≤ (years year after (true, v)).2 := by
    refine years_ge hafter (fun _ => by omega) ?_ (by omega)
    rw [tdiv_hundred]
    split
    · omega
    · omega
  omega

/-- A year that `%y` keeps. -/
theorem years_fixed (hY : .Y ∉ ds) (hC : .C ∉ ds) (hy : v.tdiv 100 * 100 + year % 100 = v) :
    years year ds (true, v) = (true, v) := by
  induction ds with
  | nil => rfl
  | cons e ds ih =>
    obtain ⟨heY, hdsY⟩ := not_or.mp fun h => hY (List.mem_cons.mpr h)
    obtain ⟨heC, hdsC⟩ := not_or.mp fun h => hC (List.mem_cons.mpr h)
    have hstep : yearStep year (true, v) e = (true, v) := by
      cases e with
      | Y => exact absurd rfl heY
      | C => exact absurd rfl heC
      | y => rw [yearStep, hy]
      | m | d | H | I | p | M | S => rfl
    rw [years_cons, hstep, ih hdsY hdsC]

/-- Which years keep their value through the `%y` behind the last `%Y`. -/
theorem years_short (hY : .Y ∉ after) (hC : .C ∉ after) (hy : .y ∈ after) (split : Bool) :
    (years year after (split, year - 1900)).2 = year - 1900 ↔
      if split = true then 1900 ≤ year ∨ 100 ∣ year else 1969 ≤ year ∧ year ≤ 2068 := by
  obtain ⟨before, rest, rfl, hfirst⟩ := List.eq_append_cons_of_mem hy
  have hbefore := no_year (fun h => hY (List.mem_append_left _ h))
    (fun h => hC (List.mem_append_left _ h)) hfirst
  have hrestY : .Y ∉ rest := fun h => hY (by simp [h])
  have hrestC : .C ∉ rest := fun h => hC (by simp [h])
  rw [years_append, years_unchanged hbefore, years_cons]
  cases split with
  | true =>
    rw [if_pos rfl, yearStep]
    by_cases hkeeps : 1900 ≤ year ∨ 100 ∣ year
    · -- `%y` keeps the year
      have hfix : (year - 1900).tdiv 100 * 100 + year % 100 = year - 1900 := by
        rw [tdiv_hundred, if_pos (by omega)]
        omega
      rw [hfix, years_fixed hrestY hrestC hfix]
      exact iff_of_true rfl hkeeps
    · -- the first `%y` adds a century, and no later one takes it away
      have hnext : (year - 1900).tdiv 100 * 100 + year % 100 = year - 1800 := by
        rw [tdiv_hundred, if_neg (by omega)]
        omega
      have hge : year - 1800 ≤ (years year rest (true, year - 1800)).2 := by
        refine years_ge hrestY (fun h => absurd h hrestC) ?_ (Int.le_refl _)
        rw [tdiv_hundred]
        split
        · omega
        · omega
      rw [hnext]
      exact iff_of_false (by omega) hkeeps
  | false =>
    rw [if_neg Bool.false_ne_true, yearStep]
    have hfix : ∀ u : Int, 0 ≤ u → u % 100 = year % 100 →
        u.tdiv 100 * 100 + year % 100 = u := by
      intro u h0 hu
      rw [tdiv_hundred, if_pos (Or.inl h0)]
      omega
    split
    · rw [years_fixed hrestY hrestC (hfix _ (by omega) (by omega))]
      simp only
      omega
    · rw [years_fixed hrestY hrestC (hfix _ (by omega) (by omega))]
      simp only
      omega

theorem years_iff (hgiven : .C ∈ ds ∨ .y ∈ ds → .Y ∈ ds ∨ .C ∈ ds) :
    (years year ds (false, v)).2 =
        (if ∃ e ∈ ds, e ∈ [Directive.Y, .C, .y] then year - 1900 else v) ↔
      YearOk year ds := by
  have hsplit : ∀ before, (years year before (false, v)).1 = true ↔ .C ∈ before ∨ .y ∈ before := by
    intro before
    rw [years_split]
    simp
  -- what a `%Y` leaves, and what comes of that
  have hbehind : ∀ before after, ds = before ++ .Y :: after → (years year ds (false, v)).2 =
      (years year after ((years year before (false, v)).1, year - 1900)).2 := by
    intro before after hds
    rw [hds, years_append, years_cons]
    rfl
  by_cases hset : ∃ e ∈ ds, e ∈ [Directive.Y, .C, .y]
  · rw [if_pos hset]
    constructor
    · intro h
      right
      have hY : .Y ∈ ds := by
        by_contra hY
        have hC : .C ∈ ds := by
          obtain ⟨e, he, hmem⟩ := hset
          simp only [List.mem_cons, List.not_mem_nil, or_false] at hmem
          obtain rfl | rfl | rfl := hmem
          · exact absurd he hY
          · exact he
          · exact (hgiven (Or.inr he)).resolve_left hY
        have hlt : year - 1900 < _ := years_century hY hC (false, v)
        omega
      obtain ⟨before, e, after, hds, rfl, hlast⟩ := exists_last ⟨Directive.Y, hY, rfl⟩
      have hafter : .Y ∉ after := fun hmem => hlast _ hmem rfl
      rw [hbehind before after hds] at h
      have hC : .C ∉ after := by
        intro hC
        have hlt : year - 1900 < _ := years_century hafter hC
          ((years year before (false, v)).1, year - 1900)
        omega
      refine ⟨before, after, hds, hafter, hC, fun hy => ?_⟩
      have hkept := (years_short hafter hC hy _).mp h
      simpa only [hsplit] using hkept
    · intro h
      obtain hnone | ⟨before, after, hds, hafter, hC, hkept⟩ := h
      · obtain ⟨e, he, hmem⟩ := hset
        exact absurd hmem (hnone e he)
      · rw [hbehind before after hds]
        by_cases hy : .y ∈ after
        · refine (years_short hafter hC hy _).mpr ?_
          simpa only [hsplit] using hkept hy
        · rw [years_unchanged (no_year hafter hC hy)]
  · have hnone : ∀ e ∈ ds, e ∉ [Directive.Y, .C, .y] := fun e he hmem => hset ⟨e, he, hmem⟩
    rw [if_neg hset, years_unchanged hnone]
    exact iff_of_true rfl (Or.inl hnone)

end Years

section Dates
variable {w : Nat} {c : DateTime} {items : List Item} {tm : Tm}

/-- The year is given by `%Y` or by both of `%C` and `%y`, the hour by `%H` or by `%I` with a `%p` later
on. -/
structure Complete (ds : List Directive) : Prop where
  year : .C ∈ ds ∨ .y ∈ ds → .Y ∈ ds ∨ (.C ∈ ds ∧ .y ∈ ds)
  hour : .I ∈ ds ∨ .p ∈ ds → .H ∈ ds ∨
    ∃ before between after, ds = before ++ .I :: (between ++ .p :: after)

/-- The fields of the directives are those of the date, and the others are as they were. -/
def assigned (c : DateTime) (ds : List Directive) (tm : Tm) : Tm :=
  { fields c ds tm with
    tm_hour := if ∃ e ∈ ds, e ∈ [Directive.H, .I, .p] then c.hour else tm.tm_hour
    tm_year := if ∃ e ∈ ds, e ∈ [Directive.Y, .C, .y] then c.date.year - 1900 else tm.tm_year }

theorem eq_ok_iff {ε α : Type} {x : Except ε α} {a : α} : x = .ok a ↔ x.toOption = some a := by
  cases x with
  | error e => simp [Except.toOption]
  | ok b => simp [Except.toOption]

theorem strptime_toOption (h : Dated w c) (hsep : Separated items) (tm : Tm) :
    (strptime (dateText w c items) (formatText items) tm).toOption =
      (effects c items ⟨[], false, tm⟩).map fun s => (s.bp, s.tm) := by
  have hmap : ∀ {x : Except Tm Scan},
      ((fun s : Scan => (s.bp, s.tm)) <$> x).toOption = x.toOption.map fun s => (s.bp, s.tm) := by
    intro x
    cases x with
    | error e => rfl
    | ok s => rfl
  have hscan : ∀ nested, (scan nested none (formatText items)
      ⟨dateText w c items, false, tm⟩).toOption = effects c items ⟨[], false, tm⟩ :=
    fun _ => scan_items h hsep rfl
  rw [strptime, strptimeWith, hmap, hscan]

theorem Complete.hour_given {ds : List Directive} (h : Complete ds) (hp : .p ∈ ds) :
    ∃ e ∈ ds, e ∈ [Directive.H, .I] := by
  cases h.hour (Or.inr hp) with
  | inl hH => exact ⟨.H, hH, by decide⟩
  | inr hI =>
    obtain ⟨before, between, after, rfl⟩ := hI
    exact ⟨.I, by simp, by decide⟩

/-- The text is read to its end with exactly the fields of the date, if the directives come in an order
that the year and the hour allow. -/
theorem strptime_iff (h : Dated w c) (hsep : Separated items) (hcomplete : Complete (directives items))
    (tm : Tm) :
    strptime (dateText w c items) (formatText items) tm =
        .ok ([], assigned c (directives items) tm) ↔
      PmLast items ∧ HourOk c.hour (directives items) ∧ YearOk c.date.year (directives items) := by
  have hgiven : .C ∈ directives items ∨ .y ∈ directives items →
      .Y ∈ directives items ∨ .C ∈ directives items :=
    fun hset => (hcomplete.year hset).imp id And.left
  have hyears : _ ↔ YearOk c.date.year (directives items) :=
    years_iff (v := tm.tm_year) hgiven
  rw [← and_assoc, ← hours_iff h.valid.hour hcomplete.hour_given, ← hyears, eq_ok_iff,
    strptime_toOption h hsep, effects_eq h]
  cases hours c.hour items tm.tm_hour with
  | none => simp
  | some hour => simp [assigned, fields]

def evening : DateTime := ⟨⟨1999, 11, 31⟩, 23, 59, 58⟩

def clearTm : Tm := ⟨0, 0, 0, 0, 0, 0, 0, 0, 0⟩

theorem evening_dated : Dated 4 evening := by
  constructor
  case valid => exact ⟨⟨31, rfl, by decide, by decide⟩, by decide, by decide, by decide⟩
  case year => decide
  case width => decide
  case digits => decide

def eveningItems : List Item :=
  [(.Y, bytes "-"), (.m, bytes "-"), (.d, bytes "/"), (.I, bytes ":"), (.M, bytes ":"),
    (.S, bytes "."), (.p, [])]

theorem strptime_evening :
    strptime (bytes "1999-12-31/11:59:58.PM") (bytes "%Y-%m-%d/%I:%M:%S.%p") clearTm =
      .ok ([], ⟨58, 59, 23, 31, 11, 99, 0, 0, 0⟩) := by
  have hsep : Separated eveningItems := by decide
  have hcomplete : Complete (directives eveningItems) :=
    ⟨fun _ => Or.inl (by decide), fun _ => Or.inr ⟨[.Y, .m, .d], [.M, .S], [], rfl⟩⟩
  have hlast : PmLast eveningItems :=
    hours_pmLast (show hours 23 eveningItems 0 = some 23 from rfl)
  have hhour : HourOk evening.hour (directives eveningItems) :=
    Or.inr (Or.inr ⟨[.Y, .m, .d], .I, [.M, .S, .p], rfl, by decide, by decide, by decide⟩)
  have hyear : YearOk evening.date.year (directives eveningItems) :=
    Or.inr ⟨[], [.m, .d, .I, .M, .S, .p], rfl, by decide, by decide, by decide⟩
  exact (strptime_iff evening_dated hsep hcomplete clearTm).mpr ⟨hlast, hhour, hyear⟩

/-- A year in two halves is stored without the base. -/
theorem not_strptime : ¬ ∀ (w : Nat) (c : DateTime) (items : List Item) (tm : Tm), Dated w c →
    Separated items → Complete (directives items) →
    strptime (dateText w c items) (formatText items) tm =
      .ok ([], assigned c (directives items) tm) := by
  intro h
  have hsep : Separated [(.C, bytes "/"), (.y, [])] := by decide
  have hread := h 4 evening [(.C, bytes "/"), (.y, [])] clearTm evening_dated hsep
    ⟨fun _ => Or.inr (by decide), fun hset => absurd hset (by decide)⟩
  rw [eq_ok_iff, strptime_toOption evening_dated hsep] at hread
  revert hread
  decide

end Dates

end CppPrivate.Public.Strptime
