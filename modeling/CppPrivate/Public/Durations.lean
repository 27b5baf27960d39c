import CppPrivate.Lib.Run
import CppPrivate.Public.Datetime
import Mathlib.Data.List.Basic

/-! The arithmetic of `CDatetime` and `CDuration`, along the calls that make and change objects. -/
namespace CppPrivate.Public.Durations
open CppPrivate.Run

/-- A public call on the objects made so far, which have numbers. -/
inductive Call where
  | now (tv_sec tv_usec : Int)
  /-- The constructor from a text, with the result of `mktime`. -/
  | parse (mktime : Int)
  | ofTime (nTime : Int)
  | copy (right : Nat)
  | flushTime (i : Nat) (tv_sec tv_usec : Int)
  | setSec (i : Nat) (nSec : Int)
  | setTimestamp (i : Nat) (nSec : Int)
  | assign (i t : Nat)
  | assignTime (i : Nat) (nSec : Int)
  | addAssign (i : Nat) (duration : CDuration)
  | subAssign (i : Nat) (duration : CDuration)
  | plus (i : Nat) (duration : CDuration)
  | minus (i : Nat) (duration : CDuration)
  | add (i : Nat) (duration : CDuration)
  | sub (i : Nat) (duration : CDuration)

namespace Call

def run (s : List CDatetime) : Call → Option (List CDatetime)
  | now tv_sec tv_usec => some (s ++ [CDatetime.now tv_sec tv_usec])
  | parse mktime => some (s ++ [CDatetime.ofTime mktime])
  | ofTime nTime => some (s ++ [CDatetime.ofTime nTime])
  | copy right => s[right]?.map fun a => s ++ [a]
  | flushTime i tv_sec tv_usec => s[i]?.map fun _ => s.set i (CDatetime.now tv_sec tv_usec)
  | setSec i nSec => s[i]?.map fun _ => s.set i (CDatetime.ofTime nSec)
  | setTimestamp i nSec => s[i]?.map fun _ => s.set i (CDatetime.ofTime nSec)
  | assign i t =>
    s[i]?.bind fun _ => s[t]?.map fun b => if i = t then s else s.set i b.assign
  | assignTime i nSec => s[i]?.map fun _ => s.set i (CDatetime.ofTime nSec)
  | addAssign i duration => s[i]?.map fun a => s.set i (a.addAssign duration)
  | subAssign i duration => s[i]?.map fun a => s.set i (a.subAssign duration)
  | plus i duration => s[i]?.map fun a => s ++ [a.plus duration]
  | minus i duration => s[i]?.map fun a => s ++ [a.minus duration]
  | add i duration => s[i]?.map fun a => s.set i (a.addAssign duration) ++ [a.addAssign duration]
  | sub i duration => s[i]?.map fun a => s.set i (a.subAssign duration) ++ [a.subAssign duration]

/-- A reading of the clock that fits into the fields. -/
def Clock (tv_sec tv_usec : Int) : Prop :=
  0 ≤ tv_usec ∧ tv_usec < 1000000 ∧ -2 ^ 63 ≤ tv_sec * 1000 ∧ tv_sec * 1000 + 999 < 2 ^ 63

instance decidableClock (tv_sec tv_usec : Int) : Decidable (Clock tv_sec tv_usec) :=
  inferInstanceAs (Decidable (_ ∧ _))

def Defined (s : List CDatetime) : Call → Prop
  | now tv_sec tv_usec => Clock tv_sec tv_usec
  | flushTime _ tv_sec tv_usec => Clock tv_sec tv_usec
  | parse mktime => (CDatetime.ofTime mktime).Fits
  | ofTime nTime => (CDatetime.ofTime nTime).Fits
  | setSec _ nSec => (CDatetime.ofTime nSec).Fits
  | setTimestamp _ nSec => (CDatetime.ofTime nSec).Fits
  | assignTime _ nSec => (CDatetime.ofTime nSec).Fits
  | copy _ => True
  | assign _ _ => True
  | addAssign i d => ∀ a, s[i]? = some a → (CDatetime.ofTime (a.m_TimeSec + d.m_TimeSec)).Fits
  | plus i d => ∀ a, s[i]? = some a → (CDatetime.ofTime (a.m_TimeSec + d.m_TimeSec)).Fits
  | add i d => ∀ a, s[i]? = some a → (CDatetime.ofTime (a.m_TimeSec + d.m_TimeSec)).Fits
  | subAssign i d => ∀ a, s[i]? = some a → (CDatetime.ofTime (a.m_TimeSec - d.m_TimeSec)).Fits
  | minus i d => ∀ a, s[i]? = some a → (CDatetime.ofTime (a.m_TimeSec - d.m_TimeSec)).Fits
  | sub i d => ∀ a, s[i]? = some a → (CDatetime.ofTime (a.m_TimeSec - d.m_TimeSec)).Fits

/-- The clock, where the call reads it, is not before 1970. -/
def FromEpoch : Call → Prop
  | now tv_sec _ => 0 ≤ tv_sec
  | flushTime _ tv_sec _ => 0 ≤ tv_sec
  | _ => True

end Call

section Steps
variable {s s' : List CDatetime} {op : Call} {a : CDatetime} {n : Int} {d : CDuration}

theorem ofTime_fields (h : (CDatetime.ofTime n).Fits) :
    (CDatetime.ofTime n).m_TimesMillisec = 1000 * n := by
  rw [CDatetime.Fits] at h
  simp only [CDatetime.ofTime] at h ⊢
  rw [time_t_of_fits h.1 h.2, Int.mul_comm]

theorem addAssign_eq (h : (CDatetime.ofTime (a.m_TimeSec + d.m_TimeSec)).Fits) :
    a.addAssign d = CDatetime.ofTime (a.m_TimeSec + d.m_TimeSec) := by
  rw [CDatetime.Fits] at h
  simp only [CDatetime.ofTime] at h
  rw [CDatetime.addAssign, CDuration.getTimeSec,
    time_t_of_fits (by omega) (by omega)]

theorem subAssign_eq (h : (CDatetime.ofTime (a.m_TimeSec - d.m_TimeSec)).Fits) :
    a.subAssign d = CDatetime.ofTime (a.m_TimeSec - d.m_TimeSec) := by
  rw [CDatetime.Fits] at h
  simp only [CDatetime.ofTime] at h
  rw [CDatetime.subAssign, CDuration.getTimeSec,
    time_t_of_fits (by omega) (by omega)]

theorem now_fields {sec usec : Int} (h : Call.Clock sec usec) :
    (CDatetime.now sec usec).m_TimesMillisec = 1000 * sec + usec / 1000 := by
  rw [Call.Clock] at h
  obtain ⟨h0, h1, hlow, hhigh⟩ := h
  simp only [CDatetime.now]
  rw [Int.tdiv_eq_ediv_of_nonneg h0, time_t_of_fits hlow (by omega), time_t_of_fits]
  · omega
  · omega
  · omega

inductive Made (s : List CDatetime) (op : Call) : CDatetime → Prop
  | old {a : CDatetime} : a ∈ s → Made s op a
  | time {n : Int} : (CDatetime.ofTime n).Fits → Made s op (CDatetime.ofTime n)
  | assigned {t : CDatetime} : t ∈ s → Made s op t.assign
  | clock {sec usec : Int} : Call.Clock sec usec → (op.FromEpoch → 0 ≤ sec) →
      Made s op (CDatetime.now sec usec)

variable {b : CDatetime} {i : Nat}

theorem Made.push (hb : Made s op b) (ha : a ∈ s ++ [b]) : Made s op a := by
  cases List.mem_append.mp ha with
  | inl h => exact .old h
  | inr h => exact List.mem_singleton.mp h ▸ hb

theorem Made.set (hb : Made s op b) (ha : a ∈ s.set i b) : Made s op a := by
  cases List.mem_or_eq_of_mem_set ha with
  | inl h => exact .old h
  | inr h => exact h ▸ hb

theorem Made.set_push (hb : Made s op b) (ha : a ∈ s.set i b ++ [b]) : Made s op a := by
  cases List.mem_append.mp ha with
  | inl h => exact hb.set h
  | inr h => exact List.mem_singleton.mp h ▸ hb

theorem run_made (hd : op.Defined s) (h : op.run s = some s') (ha : a ∈ s') : Made s op a := by
  have hold : ∀ {i : Nat} {b : CDatetime}, s[i]? = some b → b ∈ s :=
    fun h => List.mem_of_getElem? h
  have hplus : ∀ {b : CDatetime} {d : CDuration},
      (CDatetime.ofTime (b.m_TimeSec + d.m_TimeSec)).Fits → Made s op (b.addAssign d) :=
    fun h => addAssign_eq h ▸ .time h
  have hminus : ∀ {b : CDatetime} {d : CDuration},
      (CDatetime.ofTime (b.m_TimeSec - d.m_TimeSec)).Fits → Made s op (b.subAssign d) :=
    fun h => subAssign_eq h ▸ .time h
  cases op with
  | now sec usec =>
    cases h
    exact Made.push (.clock hd id) ha
  | parse mktime =>
    cases h
    exact Made.push (.time hd) ha
  | ofTime nTime =>
    cases h
    exact Made.push (.time hd) ha
  | copy right =>
    obtain ⟨b, hb, rfl⟩ := Option.map_eq_some_iff.mp h
    exact Made.push (.old (hold hb)) ha
  | flushTime i sec usec =>
    obtain ⟨b, hb, rfl⟩ := Option.map_eq_some_iff.mp h
    exact Made.set (.clock hd id) ha
  | setSec i nSec =>
    obtain ⟨b, hb, rfl⟩ := Option.map_eq_some_iff.mp h
    exact Made.set (.time hd) ha
  | setTimestamp i nSec =>
    obtain ⟨b, hb, rfl⟩ := Option.map_eq_some_iff.mp h
    exact Made.set (.time hd) ha
  | assign i t =>
    obtain ⟨b, -, h⟩ := Option.bind_eq_some_iff.mp h
    obtain ⟨c, hc, rfl⟩ := Option.map_eq_some_iff.mp h
    split at ha
    · exact .old ha
    · exact Made.set (.assigned (hold hc)) ha
  | assignTime i nSec =>
    obtain ⟨b, hb, rfl⟩ := Option.map_eq_some_iff.mp h
    exact Made.set (.time hd) ha
  | addAssign i d =>
    obtain ⟨b, hb, rfl⟩ := Option.map_eq_some_iff.mp h
    exact (hplus (hd b hb)).set ha
  | subAssign i d =>
    obtain ⟨b, hb, rfl⟩ := Option.map_eq_some_iff.mp h
    exact (hminus (hd b hb)).set ha
  | plus i d =>
    obtain ⟨b, hb, rfl⟩ := Option.map_eq_some_iff.mp h
    exact (hplus (hd b hb)).push ha
  | minus i d =>
    obtain ⟨b, hb, rfl⟩ := Option.map_eq_some_iff.mp h
    exact (hminus (hd b hb)).push ha
  | add i d =>
    obtain ⟨b, hb, rfl⟩ := Option.map_eq_some_iff.mp h
    exact (hplus (hd b hb)).set_push ha
  | sub i d =>
    obtain ⟨b, hb, rfl⟩ := Option.map_eq_some_iff.mp h
    exact (hminus (hd b hb)).set_push ha

/-- The milliseconds of an object are its seconds, and a part of less than one more. -/
structure Held (a : CDatetime) : Prop where
  fits : a.Fits
  low : 1000 * a.m_TimeSec ≤ a.m_TimesMillisec
  high : a.m_TimesMillisec ≤ 1000 * a.m_TimeSec + 999

theorem held_ofTime (h : (CDatetime.ofTime n).Fits) : Held (CDatetime.ofTime n) := by
  have hms := ofTime_fields h
  exact ⟨h, hms.ge, by rw [hms]; simp only [CDatetime.ofTime]; omega⟩

theorem Made.held (hs : ∀ b ∈ s, Held b) (h : Made s op a) : Held a := by
  cases h with
  | old h => exact hs a h
  | time h => exact held_ofTime h
  | @assigned t h => exact held_ofTime (n := t.m_TimeSec) (hs t h).fits
  | @clock sec usec h _ =>
    have hms := now_fields h
    rw [Call.Clock] at h
    have hsec : (CDatetime.now sec usec).m_TimeSec = sec := rfl
    constructor
    case fits =>
      rw [CDatetime.Fits]
      omega
    case low => omega
    case high => omega

/-- An object with a part of a second has a time that is not before 1970. -/
theorem Made.from_epoch (hop : op.FromEpoch)
    (hs : ∀ b ∈ s, b.m_TimesMillisec = 1000 * b.m_TimeSec ∨ 0 ≤ b.m_TimeSec)
    (hheld : ∀ b ∈ s, Held b) (h : Made s op a) :
    a.m_TimesMillisec = 1000 * a.m_TimeSec ∨ 0 ≤ a.m_TimeSec := by
  cases h with
  | old h => exact hs a h
  | time h => exact Or.inl (ofTime_fields h)
  | @assigned t h => exact Or.inl (ofTime_fields (n := t.m_TimeSec) (hheld t h).fits)
  | clock _ h => exact Or.inr (h hop)

end Steps

section Durations
variable {a b : CDatetime} {d : CDuration} {nDay nHour nMinute nSecond : UInt32}

def durationSeconds (nDay nHour nMinute nSecond : UInt32) : Nat :=
  nDay.toNat * 86400 + nHour.toNat * 3600 + nMinute.toNat * 60 + nSecond.toNat

theorem int_emod (n : Int) : int (n % 2 ^ 32) = int n := by
  rw [int, int, Int.bmod_def, Int.bmod_def]
  have hmod : n % 2 ^ 32 % ((2 ^ 32 : Nat) : Int) = n % ((2 ^ 32 : Nat) : Int) := by omega
  rw [hmod]

theorem getTimeSec_new (nDay nHour nMinute nSecond : UInt32) :
    (CDuration.new nDay nHour nMinute nSecond).getTimeSec =
      int (durationSeconds nDay nHour nMinute nSecond) := by
  have hsum : (nSecond + nMinute * 60 + nHour * 60 * 60 + nDay * 24 * 60 * 60).toNat =
      durationSeconds nDay nHour nMinute nSecond % 2 ^ 32 := by
    simp only [UInt32.toNat_add, UInt32.toNat_mul, UInt32.reduceToNat, durationSeconds]
    omega
  have hcast : ((durationSeconds nDay nHour nMinute nSecond % 2 ^ 32 : Nat) : Int) =
      (durationSeconds nDay nHour nMinute nSecond : Int) % 2 ^ 32 := by omega
  have hnew : (CDuration.new nDay nHour nMinute nSecond).getTimeSec =
      int (nSecond + nMinute * 60 + nHour * 60 * 60 + nDay * 24 * 60 * 60).toNat := by
    rw [CDuration.getTimeSec, CDuration.new]
  rw [hnew, hsum, hcast, int_emod]

theorem int_range (n : Int) : -2 ^ 31 ≤ int n ∧ int n < 2 ^ 31 := by
  have h := Int.le_bmod (x := n) (m := 2 ^ 32) (by decide)
  have h' := Int.bmod_lt (x := n) (m := 2 ^ 32) (by decide)
  rw [int]
  omega

/-- A duration advances a time by its seconds exactly if they fit into an `int`. -/
theorem advances_iff (ha : -2 ^ 63 ≤ a.getTimestamp)
    (h : a.getTimestamp + durationSeconds nDay nHour nMinute nSecond < 2 ^ 63) :
    ((a.plus (CDuration.new nDay nHour nMinute nSecond)).getTimestamp =
        a.getTimestamp + durationSeconds nDay nHour nMinute nSecond ∧
      (a.addAssign (CDuration.new nDay nHour nMinute nSecond)).getTimestamp =
        a.getTimestamp + durationSeconds nDay nHour nMinute nSecond) ↔
      durationSeconds nDay nHour nMinute nSecond < 2 ^ 31 := by
  have hval : ∀ d : CDuration,
      (a.addAssign d).getTimestamp = time_t (a.getTimestamp + d.getTimeSec) := fun _ => rfl
  rw [CDatetime.plus, and_self, hval, getTimeSec_new]
  constructor
  · intro heq
    have hrange := int_range (durationSeconds nDay nHour nMinute nSecond)
    have hmod : time_t (a.getTimestamp + int (durationSeconds nDay nHour nMinute nSecond)) % 2 ^ 64 =
        (a.getTimestamp + int (durationSeconds nDay nHour nMinute nSecond)) % 2 ^ 64 :=
      Int.bmod_emod
    have hmax : durationSeconds nDay nHour nMinute nSecond < 2 ^ 50 := by
      have h1 := nDay.toNat_lt
      have h2 := nHour.toNat_lt
      have h3 := nMinute.toNat_lt
      have h4 := nSecond.toNat_lt
      rw [durationSeconds]
      omega
    omega
  · intro hlt
    rw [int_of_fits (by omega) (by omega)]
    exact time_t_of_fits (by omega) h

/-- A span of 24856 days goes backwards. -/
theorem not_advances :
    ¬ ∀ (nDay nHour nMinute nSecond : UInt32) (a : CDatetime), -2 ^ 63 ≤ a.getTimestamp →
      a.getTimestamp + durationSeconds nDay nHour nMinute nSecond < 2 ^ 63 →
      (a.plus (CDuration.new nDay nHour nMinute nSecond)).getTimestamp =
        a.getTimestamp + durationSeconds nDay nHour nMinute nSecond := by
  intro h
  exact absurd (h 24856 0 0 0 (CDatetime.ofTime 0) (by decide) (by decide)) (by decide)

theorem advances_day :
    (-2 ^ 63 ≤ (CDatetime.ofTime 0).getTimestamp ∧
      (CDatetime.ofTime 0).getTimestamp + durationSeconds 1 2 3 4 < 2 ^ 63) ∧
    (((CDatetime.ofTime 0).plus (CDuration.new 1 2 3 4)).getTimestamp =
        (CDatetime.ofTime 0).getTimestamp + durationSeconds 1 2 3 4 ∧
      ((CDatetime.ofTime 0).addAssign (CDuration.new 1 2 3 4)).getTimestamp =
        (CDatetime.ofTime 0).getTimestamp + durationSeconds 1 2 3 4) :=
  ⟨by decide, (advances_iff (by decide) (by decide)).mpr (by decide)⟩

end Durations

section Laws
variable {a : CDatetime} {d : CDuration} {s : List CDatetime} {ops : List Call}

def Built (d : CDuration) : Prop :=
  ∃ nDay nHour nMinute nSecond, d = CDuration.new nDay nHour nMinute nSecond

/-- What an object keeps to. Another object that it is assigned to is equal to it. -/
structure Laws (a : CDatetime) : Prop where
  assigned : a.assign.eq a
  plus_minus : ∀ d : CDuration, Built d →
    (CDatetime.ofTime (a.m_TimeSec + d.getTimeSec)).Fits → ((a.plus d).minus d).eq a
  minus_plus : ∀ d : CDuration, Built d →
    (CDatetime.ofTime (a.m_TimeSec - d.getTimeSec)).Fits → ((a.minus d).plus d).eq a
  plus_diff : ∀ d : CDuration, Built d →
    (CDatetime.ofTime (a.m_TimeSec + d.getTimeSec)).Fits →
      (a.plus d).diff a = 1000 * d.getTimeSec
  seconds : a.m_TimesMillisec.tdiv 1000 = a.m_TimeSec

theorem eq_iff {b : CDatetime} : a.eq b ↔ a.m_TimesMillisec = b.m_TimesMillisec := by
  simp [CDatetime.eq]

theorem plus_minus_eq (ha : a.Fits) (h : (CDatetime.ofTime (a.m_TimeSec + d.getTimeSec)).Fits) :
    (a.plus d).minus d = CDatetime.ofTime a.m_TimeSec := by
  have hback : (CDatetime.ofTime (a.m_TimeSec + d.getTimeSec)).m_TimeSec - d.m_TimeSec =
      a.m_TimeSec := Int.add_sub_cancel _ _
  rw [CDatetime.plus, addAssign_eq h, CDatetime.minus, subAssign_eq]
  · rw [CDuration.getTimeSec] at hback
    rw [hback]
  · rw [CDuration.getTimeSec] at hback
    rw [hback]
    exact ha

theorem minus_plus_eq (ha : a.Fits) (h : (CDatetime.ofTime (a.m_TimeSec - d.getTimeSec)).Fits) :
    (a.minus d).plus d = CDatetime.ofTime a.m_TimeSec := by
  have hback : (CDatetime.ofTime (a.m_TimeSec - d.getTimeSec)).m_TimeSec + d.m_TimeSec =
      a.m_TimeSec := Int.sub_add_cancel _ _
  rw [CDatetime.minus, subAssign_eq h, CDatetime.plus, addAssign_eq]
  · rw [CDuration.getTimeSec] at hback
    rw [hback]
  · rw [CDuration.getTimeSec] at hback
    rw [hback]
    exact ha

/-- The laws hold of the objects whose milliseconds are those of their seconds. -/
theorem laws_iff_whole (ha : a.Fits) : Laws a ↔ a.m_TimesMillisec = 1000 * a.m_TimeSec := by
  have hassign : a.assign.m_TimesMillisec = 1000 * a.m_TimeSec :=
    ofTime_fields (n := a.m_TimeSec) ha
  constructor
  · intro h
    exact (eq_iff.mp h.assigned).symm.trans hassign
  · intro h
    have hof := (ofTime_fields (n := a.m_TimeSec) ha).trans h.symm
    constructor
    case assigned => exact eq_iff.mpr (hassign.trans h.symm)
    case plus_minus =>
      intro d _ hfits
      rw [plus_minus_eq ha hfits]
      exact eq_iff.mpr hof
    case minus_plus =>
      intro d _ hfits
      rw [minus_plus_eq ha hfits]
      exact eq_iff.mpr hof
    case plus_diff =>
      intro d hd hfits
      have hrange : -2 ^ 31 ≤ d.getTimeSec ∧ d.getTimeSec < 2 ^ 31 := by
        obtain ⟨_, _, _, _, rfl⟩ := hd
        rw [getTimeSec_new]
        exact int_range _
      have hms := ofTime_fields hfits
      rw [CDatetime.plus, addAssign_eq hfits, CDatetime.diff]
      rw [CDuration.getTimeSec] at hms hrange ⊢
      rw [hms, h, time_t_of_fits (by omega) (by omega)]
      omega
    case seconds =>
      rw [h]
      exact Int.mul_tdiv_cancel_left _ (by decide)

theorem runs_held (h : Runs Call.run Call.Defined [] ops s) : ∀ a ∈ s, Held a := by
  refine h.invariant (fun s => ∀ a ∈ s, Held a) ?_ ?_
  · intro a ha
    cases ha
  · intro t op u ht hd hstep a ha
    exact (run_made hd hstep ha).held ht

theorem runs_from_epoch (h : Runs Call.run Call.Defined [] ops s) (hops : ∀ op ∈ ops, op.FromEpoch) :
    ∀ a ∈ s, a.m_TimesMillisec = 1000 * a.m_TimeSec ∨ 0 ≤ a.m_TimeSec := by
  induction h with
  | nil =>
    intro a ha
    cases ha
  | @snoc ops t u op hr hd hstep ih =>
    intro a ha
    have hop : op.FromEpoch := hops op (by simp)
    have ht := ih fun op hmem => hops op (List.mem_append_left _ hmem)
    exact (run_made hd hstep ha).from_epoch hop ht (runs_held hr)

/-- In every state that is reached, the laws hold of an object exactly if it has no part of a
second. The seconds are those of the milliseconds in any case, with a clock from 1970 on. -/
theorem laws_iff (h : Runs Call.run Call.Defined [] ops s) :
    (∀ a ∈ s, Laws a ↔ 1000 ∣ a.m_TimesMillisec) ∧
      ((∀ op ∈ ops, op.FromEpoch) → ∀ a ∈ s, a.m_TimesMillisec.tdiv 1000 = a.m_TimeSec) := by
  constructor
  · intro a ha
    have hheld := runs_held h a ha
    have hlow := hheld.low
    have hhigh := hheld.high
    rw [laws_iff_whole hheld.fits]
    omega
  · intro hops a ha
    have hheld := runs_held h a ha
    have hlow := hheld.low
    have hhigh := hheld.high
    cases runs_from_epoch h hops a ha with
    | inl hwhole =>
      rw [hwhole]
      exact Int.mul_tdiv_cancel_left _ (by decide)
    | inr h0 =>
      rw [Int.tdiv_eq_ediv_of_nonneg (by omega)]
      omega

/-- A reading of the clock, and a copy of it by assignment that is not equal to it. -/
theorem not_laws : ¬ ∀ (ops : List Call) (s : List CDatetime),
    Runs Call.run Call.Defined [] ops s → ∀ a ∈ s, Laws a := by
  intro h
  have hlaws := h [.now 1 500000] [CDatetime.now 1 500000]
    (Runs.nil.snoc (by decide : Call.Clock 1 500000) rfl) (CDatetime.now 1 500000) (by decide)
  exact absurd hlaws.assigned (by decide)

/-- An object made from a time, and one from the clock. -/
theorem laws_two : Runs Call.run Call.Defined [] [.ofTime 5, .now 1 500000]
      [CDatetime.ofTime 5, CDatetime.now 1 500000] ∧
    Laws (CDatetime.ofTime 5) ∧ (CDatetime.now 1 500000).m_TimesMillisec.tdiv 1000 = 1 := by
  have hrun : Runs Call.run Call.Defined [] [.ofTime 5, .now 1 500000]
      [CDatetime.ofTime 5, CDatetime.now 1 500000] :=
    Runs.cons (by decide : (CDatetime.ofTime 5).Fits) rfl
      (Runs.nil.snoc (by decide : Call.Clock 1 500000) rfl)
  have hops : ∀ op ∈ [Call.ofTime 5, .now 1 500000], op.FromEpoch :=
    List.forall_mem_cons.mpr ⟨trivial, List.forall_mem_cons.mpr
      ⟨(by decide : (0 : Int) ≤ 1), fun _ hop => absurd hop List.not_mem_nil⟩⟩
  obtain ⟨hlaws, hsec⟩ := laws_iff hrun
  exact ⟨hrun, (hlaws _ (by decide)).mpr (by decide), hsec hops _ (by decide)⟩

end Laws

end CppPrivate.Public.Durations
