import Mathlib.Algebra.GroupWithZero.Nat
import Mathlib.Data.List.Basic

/-! Threads at the condition variables of a monitor. A thread that waits is blocked until it is
notified or wakes by itself, and takes the mutex again before it goes on. The threads at a place
are counted by sums, which change by what one thread adds to them. -/
namespace CppPrivate.Monitor

section Total
variable {α : Type*} {f g : α → Nat} {ts : List α} {i : Nat} {a b : α}

def total (f : α → Nat) (ts : List α) : Nat := (ts.map f).sum

@[simp] theorem total_nil : total f [] = 0 := rfl

@[simp] theorem total_cons : total f (a :: ts) = f a + total f ts := rfl

theorem total_replicate (f : α → Nat) (n : Nat) (a : α) :
    total f (List.replicate n a) = n * f a := by
  rw [total, List.map_replicate, List.sum_replicate_nat]

theorem total_set (f : α → Nat) (b : α) (h : ts[i]? = some a) :
    total f (ts.set i b) + f a = total f ts + f b := by
  induction ts generalizing i with
  | nil => cases h
  | cons x ts ih =>
    cases i with
    | zero =>
      obtain rfl := Option.some.inj h
      simp only [List.set_cons_zero, total_cons]
      omega
    | succ i =>
      have hrest := ih h
      simp only [List.set_cons_succ, total_cons]
      omega

theorem total_congr (h : ∀ t ∈ ts, f t = g t) : total f ts = total g ts := by
  rw [total, total, List.map_congr_left h]

theorem total_map {β : Type*} (f : β → Nat) (g : α → β) (ts : List α) :
    total f (ts.map g) = total (fun t => f (g t)) ts := by
  rw [total, total, List.map_map]
  rfl

theorem total_add (f g : α → Nat) (ts : List α) :
    total (fun t => f t + g t) ts = total f ts + total g ts := by
  induction ts with
  | nil => rfl
  | cons x ts ih =>
    simp only [total_cons, ih]
    omega

theorem total_one (ts : List α) : total (fun _ => 1) ts = ts.length := by
  rw [total, List.map_const', List.sum_replicate_nat, Nat.mul_one]

theorem total_zero (ts : List α) : total (fun _ => 0) ts = 0 := by
  induction ts with
  | nil => rfl
  | cons x ts ih => simpa using ih

theorem total_eq_zero (h : ∀ t ∈ ts, f t = 0) : total f ts = 0 := by
  rw [total_congr h, total_zero]

theorem total_mono (h : ∀ t, f t ≤ g t) (ts : List α) : total f ts ≤ total g ts := by
  induction ts with
  | nil => exact Nat.le_refl 0
  | cons x ts ih =>
    have hx := h x
    simp only [total_cons]
    omega

theorem le_total (f : α → Nat) (h : a ∈ ts) : f a ≤ total f ts := by
  induction ts with
  | nil => cases h
  | cons x ts ih =>
    rw [total_cons]
    cases List.mem_cons.mp h with
    | inl h => rw [h]; omega
    | inr h =>
      have := ih h
      omega

theorem exists_of_total_pos (h : 0 < total f ts) : ∃ t ∈ ts, 0 < f t := by
  induction ts with
  | nil => cases h
  | cons x ts ih =>
    by_cases hx : 0 < f x
    · exact ⟨x, List.mem_cons_self, hx⟩
    · rw [total_cons] at h
      obtain ⟨t, ht, hpos⟩ := ih (by omega)
      exact ⟨t, List.mem_cons_of_mem x ht, hpos⟩

end Total

/-- How a thread stands to the condition variables `κ`. -/
inductive Wait (κ : Type*) where
  | running
  | blocked (c : κ)
  | woken (c : κ)
deriving DecidableEq

/-- A thread, and what the program keeps about it. -/
structure Thread (κ β : Type*) where
  wait : Wait κ
  own : β
deriving DecidableEq

section Notify
variable {κ β : Type*} [DecidableEq κ] {c d : κ} {ts us : List (Thread κ β)} {t : Thread κ β}
  {i : Nat} {k : Option Nat}

def Thread.blocked (c : κ) (t : Thread κ β) : Nat := if t.wait = .blocked c then 1 else 0

/-- The thread has been woken at `c` and has not yet taken the mutex. -/
def Thread.woken (c : κ) (t : Thread κ β) : Nat := if t.wait = .woken c then 1 else 0

section Place
variable (o : β)

@[simp] theorem Thread.blocked_running : Thread.blocked c ⟨.running, o⟩ = 0 := rfl

@[simp] theorem Thread.blocked_blocked :
    Thread.blocked c ⟨.blocked d, o⟩ = if d = c then 1 else 0 := by
  simp [Thread.blocked]

@[simp] theorem Thread.blocked_woken : Thread.blocked c ⟨.woken d, o⟩ = 0 := rfl

@[simp] theorem Thread.woken_running : Thread.woken c ⟨.running, o⟩ = 0 := rfl

@[simp] theorem Thread.woken_blocked : Thread.woken c ⟨.blocked d, o⟩ = 0 := rfl

@[simp] theorem Thread.woken_woken :
    Thread.woken c ⟨.woken d, o⟩ = if d = c then 1 else 0 := by
  simp [Thread.woken]

end Place

theorem Thread.blocked_pos : 0 < t.blocked c ↔ t.wait = .blocked c := by
  rw [Thread.blocked]
  split <;> simp [*]

theorem Thread.woken_pos : 0 < t.woken c ↔ t.wait = .woken c := by
  rw [Thread.woken]
  split <;> simp [*]

/-- Wakes the thread if it is asleep at `c`. -/
def Thread.notify (c : κ) (t : Thread κ β) : Thread κ β :=
  if t.wait = .blocked c then { t with wait := .woken c } else t

/-- `notify_one`: any one thread `k` that is asleep at `c` is woken; if there is none, nobody is. -/
def notifyOne (c : κ) (k : Option Nat) (ts : List (Thread κ β)) : Option (List (Thread κ β)) :=
  match k with
  | some i =>
    match ts[i]? with
    | some t => if t.wait = .blocked c then some (ts.set i (t.notify c)) else none
    | none => none
  | none => if ∀ t ∈ ts, t.wait ≠ .blocked c then some ts else none

def notifyAll (c : κ) (ts : List (Thread κ β)) : List (Thread κ β) := ts.map (Thread.notify c)

@[simp] theorem Thread.notify_own : (t.notify c).own = t.own := by
  unfold Thread.notify
  split <;> rfl

theorem Thread.notify_waiting :
    (t.notify c).blocked c + (t.notify c).woken c = t.blocked c + t.woken c := by
  rw [Thread.notify]
  split
  · rename_i h
    simp [Thread.blocked, Thread.woken, h]
  · rfl

@[simp] theorem Thread.notify_blocked : (t.notify c).blocked c = 0 := by
  by_cases h : t.wait = .blocked c
  · simp [Thread.notify, Thread.blocked, h]
  · simp [Thread.notify, Thread.blocked, h]

theorem Thread.notify_other (h : d ≠ c) :
    (t.notify c).blocked d = t.blocked d ∧ (t.notify c).woken d = t.woken d := by
  rw [Thread.notify]
  split
  · rename_i hb
    have hd : ¬ c = d := fun he => h he.symm
    simp [Thread.blocked, Thread.woken, hb, hd]
  · exact ⟨rfl, rfl⟩

/-- What a notification at `c` does to the threads: somebody is woken if anybody waits there, and
nothing else changes. -/
structure Notified (c : κ) (ts us : List (Thread κ β)) : Prop where
  waiting : total (Thread.blocked c) us + total (Thread.woken c) us =
    total (Thread.blocked c) ts + total (Thread.woken c) ts
  mono : total (Thread.woken c) ts ≤ total (Thread.woken c) us
  one : 0 < total (Thread.blocked c) ts + total (Thread.woken c) ts →
    0 < total (Thread.woken c) us
  other : ∀ d, d ≠ c → total (Thread.blocked d) us = total (Thread.blocked d) ts ∧
    total (Thread.woken d) us = total (Thread.woken d) ts
  own : ∀ f : β → Nat, total (fun t => f t.own) us = total (fun t => f t.own) ts
  length : us.length = ts.length

theorem notified_set (h : ts[i]? = some t) (hb : t.wait = .blocked c) :
    Notified c ts (ts.set i (t.notify c)) := by
  have hblocked := total_set (Thread.blocked c) (t.notify c) h
  have hwoken := total_set (Thread.woken c) (t.notify c) h
  have hwait := Thread.notify_waiting (c := c) (t := t)
  have hpos : 0 < t.blocked c := Thread.blocked_pos.mpr hb
  rw [Thread.notify_blocked] at hblocked hwait
  refine ⟨by omega, by omega, fun _ => by omega, ?_, ?_, List.length_set⟩
  · intro d hd
    have h1 := total_set (Thread.blocked d) (t.notify c) h
    have h2 := total_set (Thread.woken d) (t.notify c) h
    obtain ⟨hb', hw'⟩ := Thread.notify_other (t := t) hd
    omega
  · intro f
    have h1 := total_set (fun t => f t.own) (t.notify c) h
    simp only [Thread.notify_own] at h1
    omega

theorem notifyOne_notified (h : notifyOne c k ts = some us) : Notified c ts us := by
  cases k with
  | none =>
    simp only [notifyOne] at h
    split at h
    · rename_i hall
      obtain rfl := Option.some.inj h
      refine ⟨rfl, Nat.le_refl _, ?_, fun _ _ => ⟨rfl, rfl⟩, fun _ => rfl, rfl⟩
      intro hpos
      have hnone : ¬ 0 < total (Thread.blocked c) ts := by
        intro hb
        obtain ⟨t, ht, hpos⟩ := exists_of_total_pos hb
        exact hall t ht (Thread.blocked_pos.mp hpos)
      omega
    · cases h
  | some i =>
    simp only [notifyOne] at h
    split at h
    · rename_i t ht
      split at h
      · rename_i hb
        obtain rfl := Option.some.inj h
        exact notified_set ht hb
      · cases h
    · cases h

theorem notifyAll_blocked : total (Thread.blocked c) (notifyAll c ts) = 0 := by
  rw [notifyAll, total_map]
  simp only [Thread.notify_blocked]
  induction ts with
  | nil => rfl
  | cons t ts ih => simpa using ih

theorem notifyAll_notified : Notified c ts (notifyAll c ts) := by
  have hwaiting : total (Thread.blocked c) (notifyAll c ts) +
      total (Thread.woken c) (notifyAll c ts) =
        total (Thread.blocked c) ts + total (Thread.woken c) ts := by
    rw [← total_add, ← total_add, notifyAll, total_map]
    exact total_congr fun t _ => Thread.notify_waiting
  have hnone : total (Thread.blocked c) (notifyAll c ts) = 0 := notifyAll_blocked
  refine ⟨hwaiting, by omega, fun _ => by omega, ?_, ?_, List.length_map _⟩
  · intro d hd
    rw [notifyAll, total_map, total_map]
    exact ⟨total_congr fun t _ => (Thread.notify_other hd).1,
      total_congr fun t _ => (Thread.notify_other hd).2⟩
  · intro f
    rw [notifyAll, total_map]
    simp only [Thread.notify_own]

theorem exists_woken (h : 0 < total (Thread.woken c) ts) : ∃ t ∈ ts, t.wait = .woken c := by
  obtain ⟨t, ht, hpos⟩ := exists_of_total_pos h
  exact ⟨t, ht, Thread.woken_pos.mp hpos⟩

theorem blocked_total_pos (h : t ∈ ts) (hb : t.wait = .blocked c) :
    0 < total (Thread.blocked c) ts :=
  Nat.lt_of_lt_of_le (Thread.blocked_pos.mpr hb) (le_total _ h)

theorem woken_total_pos (h : t ∈ ts) (hw : t.wait = .woken c) :
    0 < total (Thread.woken c) ts :=
  Nat.lt_of_lt_of_le (Thread.woken_pos.mpr hw) (le_total _ h)

end Notify

end CppPrivate.Monitor
