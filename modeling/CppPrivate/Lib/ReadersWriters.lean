import CppPrivate.Lib.Monitor

/-! A lock for readers and writers that waiting writers are given before readers. The steps are
those of the threads alone; a program keeps counters about them and has to take its decisions as
the threads say. A free lock with a waiting thread has somebody on the way to it. -/
namespace CppPrivate.ReadersWriters
open Monitor

/-- The condition variables for readers and for writers. -/
inductive Cond where
  | read
  | write
deriving DecidableEq

/-- How many times a thread holds the lock. -/
structure Holds where
  reads : Nat
  writes : Nat
deriving DecidableEq

abbrev Threads : Type := List (Thread Cond Holds)

def readers (ts : Threads) : Nat := total (fun t => t.own.reads) ts

def writers (ts : Threads) : Nat := total (fun t => t.own.writes) ts

def asleep (c : Cond) (ts : Threads) : Nat := total (Thread.blocked c) ts

def roused (c : Cond) (ts : Threads) : Nat := total (Thread.woken c) ts

/-- The threads that wait at `c`, whether they have been woken or not. -/
def waiting (c : Cond) (ts : Threads) : Nat := asleep c ts + roused c ts

/-- The thread is to test the condition it waits for at `c`, for the first time or again. -/
def Trying (c : Cond) (t : Thread Cond Holds) : Prop := t.wait = .running ∨ t.wait = .woken c

/-- What follows a release, `ts` being the threads after it: the writers are told when the lock is
free for them, the readers when no writer waits. -/
inductive Handed (ts : Threads) : Threads → Prop
  | none : waiting .write ts = 0 ∨ 0 < readers ts → asleep .read ts = 0 ∨ 0 < waiting .write ts →
      Handed ts ts
  | write {us : Threads} : 0 < waiting .write ts → Notified .write ts us → Handed ts us
  | read {us : Threads} : waiting .write ts = 0 → Notified .read ts us → asleep .read us = 0 →
      Handed ts us

inductive Step (ts : Threads) : Threads → Prop
  | read {i : Nat} {t : Thread Cond Holds} : ts[i]? = some t → Trying .read t →
      writers ts = 0 → waiting .write ts = 0 →
      Step ts (ts.set i ⟨.running, ⟨t.own.reads + 1, t.own.writes⟩⟩)
  | awaitRead {i : Nat} {t : Thread Cond Holds} : ts[i]? = some t → Trying .read t →
      0 < writers ts + waiting .write ts → Step ts (ts.set i ⟨.blocked .read, t.own⟩)
  | write {i : Nat} {t : Thread Cond Holds} : ts[i]? = some t → Trying .write t →
      readers ts = 0 → writers ts = 0 →
      Step ts (ts.set i ⟨.running, ⟨t.own.reads, t.own.writes + 1⟩⟩)
  | awaitWrite {i : Nat} {t : Thread Cond Holds} : ts[i]? = some t → Trying .write t →
      0 < readers ts + writers ts → Step ts (ts.set i ⟨.blocked .write, t.own⟩)
  | endRead {i : Nat} {t : Thread Cond Holds} {us : Threads} : ts[i]? = some t →
      t.wait = .running → 0 < t.own.reads →
      Handed (ts.set i ⟨.running, ⟨t.own.reads - 1, t.own.writes⟩⟩) us → Step ts us
  | endWrite {i : Nat} {t : Thread Cond Holds} {us : Threads} : ts[i]? = some t →
      t.wait = .running → 0 < t.own.writes →
      Handed (ts.set i ⟨.running, ⟨t.own.reads, t.own.writes - 1⟩⟩) us → Step ts us
  | wake {i : Nat} {c : Cond} {t : Thread Cond Holds} : ts[i]? = some t → t.wait = .blocked c →
      Step ts (ts.set i (t.notify c))

/-- Readers and writers exclude each other, a free lock that a writer waits for has a writer on
the way to it, and readers sleep only because of a writer. -/
structure Guarded (ts : Threads) : Prop where
  one : writers ts ≤ 1
  exclusive : writers ts = 0 ∨ readers ts = 0
  writer : readers ts = 0 → writers ts = 0 → 0 < waiting .write ts → 0 < roused .write ts
  reader : writers ts = 0 → waiting .write ts = 0 → asleep .read ts = 0

section Count
variable {ts us : Threads} {i : Nat} {t u : Thread Cond Holds}

structure Moved (ts : Threads) (t u : Thread Cond Holds) (us : Threads) : Prop where
  reads : readers us + t.own.reads = readers ts + u.own.reads
  writes : writers us + t.own.writes = writers ts + u.own.writes
  blocked : ∀ c, asleep c us + t.blocked c = asleep c ts + u.blocked c
  woken : ∀ c, roused c us + t.woken c = roused c ts + u.woken c

theorem moved_set (h : ts[i]? = some t) (u : Thread Cond Holds) : Moved ts t u (ts.set i u) where
  reads := total_set (fun t => t.own.reads) u h
  writes := total_set (fun t => t.own.writes) u h
  blocked := fun c => total_set (Thread.blocked c) u h
  woken := fun c => total_set (Thread.woken c) u h

theorem Moved.waiting (h : Moved ts t u us) (c : Cond) :
    waiting c us + (t.blocked c + t.woken c) = waiting c ts + (u.blocked c + u.woken c) := by
  have h1 := h.blocked c
  have h2 := h.woken c
  simp only [ReadersWriters.waiting]
  omega

/-- A notification leaves what the threads hold. -/
theorem notified_holds {c : Cond} (h : Notified c ts us) :
    readers us = readers ts ∧ writers us = writers ts :=
  ⟨h.own fun o => o.reads, h.own fun o => o.writes⟩

theorem notified_waiting {c d : Cond} (h : Notified c ts us) : waiting d us = waiting d ts := by
  by_cases hd : d = c
  · rw [hd]
    exact h.waiting
  · obtain ⟨hb, hw⟩ := h.other d hd
    simp only [waiting, asleep, roused, hb, hw]

theorem notified_kept {c d : Cond} (h : Notified c ts us) : roused d ts ≤ roused d us := by
  by_cases hd : d = c
  · rw [hd]
    exact h.mono
  · exact Nat.le_of_eq (h.other d hd).2.symm

theorem notified_asleep {c d : Cond} (h : Notified c ts us) : asleep d us ≤ asleep d ts := by
  have hwait := notified_waiting (d := d) h
  have hkept := notified_kept (d := d) h
  simp only [waiting] at hwait
  omega

end Count

section Step
variable {ts us : Threads} {t : Thread Cond Holds} {i : Nat}

theorem handed_guarded (h : Handed ts us) (hone : writers ts = 0) : Guarded us := by
  cases h with
  | none hw hr =>
    refine ⟨by omega, Or.inl hone, ?_, ?_⟩
    · intro hread _ hwait
      omega
    · intro _ hwait
      omega
  | write hwait hn =>
    obtain ⟨hread, hwrite⟩ := notified_holds hn
    have hkeep := notified_waiting (d := .write) hn
    refine ⟨by omega, Or.inl (by omega), ?_, ?_⟩
    · intro _ _ _
      exact hn.one hwait
    · intro _ hnone
      omega
  | read hwait hn hasleep =>
    obtain ⟨hread, hwrite⟩ := notified_holds hn
    have hkeep := notified_waiting (d := .write) hn
    refine ⟨by omega, Or.inl (by omega), ?_, fun _ _ => hasleep⟩
    intro _ _ hpos
    omega

theorem wake_step {c : Cond} {own : Holds} (h : ts[i]? = some ⟨.blocked c, own⟩) :
    Step ts (ts.set i ⟨.woken c, own⟩) ∧ Notified c ts (ts.set i ⟨.woken c, own⟩) := by
  have hnotify : Thread.notify c (⟨.blocked c, own⟩ : Thread Cond Holds) = ⟨.woken c, own⟩ := by
    simp [Thread.notify]
  have hs := Step.wake h rfl
  have hn := notified_set h rfl
  rw [hnotify] at hs hn
  exact ⟨hs, hn⟩

/-- A thread that tries is not asleep, and has been woken at no other place. -/
theorem trying_counts {c : Cond} (h : Trying c t) :
    (∀ d, t.blocked d = 0) ∧ ∀ d, d ≠ c → t.woken d = 0 := by
  cases h with
  | inl h => simp [Thread.blocked, Thread.woken, h]
  | inr h =>
    refine ⟨by simp [Thread.blocked, h], ?_⟩
    intro d hd
    simpa [Thread.woken, h] using fun he => hd he.symm

/-- A thread that tries and blocks holds what it has held, and waits at no other place. -/
theorem moved_blocks {c : Cond} (hm : Moved ts t ⟨.blocked c, t.own⟩ us) (htry : Trying c t) :
    readers us = readers ts ∧ writers us = writers ts ∧
      waiting c us + t.woken c = waiting c ts + 1 ∧ ∀ d, d ≠ c → waiting d us = waiting d ts := by
  obtain ⟨hblocked, hwoken⟩ := trying_counts htry
  refine ⟨?_, ?_, ?_, ?_⟩
  · exact Nat.add_right_cancel hm.reads
  · exact Nat.add_right_cancel hm.writes
  · simpa [hblocked] using hm.waiting c
  · intro d hd
    simpa [hblocked, hwoken d hd, hd.symm] using hm.waiting d

/-- A thread that tries and goes on does not wait any more. -/
theorem moved_runs {c : Cond} {own : Holds} (hm : Moved ts t ⟨.running, own⟩ us)
    (htry : Trying c t) :
    waiting c us + t.woken c = waiting c ts ∧ ∀ d, d ≠ c → waiting d us = waiting d ts := by
  obtain ⟨hblocked, hwoken⟩ := trying_counts htry
  refine ⟨?_, ?_⟩
  · simpa [hblocked] using hm.waiting c
  · intro d hd
    simpa [hblocked, hwoken d hd] using hm.waiting d

theorem read_guarded (hg : Guarded ts) (htry : Trying .read t) (hwrites : writers ts = 0)
    (hwait : waiting .write ts = 0)
    (hm : Moved ts t ⟨.running, ⟨t.own.reads + 1, t.own.writes⟩⟩ us) : Guarded us := by
  obtain ⟨hblocked, hwoken⟩ := trying_counts htry
  have hw := hm.writes
  have hread := hm.blocked .read
  have hwrite := hm.blocked .write
  have hroused := hm.woken .write
  have hreader := hg.reader hwrites hwait
  simp [hblocked, hwoken] at hw hread hwrite hroused
  simp only [waiting] at hwait
  refine ⟨by omega, Or.inl (by omega), ?_, ?_⟩
  · intro _ _ hpos
    simp only [waiting] at hpos
    omega
  · intro _ _
    omega

theorem awaitRead_guarded (hg : Guarded ts) (htry : Trying .read t)
    (hpos : 0 < writers ts + waiting .write ts) (hm : Moved ts t ⟨.blocked .read, t.own⟩ us) :
    Guarded us := by
  obtain ⟨hblocked, hwoken⟩ := trying_counts htry
  have hone := hg.one
  have hex := hg.exclusive
  have hwriter := hg.writer
  have hr := hm.reads
  have hw := hm.writes
  have hwrite := hm.blocked .write
  have hroused := hm.woken .write
  simp [hblocked, hwoken] at hr hw hwrite hroused
  simp only [waiting] at hpos hwriter
  refine ⟨by omega, by omega, ?_, ?_⟩
  · intro h1 h2 h3
    simp only [waiting] at h3
    have := hwriter (by omega) (by omega) (by omega)
    omega
  · intro h1 h2
    simp only [waiting] at h2
    omega

theorem write_guarded (hreads : readers ts = 0) (hwrites : writers ts = 0)
    (hm : Moved ts t ⟨.running, ⟨t.own.reads, t.own.writes + 1⟩⟩ us) : Guarded us := by
  have hr := hm.reads
  have hw := hm.writes
  simp only at hr hw
  refine ⟨by omega, Or.inr (by omega), ?_, ?_⟩
  · intro _ hnone
    omega
  · intro hnone
    omega

theorem awaitWrite_guarded (hg : Guarded ts) (htry : Trying .write t)
    (hpos : 0 < readers ts + writers ts) (hm : Moved ts t ⟨.blocked .write, t.own⟩ us) :
    Guarded us := by
  obtain ⟨hblocked, -⟩ := trying_counts htry
  have hone := hg.one
  have hex := hg.exclusive
  have hr := hm.reads
  have hw := hm.writes
  have hwrite := hm.blocked .write
  simp [hblocked] at hr hw hwrite
  refine ⟨by omega, by omega, ?_, ?_⟩
  · intro _ _
    omega
  · intro _ hnone
    simp only [waiting] at hnone
    omega

/-- After a release no writer holds the lock. -/
theorem endRead_writers (hg : Guarded ts) (ht : ts[i]? = some t) (hpos : 0 < t.own.reads)
    (hm : Moved ts t ⟨.running, ⟨t.own.reads - 1, t.own.writes⟩⟩ us) : writers us = 0 := by
  have hheld : t.own.reads ≤ readers ts := le_total (fun t => t.own.reads) (List.mem_of_getElem? ht)
  have hex := hg.exclusive
  have hw := hm.writes
  simp only at hw
  omega

theorem endWrite_writers (hg : Guarded ts) (ht : ts[i]? = some t) (hpos : 0 < t.own.writes)
    (hm : Moved ts t ⟨.running, ⟨t.own.reads, t.own.writes - 1⟩⟩ us) : writers us = 0 := by
  have hheld : t.own.writes ≤ writers ts := le_total (fun t => t.own.writes) (List.mem_of_getElem? ht)
  have hone := hg.one
  have hw := hm.writes
  simp only at hw
  omega

theorem wake_guarded {c : Cond} (hg : Guarded ts) (hn : Notified c ts us) : Guarded us := by
  obtain ⟨hr, hw⟩ := notified_holds hn
  have hwait := notified_waiting (d := .write) hn
  have hkept := notified_kept (d := .write) hn
  have hread := notified_asleep (d := .read) hn
  refine ⟨hw ▸ hg.one, by rw [hr, hw]; exact hg.exclusive, ?_, ?_⟩
  · intro h1 h2 h3
    have := hg.writer (by omega) (by omega) (by omega)
    omega
  · intro h1 h2
    have := hg.reader (by omega) (by omega)
    omega

theorem step_guarded (hg : Guarded ts) (h : Step ts us) : Guarded us := by
  cases h with
  | read ht htry hw hwait => exact read_guarded hg htry hw hwait (moved_set ht _)
  | awaitRead ht htry hpos => exact awaitRead_guarded hg htry hpos (moved_set ht _)
  | write ht _ hr hw => exact write_guarded hr hw (moved_set ht _)
  | awaitWrite ht htry hpos => exact awaitWrite_guarded hg htry hpos (moved_set ht _)
  | endRead ht _ hpos hhand =>
    exact handed_guarded hhand (endRead_writers hg ht hpos (moved_set ht _))
  | endWrite ht _ hpos hhand =>
    exact handed_guarded hhand (endWrite_writers hg ht hpos (moved_set ht _))
  | wake ht hb => exact wake_guarded hg (notified_set ht hb)

theorem handed_readers (h : Handed ts us) : readers us = readers ts := by
  cases h with
  | none => rfl
  | write _ hn => exact (notified_holds hn).1
  | read _ hn _ => exact (notified_holds hn).1

/-- A reader starts only when no writer waits. -/
theorem step_starts (h : Step ts us) (hmore : readers ts < readers us) :
    waiting .write ts = 0 := by
  cases h with
  | read _ _ _ hwait => exact hwait
  | @awaitRead _ t ht =>
    have hr := (moved_set ht ⟨.blocked .read, t.own⟩).reads
    simp only at hr
    omega
  | @write _ t ht =>
    have hr := (moved_set ht ⟨.running, ⟨t.own.reads, t.own.writes + 1⟩⟩).reads
    simp only at hr
    omega
  | @awaitWrite _ t ht =>
    have hr := (moved_set ht ⟨.blocked .write, t.own⟩).reads
    simp only at hr
    omega
  | @endRead _ t _ ht _ _ hhand =>
    have hr := (moved_set ht ⟨.running, ⟨t.own.reads - 1, t.own.writes⟩⟩).reads
    have := handed_readers hhand
    simp only at hr
    omega
  | @endWrite _ t _ ht _ _ hhand =>
    have hr := (moved_set ht ⟨.running, ⟨t.own.reads, t.own.writes - 1⟩⟩).reads
    have := handed_readers hhand
    simp only at hr
    omega
  | wake ht hb =>
    have := (notified_holds (notified_set ht hb)).1
    omega

/-- A free lock that somebody waits for has somebody on the way to it who will get it. -/
theorem guarded_wakes (hg : Guarded ts) (hr : readers ts = 0) (hw : writers ts = 0) (ht : t ∈ ts)
    (hwait : t.wait ≠ .running) : ∃ u ∈ ts, u.wait = .woken .write ∨
      u.wait = .woken .read ∧ waiting .write ts = 0 := by
  by_cases hnone : waiting .write ts = 0
  · have hasleep := hg.reader hw hnone
    refine ⟨t, ht, Or.inr ⟨?_, hnone⟩⟩
    cases hc : t.wait with
    | running => exact absurd hc hwait
    | blocked c =>
      have hpos := blocked_total_pos ht hc
      cases c with
      | read => simp only [asleep] at hasleep; omega
      | write => simp only [waiting, asleep] at hnone; omega
    | woken c =>
      have hpos := woken_total_pos ht hc
      cases c with
      | read => rfl
      | write => simp only [waiting, roused] at hnone; omega
  · obtain ⟨u, hu, hwoken⟩ := exists_woken (hg.writer hr hw (by omega))
    exact ⟨u, hu, Or.inl hwoken⟩

end Step

end CppPrivate.ReadersWriters
