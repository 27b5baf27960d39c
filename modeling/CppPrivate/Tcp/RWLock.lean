import CppPrivate.Lib.Machine
import CppPrivate.Lib.ReadersWriters
import CppPrivate.Lib.Run

/-! The reader-writer lock of the TCP library. One number stands for the holders of the lock, and
one release serves readers and writers. The numbers are 32-bit integers. -/
namespace CppPrivate.Tcp
open CppPrivate.Monitor CppPrivate.ReadersWriters CppPrivate.Run

structure RWLock where
  status : Int
  waitingReaders : Int
  waitingWriters : Int
  threads : Threads
deriving DecidableEq

/-- The critical sections of the thread `i`; `k` is the thread that a `notify_one` picks. A thread
that waits wakes by itself or is notified, and resumes when it has the mutex again. -/
inductive RWLockOp where
  | rlock (i : Nat)
  | wlock (i : Nat)
  | unlock (i : Nat) (k : Option Nat)
  | wake (i : Nat)
  | resume (i : Nat)
deriving DecidableEq

namespace RWLock

def new (n : Nat) : RWLock := ⟨0, 0, 0, List.replicate n ⟨.running, ⟨0, 0⟩⟩⟩

def setThread (m : RWLock) (i : Nat) (t : Thread Cond Holds) : RWLock :=
  { m with threads := m.threads.set i t }

/-- The loop of `rlock`, up to the next wait. -/
def waitRead (m : RWLock) (i : Nat) (own : Holds) : RWLock :=
  if m.status < 0 ∨ m.waitingWriters > 0 then m.setThread i ⟨.blocked .read, own⟩
  else { m.setThread i ⟨.running, ⟨own.reads + 1, own.writes⟩⟩ with
    waitingReaders := cInt (m.waitingReaders - 1), status := cInt (m.status + 1) }

/-- The loop of `wlock`, up to the next wait. -/
def waitWrite (m : RWLock) (i : Nat) (own : Holds) : RWLock :=
  if m.status ≠ 0 then m.setThread i ⟨.blocked .write, own⟩
  else { m.setThread i ⟨.running, ⟨own.reads, own.writes + 1⟩⟩ with
    waitingWriters := cInt (m.waitingWriters - 1), status := cInt (m.status - 1) }

def released (own : Holds) : Holds :=
  if 0 < own.reads then ⟨own.reads - 1, own.writes⟩ else ⟨own.reads, own.writes - 1⟩

def notify (m : RWLock) (k : Option Nat) : Option RWLock :=
  if m.waitingWriters > 0 then
    if m.status = 0 then (notifyOne .write k m.threads).map fun ts => { m with threads := ts }
    else some m
  else if m.waitingReaders > 0 then
    if m.waitingReaders = 1 then
      (notifyOne .read k m.threads).map fun ts => { m with threads := ts }
    else some { m with threads := notifyAll .read m.threads }
  else some m

def unlock (m : RWLock) (i : Nat) (own : Holds) (k : Option Nat) : Option RWLock :=
  { m.setThread i ⟨.running, released own⟩ with
    status := if m.status < 0 then cInt (m.status + 1)
      else if m.status > 0 then cInt (m.status - 1) else m.status }.notify k

def step (m : RWLock) : RWLockOp → Option RWLock
  | .rlock i =>
    match m.threads[i]? with
    | some ⟨.running, own⟩ =>
      some ({ m with waitingReaders := cInt (m.waitingReaders + 1) }.waitRead i own)
    | _ => none
  | .wlock i =>
    match m.threads[i]? with
    | some ⟨.running, own⟩ =>
      some ({ m with waitingWriters := cInt (m.waitingWriters + 1) }.waitWrite i own)
    | _ => none
  | .unlock i k =>
    match m.threads[i]? with
    | some ⟨.running, own⟩ => if 0 < own.reads + own.writes then m.unlock i own k else none
    | _ => none
  | .wake i =>
    match m.threads[i]? with
    | some ⟨.blocked c, own⟩ => some (m.setThread i ⟨.woken c, own⟩)
    | _ => none
  | .resume i =>
    match m.threads[i]? with
    | some ⟨.woken .read, own⟩ => some (m.waitRead i own)
    | some ⟨.woken .write, own⟩ => some (m.waitWrite i own)
    | _ => none

structure Counted (m : RWLock) : Prop where
  status : m.status = cInt ((readers m.threads : Int) - writers m.threads)
  waitingReaders : m.waitingReaders = cInt (waiting .read m.threads)
  waitingWriters : m.waitingWriters = cInt (waiting .write m.threads)

/-- Fewer than `2^31` read locks are held, and fewer than `2^31` threads wait for readers' or
writers' turn. -/
def Few (m : RWLock) : Prop :=
  readers m.threads < 2 ^ 31 ∧ waiting .read m.threads < 2 ^ 31 ∧ waiting .write m.threads < 2 ^ 31

instance (m : RWLock) : Decidable (Few m) := inferInstanceAs (Decidable (_ ∧ _ ∧ _))

theorem counted_new (n : Nat) : Counted (new n) := by
  constructor <;>
    simp [new, readers, writers, waiting, asleep, roused, total_replicate, cInt]

theorem guarded_new (n : Nat) : Guarded (new n).threads := by
  constructor <;>
    simp [new, readers, writers, waiting, asleep, roused, total_replicate]

section Step
variable {m m' : RWLock} {i : Nat} {k : Option Nat} {own : Holds} {w : Wait Cond} {op : RWLockOp}

/-- The numbers are the counts themselves while these are few. -/
theorem Counted.exact (hm : Counted m) (hg : Guarded m.threads) (hfew : Few m) :
    m.status = (readers m.threads : Int) - writers m.threads ∧
      m.waitingReaders = waiting .read m.threads ∧ m.waitingWriters = waiting .write m.threads := by
  have hone := hg.one
  obtain ⟨hr, hw, hw'⟩ := hfew
  refine ⟨?_, ?_, ?_⟩
  · rw [hm.status]
    simp only [cInt, Int.bmod_def]
    omega
  · rw [hm.waitingReaders]
    exact cInt_of_lt hw
  · rw [hm.waitingWriters]
    exact cInt_of_lt hw'

/-- The loop of `rlock`, with the calling thread among the waiting readers, `x` by their number. -/
theorem waitRead_step {x : Int} {j : Nat} (hm : Counted m) (hg : Guarded m.threads) (hfew : Few m)
    (ht : m.threads[i]? = some ⟨w, own⟩) (htry : w = .running ∨ w = .woken .read)
    (hx : x = cInt ((waiting .read m.threads + j : Nat) : Int))
    (hj : j + Thread.woken .read ⟨w, own⟩ = 1) :
    Step m.threads ({ m with waitingReaders := x }.waitRead i own).threads ∧
      Counted ({ m with waitingReaders := x }.waitRead i own) := by
  have hone := hg.one
  have hex := hg.exclusive
  obtain ⟨hs, -, hw⟩ := hm.exact hg hfew
  rw [waitRead]
  split
  · rename_i hbusy
    have hbusy : m.status < 0 ∨ m.waitingWriters > 0 := hbusy
    obtain ⟨hreads, hwrites, hread, hother⟩ := moved_blocks (moved_set ht ⟨.blocked .read, own⟩) htry
    have hwrite := hother .write (by decide)
    refine ⟨Step.awaitRead ht htry (by omega), ?_, ?_, ?_⟩
    · change m.status = cInt ((readers (m.threads.set i _) : Int) - writers (m.threads.set i _))
      rw [hreads, hwrites]
      exact hm.status
    · change x = cInt (waiting .read (m.threads.set i _) : Nat)
      rw [hx]
      congr 2
      omega
    · change m.waitingWriters = cInt (waiting .write (m.threads.set i _) : Nat)
      rw [hwrite]
      exact hm.waitingWriters
  · rename_i hfree
    have hfree : ¬ (m.status < 0 ∨ m.waitingWriters > 0) := hfree
    have hmoved := moved_set ht ⟨.running, ⟨own.reads + 1, own.writes⟩⟩
    have hreads := hmoved.reads
    have hwrites := hmoved.writes
    obtain ⟨hread, hother⟩ := moved_runs hmoved htry
    have hwrite := hother .write (by decide)
    simp only at hreads hwrites
    refine ⟨Step.read ht htry (by omega) (by omega), ?_, ?_, ?_⟩
    · change cInt (m.status + 1) =
        cInt ((readers (m.threads.set i _) : Int) - writers (m.threads.set i _))
      congr 1
      omega
    · change cInt (x + -1) = cInt (waiting .read (m.threads.set i _) : Nat)
      rw [hx, cInt_add]
      congr 1
      omega
    · change m.waitingWriters = cInt (waiting .write (m.threads.set i _) : Nat)
      rw [hwrite]
      exact hm.waitingWriters

theorem waitWrite_step {x : Int} {j : Nat} (hm : Counted m) (hg : Guarded m.threads) (hfew : Few m)
    (ht : m.threads[i]? = some ⟨w, own⟩) (htry : w = .running ∨ w = .woken .write)
    (hx : x = cInt ((waiting .write m.threads + j : Nat) : Int))
    (hj : j + Thread.woken .write ⟨w, own⟩ = 1) :
    Step m.threads ({ m with waitingWriters := x }.waitWrite i own).threads ∧
      Counted ({ m with waitingWriters := x }.waitWrite i own) := by
  have hone := hg.one
  have hex := hg.exclusive
  obtain ⟨hs, -, -⟩ := hm.exact hg hfew
  rw [waitWrite]
  split
  · rename_i hheld
    have hheld : m.status ≠ 0 := hheld
    obtain ⟨hreads, hwrites, hwrite, hother⟩ := moved_blocks (moved_set ht ⟨.blocked .write, own⟩) htry
    have hread := hother .read (by decide)
    refine ⟨Step.awaitWrite ht htry (by omega), ?_, ?_, ?_⟩
    · change m.status = cInt ((readers (m.threads.set i _) : Int) - writers (m.threads.set i _))
      rw [hreads, hwrites]
      exact hm.status
    · change m.waitingReaders = cInt (waiting .read (m.threads.set i _) : Nat)
      rw [hread]
      exact hm.waitingReaders
    · change x = cInt (waiting .write (m.threads.set i _) : Nat)
      rw [hx]
      congr 2
      omega
  · rename_i hfree
    have hfree : m.status = 0 := by simpa using hfree
    have hmoved := moved_set ht ⟨.running, ⟨own.reads, own.writes + 1⟩⟩
    have hreads := hmoved.reads
    have hwrites := hmoved.writes
    obtain ⟨hwrite, hother⟩ := moved_runs hmoved htry
    have hread := hother .read (by decide)
    simp only at hreads hwrites
    refine ⟨Step.write ht htry (by omega) (by omega), ?_, ?_, ?_⟩
    · change cInt (m.status - 1) =
        cInt ((readers (m.threads.set i _) : Int) - writers (m.threads.set i _))
      congr 1
      omega
    · change m.waitingReaders = cInt (waiting .read (m.threads.set i _) : Nat)
      rw [hread]
      exact hm.waitingReaders
    · change cInt (x + -1) = cInt (waiting .write (m.threads.set i _) : Nat)
      rw [hx, cInt_add]
      congr 1
      omega

theorem Counted.notified {c : Cond} {ts : Threads} (hm : Counted m) (hn : Notified c m.threads ts) :
    Counted { m with threads := ts } := by
  obtain ⟨hr, hw⟩ := notified_holds hn
  refine ⟨?_, ?_, ?_⟩
  · change m.status = cInt ((readers ts : Int) - writers ts)
    rw [hr, hw]
    exact hm.status
  · change m.waitingReaders = cInt (waiting .read ts)
    rw [notified_waiting hn]
    exact hm.waitingReaders
  · change m.waitingWriters = cInt (waiting .write ts)
    rw [notified_waiting hn]
    exact hm.waitingWriters

/-- After a release of the lock the waiting threads are handed it as they should. -/
theorem notify_handed (hm : Counted m) (hnone : writers m.threads = 0) (hfew : Few m)
    (h : m.notify k = some m') : Handed m.threads m'.threads ∧ Counted m' := by
  obtain ⟨hr, hw, hw'⟩ := hfew
  have hs : m.status = readers m.threads := by
    rw [hm.status, hnone]
    simpa using cInt_of_lt hr
  have hwr : m.waitingReaders = waiting .read m.threads := by
    rw [hm.waitingReaders]
    exact cInt_of_lt hw
  have hww : m.waitingWriters = waiting .write m.threads := by
    rw [hm.waitingWriters]
    exact cInt_of_lt hw'
  rw [notify] at h
  split at h
  · have hpos : 0 < waiting .write m.threads := by omega
    split at h
    · obtain ⟨ts, hts, rfl⟩ := Option.map_eq_some_iff.mp h
      have hn := notifyOne_notified hts
      exact ⟨.write hpos hn, hm.notified hn⟩
    · obtain rfl := Option.some.inj h
      exact ⟨.none (by omega) (by omega), hm⟩
  · have hzero : waiting .write m.threads = 0 := by omega
    split at h
    · split at h
      · obtain ⟨ts, hts, rfl⟩ := Option.map_eq_some_iff.mp h
        have hn := notifyOne_notified hts
        -- the only reader that waits is the one that is woken
        have hasleep : asleep .read ts = 0 := by
          have hone := hn.one
          have hwait := hn.waiting
          simp only [waiting, asleep, roused] at *
          omega
        exact ⟨.read hzero hn hasleep, hm.notified hn⟩
      · obtain rfl := Option.some.inj h
        have hn : Notified .read m.threads _ := notifyAll_notified
        exact ⟨.read hzero hn notifyAll_blocked, hm.notified hn⟩
    · obtain rfl := Option.some.inj h
      refine ⟨.none (Or.inl hzero) (Or.inl ?_), hm⟩
      simp only [waiting] at hwr
      omega

/-- A thread that goes on running leaves the numbers of the threads that wait. -/
theorem Counted.setThread {x : Int} {held : Holds} (hm : Counted m)
    (ht : m.threads[i]? = some ⟨.running, own⟩)
    (hx : x = cInt ((readers (m.threads.set i ⟨.running, held⟩) : Int) -
      writers (m.threads.set i ⟨.running, held⟩))) :
    Counted { m.setThread i ⟨.running, held⟩ with status := x } := by
  have hwait : ∀ c, waiting c (m.threads.set i ⟨.running, held⟩) = waiting c m.threads := by
    intro c
    simpa using (moved_set ht ⟨.running, held⟩).waiting c
  refine ⟨hx, ?_, ?_⟩
  · change m.waitingReaders = cInt (waiting .read (m.threads.set i _) : Nat)
    rw [hwait]
    exact hm.waitingReaders
  · change m.waitingWriters = cInt (waiting .write (m.threads.set i _) : Nat)
    rw [hwait]
    exact hm.waitingWriters

theorem Few.setThread {x : Int} {held : Holds} (hfew : Few m)
    (ht : m.threads[i]? = some ⟨.running, own⟩)
    (hread : readers (m.threads.set i ⟨.running, held⟩) ≤ readers m.threads) :
    Few { m.setThread i ⟨.running, held⟩ with status := x } := by
  have hwait : ∀ c, waiting c (m.threads.set i ⟨.running, held⟩) = waiting c m.threads := by
    intro c
    simpa using (moved_set ht ⟨.running, held⟩).waiting c
  refine ⟨Nat.lt_of_le_of_lt hread hfew.1, ?_, ?_⟩
  · exact (hwait .read).symm ▸ hfew.2.1
  · exact (hwait .write).symm ▸ hfew.2.2

theorem unlock_step (hm : Counted m) (hg : Guarded m.threads) (hfew : Few m)
    (ht : m.threads[i]? = some ⟨.running, own⟩) (hpos : 0 < own.reads + own.writes)
    (h : m.unlock i own k = some m') : Step m.threads m'.threads ∧ Counted m' := by
  have hone := hg.one
  have hex := hg.exclusive
  obtain ⟨hs, -, -⟩ := hm.exact hg hfew
  have hheldr : own.reads ≤ readers m.threads :=
    le_total (fun t => t.own.reads) (List.mem_of_getElem? ht)
  have hheldw : own.writes ≤ writers m.threads :=
    le_total (fun t => t.own.writes) (List.mem_of_getElem? ht)
  rw [unlock, released] at h
  by_cases hread : 0 < own.reads
  · have hmoved := moved_set ht ⟨.running, ⟨own.reads - 1, own.writes⟩⟩
    have hreads := hmoved.reads
    have hwrites := hmoved.writes
    have hnone := endRead_writers hg ht hread hmoved
    simp only at hreads hwrites
    rw [if_pos hread, if_neg (by omega), if_pos (by omega)] at h
    obtain ⟨hhand, hcounted⟩ := notify_handed (hm.setThread ht (by congr 1; omega)) hnone
      (hfew.setThread ht (by omega)) h
    exact ⟨Step.endRead ht rfl hread hhand, hcounted⟩
  · have hwrite : 0 < own.writes := by omega
    have hmoved := moved_set ht ⟨.running, ⟨own.reads, own.writes - 1⟩⟩
    have hreads := hmoved.reads
    have hwrites := hmoved.writes
    have hnone := endWrite_writers hg ht hwrite hmoved
    simp only at hreads hwrites
    rw [if_neg hread, if_pos (by omega)] at h
    obtain ⟨hhand, hcounted⟩ := notify_handed (hm.setThread ht (by congr 1; omega)) hnone
      (hfew.setThread ht (by omega)) h
    exact ⟨Step.endWrite ht rfl hwrite hhand, hcounted⟩

/-- Every step is one of a lock that prefers writers. -/
theorem step_refines (hm : Counted m) (hg : Guarded m.threads) (hfew : Few m)
    (h : m.step op = some m') : Step m.threads m'.threads ∧ Counted m' := by
  cases op with
  | rlock i =>
    simp only [step] at h
    split at h
    · rename_i own ht
      obtain rfl := Option.some.inj h
      have hx : cInt (m.waitingReaders + 1) = cInt ((waiting .read m.threads + 1 : Nat) : Int) := by
        rw [hm.waitingReaders, cInt_add]
        rfl
      exact waitRead_step hm hg hfew ht (Or.inl rfl) hx rfl
    · cases h
  | wlock i =>
    simp only [step] at h
    split at h
    · rename_i own ht
      obtain rfl := Option.some.inj h
      have hx : cInt (m.waitingWriters + 1) = cInt ((waiting .write m.threads + 1 : Nat) : Int) := by
        rw [hm.waitingWriters, cInt_add]
        rfl
      exact waitWrite_step hm hg hfew ht (Or.inl rfl) hx rfl
    · cases h
  | unlock i k =>
    simp only [step] at h
    split at h
    · rename_i own ht
      split at h
      · rename_i hpos
        exact unlock_step hm hg hfew ht hpos h
      · cases h
    · cases h
  | wake i =>
    simp only [step] at h
    split at h
    · rename_i c own ht
      obtain rfl := Option.some.inj h
      obtain ⟨hs, hn⟩ := wake_step ht
      exact ⟨hs, hm.notified hn⟩
    · cases h
  | resume i =>
    simp only [step] at h
    split at h
    · rename_i own ht
      obtain rfl := Option.some.inj h
      have hx : m.waitingReaders = cInt ((waiting .read m.threads + 0 : Nat) : Int) :=
        hm.waitingReaders
      exact waitRead_step hm hg hfew ht (Or.inr rfl) hx rfl
    · rename_i own ht
      obtain rfl := Option.some.inj h
      have hx : m.waitingWriters = cInt ((waiting .write m.threads + 0 : Nat) : Int) :=
        hm.waitingWriters
      exact waitWrite_step hm hg hfew ht (Or.inr rfl) hx rfl
    · cases h

end Step

section Run
variable {n : Nat} {m : RWLock} {ops : List RWLockOp}

theorem kept (h : Runs step (fun m _ => Few m) (new n) ops m) : Counted m ∧ Guarded m.threads := by
  apply h.invariant fun m => Counted m ∧ Guarded m.threads
  · exact ⟨counted_new n, guarded_new n⟩
  · intro m op m' hm hfew hs
    obtain ⟨hstep, hcounted⟩ := step_refines hm.1 hm.2 hfew hs
    exact ⟨hcounted, step_guarded hm.2 hstep⟩

/-- The thread has been woken, and what it waits for has come. -/
def Proceeds (m : RWLock) (t : Thread Cond Holds) : Prop :=
  t.wait = .woken .read ∧ ¬ (m.status < 0 ∨ m.waitingWriters > 0) ∨
    t.wait = .woken .write ∧ ¬ m.status ≠ 0

theorem rwLock_safe (h : Runs step (fun m _ => Few m) (new n) ops m) (hfew : Few m) :
    (m.status = -1 ↔ writers m.threads = 1 ∧ readers m.threads = 0) ∧
      (m.status ≠ -1 → m.status = readers m.threads) ∧
      (∀ op m', m.step op = some m' → readers m.threads < readers m'.threads →
        waiting .write m.threads = 0) ∧
      (m.status = 0 → ∀ t ∈ m.threads, t.wait ≠ .running → ∃ u ∈ m.threads, m.Proceeds u) := by
  obtain ⟨hm, hg⟩ := kept h
  have hone := hg.one
  have hex := hg.exclusive
  obtain ⟨hs, -, hww⟩ := hm.exact hg hfew
  refine ⟨by omega, by omega, ?_, ?_⟩
  · intro op m' hstep hmore
    exact step_starts (step_refines hm hg hfew hstep).1 hmore
  · intro hzero t ht hwait
    obtain ⟨u, hu, hcase⟩ := guarded_wakes hg (by omega) (by omega) ht hwait
    refine ⟨u, hu, ?_⟩
    cases hcase with
    | inl hwrite => exact Or.inr ⟨hwrite, by omega⟩
    | inr hread => exact Or.inl ⟨hread.1, by omega⟩

/-- A writer releases the lock while a reader and another writer wait for it. -/
def contendedOps : List RWLockOp :=
  [.rlock 0, .unlock 0 none, .wlock 0, .rlock 1, .wlock 2, .wake 1, .resume 1, .unlock 0 (some 2)]

theorem rwLock_safe_contended : ∃ m, Runs step (fun m _ => Few m) (new 3) contendedOps m ∧
    Few m ∧ m.status = 0 ∧ (∃ t ∈ m.threads, t.wait ≠ .running) ∧
      ∃ u ∈ m.threads, m.Proceeds u := by
  have hexec : ((exec step (fun m _ => Few m) (new 3) contendedOps).any fun m =>
      decide (Few m ∧ m.status = 0 ∧ ∃ t ∈ m.threads, t.wait ≠ .running)) = true := by decide
  obtain ⟨m, hrun, hcheck⟩ := exists_of_exec hexec
  obtain ⟨hfew, hzero, t, ht, hwait⟩ := of_decide_eq_true hcheck
  exact ⟨m, hrun, hfew, hzero, ⟨t, ht, hwait⟩,
    (rwLock_safe hrun hfew).2.2.2 hzero t ht hwait⟩

/-- The lock when its only thread holds it for reading `k` times. -/
def shared (k : Nat) : RWLock := ⟨cInt k, 0, 0, [⟨.running, ⟨k, 0⟩⟩]⟩

theorem shared_step {k : Nat} (hlt : k < 2 ^ 31) :
    (shared k).step (.rlock 0) = some (shared (k + 1)) := by
  have hstatus : ¬ (cInt (k : Int) < 0 ∨ (0 : Int) > 0) := by
    rw [cInt_of_lt hlt]
    omega
  have hone : cInt (cInt (0 + 1) - 1) = 0 := by decide
  have hnext : cInt (cInt (k : Int) + 1) = cInt ((k + 1 : Nat) : Int) := cInt_add _ _
  simp only [shared, step, List.getElem?_cons_zero, waitRead, setThread, if_neg hstatus,
    List.set_cons_zero, hone, hnext]

theorem shared_runs (k : Nat) (hlt : k ≤ 2 ^ 31) :
    Runs step (fun _ _ => True) (new 1) (List.replicate k (.rlock 0)) (shared k) := by
  induction k with
  | zero => exact .nil
  | succ k ih =>
    rw [List.replicate_succ']
    exact (ih (by omega)).snoc trivial (shared_step (by omega))

/-- With `2^31` read locks, all of one thread, the status is negative. -/
theorem status_wraps : ∃ (n : Nat) (ops : List RWLockOp) (m : RWLock),
    Runs step (fun _ _ => True) (new n) ops m ∧ writers m.threads = 0 ∧
      m.status ≠ readers m.threads := by
  refine ⟨1, _, _, shared_runs (2 ^ 31) (Nat.le_refl _), rfl, ?_⟩
  have hreaders : readers (shared (2 ^ 31)).threads = 2 ^ 31 := rfl
  have hwrap : cInt ((2 ^ 31 : Nat) : Int) ≠ ((2 ^ 31 : Nat) : Int) := by decide
  rw [hreaders]
  exact hwrap

end Run

end RWLock

end CppPrivate.Tcp
