import CppPrivate.Lib.ReadersWriters
import CppPrivate.Lib.Run

/-! The reader-writer mutex. Its two counters and its flag say of the threads what a lock that
prefers writers has to know, so that its steps are those of such a lock. -/
namespace CppPrivate.Public
open CppPrivate.Monitor CppPrivate.ReadersWriters CppPrivate.Run

structure RWMutex where
  readCount : Nat
  writeCount : Nat
  writing : Bool
  threads : Threads
deriving DecidableEq

/-- The critical sections of the thread `i`; `k` is the thread that a `notify_one` picks. A thread
that waits wakes by itself or is notified, and resumes when it has the internal mutex again. -/
inductive RWMutexOp where
  | rLock (i : Nat)
  | rUnLock (i : Nat) (k : Option Nat)
  | lock (i : Nat)
  | unLock (i : Nat) (k : Option Nat)
  | wake (i : Nat)
  | resume (i : Nat)
deriving DecidableEq

namespace RWMutex

def new (n : Nat) : RWMutex := ⟨0, 0, false, List.replicate n ⟨.running, ⟨0, 0⟩⟩⟩

def setThread (m : RWMutex) (i : Nat) (t : Thread Cond Holds) : RWMutex :=
  { m with threads := m.threads.set i t }

def canRead (m : RWMutex) : Bool := m.writeCount == 0

def canWrite (m : RWMutex) : Bool := m.readCount == 0 && !m.writing

/-- The wait of `rLock`, up to the next time that the predicate fails. -/
def waitRead (m : RWMutex) (i : Nat) (own : Holds) : RWMutex :=
  if m.canRead then
    { m.setThread i ⟨.running, ⟨own.reads + 1, own.writes⟩⟩ with readCount := m.readCount + 1 }
  else m.setThread i ⟨.blocked .read, own⟩

def waitWrite (m : RWMutex) (i : Nat) (own : Holds) : RWMutex :=
  if m.canWrite then
    { m.setThread i ⟨.running, ⟨own.reads, own.writes + 1⟩⟩ with writing := true }
  else m.setThread i ⟨.blocked .write, own⟩

def notifyWrite (m : RWMutex) (k : Option Nat) : Option RWMutex :=
  (notifyOne .write k m.threads).map fun ts => { m with threads := ts }

def rUnLock (m : RWMutex) (i : Nat) (own : Holds) (k : Option Nat) : Option RWMutex :=
  let m := { m.setThread i ⟨.running, ⟨own.reads - 1, own.writes⟩⟩ with
    readCount := m.readCount - 1 }
  if m.readCount = 0 ∧ m.writeCount > 0 then m.notifyWrite k else some m

def unLock (m : RWMutex) (i : Nat) (own : Holds) (k : Option Nat) : Option RWMutex :=
  let m := { m.setThread i ⟨.running, ⟨own.reads, own.writes - 1⟩⟩ with
    writeCount := m.writeCount - 1 }
  if m.writeCount = 0 then
    some { m with threads := notifyAll .read m.threads, writing := false }
  else (m.notifyWrite k).map fun m => { m with writing := false }

def step (m : RWMutex) : RWMutexOp → Option RWMutex
  | .rLock i =>
    match m.threads[i]? with
    | some ⟨.running, own⟩ => some (m.waitRead i own)
    | _ => none
  | .rUnLock i k =>
    match m.threads[i]? with
    | some ⟨.running, own⟩ => if 0 < own.reads then m.rUnLock i own k else none
    | _ => none
  | .lock i =>
    match m.threads[i]? with
    | some ⟨.running, own⟩ => some ({ m with writeCount := m.writeCount + 1 }.waitWrite i own)
    | _ => none
  | .unLock i k =>
    match m.threads[i]? with
    | some ⟨.running, own⟩ => if 0 < own.writes then m.unLock i own k else none
    | _ => none
  | .wake i =>
    match m.threads[i]? with
    | some ⟨.blocked c, own⟩ => some (m.setThread i ⟨.woken c, own⟩)
    | _ => none
  | .resume i =>
    match m.threads[i]? with
    | some ⟨.woken .read, own⟩ => some (m.waitRead i own)
    | some ⟨.woken .write, own⟩ => some (m.waitWrite i own)
    | _ => none

structure Counted (m : RWMutex) : Prop where
  readCount : m.readCount = readers m.threads
  writeCount : m.writeCount = writers m.threads + waiting .write m.threads
  writing : m.writing = true ↔ 0 < writers m.threads

theorem counted_new (n : Nat) : Counted (new n) := by
  constructor <;>
    simp [new, readers, writers, waiting, asleep, roused, total_replicate]

theorem guarded_new (n : Nat) : Guarded (new n).threads := by
  constructor <;>
    simp [new, readers, writers, waiting, asleep, roused, total_replicate]

section Step
variable {m m' : RWMutex} {i : Nat} {k : Option Nat} {own : Holds} {w : Wait Cond}
  {op : RWMutexOp}

theorem waitRead_step (hm : Counted m) (ht : m.threads[i]? = some ⟨w, own⟩)
    (htry : w = .running ∨ w = .woken .read) :
    Step m.threads (m.waitRead i own).threads ∧ Counted (m.waitRead i own) := by
  obtain ⟨hr, hw, hwriting⟩ := hm
  rw [waitRead, canRead]
  split
  · rename_i hzero
    have hzero : m.writeCount = 0 := by simpa using hzero
    have hmoved := moved_set ht ⟨.running, ⟨own.reads + 1, own.writes⟩⟩
    have hreads := hmoved.reads
    have hwrites := hmoved.writes
    have hwait := (moved_runs hmoved htry).2 .write (by decide)
    simp only at hreads hwrites
    refine ⟨Step.read ht htry (by omega) (by omega), ?_, ?_, ?_⟩
    · change m.readCount + 1 = readers (m.threads.set i _)
      omega
    · change m.writeCount = writers (m.threads.set i _) + waiting .write (m.threads.set i _)
      omega
    · change m.writing = true ↔ 0 < writers (m.threads.set i _)
      rw [hwriting]
      omega
  · rename_i hpos
    have hpos : m.writeCount ≠ 0 := by simpa using hpos
    obtain ⟨hreads, hwrites, -, hother⟩ := moved_blocks (moved_set ht ⟨.blocked .read, own⟩) htry
    have hwait := hother .write (by decide)
    refine ⟨Step.awaitRead ht htry (by omega), ?_, ?_, ?_⟩
    · exact hr.trans hreads.symm
    · change m.writeCount = writers (m.threads.set i _) + waiting .write (m.threads.set i _)
      omega
    · change m.writing = true ↔ 0 < writers (m.threads.set i _)
      rw [hwriting, hwrites]

theorem waitWrite_step (hr : m.readCount = readers m.threads)
    (hw : m.writeCount + Thread.woken .write ⟨w, own⟩ =
      writers m.threads + waiting .write m.threads + 1)
    (hwriting : m.writing = true ↔ 0 < writers m.threads) (ht : m.threads[i]? = some ⟨w, own⟩)
    (htry : w = .running ∨ w = .woken .write) :
    Step m.threads (m.waitWrite i own).threads ∧ Counted (m.waitWrite i own) := by
  rw [waitWrite, canWrite]
  split
  · rename_i hfree
    obtain ⟨hzero, hnot⟩ : m.readCount = 0 ∧ m.writing = false := by simpa using hfree
    have hnone : writers m.threads = 0 := by
      have : ¬ 0 < writers m.threads := by simp [← hwriting, hnot]
      omega
    have hmoved := moved_set ht ⟨.running, ⟨own.reads, own.writes + 1⟩⟩
    have hreads := hmoved.reads
    have hwrites := hmoved.writes
    have hwait := (moved_runs hmoved htry).1
    simp only at hreads hwrites
    refine ⟨Step.write ht htry (by omega) hnone, ?_, ?_, ?_⟩
    · change m.readCount = readers (m.threads.set i _)
      omega
    · change m.writeCount = writers (m.threads.set i _) + waiting .write (m.threads.set i _)
      omega
    · change true = true ↔ 0 < writers (m.threads.set i _)
      simp only [true_iff]
      omega
  · rename_i hheld
    have hpos : 0 < readers m.threads + writers m.threads := by
      rw [← hr]
      by_cases hzero : m.readCount = 0
      · have := hwriting.mp (by simpa [hzero] using hheld)
        omega
      · omega
    obtain ⟨hreads, hwrites, hwait, -⟩ := moved_blocks (moved_set ht ⟨.blocked .write, own⟩) htry
    refine ⟨Step.awaitWrite ht htry hpos, ?_, ?_, ?_⟩
    · exact hr.trans hreads.symm
    · change m.writeCount = writers (m.threads.set i _) + waiting .write (m.threads.set i _)
      omega
    · change m.writing = true ↔ 0 < writers (m.threads.set i _)
      rw [hwriting, hwrites]

theorem Counted.notified {c : Cond} {ts : Threads} (hm : Counted m) (hn : Notified c m.threads ts) :
    Counted { m with threads := ts } := by
  obtain ⟨hr, hw⟩ := notified_holds hn
  have hwait := notified_waiting (d := .write) hn
  refine ⟨hm.readCount.trans hr.symm, ?_, ?_⟩
  · change m.writeCount = writers ts + waiting .write ts
    rw [hm.writeCount, hw, hwait]
  · change m.writing = true ↔ 0 < writers ts
    rw [hm.writing, hw]

theorem rUnLock_step (hm : Counted m) (hg : Guarded m.threads)
    (ht : m.threads[i]? = some ⟨.running, own⟩) (hpos : 0 < own.reads)
    (h : m.rUnLock i own k = some m') : Step m.threads m'.threads ∧ Counted m' := by
  have hmoved := moved_set ht ⟨.running, ⟨own.reads - 1, own.writes⟩⟩
  have hnone := endRead_writers hg ht hpos hmoved
  have hreads := hmoved.reads
  have hwrites := hmoved.writes
  have hwait := hmoved.waiting .write
  have hasleep := hmoved.blocked .read
  simp at hreads hwrites hwait hasleep
  have hr := hm.readCount
  have hw := hm.writeCount
  have hcounted : Counted { m.setThread i ⟨.running, ⟨own.reads - 1, own.writes⟩⟩ with
      readCount := m.readCount - 1 } := by
    refine ⟨?_, ?_, ?_⟩
    · change m.readCount - 1 = readers (m.threads.set i _)
      omega
    · change m.writeCount = writers (m.threads.set i _) + waiting .write (m.threads.set i _)
      omega
    · change m.writing = true ↔ 0 < writers (m.threads.set i _)
      rw [hm.writing, hwrites]
  simp only [rUnLock, notifyWrite] at h
  split at h
  · obtain ⟨ts, hts, rfl⟩ := Option.map_eq_some_iff.mp h
    have hn := notifyOne_notified hts
    have hsome : 0 < waiting .write (m.threads.set i ⟨.running, ⟨own.reads - 1, own.writes⟩⟩) := by
      simp only [setThread] at *
      omega
    exact ⟨Step.endRead ht rfl hpos (.write hsome hn), hcounted.notified hn⟩
  · rename_i hkeep
    obtain rfl := Option.some.inj h
    have hreader := hg.reader
    refine ⟨Step.endRead ht rfl hpos (.none ?_ ?_), hcounted⟩
    · simp only [setThread] at *
      omega
    · simp only [setThread] at *
      omega

theorem unLock_step (hm : Counted m) (hg : Guarded m.threads)
    (ht : m.threads[i]? = some ⟨.running, own⟩) (hpos : 0 < own.writes)
    (h : m.unLock i own k = some m') : Step m.threads m'.threads ∧ Counted m' := by
  have hmoved := moved_set ht ⟨.running, ⟨own.reads, own.writes - 1⟩⟩
  have hnone := endWrite_writers hg ht hpos hmoved
  have hreads := hmoved.reads
  have hwrites := hmoved.writes
  have hwait := hmoved.waiting .write
  simp at hreads hwrites hwait
  have hr := hm.readCount
  have hw := hm.writeCount
  have hcounted : Counted { m.setThread i ⟨.running, ⟨own.reads, own.writes - 1⟩⟩ with
      writeCount := m.writeCount - 1, writing := false } := by
    refine ⟨?_, ?_, ?_⟩
    · exact hr.trans hreads.symm
    · change m.writeCount - 1 = writers (m.threads.set i _) + waiting .write (m.threads.set i _)
      omega
    · change false = true ↔ 0 < writers (m.threads.set i _)
      simp only [Bool.false_eq_true, false_iff]
      omega
  simp only [unLock, notifyWrite] at h
  split at h
  · rename_i hzero
    obtain rfl := Option.some.inj h
    have hn : Notified .read (m.threads.set i ⟨.running, ⟨own.reads, own.writes - 1⟩⟩) _ :=
      notifyAll_notified
    refine ⟨Step.endWrite ht rfl hpos (.read ?_ hn notifyAll_blocked), hcounted.notified hn⟩
    change waiting .write (m.threads.set i ⟨.running, ⟨own.reads, own.writes - 1⟩⟩) = 0
    omega
  · obtain ⟨m₁, hm₁, rfl⟩ := Option.map_eq_some_iff.mp h
    obtain ⟨ts, hts, rfl⟩ := Option.map_eq_some_iff.mp hm₁
    have hn := notifyOne_notified hts
    refine ⟨Step.endWrite ht rfl hpos (.write ?_ hn), hcounted.notified hn⟩
    change 0 < waiting .write (m.threads.set i ⟨.running, ⟨own.reads, own.writes - 1⟩⟩)
    omega

/-- Every step is one of a lock that prefers writers. -/
theorem step_refines (hm : Counted m) (hg : Guarded m.threads) (h : m.step op = some m') :
    Step m.threads m'.threads ∧ Counted m' := by
  cases op with
  | rLock i =>
    simp only [step] at h
    split at h
    · rename_i own ht
      obtain rfl := Option.some.inj h
      exact waitRead_step hm ht (Or.inl rfl)
    · cases h
  | rUnLock i k =>
    simp only [step] at h
    split at h
    · rename_i own ht
      split at h
      · rename_i hpos
        exact rUnLock_step hm hg ht hpos h
      · cases h
    · cases h
  | lock i =>
    simp only [step] at h
    split at h
    · rename_i own ht
      obtain rfl := Option.some.inj h
      refine waitWrite_step (m := { m with writeCount := m.writeCount + 1 }) hm.readCount ?_
        hm.writing ht (Or.inl rfl)
      change m.writeCount + 1 + 0 = _
      rw [hm.writeCount]
    · cases h
  | unLock i k =>
    simp only [step] at h
    split at h
    · rename_i own ht
      split at h
      · rename_i hpos
        exact unLock_step hm hg ht hpos h
      · cases h
    · cases h
  | wake i =>
    simp only [step] at h
    split at h
    · rename_i c own ht
      obtain rfl := Option.some.inj h
      obtain ⟨hs, hn⟩ := wake_step ht
      exact ⟨hs, hm.notified hn⟩
    · cases h
  | resume i =>
    simp only [step] at h
    split at h
    · rename_i own ht
      obtain rfl := Option.some.inj h
      exact waitRead_step hm ht (Or.inr rfl)
    · rename_i own ht
      obtain rfl := Option.some.inj h
      refine waitWrite_step hm.readCount ?_ hm.writing ht (Or.inr rfl)
      change m.writeCount + 1 = _
      rw [hm.writeCount]
    · cases h

end Step

section Run
variable {n : Nat} {m : RWMutex} {ops : List RWMutexOp}

theorem kept (h : Runs step (fun _ _ => True) (new n) ops m) :
    Counted m ∧ Guarded m.threads := by
  apply h.invariant fun m => Counted m ∧ Guarded m.threads
  · exact ⟨counted_new n, guarded_new n⟩
  · intro m op m' hm _ hs
    obtain ⟨hstep, hcounted⟩ := step_refines hm.1 hm.2 hs
    exact ⟨hcounted, step_guarded hm.2 hstep⟩

/-- The thread has been woken, and the predicate it waits for holds. -/
def Proceeds (m : RWMutex) (t : Thread Cond Holds) : Prop :=
  t.wait = .woken .read ∧ m.canRead ∨ t.wait = .woken .write ∧ m.canWrite

theorem rwMutex_safe (h : Runs step (fun _ _ => True) (new n) ops m) :
    writers m.threads ≤ 1 ∧ (0 < writers m.threads → readers m.threads = 0) ∧
      (readers m.threads = 0 → writers m.threads = 0 → ∀ t ∈ m.threads, t.wait ≠ .running →
        ∃ u ∈ m.threads, m.Proceeds u) := by
  obtain ⟨hm, hg⟩ := kept h
  have hex := hg.exclusive
  refine ⟨hg.one, by omega, ?_⟩
  intro hr hw t ht hwait
  obtain ⟨u, hu, hcase⟩ := guarded_wakes hg hr hw ht hwait
  refine ⟨u, hu, ?_⟩
  cases hcase with
  | inl hwrite =>
    have hnot : m.writing = false := by
      simpa [hw] using hm.writing
    refine Or.inr ⟨hwrite, ?_⟩
    simp [canWrite, hm.readCount, hr, hnot]
  | inr hread =>
    refine Or.inl ⟨hread.1, ?_⟩
    simp [canRead, hm.writeCount, hw, hread.2]

/-- A writer releases the lock while a reader and another writer wait for it. -/
def contendedOps : List RWMutexOp :=
  [.rLock 0, .rUnLock 0 none, .lock 0, .rLock 1, .lock 2, .wake 1, .resume 1, .unLock 0 (some 2)]

theorem rwMutex_safe_contended : ∃ m, Runs step (fun _ _ => True) (new 3) contendedOps m ∧
    readers m.threads = 0 ∧ writers m.threads = 0 ∧ (∃ t ∈ m.threads, t.wait ≠ .running) ∧
      ∃ u ∈ m.threads, m.Proceeds u := by
  have hexec : ((exec step (fun _ _ => True) (new 3) contendedOps).any fun m =>
      decide (readers m.threads = 0 ∧ writers m.threads = 0 ∧
        ∃ t ∈ m.threads, t.wait ≠ .running)) = true := by decide
  obtain ⟨m, hrun, hcheck⟩ := exists_of_exec hexec
  obtain ⟨hr, hw, t, ht, hwait⟩ := of_decide_eq_true hcheck
  exact ⟨m, hrun, hr, hw, ⟨t, ht, hwait⟩, (rwMutex_safe hrun).2.2 hr hw t ht hwait⟩

end Run

end RWMutex

end CppPrivate.Public
