import CppPrivate.Workpool.TaskCount

/-! What the pool reports when nothing is in progress: how many tasks there are, how many have
failed, and how often the callback has been called. Only workers that were started with the limit
enabled report the end of a task. -/
namespace CppPrivate.Workpool
open CppPrivate.Monitor CppPrivate.Run

def Phase.executing : Phase → Nat
  | .executed _ _ => 1
  | _ => 0

def Phase.uncalled : Phase → Nat
  | .executed _ _ | .uncounted _ => 1
  | _ => 0

namespace Manager
variable {α ε : Type*} {m m' : Manager α ε} {o : Order} {op : AddOp}

theorem add_total (f : Worker α → Nat)
    (hf : ∀ w q p, f { w with queue := q, pushed := p } = f w) (h : AddStep m o op m') :
    total f m'.vecWorker = total f m.vecWorker := by
  cases h with
  | @push p i t w hp hw =>
    have hset := total_set f { w with queue := w.queue ++ [t], pushed := w.pushed ++ [t] } hw
    rw [hf w (w.queue ++ [t]) (w.pushed ++ [t])] at hset
    change total f (m.vecWorker.set i _) = total f m.vecWorker
    exact Nat.add_right_cancel hset
  | AddTask => rfl
  | lock => rfl
  | full => rfl
  | check => rfl
  | pass => rfl
  | wake => rfl
  | count => rfl
  | leave => rfl

theorem add_own (h : AddStep m o op m') : m'.own = m.own ∧ m'.completed = m.completed := by
  cases h <;> exact ⟨rfl, rfl⟩

end Manager

namespace WorkerPool
variable {n max : UInt32} {enabled callback : Bool} {hash : Option TaskHashFunc} {threads : Nat}
  {m m' : WorkerPool} {op : WorkerPoolOp} {ops : List WorkerPoolOp}

def GetTaskFailedCount (m : WorkerPool) : UInt32 := m.own.nTaskFailedCount

/-- No call of `AddTask` and no completion is in progress. -/
def Quiescent (m : WorkerPool) : Prop :=
  (∀ x ∈ m.producers, x = .idle) ∧
    ∀ w ∈ m.vecWorker, w.state.phase.uncalled = 0 ∧ ∀ failed, w.state.phase ≠ .called failed

def Kept (m : WorkerPool) : Prop :=
  m.GetTaskCount.toNat + m.executed = m.accepted ∧
    m.GetTaskFailedCount.toNat = m.own.failed ∧
      (m.own.hasCallback = true → m.own.callbacks = m.executed)

structure Reported (m : WorkerPool) : Prop where
  completed : m.completed + m.tally Phase.executing = m.executed
  callbacks : m.own.hasCallback = true → m.own.callbacks + m.tally Phase.uncalled = m.executed
  failed : (m.own.nTaskFailedCount.toNat + m.tally Phase.failing) % 2 ^ 32 =
    (m.own.failed + m.own.pending) % 2 ^ 32

structure Silent (m : WorkerPool) : Prop where
  phases : ∀ w ∈ m.vecWorker, w.state.phase.uncalled = w.state.phase.executing ∧
    ∀ failed, w.state.phase ≠ .called failed
  completed : m.completed = 0
  callbacks : m.own.callbacks = 0
  failed : m.own.nTaskFailedCount = 0

theorem tally_set {i : Nat} {w : Worker PoolWorker} (v : Worker PoolWorker)
    (h : m.vecWorker[i]? = some w) (f : Phase → Nat) :
    tally (m.setWorker i v) f + f w.state.phase = m.tally f + f v.state.phase :=
  total_set (fun w : Worker PoolWorker => f w.state.phase) v h

theorem executed_set {i : Nat} {w : Worker PoolWorker} (v : Worker PoolWorker)
    (h : m.vecWorker[i]? = some w) :
    (m.setWorker i v).executed + w.executed.length = m.executed + v.executed.length :=
  total_set (fun w : Worker PoolWorker => w.executed.length) v h

theorem tally_eq_zero {f : Phase → Nat} (h : ∀ w ∈ m.vecWorker, f w.state.phase = 0) :
    m.tally f = 0 :=
  total_eq_zero h

/-- One worker goes on and reports what it has done. -/
theorem Reported.set {i : Nat} {w : Worker PoolWorker} (v : Worker PoolWorker) (hm : Reported m)
    (hw : m.vecWorker[i]? = some w) (hvec : m'.vecWorker = m.vecWorker.set i v)
    (hcompleted : m'.completed + v.state.phase.executing + w.executed.length =
      m.completed + w.state.phase.executing + v.executed.length)
    (hcallback : m'.own.hasCallback = m.own.hasCallback)
    (hcallbacks : m.own.hasCallback = true →
      m'.own.callbacks + v.state.phase.uncalled + w.executed.length =
        m.own.callbacks + w.state.phase.uncalled + v.executed.length)
    (hpending : m'.own.pending = m.own.pending)
    (hfailed : (m'.own.nTaskFailedCount.toNat + v.state.phase.failing + m.own.failed) % 2 ^ 32 =
      (m.own.nTaskFailedCount.toNat + w.state.phase.failing + m'.own.failed) % 2 ^ 32) :
    Reported m' := by
  have htally : ∀ f, m'.tally f + f w.state.phase = m.tally f + f v.state.phase := by
    intro f
    rw [← tally_set v hw f, tally, hvec]
    rfl
  have hexecuted : m'.executed + w.executed.length = m.executed + v.executed.length := by
    rw [← executed_set v hw, Manager.executed, hvec]
    rfl
  obtain ⟨h1, h2, h3⟩ := hm
  refine ⟨?_, ?_, ?_⟩
  · have := htally Phase.executing
    omega
  · intro hc
    rw [hcallback] at hc
    have := htally Phase.uncalled
    have := hcallbacks hc
    have := h2 hc
    omega
  · have := htally Phase.failing
    omega

theorem reported_add {a : AddOp} (hm : Reported m) (h : Manager.AddStep m .pushFirst a m') :
    Reported m' := by
  obtain ⟨hown, hcompl⟩ := Manager.add_own h
  have htally : ∀ f, m'.tally f = m.tally f := fun f => Manager.add_total _ (fun _ _ _ => rfl) h
  have hexecuted : m'.executed = m.executed := Manager.add_total _ (fun _ _ _ => rfl) h
  refine ⟨?_, ?_, ?_⟩
  · rw [hcompl, htally, hexecuted]
    exact hm.completed
  · rw [hown, htally, hexecuted]
    exact hm.callbacks
  · rw [hown, htally]
    exact hm.failed

theorem toNat_succ_mod (x : UInt32) : (x + 1).toNat % 2 ^ 32 = (x.toNat + 1) % 2 ^ 32 := by
  rw [UInt32.toNat_add, UInt32.toNat_one]
  omega

theorem reported_step (hm : Reported m) (hwired : Wired true m) (h : m.step op = some m') :
    Reported m' := by
  cases stepped_of_step h with
  | add h => exact reported_add hm h
  | pop hw => exact hm.set _ hw rfl rfl rfl (fun _ => rfl) rfl rfl
  | @Execute i t queue pushed executed wired failed hw =>
    refine hm.set _ hw rfl ?_ rfl ?_ rfl ?_
    · change m.completed + 1 + executed.length = m.completed + 0 + (executed ++ [t]).length
      rw [List.length_append, List.length_singleton]
      omega
    · intro _
      change m.own.callbacks + 1 + executed.length = m.own.callbacks + 0 + (executed ++ [t]).length
      rw [List.length_append, List.length_singleton]
      omega
    · cases failed with
      | true =>
        change (m.own.nTaskFailedCount.toNat + 1 + m.own.failed) % 2 ^ 32 =
          (m.own.nTaskFailedCount.toNat + 0 + (m.own.failed + 1)) % 2 ^ 32
        omega
      | false => rfl
  | @uncount i t queue pushed executed failed hw =>
    refine hm.set _ hw rfl rfl rfl (fun _ => rfl) rfl ?_
    cases failed with
    | true => rfl
    | false => rfl
  | @callback i queue pushed executed wired failed hw =>
    refine hm.set _ hw rfl rfl rfl ?_ rfl ?_
    · intro hc
      simp [Phase.uncalled, hc]
    · cases failed with
      | true => rfl
      | false => rfl
  | @complete i queue pushed executed wired failed hw =>
    refine hm.set _ hw rfl rfl rfl (fun _ => rfl) rfl ?_
    cases failed with
    | true =>
      have hsucc := toNat_succ_mod m.own.nTaskFailedCount
      change ((m.own.nTaskFailedCount + 1).toNat + 0 + m.own.failed) % 2 ^ 32 =
        (m.own.nTaskFailedCount.toNat + 1 + m.own.failed) % 2 ^ 32
      omega
    | false => rfl
  | skip hw =>
    have htrue := hwired _ (List.mem_of_getElem? hw)
    cases htrue
  | ResetTaskFailedCount => exact ⟨hm.completed, hm.callbacks, rfl⟩
  | EnableMaxTaskCount => exact ⟨hm.completed, hm.callbacks, hm.failed⟩

/-- A worker goes on, and the pool keeps what has been reported. -/
theorem Silent.set {i : Nat} {v : Worker PoolWorker} (hm : Silent m)
    (hvec : m'.vecWorker = m.vecWorker.set i v)
    (hphase : v.state.phase.uncalled = v.state.phase.executing ∧
      ∀ failed, v.state.phase ≠ .called failed)
    (hcompleted : m'.completed = m.completed) (hcallbacks : m'.own.callbacks = m.own.callbacks)
    (hfailed : m'.own.nTaskFailedCount = m.own.nTaskFailedCount) : Silent m' := by
  refine ⟨?_, hcompleted.trans hm.completed, hcallbacks.trans hm.callbacks,
    hfailed.trans hm.failed⟩
  intro u hu
  rw [hvec] at hu
  cases List.mem_or_eq_of_mem_set hu with
  | inl hu => exact hm.phases u hu
  | inr hu => rw [hu]; exact hphase

theorem silent_step (hm : Silent m) (hwired : Wired false m) (h : m.step op = some m') :
    Silent m' := by
  cases stepped_of_step h with
  | add h =>
    cases h with
    | @push p i t w hp hw =>
      have hphase := hm.phases w (List.mem_of_getElem? hw)
      exact hm.set (v := ⟨w.queue ++ [t], w.pushed ++ [t], w.executed, w.state⟩) rfl hphase rfl rfl rfl
    | AddTask => exact ⟨hm.phases, hm.completed, hm.callbacks, hm.failed⟩
    | lock => exact ⟨hm.phases, hm.completed, hm.callbacks, hm.failed⟩
    | full => exact ⟨hm.phases, hm.completed, hm.callbacks, hm.failed⟩
    | check => exact ⟨hm.phases, hm.completed, hm.callbacks, hm.failed⟩
    | pass => exact ⟨hm.phases, hm.completed, hm.callbacks, hm.failed⟩
    | wake => exact ⟨hm.phases, hm.completed, hm.callbacks, hm.failed⟩
    | count => exact ⟨hm.phases, hm.completed, hm.callbacks, hm.failed⟩
    | leave => exact ⟨hm.phases, hm.completed, hm.callbacks, hm.failed⟩
  | pop => exact hm.set rfl ⟨rfl, by simp⟩ rfl rfl rfl
  | Execute => exact hm.set rfl ⟨rfl, by simp⟩ rfl rfl rfl
  | uncount hw => cases hwired _ (List.mem_of_getElem? hw)
  | callback hw => cases (hm.phases _ (List.mem_of_getElem? hw)).1
  | complete hw => exact absurd rfl ((hm.phases _ (List.mem_of_getElem? hw)).2 _)
  | skip => exact hm.set rfl ⟨rfl, by simp⟩ rfl rfl rfl
  | ResetTaskFailedCount => exact ⟨hm.phases, hm.completed, hm.callbacks, rfl⟩
  | EnableMaxTaskCount => exact ⟨hm.phases, hm.completed, hm.callbacks, hm.failed⟩

theorem started_own : (started n max enabled callback hash threads).own =
    ⟨0, callback, 0, 0, 0⟩ := by
  cases enabled <;> rfl

theorem started_tally {f : Phase → Nat} (hf : f .idle = 0) :
    tally (started n max enabled callback hash threads) f = 0 := by
  apply tally_eq_zero
  intro w hw
  rw [started_workers hw]
  exact hf

theorem reported {C : WorkerPool → WorkerPoolOp → Prop}
    (h : Runs step C (started n max true callback hash threads) ops m) : Reported m := by
  apply h.invariant_with (Wired true) Reported
  · refine ⟨?_, ?_, ?_⟩
    · rw [started_tally rfl, fresh_started.completed, fresh_started.executed]
    · intro _
      rw [started_tally rfl, started_own, fresh_started.executed]
    · rw [started_tally rfl, started_own]
      rfl
  · exact wired
  · intro m op m' hwired hm _ hs
    exact reported_step hm hwired hs

/-- At a reset there is one uncounted failure for each worker at most. -/
def Pending (n : UInt32) (m : WorkerPool) : Prop :=
  m.vecWorker.length = n.toNat ∧ m.own.pending ≤ n.toNat

theorem tally_failing_le : m.tally Phase.failing ≤ m.vecWorker.length := by
  have hone : ∀ c : Phase, c.failing ≤ 1 := by
    intro c
    unfold Phase.failing
    split <;> decide
  calc m.tally Phase.failing
      ≤ total (fun _ => 1) m.vecWorker := total_mono (fun w : Worker PoolWorker => hone w.state.phase) _
    _ = m.vecWorker.length := total_one _

theorem pending_step (hm : Pending n m) (h : m.step op = some m') : Pending n m' := by
  obtain ⟨hlen, hpending⟩ := hm
  cases stepped_of_step h with
  | add h =>
    have hsame := Manager.add_total (fun _ => 1) (fun _ _ _ => rfl) h
    rw [total_one, total_one] at hsame
    exact ⟨hsame.trans hlen, (Manager.add_own h).1 ▸ hpending⟩
  | pop => exact ⟨List.length_set.trans hlen, hpending⟩
  | Execute => exact ⟨List.length_set.trans hlen, hpending⟩
  | uncount => exact ⟨List.length_set.trans hlen, hpending⟩
  | callback => exact ⟨List.length_set.trans hlen, hpending⟩
  | complete => exact ⟨List.length_set.trans hlen, hpending⟩
  | skip => exact ⟨List.length_set.trans hlen, hpending⟩
  | ResetTaskFailedCount => exact ⟨hlen, Nat.le_trans tally_failing_le (Nat.le_of_eq hlen)⟩
  | EnableMaxTaskCount => exact ⟨hlen, hpending⟩

theorem pending {C : WorkerPool → WorkerPoolOp → Prop}
    (h : Runs step C (started n max enabled callback hash threads) ops m) : Pending n m := by
  apply h.invariant (Pending n)
  · refine ⟨?_, ?_⟩
    · cases enabled <;> exact List.length_replicate
    · rw [started_own]
      exact Nat.zero_le _
  · intro m op m' hm _ hs
    exact pending_step hm hs

theorem silent {C : WorkerPool → WorkerPoolOp → Prop}
    (h : Runs step C (started n max false callback hash threads) ops m) : Silent m := by
  apply h.invariant_with (Wired false) Silent
  · refine ⟨?_, rfl, rfl, rfl⟩
    intro w hw
    rw [started_workers hw]
    exact ⟨rfl, by simp⟩
  · exact wired
  · intro m op m' hwired hm _ hs
    exact silent_step hm hwired hs

section Quiescent

theorem Quiescent.places (hq : Quiescent m) (f : Place → Nat) (hf : f .idle = 0) :
    m.places f = 0 := by
  apply total_eq_zero
  intro x hx
  rw [hq.1 x hx]
  exact hf

theorem Quiescent.tally (hq : Quiescent m) {f : Phase → Nat}
    (hf : ∀ c : Phase, c.uncalled = 0 → (∀ failed, c ≠ .called failed) → f c = 0) :
    m.tally f = 0 := by
  apply tally_eq_zero
  intro w hw
  obtain ⟨huncalled, hcalled⟩ := hq.2 w hw
  exact hf _ huncalled hcalled

theorem executing_of_quiet (c : Phase) (h : c.uncalled = 0) : c.executing = 0 := by
  cases c with
  | executed => cases h
  | _ => rfl

theorem failing_of_quiet (c : Phase) (h : c.uncalled = 0) (hcalled : ∀ failed, c ≠ .called failed) :
    c.failing = 0 := by
  cases c with
  | idle => rfl
  | popped => rfl
  | executed => cases h
  | uncounted => cases h
  | called failed => exact absurd rfl (hcalled failed)

theorem executed_le (hs : Manager.Served m) : m.executed ≤ m.accepted := by
  have hsum := Manager.accepted_running hs
  have hle := Manager.running_le_load (m := m)
  omega

/-- In a quiescent state the counter differs from the tasks accepted by the tasks completed. -/
theorem count_quiescent (hs : Manager.Sound .pushFirst m) (hq : Quiescent m) :
    (m.GetTaskCount.toNat + m.completed) % 2 ^ 32 = m.accepted % 2 ^ 32 := by
  have htally := hs.tallied
  rw [Manager.Tallied, hq.places _ rfl, hq.places _ rfl] at htally
  exact htally

theorem kept_reported (hs : Manager.Sound .pushFirst m) (hr : Reported m) (hp : Pending n m)
    (hq : Quiescent m) : Kept m ↔
      m.accepted < m.executed + 2 ^ 32 ∧ m.own.failed < 2 ^ 32 ∧ m.own.pending = 0 := by
  have hcount := count_quiescent hs hq
  have hle := executed_le hs.served
  have hcompleted := hr.completed
  have hfailed := hr.failed
  rw [hq.tally fun c h _ => executing_of_quiet c h] at hcompleted
  rw [hq.tally failing_of_quiet] at hfailed
  have hlt := m.nTaskCount.toNat_lt
  have hlt' := m.own.nTaskFailedCount.toNat_lt
  have hpending := Nat.lt_of_le_of_lt hp.2 n.toNat_lt
  have hcallbacks : m.own.hasCallback = true → m.own.callbacks = m.executed := by
    intro hc
    have heq := hr.callbacks hc
    rw [hq.tally fun c h _ => h] at heq
    exact heq
  rw [Kept, GetTaskFailedCount]
  unfold Manager.GetTaskCount at *
  constructor
  · intro hcase
    obtain ⟨h1, h2, -⟩ := hcase
    omega
  · intro hcase
    obtain ⟨h1, h2, h3⟩ := hcase
    exact ⟨by omega, by omega, hcallbacks⟩

theorem kept_silent (hs : Manager.Sound .pushFirst m) (hsilent : Silent m) (hq : Quiescent m) :
    Kept m ↔ m.accepted < m.executed + 2 ^ 32 ∧ 2 ^ 32 ∣ m.executed ∧ m.own.failed = 0 ∧
      (m.own.hasCallback = true → m.executed = 0) := by
  have hcount := count_quiescent hs hq
  have hle := executed_le hs.served
  have hlt := m.nTaskCount.toNat_lt
  rw [hsilent.completed] at hcount
  rw [Kept, GetTaskFailedCount]
  unfold Manager.GetTaskCount at *
  rw [hsilent.failed, hsilent.callbacks, UInt32.toNat_zero]
  constructor
  · intro hcase
    obtain ⟨h1, h2, h3⟩ := hcase
    exact ⟨by omega, by omega, h2.symm, fun hc => (h3 hc).symm⟩
  · intro hcase
    obtain ⟨h1, h2, h3, h4⟩ := hcase
    exact ⟨by omega, h3.symm, fun hc => (h4 hc).symm⟩

end Quiescent

/-- In a quiescent state the reports are right if the limit was enabled when the pool was started,
no failure was still to be counted when they were last reset and the numbers fit into 32 bits; if the
limit was not enabled, only as long as there is nothing to report. -/
theorem pool_bookkeeping
    (h : Runs step (fun _ _ => True) (started n max enabled callback hash threads) ops m)
    (hq : Quiescent m) :
    Kept m ↔ m.accepted < m.executed + 2 ^ 32 ∧ m.own.failed < 2 ^ 32 ∧
      (enabled = true ∧ m.own.pending = 0 ∨
        enabled = false ∧ 2 ^ 32 ∣ m.executed ∧ m.own.failed = 0 ∧
          (m.own.hasCallback = true → m.executed = 0)) := by
  cases enabled with
  | true =>
    rw [kept_reported (sound h) (reported h) (pending h) hq]
    simp
  | false =>
    rw [kept_silent (sound h) (silent h) hq]
    constructor
    · intro hcase
      obtain ⟨h1, h2, h3, h4⟩ := hcase
      exact ⟨h1, by omega, Or.inr ⟨rfl, h2, h3, h4⟩⟩
    · intro hcase
      obtain ⟨h1, -, ⟨h2, -⟩ | ⟨-, h2⟩⟩ := hcase
      · cases h2
      · exact ⟨h1, h2⟩

/-- One task is added, executed with a failure and reported. -/
def reportedOps : List WorkerPoolOp :=
  [.add (.AddTask 0 none), .add (.lock 0), .add (.check 0), .add (.push 0), .add (.count 0),
   .add (.leave 0), .pop 0, .Execute 0 true, .uncount 0, .callback 0, .complete 0]

def silentOps : List WorkerPoolOp :=
  [.add (.AddTask 0 none), .add (.lock 0), .add (.check 0), .add (.push 0), .add (.count 0),
   .add (.leave 0), .pop 0, .Execute 0 true, .skip 0]

instance (m : WorkerPool) : Decidable (Quiescent m) :=
  decidable_of_iff ((∀ x ∈ m.producers, x = .idle) ∧ ∀ w ∈ m.vecWorker,
    w.state.phase.uncalled = 0 ∧ w.state.phase ≠ .called true ∧ w.state.phase ≠ .called false) (by
      simp only [Quiescent, Bool.forall_bool, and_comm])

theorem pool_bookkeeping_reported : ∃ m,
    Runs step (fun _ _ => True) (started 1 1 true true none 1) reportedOps m ∧ Quiescent m ∧ m.executed = 1 ∧
      Kept m := by
  have hexec : ((exec step (fun _ _ => True) (started 1 1 true true none 1) reportedOps).any fun m =>
      decide (Quiescent m ∧ m.accepted = 1 ∧ m.executed = 1 ∧ m.own.failed = 1 ∧
        m.own.pending = 0)) = true := by decide
  obtain ⟨m, hm, hcheck⟩ := exists_of_exec hexec
  obtain ⟨hq, haccepted, hexecuted, hfailed, hpending⟩ := of_decide_eq_true hcheck
  refine ⟨m, hm, hq, hexecuted, (pool_bookkeeping hm hq).mpr ⟨?_, ?_, Or.inl ⟨rfl, hpending⟩⟩⟩
  · omega
  · omega

/-- The limit was not enabled when the pool was started: after the only task has been executed the
pool counts it still, no failure, and no call of the callback. -/
theorem pool_reports_nothing : ∃ m,
    Runs step (fun _ _ => True) (started 1 1 false true none 1) silentOps m ∧ Quiescent m ∧
      (m.accepted = 1 ∧ m.executed = 1 ∧ m.own.failed = 1 ∧ m.own.hasCallback = true) ∧
        (m.GetTaskCount = 1 ∧ m.GetTaskFailedCount = 0 ∧ m.own.callbacks = 0) ∧ ¬ Kept m := by
  have hexec : ((exec step (fun _ _ => True) (started 1 1 false true none 1) silentOps).any fun m =>
      decide (Quiescent m ∧
        (m.accepted = 1 ∧ m.executed = 1 ∧ m.own.failed = 1 ∧ m.own.hasCallback = true) ∧
          (m.GetTaskCount = 1 ∧ m.GetTaskFailedCount = 0 ∧ m.own.callbacks = 0))) = true := by
    decide
  obtain ⟨m, hm, hcheck⟩ := exists_of_exec hexec
  obtain ⟨hq, hdone, hreports⟩ := of_decide_eq_true hcheck
  refine ⟨m, hm, hq, hdone, hreports, ?_⟩
  intro hcase
  obtain ⟨-, hfailed, -⟩ := hcase
  rw [hreports.2.1, hdone.2.2.1] at hfailed
  cases hfailed

end WorkerPool

end CppPrivate.Workpool
