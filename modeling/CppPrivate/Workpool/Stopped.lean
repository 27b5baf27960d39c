import CppPrivate.Workpool.Routing

/-! `WorkerPool::Stop` while producers add tasks and workers execute them. A worker looks at its
flag before it waits for a task, and not again when the task has come. -/
namespace CppPrivate.Workpool
open CppPrivate.Monitor CppPrivate.Run

inductive RunPlace where
  | test
  | Handle
  | left
deriving DecidableEq

structure RunThread where
  isEnable : Bool
  place : RunPlace
deriving DecidableEq

/-- How far the call of `Stop` has come. When it has returned, the tasks are late whose `AddTask`
is called from then on: those with a number from `called` on. -/
inductive StopCall where
  | running
  | stopping (i : Nat)
  | returned (called : Nat)
deriving DecidableEq

structure StoppablePool where
  pool : WorkerPool
  threads : List RunThread
  stop : StopCall

inductive StopOp where
  | pool (op : WorkerPoolOp)
  | test (i : Nat)
  | Stop
  | next
deriving DecidableEq

namespace StoppablePool

def setThread (m : StoppablePool) (i : Nat) (th : RunThread) : StoppablePool :=
  { m with threads := m.threads.set i th }

/-- The steps of `pop` need a thread in `Handle`, and the last ones of `Handle` go back to the test
of the flag. -/
def stepPool (m : StoppablePool) (op : WorkerPoolOp) : Option StoppablePool :=
  match op with
  | .pop i =>
    m.threads[i]?.bind fun th =>
      if th.place = .Handle then (m.pool.step op).map fun pool => { m with pool } else none
  | .complete i | .skip i =>
    m.threads[i]?.bind fun th =>
      (m.pool.step op).map fun pool => { m.setThread i { th with place := .test } with pool }
  | _ => (m.pool.step op).map fun pool => { m with pool }

def step (m : StoppablePool) : StopOp → Option StoppablePool
  | .pool op => m.stepPool op
  | .test i =>
    m.threads[i]?.bind fun th =>
      if th.place = .test then
        some (m.setThread i { th with place := if th.isEnable then .Handle else .left })
      else none
  | .Stop => if m.stop = .running then some { m with stop := .stopping 0 } else none
  | .next =>
    match m.stop with
    | .stopping i =>
      if i < m.pool.nWorkerCount.toNat then
        m.threads[i]?.map fun th =>
          { m.setThread i { th with isEnable := false } with stop := .stopping (i + 1) }
      else some { m with stop := .returned m.pool.called }
    | _ => none

def started (nWorkerCnt max : UInt32) (enabled callback : Bool) (hash : Option TaskHashFunc)
    (threads : Nat) : StoppablePool where
  pool := .started nWorkerCnt max enabled callback hash threads
  threads := List.replicate nWorkerCnt.toNat ⟨true, .test⟩
  stop := .running

/-- `AddTask` has been called for the task after `Stop` had returned. -/
def late (m : StoppablePool) (t : Task) : Bool :=
  match m.stop with
  | .returned called => called ≤ t.id
  | _ => false

def waits (m : StoppablePool) (i : Nat) : Bool :=
  match m.pool.vecWorker[i]?, m.threads[i]? with
  | some w, some th => th.place = .Handle ∧ w.state.phase = .idle ∧ w.queue = []
  | _, _ => false

/-- A late task is pushed to a worker that waits. -/
def wakesLate (m : StoppablePool) : StopOp → Bool
  | .pool (.add (.push p)) =>
    match m.pool.producers[p]? with
    | some (.checked t i) => m.late t && m.waits i
    | _ => false
  | _ => false

def Clear (m : StoppablePool) (op : StopOp) : Prop := m.wakesLate op = false

instance (m : StoppablePool) : DecidablePred m.Clear := fun _ => inferInstanceAs (Decidable (_ = _))

inductive Stepped (m : StoppablePool) : StopOp → StoppablePool → Prop
  | pool {op : WorkerPoolOp} {pool : WorkerPool} : m.pool.step op = some pool →
      (∀ j, op ≠ .complete j ∧ op ≠ .skip j) →
      (∀ j, op = .pop j → ∃ th, m.threads[j]? = some th ∧ th.place = .Handle) →
      Stepped m (.pool op) { m with pool }
  | back {op : WorkerPoolOp} {pool : WorkerPool} {j : Nat} {th : RunThread} :
      m.pool.step op = some pool → op = .complete j ∨ op = .skip j → m.threads[j]? = some th →
      Stepped m (.pool op) { m.setThread j { th with place := .test } with pool }
  | test {j : Nat} {th : RunThread} : m.threads[j]? = some th → th.place = .test →
      Stepped m (.test j)
        (m.setThread j { th with place := if th.isEnable then .Handle else .left })
  | Stop : m.stop = .running → Stepped m .Stop { m with stop := .stopping 0 }
  | next {j : Nat} {th : RunThread} : m.stop = .stopping j → m.threads[j]? = some th →
      Stepped m .next
        { m.setThread j { th with isEnable := false } with stop := .stopping (j + 1) }
  | returns {j : Nat} : m.stop = .stopping j → m.pool.nWorkerCount.toNat ≤ j →
      Stepped m .next { m with stop := .returned m.pool.called }

inductive Turn (m : StoppablePool) (i : Nat) : StopOp → Worker PoolWorker → RunThread →
    Worker PoolWorker → RunThread → Prop
  | stay {op : StopOp} {w : Worker PoolWorker} {th : RunThread} : Turn m i op w th w th
  | push {p : Nat} {t : Task} {w : Worker PoolWorker} {th : RunThread} :
      m.pool.producers[p]? = some (.checked t i) →
      Turn m i (.pool (.add (.push p))) w th
        { w with queue := w.queue ++ [t], pushed := w.pushed ++ [t] } th
  | pop {t : Task} {queue pushed executed : List Task} {wired : Bool} {th : RunThread} :
      th.place = .Handle →
      Turn m i (.pool (.pop i)) ⟨t :: queue, pushed, executed, ⟨.idle, wired⟩⟩ th
        ⟨queue, pushed, executed, ⟨.popped t, wired⟩⟩ th
  | Execute {t : Task} {queue pushed executed : List Task} {wired failed : Bool} {th : RunThread} :
      Turn m i (.pool (.Execute i failed)) ⟨queue, pushed, executed, ⟨.popped t, wired⟩⟩ th
        ⟨queue, pushed, executed ++ [t], ⟨.executed t failed, wired⟩⟩ th
  | report {op : StopOp} {w : Worker PoolWorker} {phase : Phase} {th : RunThread} :
      phase ≠ .idle → (∀ t, phase ≠ .popped t) →
      Turn m i op w th { w with state := { w.state with phase } } th
  | back {op : StopOp} {w : Worker PoolWorker} {th : RunThread} :
      Turn m i op w th { w with state := { w.state with phase := .idle } }
        { th with place := .test }
  | test {w : Worker PoolWorker} {th : RunThread} : th.place = .test →
      Turn m i (.test i) w th w { th with place := if th.isEnable then .Handle else .left }
  | disable {w : Worker PoolWorker} {th : RunThread} :
      Turn m i .next w th w { th with isEnable := false }

section Step
variable {m m' : StoppablePool} {op : StopOp} {i j : Nat} {w w' : Worker PoolWorker}
  {th th' : RunThread}

/-- A step on the worker `j` leaves the other ones alone. -/
theorem turn_worker {v : Worker PoolWorker} {workers : List (Worker PoolWorker)}
    (hv : workers[j]? = some w) (hw' : (workers.set j v)[i]? = some w')
    (hturn : j = i → Turn m i op w th v th) : ∃ u, workers[i]? = some u ∧ Turn m i op u th w' th := by
  obtain ⟨rfl, rfl⟩ | ⟨-, hw'⟩ := getElem?_set_cases hw'
  · exact ⟨w, hv, hturn rfl⟩
  · exact ⟨w', hw', .stay⟩

theorem turn_thread {g : RunThread} {threads : List RunThread} (hg : threads[j]? = some th)
    (hth' : (threads.set j g)[i]? = some th') (hturn : j = i → Turn m i op w th w g) :
    ∃ f, threads[i]? = some f ∧ Turn m i op w f w th' := by
  obtain ⟨rfl, rfl⟩ | ⟨-, hth'⟩ := getElem?_set_cases hth'
  · exact ⟨th, hg, hturn rfl⟩
  · exact ⟨th', hth', .stay⟩

/-- The end of `Handle` for the worker `j`, seen from the worker `i`. -/
theorem turn_back {workers : List (Worker PoolWorker)} {threads : List RunThread}
    (hv : workers[j]? = some w) (hg : threads[j]? = some th)
    (hw' : (workers.set j { w with state := { w.state with phase := .idle } })[i]? = some w')
    (hth' : (threads.set j { th with place := .test })[i]? = some th') :
    ∃ u f, workers[i]? = some u ∧ threads[i]? = some f ∧ Turn m i op u f w' th' := by
  by_cases hij : j = i
  · subst hij
    rw [List.getElem?_set_self (List.getElem?_eq_some_iff.mp hv).1] at hw'
    rw [List.getElem?_set_self (List.getElem?_eq_some_iff.mp hg).1] at hth'
    cases hw'
    cases hth'
    exact ⟨w, th, hv, hg, .back⟩
  · rw [List.getElem?_set_ne hij] at hw' hth'
    exact ⟨w', th', hw', hth', .stay⟩

theorem stepped_of_step (h : m.step op = some m') : m.Stepped op m' := by
  cases op with
  | pool op =>
    rw [step] at h
    cases op with
    | pop j =>
      obtain ⟨th, hth, h⟩ := Option.bind_eq_some_iff.mp h
      split at h
      · rename_i hplace
        obtain ⟨pool, hpool, rfl⟩ := Option.map_eq_some_iff.mp h
        refine .pool hpool (by simp) ?_
        intro k hk
        cases hk
        exact ⟨th, hth, hplace⟩
      · cases h
    | complete j =>
      obtain ⟨th, hth, h⟩ := Option.bind_eq_some_iff.mp h
      obtain ⟨pool, hpool, rfl⟩ := Option.map_eq_some_iff.mp h
      exact .back hpool (Or.inl rfl) hth
    | skip j =>
      obtain ⟨th, hth, h⟩ := Option.bind_eq_some_iff.mp h
      obtain ⟨pool, hpool, rfl⟩ := Option.map_eq_some_iff.mp h
      exact .back hpool (Or.inr rfl) hth
    | _ =>
      simp only [stepPool] at h
      obtain ⟨pool, hpool, rfl⟩ := Option.map_eq_some_iff.mp h
      exact .pool hpool (by simp) (by simp)
  | test j =>
    obtain ⟨th, hth, h⟩ := Option.bind_eq_some_iff.mp h
    split at h
    · rename_i hplace
      cases h
      exact .test hth hplace
    · cases h
  | Stop =>
    simp only [step, Option.ite_none_right_eq_some] at h
    obtain ⟨hstop, h⟩ := h
    cases h
    exact .Stop hstop
  | next =>
    simp only [step] at h
    split at h
    · rename_i j hstop
      split at h
      · obtain ⟨th, hth, rfl⟩ := Option.map_eq_some_iff.mp h
        exact .next hstop hth
      · rename_i hle
        cases h
        exact .returns hstop (Nat.le_of_not_lt hle)
    · cases h

/-- What a step of the pool is for the worker `i`, apart from the last ones of `Handle`. -/
theorem turn_of_pool {op : WorkerPoolOp} {pool : WorkerPool} (h : m.pool.Stepped op pool)
    (hnot : ∀ j, op ≠ .complete j ∧ op ≠ .skip j)
    (hplace : ∀ j, op = .pop j → ∃ th, m.threads[j]? = some th ∧ th.place = .Handle)
    (hw' : pool.vecWorker[i]? = some w') (hth : m.threads[i]? = some th) :
    ∃ w, m.pool.vecWorker[i]? = some w ∧ Turn m i (.pool op) w th w' th := by
  cases h with
  | add ha =>
    cases ha with
    | push hp hw =>
      apply turn_worker hw hw'
      intro heq
      subst heq
      exact .push hp
    | AddTask => exact ⟨w', hw', .stay⟩
    | lock => exact ⟨w', hw', .stay⟩
    | full => exact ⟨w', hw', .stay⟩
    | check => exact ⟨w', hw', .stay⟩
    | pass => exact ⟨w', hw', .stay⟩
    | wake => exact ⟨w', hw', .stay⟩
    | count => exact ⟨w', hw', .stay⟩
    | leave => exact ⟨w', hw', .stay⟩
  | pop hw =>
    apply turn_worker hw hw'
    intro heq
    subst heq
    obtain ⟨g, hg, hhandle⟩ := hplace _ rfl
    cases hg.symm.trans hth
    exact .pop hhandle
  | Execute hw =>
    apply turn_worker hw hw'
    intro heq
    subst heq
    exact .Execute
  | uncount hw => exact turn_worker hw hw' fun _ => .report (by simp) (by simp)
  | callback hw => exact turn_worker hw hw' fun _ => .report (by simp) (by simp)
  | complete => exact absurd rfl (hnot _).1
  | skip => exact absurd rfl (hnot _).2
  | ResetTaskFailedCount => exact ⟨w', hw', .stay⟩
  | EnableMaxTaskCount => exact ⟨w', hw', .stay⟩

/-- Every step is one of the turns for a worker. -/
theorem turn_of_step (h : m.step op = some m') (hw' : m'.pool.vecWorker[i]? = some w')
    (hth' : m'.threads[i]? = some th') :
    ∃ w th, m.pool.vecWorker[i]? = some w ∧ m.threads[i]? = some th ∧ Turn m i op w th w' th' := by
  cases stepped_of_step h with
  | pool hpool hnot hplace =>
    obtain ⟨w, hw, hturn⟩ :=
      turn_of_pool (WorkerPool.stepped_of_step hpool) hnot hplace hw' hth'
    exact ⟨w, th', hw, hth', hturn⟩
  | back hpool hop hth =>
    cases hop with
    | inl hop =>
      subst hop
      cases WorkerPool.stepped_of_step hpool with
      | complete hw => exact turn_back hw hth hw' hth'
    | inr hop =>
      subst hop
      cases WorkerPool.stepped_of_step hpool with
      | skip hw => exact turn_back hw hth hw' hth'
  | @test j th hth hplace =>
    have hset : ∃ f, m.threads[i]? = some f ∧ Turn m i (.test j) w' f w' th' := by
      apply turn_thread hth hth'
      intro heq
      subst heq
      exact .test hplace
    obtain ⟨f, hf, hturn⟩ := hset
    exact ⟨w', f, hw', hf, hturn⟩
  | Stop => exact ⟨w', th', hw', hth', .stay⟩
  | next hstop hth =>
    have hset : ∃ f, m.threads[i]? = some f ∧ Turn m i .next w' f w' th' :=
      turn_thread hth hth' fun _ => .disable
    obtain ⟨f, hf, hturn⟩ := hset
    exact ⟨w', f, hw', hf, hturn⟩
  | returns => exact ⟨w', th', hw', hth', .stay⟩

/-- A step is one of the pool below, or leaves the pool alone. -/
theorem pool_of_step (h : m.step op = some m') :
    m'.pool = m.pool ∨ ∃ a, m.pool.step a = some m'.pool := by
  cases stepped_of_step h with
  | pool hpool => exact Or.inr ⟨_, hpool⟩
  | back hpool => exact Or.inr ⟨_, hpool⟩
  | test => exact Or.inl rfl
  | Stop => exact Or.inl rfl
  | next => exact Or.inl rfl
  | returns => exact Or.inl rfl

/-- What a step does to the call of `Stop`. -/
theorem stop_of_step (h : m.step op = some m') : m'.stop = m.stop ∨
    (m.stop = .running ∧ m'.stop = .stopping 0) ∨
    ∃ j, m.stop = .stopping j ∧
      (m'.stop = .stopping (j + 1) ∧ (∀ th, m'.threads[j]? = some th → th.isEnable = false) ∨
        m.pool.nWorkerCount.toNat ≤ j ∧ m' = { m with stop := .returned m.pool.called }) := by
  cases stepped_of_step h with
  | pool => exact Or.inl rfl
  | back => exact Or.inl rfl
  | test => exact Or.inl rfl
  | Stop hstop => exact Or.inr (Or.inl ⟨hstop, rfl⟩)
  | @next j th hstop hth =>
    refine Or.inr (Or.inr ⟨j, hstop, Or.inl ⟨rfl, ?_⟩⟩)
    intro g hg
    have hset : (m.threads.set j { th with isEnable := false })[j]? = some g := hg
    rw [List.getElem?_set_self (List.getElem?_eq_some_iff.mp hth).1] at hset
    cases hset
    rfl
  | returns hstop hle => exact Or.inr (Or.inr ⟨_, hstop, Or.inr ⟨hle, rfl⟩⟩)

end Step

/-- What holds of the pool and its threads whatever `Stop` does. -/
structure Tracked (m : StoppablePool) : Prop where
  sound : Manager.Sound .pushFirst m.pool
  delivers : Manager.Delivers .pushFirst m.pool
  workers : m.pool.vecWorker.length = m.pool.nWorkerCount.toNat
  threads : m.threads.length = m.pool.nWorkerCount.toNat

/-- The worker has been told to stop, and whatever it executes yet is from before `called`. -/
structure Early (called : Nat) (w : Worker PoolWorker) (th : RunThread) : Prop where
  disabled : th.isEnable = false
  executed : ∀ t ∈ w.executed, t.id < called
  taken : ∀ t, w.state.phase = .popped t → t.id < called
  next : th.place = .Handle → w.state.phase = .idle → ∀ t, w.queue.head? = some t → t.id < called

/-- The workers that `Stop` has come to are disabled, and when it has returned they execute
nothing that is late. -/
def Halted (m : StoppablePool) : Prop :=
  match m.stop with
  | .running => True
  | .stopping j => ∀ (i : Nat) th, i < j → m.threads[i]? = some th → th.isEnable = false
  | .returned called => ∀ (i : Nat) w th, m.pool.vecWorker[i]? = some w → m.threads[i]? = some th →
      Early called w th

section Invariant
variable {m m' : StoppablePool} {op : StopOp} {i called : Nat} {w w' : Worker PoolWorker}
  {th th' : RunThread}

theorem Turn.disabled (h : m.Turn i op w th w' th') (hth : th.isEnable = false) :
    th'.isEnable = false := by
  cases h <;> first | exact hth | rfl

/-- A disabled worker takes one more task from its queue at most, and this is not late. -/
theorem Turn.early (h : m.Turn i op w th w' th') (hstop : m.stop = .returned called)
    (hclear : m.Clear op) (hw : m.pool.vecWorker[i]? = some w) (hth : m.threads[i]? = some th)
    (he : Early called w th) : Early called w' th' := by
  cases h with
  | stay => exact he
  | @push p t _ _ hp =>
    refine ⟨he.disabled, he.executed, he.taken, ?_⟩
    intro hplace hphase u hu
    cases hqueue : w.queue with
    | nil =>
      simp only [hqueue, List.nil_append, List.head?_cons, Option.some.injEq] at hu
      subst hu
      by_contra hle
      have hphase : w.state.phase = .idle := hphase
      have hlate : m.late t = true := by simpa [late, hstop] using hle
      have hwaits : m.waits i = true := by simp [waits, hw, hth, hplace, hphase, hqueue]
      simp [Clear, wakesLate, hp, hlate, hwaits] at hclear
    | cons first queue =>
      apply he.next hplace hphase
      simpa [hqueue] using hu
  | pop hplace =>
    refine ⟨he.disabled, he.executed, ?_, by simp⟩
    intro u hu
    cases hu
    exact he.next hplace rfl _ rfl
  | @Execute t =>
    refine ⟨he.disabled, ?_, by simp, by simp⟩
    intro u hu
    cases List.mem_append.mp hu with
    | inl hu => exact he.executed u hu
    | inr hu =>
      rw [List.mem_singleton.mp hu]
      exact he.taken t rfl
  | report hidle hpopped =>
    exact ⟨he.disabled, he.executed, fun t ht => absurd ht (hpopped t),
      fun _ hphase => absurd hphase hidle⟩
  | back => exact ⟨he.disabled, he.executed, by simp, by simp⟩
  | test =>
    refine ⟨he.disabled, he.executed, he.taken, ?_⟩
    simp [he.disabled]
  | disable => exact ⟨rfl, he.executed, he.taken, he.next⟩

theorem count_of_step {pool pool' : WorkerPool} {a : WorkerPoolOp} (h : pool.step a = some pool') :
    pool'.nWorkerCount = pool.nWorkerCount ∧
      pool'.vecWorker.length = pool.vecWorker.length := by
  cases WorkerPool.calls_of_step h with
  | inl h =>
    obtain ⟨a, h⟩ := h
    cases h with
    | push => exact ⟨rfl, List.length_set⟩
    | AddTask => exact ⟨rfl, rfl⟩
    | lock => exact ⟨rfl, rfl⟩
    | full => exact ⟨rfl, rfl⟩
    | check => exact ⟨rfl, rfl⟩
    | pass => exact ⟨rfl, rfl⟩
    | wake => exact ⟨rfl, rfl⟩
    | count => exact ⟨rfl, rfl⟩
    | leave => exact ⟨rfl, rfl⟩
  | inr h =>
    obtain ⟨hpushes, -, -, -, -, hcount⟩ := h
    have hlen := congrArg List.length hpushes
    rw [Manager.pushes, Manager.pushes, List.length_map, List.length_map] at hlen
    exact ⟨hcount, hlen⟩

theorem threads_length (h : m.step op = some m') : m'.threads.length = m.threads.length := by
  cases stepped_of_step h with
  | pool => rfl
  | back => exact List.length_set
  | test => exact List.length_set
  | Stop => rfl
  | next => exact List.length_set
  | returns => rfl

theorem tracked_step (hm : Tracked m) (h : m.step op = some m') : Tracked m' := by
  have hlen := threads_length h
  cases pool_of_step h with
  | inl hpool =>
    exact ⟨hpool ▸ hm.sound, hpool ▸ hm.delivers, hpool ▸ hm.workers,
      by rw [hlen, hpool]; exact hm.threads⟩
  | inr hpool =>
    obtain ⟨a, hpool⟩ := hpool
    obtain ⟨hcount, hworkers⟩ := count_of_step hpool
    refine ⟨WorkerPool.sound_step hm.sound hpool, ?_, ?_, ?_⟩
    · cases WorkerPool.calls_of_step hpool with
      | inl ha =>
        obtain ⟨b, ha⟩ := ha
        exact Manager.delivers_add hm.delivers ha
      | inr hsame => exact Manager.delivers_same hm.delivers hsame
    · rw [hworkers, hcount]
      exact hm.workers
    · rw [hlen, hcount]
      exact hm.threads

/-- Every thread has its worker, before and after a step. -/
theorem turn_of_thread (hm : Tracked m') (h : m.step op = some m')
    (hth' : m'.threads[i]? = some th') : ∃ w th w', m.pool.vecWorker[i]? = some w ∧
      m.threads[i]? = some th ∧ Turn m i op w th w' th' := by
  have hi := (List.getElem?_eq_some_iff.mp hth').1
  rw [hm.threads, ← hm.workers] at hi
  obtain ⟨w, th, hw, hth, hturn⟩ := turn_of_step h (List.getElem?_eq_getElem hi) hth'
  exact ⟨w, th, _, hw, hth, hturn⟩

/-- Nothing that a worker has been given is late when `Stop` returns. -/
theorem early_of_tracked (hm : Tracked m) (hw : m.pool.vecWorker[i]? = some w)
    (hdisabled : th.isEnable = false) : Early m.pool.called w th := by
  have hmem := List.mem_of_getElem? hw
  have horder : w.executed ++ Station.taken w.state ++ w.queue = w.pushed :=
    hm.sound.served.order w hmem
  have hid : ∀ t ∈ w.executed ++ Station.taken w.state ++ w.queue, t.id < m.pool.called := by
    intro t ht
    rw [horder] at ht
    exact Manager.id_lt_called hm.delivers hmem ht
  refine ⟨hdisabled, ?_, ?_, ?_⟩
  · intro t ht
    exact hid t (List.mem_append_left _ (List.mem_append_left _ ht))
  · intro t ht
    have htaken : Station.taken w.state = [t] := by
      simp only [Station.taken, ht]
    exact hid t (by simp [htaken])
  · intro _ _ t ht
    exact hid t (List.mem_append_right _ (List.mem_of_mem_head? ht))

theorem halted_step (hm : Tracked m) (hh : Halted m) (hclear : m.Clear op)
    (h : m.step op = some m') : Halted m' := by
  have hm' := tracked_step hm h
  rcases stop_of_step h with hstop | ⟨-, hstop⟩ | ⟨j, hbefore, ⟨hstop, hj⟩ | ⟨hle, hstop⟩⟩
  · rw [Halted, hstop]
    rw [Halted] at hh
    split
    · trivial
    · rename_i j hj
      rw [hj] at hh
      intro i th' hi hth'
      obtain ⟨w, th, w', -, hth, hturn⟩ := turn_of_thread hm' h hth'
      exact hturn.disabled (hh i th hi hth)
    · rename_i called hcalled
      rw [hcalled] at hh
      intro i w' th' hw' hth'
      obtain ⟨w, th, hw, hth, hturn⟩ := turn_of_step h hw' hth'
      exact hturn.early hcalled hclear hw hth (hh i w th hw hth)
  · rw [Halted, hstop]
    intro i th hi
    exact absurd hi (Nat.not_lt_zero i)
  · rw [Halted, hbefore] at hh
    rw [Halted, hstop]
    intro i th' hi hth'
    cases Nat.lt_or_eq_of_le (Nat.le_of_lt_succ hi) with
    | inl hi =>
      obtain ⟨w, th, w', -, hth, hturn⟩ := turn_of_thread hm' h hth'
      exact hturn.disabled (hh i th hi hth)
    | inr hi =>
      subst hi
      exact hj th' hth'
  · rw [Halted, hbefore] at hh
    subst hstop
    intro i w th hw hth
    have hi := (List.getElem?_eq_some_iff.mp hth).1
    have hlen : m.threads.length = m.pool.nWorkerCount.toNat := hm.threads
    have hdisabled : th.isEnable = false := by
      apply hh i th _ hth
      change i < m.threads.length at hi
      omega
    exact early_of_tracked hm hw hdisabled

end Invariant

section Run
variable {n max : UInt32} {enabled callback : Bool} {hash : Option TaskHashFunc} {threads : Nat}
  {C : StoppablePool → StopOp → Prop} {ops : List StopOp} {m m' : StoppablePool} {i p : Nat}
  {t : Task}

theorem tracked_started : Tracked (started n max enabled callback hash threads) := by
  have hfresh := @WorkerPool.fresh_started n max enabled callback hash threads
  have hcount : (WorkerPool.started n max enabled callback hash threads).nWorkerCount = n := by
    cases enabled <;> rfl
  have hreturned : (WorkerPool.started n max enabled callback hash threads).returned = [] := by
    cases enabled <;> rfl
  have hworkers : (WorkerPool.started n max enabled callback hash threads).vecWorker.length =
      n.toNat := by
    cases enabled <;> exact List.length_replicate
  refine ⟨?_, Manager.delivers_fresh hfresh hreturned, ?_, ?_⟩
  · exact WorkerPool.sound (Runs.nil (C := fun _ _ => True))
  · rw [started, hworkers, hcount]
  · rw [started, hcount]
    exact List.length_replicate

theorem tracked (h : Runs step C (started n max enabled callback hash threads) ops m) :
    Tracked m :=
  h.invariant Tracked tracked_started fun _ _ _ hm _ hs => tracked_step hm hs

theorem halted (h : Runs step Clear (started n max enabled callback hash threads) ops m) :
    Halted m := by
  apply h.invariant_with Tracked Halted _ tracked
  · intro m op m' hm hh hc hs
    exact halted_step hm hh hc hs
  · trivial

/-- As long as no late task is pushed to a worker that waits in `pop`, no late task is executed. -/
theorem late_not_executed
    (h : Runs step Clear (started n max enabled callback hash threads) ops m) :
    ∀ w ∈ m.pool.vecWorker, ∀ t ∈ w.executed, m.late t = false := by
  intro w hw t ht
  have hm := tracked h
  have hh := halted h
  obtain ⟨i, hi⟩ := List.getElem?_of_mem hw
  have hlt := (List.getElem?_eq_some_iff.mp hi).1
  rw [hm.workers, ← hm.threads] at hlt
  rw [Halted] at hh
  rw [late]
  split at hh
  · rename_i hstop
    rw [hstop]
  · rename_i hstop
    rw [hstop]
  · rename_i called hstop
    rw [hstop]
    have hearly := (hh i w _ hi (List.getElem?_eq_getElem hlt)).executed t ht
    simpa using hearly

def Awake (w : Worker PoolWorker) (th : RunThread) : Prop :=
  th.isEnable = false ∧ ¬ (th.place = .Handle ∧ w.state.phase = .idle ∧ w.queue = [])

theorem Turn.awake {op : StopOp} {w w' : Worker PoolWorker} {th th' : RunThread}
    (h : m.Turn i op w th w' th') (ha : Awake w th) : Awake w' th' := by
  obtain ⟨hdisabled, hnot⟩ := ha
  refine ⟨h.disabled hdisabled, ?_⟩
  cases h with
  | stay => exact hnot
  | push => simp
  | pop => simp
  | Execute => simp
  | report hidle => simp [hidle]
  | back => simp
  | test => simp [hdisabled]
  | disable => exact hnot

theorem wakesLate_false (hwaits : ∀ i, m.waits i = false) (op : StopOp) :
    m.wakesLate op = false := by
  cases h : m.wakesLate op with
  | false => rfl
  | true =>
    simp only [wakesLate, hwaits, Bool.and_false] at h
    split at h
    · split at h <;> cases h
    · cases h

/-- When every worker that has come past its last test has a task at the moment `Stop` returns, no
late task is pushed to a worker that waits, however the run goes on. -/
theorem clear_of_awake {ops' : List StopOp}
    (h : Runs step C (started n max enabled callback hash threads) ops m)
    (hawake : ∀ (i : Nat) w th, m.pool.vecWorker[i]? = some w → m.threads[i]? = some th → Awake w th)
    (h' : Runs step (fun _ _ => True) m ops' m') : Runs step Clear m ops' m' := by
  have hkept : ∀ {ops' m'}, Runs step (fun _ _ => True) m ops' m' → Tracked m' ∧
      ∀ (i : Nat) w th, m'.pool.vecWorker[i]? = some w → m'.threads[i]? = some th → Awake w th := by
    intro ops' m' h'
    apply h'.invariant fun m' : StoppablePool => Tracked m' ∧
      ∀ (i : Nat) w th, m'.pool.vecWorker[i]? = some w → m'.threads[i]? = some th → Awake w th
    · exact ⟨tracked h, hawake⟩
    · intro u op v hcase _ hs
      obtain ⟨hu, hall⟩ := hcase
      refine ⟨tracked_step hu hs, ?_⟩
      intro i w' th' hw' hth'
      obtain ⟨w, th, hw, hth, hturn⟩ := turn_of_step hs hw' hth'
      exact hturn.awake (hall i w th hw hth)
  induction h' with
  | nil => exact .nil
  | @snoc ops' u v op hr _ hs ih =>
    refine ih.snoc ?_ hs
    obtain ⟨-, hall⟩ := hkept hr
    have hwaits : ∀ i, u.waits i = false := by
      intro i
      rw [waits]
      split
      · rename_i w th hw hth
        exact decide_eq_false (hall i w th hw hth).2
      · rfl
    exact wakesLate_false hwaits op

/-- A worker that waits takes the task that is pushed to it and executes it, without another look
at its flag. -/
theorem waiting_executes (hp : m.pool.producers[p]? = some (.checked t i))
    (hwaits : m.waits i = true) :
    ∃ m', Runs step (fun _ _ => True) m
        [.pool (.add (.push p)), .pool (.pop i), .pool (.Execute i false)] m' ∧
      m'.stop = m.stop ∧ ∃ w ∈ m'.pool.vecWorker, t ∈ w.executed := by
  rw [waits] at hwaits
  split at hwaits
  · rename_i w th hw hth
    obtain ⟨hplace, hphase, hqueue⟩ := of_decide_eq_true hwaits
    obtain ⟨queue, pushed, executed, phase, wired⟩ := w
    subst hqueue
    cases hphase
    have hlen := (List.getElem?_eq_some_iff.mp hw).1
    -- after the push, after the end of `pop`, and after the execution
    let pushing := (m.pool.setProducer p (.pushed t i)).setWorker i
      ⟨[t], pushed ++ [t], executed, ⟨.idle, wired⟩⟩
    let popping := pushing.setWorker i ⟨[], pushed ++ [t], executed, ⟨.popped t, wired⟩⟩
    let executing := popping.setWorker i
      ⟨[], pushed ++ [t], executed ++ [t], ⟨.executed t false, wired⟩⟩
    have hpush : m.step (.pool (.add (.push p))) = some { m with pool := pushing } := by
      simp [step, stepPool, WorkerPool.step, Manager.stepAdd, hp, hw, pushing]
    have hpop : step { m with pool := pushing } (.pool (.pop i)) =
        some { m with pool := popping } := by
      simp [step, stepPool, WorkerPool.step, WorkerPool.stepWorker, WorkerPool.setPhase,
        Manager.setWorker, Manager.setProducer, hth, hplace, hlen, pushing, popping]
    have hexecute : step { m with pool := popping } (.pool (.Execute i false)) =
        some { m with pool := executing } := by
      simp [step, stepPool, WorkerPool.step, WorkerPool.stepWorker, WorkerPool.setPhase,
        Manager.setWorker, Manager.setProducer, hlen, pushing, popping, executing]
    have hset : i < popping.vecWorker.length := by
      simpa [popping, pushing, Manager.setWorker, Manager.setProducer] using hlen
    exact ⟨_, Runs.cons trivial hpush (Runs.cons trivial hpop (Runs.cons trivial hexecute .nil)),
      rfl, _, List.mem_set hset _, by simp⟩
  · cases hwaits

end Run

def addOps : List StopOp :=
  [.AddTask 0 none, .lock 0, .check 0, .push 0, .count 0, .leave 0].map fun op => .pool (.add op)

/-- The worker has a task when `Stop` returns, and leaves when it has executed it. -/
def busyOps : List StopOp :=
  [.test 0] ++ addOps ++ [.Stop, .next, .next] ++
    [.pool (.pop 0), .pool (.Execute 0 false), .pool (.skip 0), .test 0] ++ addOps

theorem late_not_executed_busy : ∃ m,
    Runs step Clear (started 1 1 false false none 1) busyOps m ∧ m.late ⟨1, none⟩ = true ∧
      m.pool.vecWorker.map Worker.pushed = [[⟨0, none⟩, ⟨1, none⟩]] ∧
      m.pool.vecWorker.map Worker.executed = [[⟨0, none⟩]] ∧
      ∀ w ∈ m.pool.vecWorker, ∀ t ∈ w.executed, m.late t = false := by
  have hexec : ((exec step Clear (started 1 1 false false none 1) busyOps).any fun m =>
      decide (m.late ⟨1, none⟩ = true ∧
        m.pool.vecWorker.map Worker.pushed = [[⟨0, none⟩, ⟨1, none⟩]] ∧
        m.pool.vecWorker.map Worker.executed = [[⟨0, none⟩]])) = true := by decide
  obtain ⟨m, hm, hcheck⟩ := exists_of_exec hexec
  obtain ⟨hlate, hpushed, hexecuted⟩ := of_decide_eq_true hcheck
  exact ⟨m, hm, hlate, hpushed, hexecuted, late_not_executed hm⟩

/-- The worker waits for a task when `Stop` is called, and executes the one that is added when
`Stop` has returned. -/
theorem waiting_worker_executes : ∃ m,
    Runs step (fun _ _ => True) (started 1 1 false false none 1)
      ([.test 0, .Stop, .next, .next] ++ addOps ++ [.pool (.pop 0), .pool (.Execute 0 false)]) m ∧
      ∃ w ∈ m.pool.vecWorker, ∃ t ∈ w.executed, m.late t = true := by
  have hexec : ((exec step (fun _ _ => True) (started 1 1 false false none 1)
      ([.test 0, .Stop, .next, .next] ++ addOps ++
        [.pool (.pop 0), .pool (.Execute 0 false)])).any fun m =>
          decide (∃ w ∈ m.pool.vecWorker, ∃ t ∈ w.executed, m.late t = true)) = true := by decide
  obtain ⟨m, hm, hcheck⟩ := exists_of_exec hexec
  exact ⟨m, hm, of_decide_eq_true hcheck⟩

end StoppablePool
end CppPrivate.Workpool
