import CppPrivate.Workpool.BatchWorker

/-! The batch manager: its workers are batch workers, its `AddTask` counts a task before it is
pushed, and the completion callback of its workers is `TaskComplete` if the limit was enabled when
the manager was started. -/
namespace CppPrivate.Workpool
open CppPrivate.Monitor CppPrivate.Run

structure BatchMgrState where
  nMaxBatch : UInt32
  nWaitTimeout : UInt32
  /-- `m_pBatchTaskListFactory` is not null. -/
  hasFactory : Bool
deriving DecidableEq

abbrev BatchWorkerMgr : Type := Manager BatchState BatchMgrState

inductive BatchMgrOp where
  | add (op : AddOp)
  | worker (i : Nat) (op : BatchOp)
deriving DecidableEq

namespace BatchWorkerMgr

def DefaultWorkerMaxTaskCount : UInt32 := 1000

/-- The constructor and `Init`, with the threads that will call the manager. The constructor
leaves the limits of the batches as they are in memory. -/
def new (nWorkerCnt : UInt32) (state : BatchMgrState) (threads : Nat) : BatchWorkerMgr where
  nWorkerCount := nWorkerCnt
  nWorkerIndex := 0
  isEnableMaxTaskCount := false
  nWorkerMaxTaskCount := DefaultWorkerMaxTaskCount
  nTaskCount := 0
  vecWorker := []
  taskHashFunc := none
  mutex := none
  producers := List.replicate threads .idle
  own := state
  called := 0
  returned := []
  completed := 0

def EnableMaxTaskCount (m : BatchWorkerMgr) : BatchWorkerMgr :=
  { m with isEnableMaxTaskCount := true }

def SetWorkerMaxTaskCount (m : BatchWorkerMgr) (nCount : UInt32) : BatchWorkerMgr :=
  { m with nWorkerMaxTaskCount := nCount }

def SetTaskHashFunc (m : BatchWorkerMgr) (func : Option TaskHashFunc) : BatchWorkerMgr :=
  { m with taskHashFunc := func }

/-- A worker as `Start` sets it up. -/
def newWorker (m : BatchWorkerMgr) : BatchWorker :=
  .configured [.SetTaskCompleteFunc m.isEnableMaxTaskCount, .SetBatchTaskListPtr m.own.hasFactory,
    .SetMaxBatch m.own.nMaxBatch, .SetWaitTimeout m.own.nWaitTimeout]

def Start (m : BatchWorkerMgr) : BatchWorkerMgr :=
  { m with vecWorker := m.vecWorker ++ List.replicate m.nWorkerCount.toNat m.newWorker }

def started (nWorkerCnt max : UInt32) (state : BatchMgrState) (enabled : Bool)
    (hash : Option TaskHashFunc) (threads : Nat) : BatchWorkerMgr :=
  let m := ((new nWorkerCnt state threads).SetWorkerMaxTaskCount max).SetTaskHashFunc hash
  (if enabled then m.EnableMaxTaskCount else m).Start

/-- `TaskComplete`, called by a worker that has the callback. -/
def TaskComplete (m : BatchWorkerMgr) : BatchWorkerMgr :=
  { m with nTaskCount := m.nTaskCount - 1, completed := m.completed + 1 }

def step (m : BatchWorkerMgr) : BatchMgrOp → Option BatchWorkerMgr
  | .add op => m.stepAdd .countFirst op
  | .worker _ (.AddTask _) => none
  | .worker i .complete =>
    m.vecWorker[i]?.bind fun w => (BatchWorker.step w .complete).map fun v =>
      if w.state.wired then TaskComplete (m.setWorker i v) else m.setWorker i v
  | .worker i op =>
    m.vecWorker[i]?.bind fun w => (BatchWorker.step w op).map fun v => m.setWorker i v

/-- A step is one of a producer or one of a worker. -/
inductive Kind (m : BatchWorkerMgr) : BatchMgrOp → BatchWorkerMgr → Prop
  | add {a : AddOp} {m' : BatchWorkerMgr} : Manager.AddStep m .countFirst a m' → Kind m (.add a) m'
  | serve {op : BatchMgrOp} {e : Event} {m' : BatchWorkerMgr} : Manager.Serve m e m' → Kind m op m'

section Step
variable {m m' : BatchWorkerMgr} {op : BatchMgrOp}

theorem kind_of_step (h : m.step op = some m') : Kind m op m' := by
  cases op with
  | add a => exact .add (Manager.addStep_of_stepAdd h)
  | worker i op =>
    by_cases hadd : ∀ t, op ≠ .AddTask t
    · by_cases hcomplete : op = .complete
      · rw [hcomplete] at h
        obtain ⟨w, hw, h⟩ := Option.bind_eq_some_iff.mp h
        obtain ⟨v, hv, rfl⟩ := Option.map_eq_some_iff.mp h
        have hmove := BatchWorker.move_of_complete hv
        by_cases hwired : w.state.wired = true
        · simp only [hwired] at hmove ⊢
          obtain ⟨t, hmove⟩ := hmove
          exact .serve (.complete hw hmove)
        · simp only [hwired] at hmove ⊢
          exact .serve (.move hw hmove (by simp))
      · have hm : m.step (.worker i op) =
            m.vecWorker[i]?.bind fun w => (BatchWorker.step w op).map fun v => m.setWorker i v := by
          cases op with
          | AddTask t => exact absurd rfl (hadd t)
          | complete => exact absurd rfl hcomplete
          | _ => rfl
        rw [hm] at h
        obtain ⟨w, hw, h⟩ := Option.bind_eq_some_iff.mp h
        obtain ⟨v, hv, rfl⟩ := Option.map_eq_some_iff.mp h
        exact .serve (.move hw (BatchWorker.move_of_step hadd hcomplete hv) (by simp))
    · simp only [ne_eq, not_forall, not_not] at hadd
      obtain ⟨t, rfl⟩ := hadd
      cases h

open Manager in
theorem sound_step (hm : Sound .countFirst m) (h : m.step op = some m') : Sound .countFirst m' := by
  cases kind_of_step h with
  | add h => exact sound_add hm h
  | serve h => exact sound_serve hm h

open Manager in
theorem served_step (hm : Served m) (h : m.step op = some m') : Served m' := by
  cases kind_of_step h with
  | add h => exact served_add hm h
  | serve h => exact served_serve hm h

end Step

section Run
variable {n max : UInt32} {state : BatchMgrState} {enabled : Bool} {hash : Option TaskHashFunc}
  {threads : Nat} {C : BatchWorkerMgr → BatchMgrOp → Prop} {m : BatchWorkerMgr}
  {ops : List BatchMgrOp}

theorem started_workers {w : BatchWorker}
    (h : w ∈ (started n max state enabled hash threads).vecWorker) :
    ∃ sets, w = .configured sets := by
  cases enabled with
  | true => exact ⟨_, List.eq_of_mem_replicate h⟩
  | false => exact ⟨_, List.eq_of_mem_replicate h⟩

theorem fresh_started : Manager.Fresh (started n max state enabled hash threads) := by
  refine ⟨?_, ?_, ?_, ?_, ?_, ?_⟩
  · cases enabled <;> rfl
  · cases enabled <;> rfl
  · intro x hx
    cases enabled <;> exact List.eq_of_mem_replicate hx
  · intro w hw
    obtain ⟨sets, rfl⟩ := started_workers hw
    obtain ⟨hlist, hphase, -⟩ := BatchWorker.set_start sets BatchState.new rfl rfl rfl
    refine ⟨rfl, rfl, rfl, ?_, ?_⟩
    · simp [Station.taken, BatchWorker.configured, hlist, hphase]
    · simp [Station.running, BatchWorker.configured, hphase]
  · cases enabled <;> rfl
  · cases enabled <;> rfl

theorem sound (h : Runs step C (started n max state true hash threads) ops m) :
    Manager.Sound .countFirst m := by
  apply h.invariant (Manager.Sound .countFirst)
  · exact Manager.sound_fresh fresh_started fun _ => rfl
  · intro m op m' hm _ hs
    exact sound_step hm hs

theorem served (h : Runs step C (started n max state enabled hash threads) ops m) :
    Manager.Served m := by
  apply h.invariant Manager.Served
  · exact Manager.served_fresh fresh_started
  · intro m op m' hm _ hs
    exact served_step hm hs

end Run

end BatchWorkerMgr

end CppPrivate.Workpool
