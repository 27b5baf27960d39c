import CppPrivate.Workpool.BatchWorkerMgr
import CppPrivate.Workpool.WorkerPool

/-! The public calls that make and end the workers of a manager. The number of workers and the
vector of workers change independently of each other, and an index may be out of range. -/
namespace CppPrivate.Workpool
open CppPrivate.Run

inductive Fault where
  | outOfRange
  | nullFactory
  | hangs
  | destroyed
deriving DecidableEq

inductive LifeOp where
  | Init (nWorkerCnt : UInt32) (hasFactory : Bool)
  | SetWorkerCount (nCount : UInt32)
  | Start
  | AddTask (key : Option (List UInt8))
  | Stop
  | destruct
deriving DecidableEq

structure LifeState where
  /-- `m_pWorkerFactory` is not null. -/
  hasFactory : Bool
  /-- The workers that have been in the vector before. -/
  erased : List (Worker Bool)
  destroyed : Bool

/-- A manager in its public calls. The state of a worker is its `m_isEnable`. -/
abbrev Life : Type := Manager Bool LifeState

def LifeOp.stops : LifeOp → Bool
  | .Stop | .destruct => true
  | _ => false

namespace Life

/-- The constructor. A hash function may be set. -/
def new (hash : Option TaskHashFunc) : Life where
  nWorkerCount := 1
  nWorkerIndex := 0
  isEnableMaxTaskCount := false
  nWorkerMaxTaskCount := WorkerPool.DefaultWorkerMaxTaskCount
  nTaskCount := 0
  vecWorker := []
  taskHashFunc := hash
  mutex := none
  producers := []
  own := ⟨false, [], false⟩
  called := 0
  returned := []
  completed := 0

def newWorker (isEnable : Bool) : Worker Bool := ⟨[], [], [], isEnable⟩

def setEnable (b : Bool) (v : List (Worker Bool)) (i : Nat) : Except Fault (List (Worker Bool)) :=
  match v[i]? with
  | some w => .ok (v.set i { w with state := b })
  | none => .error .outOfRange

def setEnables (b : Bool) : Nat → List (Worker Bool) → Except Fault (List (Worker Bool))
  | 0, v => .ok v
  | n + 1, v => (setEnables b n v).bind (setEnable b · n)

/-- `AddTask` up to the push. The wait for the limit uses no index. -/
def AddTask (m : Life) (key : Option (List UInt8)) : Except Fault Life :=
  match m.select ⟨m.called, key⟩ with
  | none => .error .hangs
  | some r =>
    match m.vecWorker[r.1.toNat]? with
    | none => .error .outOfRange
    | some w => .ok { m.setWorker r.1.toNat { w with
        queue := w.queue ++ [⟨m.called, key⟩], pushed := w.pushed ++ [⟨m.called, key⟩] } with
          nWorkerIndex := r.2, called := m.called + 1 }

end Life

namespace WorkerPool
open Life

def lifeStart (m : Life) : Except Fault Life :=
  if m.nWorkerCount = 0 ∨ m.own.hasFactory = true then
    .ok { m with vecWorker := m.vecWorker ++ List.replicate m.nWorkerCount.toNat (newWorker true) }
  else .error .nullFactory

def lifeStop (m : Life) : Except Fault Life :=
  (setEnables false m.nWorkerCount.toNat m.vecWorker).map fun v => { m with vecWorker := v }

def lifeClear (m : Life) : Life :=
  { m with
    vecWorker := []
    own := { m.own with erased := m.own.erased ++ m.vecWorker, destroyed := true } }

/-- The destructor stops the workers and clears the vector. -/
def lifeDestruct (m : Life) : Except Fault Life := (lifeStop m).map lifeClear

/-- A call on a pool that has not been destroyed. -/
def call (m : Life) (op : LifeOp) : Except Fault Life :=
  if m.own.destroyed then .error .destroyed
  else match op with
    | .Init n hasFactory => .ok { m with nWorkerCount := n, own := { m.own with hasFactory } }
    | .SetWorkerCount n => .ok { m with nWorkerCount := n }
    | .Start => lifeStart m
    | .AddTask key => m.AddTask key
    | .Stop => lifeStop m
    | .destruct => lifeDestruct m

end WorkerPool

/-- The calls of the batch manager do what those of the pool do. -/
def BatchWorkerMgr.call (m : Life) (op : LifeOp) : Except Fault Life := WorkerPool.call m op

namespace WaitGroupWorkerMgr
open Life

def lifeInit (m : Life) (n : UInt32) : Life :=
  { m with nWorkerCount := n, vecWorker := m.vecWorker ++ List.replicate n.toNat (newWorker false) }

def lifeStart (m : Life) : Except Fault Life :=
  (setEnables true m.nWorkerCount.toNat m.vecWorker).map fun v => { m with vecWorker := v }

/-- `Stop` stops and erases one worker after the other. -/
def lifeStop (m : Life) : Life :=
  { m with vecWorker := [], own := { m.own with
      erased := m.own.erased ++ m.vecWorker.map fun w => { w with state := false } } }

/-- A call on a manager that has not been destroyed. It has no worker factory, and no hash function
for a key. -/
def call (m : Life) (op : LifeOp) : Except Fault Life :=
  if m.own.destroyed then .error .destroyed
  else match op with
    | .Init n _ => .ok (lifeInit m n)
    | .SetWorkerCount n => .ok { m with nWorkerCount := n }
    | .Start => lifeStart m
    | .AddTask key => m.AddTask key
    | .Stop => .ok (lifeStop m)
    | .destruct => .ok { lifeStop m with own := { (lifeStop m).own with destroyed := true } }

end WaitGroupWorkerMgr

namespace Life
variable {m m' : Life} {op : LifeOp} {b : Bool} {n : Nat} {v : List (Worker Bool)}

/-- The call uses no index out of range, and when it has stopped the workers none is enabled. -/
def Good (call : Life → LifeOp → Except Fault Life) (m : Life) (op : LifeOp) : Prop :=
  call m op ≠ .error .outOfRange ∧ (op.stops = true → ∀ m', call m op = .ok m' →
    ∀ w ∈ m'.vecWorker ++ m'.own.erased, w.state = false)

/-- There is a worker, and an index that is taken as it is, being below the count, is in the vector;
any other index gives way to the first one. -/
def Holds (m : Life) (i : Nat) : Prop :=
  0 < m.vecWorker.length ∧ (i < m.nWorkerCount.toNat → i < m.vecWorker.length)

/-- The vector holds the index behind the last one served or, for a key, the one its hash gives. -/
def Finds (m : Life) (key : Option (List UInt8)) : Prop :=
  match key, m.taskHashFunc with
  | some key, some hash =>
    ∀ pos, hash key m.nWorkerCount.toInt32 = some pos → m.Holds pos.toUInt32.toNat
  | _, _ => m.Holds (m.nWorkerIndex.toNat + 1)

/-- The vector has as many workers as are counted, and those that are not counted are disabled. -/
def Counts (m : Life) : Prop :=
  m.nWorkerCount.toNat ≤ m.vecWorker.length ∧
    ∀ w ∈ m.vecWorker.drop m.nWorkerCount.toNat, w.state = false

instance (m : Life) : Decidable m.Counts :=
  inferInstanceAs (Decidable (_ ∧ ∀ _ ∈ _, _))

theorem setEnables_ok (h : n ≤ v.length) : setEnables b n v =
    .ok ((v.take n).map (fun w => { w with state := b }) ++ v.drop n) := by
  induction n with
  | zero => rfl
  | succ n ih =>
    have hlength : ((v.take n).map fun w : Worker Bool => { w with state := b }).length = n := by
      rw [List.length_map, List.length_take]
      omega
    have hdrop : v.drop n = v[n] :: v.drop (n + 1) := List.drop_eq_getElem_cons h
    rw [setEnables, ih (by omega), hdrop]
    change setEnable b _ n = _
    rw [setEnable, List.getElem?_append_right (by omega), hlength, Nat.sub_self]
    simp only [List.getElem?_cons_zero]
    rw [List.set_append_right _ _ (by omega), hlength, Nat.sub_self, List.set_cons_zero,
      List.take_add_one, List.getElem?_eq_getElem h, List.map_append, List.append_assoc]
    rfl

theorem setEnables_error (h : v.length < n) : setEnables b n v = .error .outOfRange := by
  induction n with
  | zero => omega
  | succ n ih =>
    rw [setEnables]
    by_cases hlt : v.length < n
    · rw [ih hlt]
      rfl
    · have hn : n = v.length := by omega
      rw [setEnables_ok (by omega)]
      change setEnable b _ n = _
      rw [setEnable, List.getElem?_eq_none]
      rw [List.length_append, List.length_map, List.length_take, List.length_drop]
      omega

/-- An index from the count on is replaced by the first one. -/
theorem clamp_lt {i : UInt32} :
    (if i ≥ m.nWorkerCount then 0 else i).toNat < m.vecWorker.length ↔ m.Holds i.toNat := by
  rw [Holds]
  by_cases hge : m.nWorkerCount.toNat ≤ i.toNat
  · rw [if_pos (UInt32.le_iff_toNat_le.mpr hge), UInt32.toNat_zero]
    exact ⟨fun h => ⟨h, by omega⟩, And.left⟩
  · rw [if_neg fun h => hge (UInt32.le_iff_toNat_le.mp h)]
    exact ⟨fun h => ⟨by omega, fun _ => h⟩, fun h => h.2 (by omega)⟩

/-- The index behind the largest one is the first. -/
theorem holds_succ : m.Holds (m.nWorkerIndex + 1).toNat ↔ m.Holds (m.nWorkerIndex.toNat + 1) := by
  have hlast := m.nWorkerIndex.toNat_lt
  have hcount := m.nWorkerCount.toNat_lt
  rw [Holds, Holds, UInt32.toNat_add, UInt32.toNat_one]
  by_cases hwrap : m.nWorkerIndex.toNat + 1 < 2 ^ 32
  · rw [Nat.mod_eq_of_lt hwrap]
  · have hzero : (m.nWorkerIndex.toNat + 1) % 2 ^ 32 = 0 := by omega
    rw [hzero]
    exact ⟨fun h => ⟨h.1, by omega⟩, fun h => ⟨h.1, fun _ => h.1⟩⟩

theorem select_inRange {key : Option (List UInt8)} :
    (∀ r, m.select ⟨m.called, key⟩ = some r → r.1.toNat < m.vecWorker.length) ↔ m.Finds key := by
  have hnext : m.nextIndex.toNat < m.vecWorker.length ↔ m.Holds (m.nWorkerIndex.toNat + 1) :=
    clamp_lt.trans holds_succ
  unfold Finds
  cases key with
  | none => simpa [Manager.select] using hnext
  | some key =>
    cases hhash : m.taskHashFunc with
    | none => simpa [Manager.select, hhash] using hnext
    | some hash =>
      simp only [Manager.select, hhash, Option.map_eq_some_iff, forall_exists_index, and_imp]
      constructor
      · intro h pos hpos
        exact clamp_lt.mp (h _ pos hpos rfl)
      · rintro h r pos hpos rfl
        exact clamp_lt.mpr (h pos hpos)

theorem addTask_inRange {key : Option (List UInt8)} :
    m.AddTask key ≠ .error .outOfRange ↔ m.Finds key := by
  rw [AddTask, ← select_inRange]
  cases m.select ⟨m.called, key⟩ with
  | none => simp
  | some r =>
    by_cases hlt : r.1.toNat < m.vecWorker.length
    · simp [hlt]
    · simp [hlt]

theorem addTask_own {key : Option (List UInt8)} (h : m.AddTask key = .ok m') : m'.own = m.own := by
  rw [AddTask] at h
  split at h
  · cases h
  · split at h
    · cases h
    · cases h
      rfl

/-- A manager from a state of a run, and the calls that return. -/
def step (call : Life → LifeOp → Except Fault Life) (m : Life) (op : LifeOp) : Option Life :=
  (call m op).toOption

theorem ok_of_step {call : Life → LifeOp → Except Fault Life} (h : step call m op = some m') :
    call m op = .ok m' := by
  rw [step] at h
  cases hc : call m op with
  | error e =>
    rw [hc] at h
    cases h
  | ok m'' =>
    rw [hc] at h
    cases h
    rfl

end Life

namespace WorkerPool
open Life
variable {m m' : Life} {op : LifeOp}

def Fits (m : Life) : LifeOp → Prop
  | .AddTask key => m.Finds key
  | .Stop | .destruct => m.Counts
  | _ => True

theorem lifeStop_good {f : Life → Life}
    (hf : ∀ m w, w ∈ (f m).vecWorker ++ (f m).own.erased ↔ w ∈ m.vecWorker ++ m.own.erased)
    (herased : m.own.erased = []) :
    ((lifeStop m).map f ≠ .error .outOfRange ∧ ∀ m', (lifeStop m).map f = .ok m' →
      ∀ w ∈ m'.vecWorker ++ m'.own.erased, w.state = false) ↔ m.Counts := by
  by_cases hle : m.nWorkerCount.toNat ≤ m.vecWorker.length
  · have hstop : lifeStop m = .ok { m with
        vecWorker := (m.vecWorker.take m.nWorkerCount.toNat).map (fun w => { w with state := false }) ++
          m.vecWorker.drop m.nWorkerCount.toNat } := by
      rw [lifeStop, setEnables_ok hle]
      rfl
    rw [hstop]
    constructor
    · intro hcase
      obtain ⟨-, hall⟩ := hcase
      refine ⟨hle, ?_⟩
      intro w hw
      apply hall _ rfl w
      rw [hf]
      exact List.mem_append_left _ (List.mem_append_right _ hw)
    · intro hcounts
      refine ⟨by simp [Except.map], ?_⟩
      intro m' heq w hw
      obtain ⟨rfl⟩ := heq
      rw [hf] at hw
      simp only [herased, List.append_nil, List.mem_append, List.mem_map] at hw
      cases hw with
      | inl hw =>
        obtain ⟨v, -, rfl⟩ := hw
        rfl
      | inr hw => exact hcounts.2 w hw
  · have hstop : lifeStop m = .error .outOfRange := by
      rw [lifeStop, setEnables_error (Nat.lt_of_not_le hle)]
      rfl
    rw [hstop]
    constructor
    · intro hcase
      obtain ⟨hne, -⟩ := hcase
      exact absurd rfl hne
    · intro hcounts
      exact absurd hcounts.1 hle

theorem good_iff (hd : m.own.destroyed = false) (herased : m.own.erased = []) :
    Good call m op ↔ Fits m op := by
  unfold Good call
  rw [hd]
  cases op with
  | Init n hasFactory => simp [Fits, LifeOp.stops]
  | SetWorkerCount n => simp [Fits, LifeOp.stops]
  | Start =>
    by_cases hs : m.nWorkerCount = 0 ∨ m.own.hasFactory = true <;>
      simp [LifeOp.stops, Fits, lifeStart, hs]
  | AddTask key =>
    simp only [LifeOp.stops, Fits]
    simpa using (addTask_inRange : m.AddTask key ≠ .error .outOfRange ↔ m.Finds key)
  | Stop =>
    have hid : (lifeStop m).map id = lifeStop m := by cases lifeStop m <;> rfl
    have h := lifeStop_good (f := id) (fun _ _ => Iff.rfl) herased
    rw [hid] at h
    simpa [LifeOp.stops, Fits] using h
  | destruct =>
    have h := lifeStop_good (f := lifeClear) (fun m w => by simp [lifeClear, or_comm]) herased
    simpa [LifeOp.stops, Fits, lifeDestruct] using h

theorem erased_step (hm : m.own.destroyed = false → m.own.erased = [])
    (h : Life.step call m op = some m') : m'.own.destroyed = false → m'.own.erased = [] := by
  have h := ok_of_step h
  unfold call at h
  split at h
  · cases h
  · rename_i hd
    have herased := hm (Bool.eq_false_iff.mpr hd)
    cases op with
    | Init n hasFactory =>
      cases h
      exact fun _ => herased
    | SetWorkerCount n =>
      cases h
      exact fun _ => herased
    | Start =>
      simp only [lifeStart] at h
      split at h
      · cases h
        exact fun _ => herased
      · cases h
    | AddTask key =>
      rw [addTask_own h]
      exact hm
    | Stop =>
      simp only [lifeStop] at h
      cases hv : setEnables false m.nWorkerCount.toNat m.vecWorker with
      | error e => rw [hv] at h; cases h
      | ok v =>
        rw [hv] at h
        cases h
        exact fun _ => herased
    | destruct =>
      simp only [lifeDestruct] at h
      cases hv : lifeStop m with
      | error e => rw [hv] at h; cases h
      | ok v =>
        rw [hv] at h
        cases h
        intro hfalse
        cases hfalse

theorem erased {hash : Option TaskHashFunc} {calls : List LifeOp}
    (h : Runs (Life.step call) (fun _ _ => True) (Life.new hash) calls m) :
    m.own.destroyed = false → m.own.erased = [] := by
  apply h.invariant fun m : Life => m.own.destroyed = false → m.own.erased = []
  · exact fun _ => rfl
  · intro m op m' hm _ hs
    exact erased_step hm hs

end WorkerPool

namespace WaitGroupWorkerMgr
open Life
variable {m m' : Life} {op : LifeOp}

def Fits (m : Life) : LifeOp → Prop
  | .AddTask key => m.Finds key
  | .Start => m.nWorkerCount.toNat ≤ m.vecWorker.length
  | _ => True

def Disabled (m : Life) : Prop := ∀ w ∈ m.own.erased, w.state = false

theorem disabled_lifeStop (hm : Disabled m) : Disabled (lifeStop m) := by
  intro w hw
  cases List.mem_append.mp hw with
  | inl hw => exact hm w hw
  | inr hw =>
    obtain ⟨v, -, rfl⟩ := List.mem_map.mp hw
    rfl

theorem good_iff (hd : m.own.destroyed = false) (hm : Disabled m) :
    Good call m op ↔ Fits m op := by
  have hstop := disabled_lifeStop hm
  unfold Good call
  rw [hd]
  cases op with
  | Init n hasFactory => simp [Fits, LifeOp.stops]
  | SetWorkerCount n => simp [Fits, LifeOp.stops]
  | Start =>
    by_cases hle : m.nWorkerCount.toNat ≤ m.vecWorker.length
    · simp [LifeOp.stops, Fits, lifeStart, setEnables_ok hle, hle, Except.map]
    · simp [LifeOp.stops, Fits, lifeStart, setEnables_error (Nat.lt_of_not_le hle), hle, Except.map]
  | AddTask key =>
    simp only [LifeOp.stops, Fits]
    simpa using (addTask_inRange : m.AddTask key ≠ .error .outOfRange ↔ m.Finds key)
  | Stop =>
    simp only [Fits, iff_true]
    refine ⟨by simp, ?_⟩
    intro _ m' heq w hw
    obtain ⟨rfl⟩ := heq
    exact hstop w hw
  | destruct =>
    simp only [Fits, iff_true]
    refine ⟨by simp, ?_⟩
    intro _ m' heq w hw
    obtain ⟨rfl⟩ := heq
    exact hstop w hw

theorem disabled_step (hm : Disabled m) (h : Life.step call m op = some m') : Disabled m' := by
  have h := ok_of_step h
  have hstop := disabled_lifeStop hm
  unfold call at h
  split at h
  · cases h
  · cases op with
    | Init n hasFactory =>
      cases h
      exact hm
    | SetWorkerCount n =>
      cases h
      exact hm
    | Start =>
      simp only [lifeStart] at h
      cases hv : setEnables true m.nWorkerCount.toNat m.vecWorker with
      | error e => rw [hv] at h; cases h
      | ok v =>
        rw [hv] at h
        cases h
        exact hm
    | AddTask key =>
      unfold Disabled
      rw [addTask_own h]
      exact hm
    | Stop =>
      cases h
      exact hstop
    | destruct =>
      cases h
      exact hstop

theorem disabled {calls : List LifeOp}
    (h : Runs (Life.step call) (fun _ _ => True) (Life.new none) calls m) : Disabled m := by
  apply h.invariant Disabled
  · intro w hw
    cases hw
  · intro m op m' hm _ hs
    exact disabled_step hm hs

end WaitGroupWorkerMgr

/-- After every sequence of calls on a manager the next call uses no index out of range, and leaves
no worker enabled if it stops them, exactly when it fits the state. -/
theorem lifecycle_good (hash : Option TaskHashFunc) (calls : List LifeOp) (m : Life)
    (hd : m.own.destroyed = false) (op : LifeOp) :
    (Runs (Life.step WorkerPool.call) (fun _ _ => True) (Life.new hash) calls m →
      (Life.Good WorkerPool.call m op ↔ WorkerPool.Fits m op)) ∧
    (Runs (Life.step BatchWorkerMgr.call) (fun _ _ => True) (Life.new hash) calls m →
      (Life.Good BatchWorkerMgr.call m op ↔ WorkerPool.Fits m op)) ∧
    (Runs (Life.step WaitGroupWorkerMgr.call) (fun _ _ => True) (Life.new none) calls m →
      (Life.Good WaitGroupWorkerMgr.call m op ↔ WaitGroupWorkerMgr.Fits m op)) :=
  ⟨fun h => WorkerPool.good_iff hd (WorkerPool.erased h hd),
    fun h => WorkerPool.good_iff hd (WorkerPool.erased h hd),
    fun h => WaitGroupWorkerMgr.good_iff hd (WaitGroupWorkerMgr.disabled h)⟩

/-- Two workers are started and given a task before they are stopped. -/
def lifeOps : List LifeOp := [.Init 2 true, .Start, .AddTask none]

theorem lifecycle_good_stop :
    (∃ m, Runs (Life.step WorkerPool.call) (fun _ _ => True) (Life.new none) lifeOps m ∧
      Life.Good WorkerPool.call m .Stop) ∧
    (∃ m, Runs (Life.step BatchWorkerMgr.call) (fun _ _ => True) (Life.new none) lifeOps m ∧
      Life.Good BatchWorkerMgr.call m .destruct) ∧
    ∃ m, Runs (Life.step WaitGroupWorkerMgr.call) (fun _ _ => True) (Life.new none) lifeOps m ∧
      Life.Good WaitGroupWorkerMgr.call m .Stop := by
  have hpool : ((exec (Life.step WorkerPool.call) (fun _ _ => True) (Life.new none) lifeOps).any
      fun m => decide (m.own.destroyed = false ∧ Life.Counts m)) = true := by decide
  have hbatch : ((exec (Life.step BatchWorkerMgr.call) (fun _ _ => True) (Life.new none)
      lifeOps).any fun m => decide (m.own.destroyed = false ∧ Life.Counts m)) = true := by decide
  have hwait : ((exec (Life.step WaitGroupWorkerMgr.call) (fun _ _ => True) (Life.new none)
      lifeOps).any fun m => decide (m.own.destroyed = false)) = true := by decide
  obtain ⟨m, hm, hcheck⟩ := exists_of_exec hpool
  obtain ⟨b, hb, hcheck'⟩ := exists_of_exec hbatch
  obtain ⟨g, hg, hd⟩ := exists_of_exec hwait
  obtain ⟨hd₁, hcounts⟩ := of_decide_eq_true hcheck
  obtain ⟨hd₂, hcounts'⟩ := of_decide_eq_true hcheck'
  have hstop := (lifecycle_good none lifeOps m hd₁ .Stop).1 hm
  have hdestruct := (lifecycle_good none lifeOps b hd₂ .destruct).2.1 hb
  have hgroup := (lifecycle_good none lifeOps g (of_decide_eq_true hd) .Stop).2.2 hg
  exact ⟨⟨m, hm, hstop.mpr hcounts⟩, ⟨b, hb, hdestruct.mpr hcounts'⟩, ⟨g, hg, hgroup.mpr trivial⟩⟩

/-- A pool that has never been started is destroyed: the only worker that is counted is not in the
vector. A wait group manager is started before its workers have been made. A pool is stopped after
its number of workers has been lowered, and a worker stays enabled. -/
theorem lifecycle_fails :
    WorkerPool.call (Life.new none) .destruct = .error .outOfRange ∧
    BatchWorkerMgr.call (Life.new none) .destruct = .error .outOfRange ∧
    WaitGroupWorkerMgr.call (Life.new none) .Start = .error .outOfRange ∧
    ∃ m m', Runs (Life.step WorkerPool.call) (fun _ _ => True) (Life.new none)
      [.Init 1 true, .Start, .SetWorkerCount 0] m ∧ WorkerPool.call m .Stop = .ok m' ∧
        ∃ w ∈ m'.vecWorker, w.state = true := by
  have hexec : ((exec (Life.step WorkerPool.call) (fun _ _ => True) (Life.new none)
      [.Init 1 true, .Start, .SetWorkerCount 0]).any fun m =>
        (Life.step WorkerPool.call m .Stop).any fun m' =>
          decide (∃ w ∈ m'.vecWorker, w.state = true)) = true := by decide
  obtain ⟨m, hm, hstop⟩ := exists_of_exec hexec
  obtain ⟨m', hm', henabled⟩ := (Option.any_eq_true _ _).mp hstop
  exact ⟨rfl, rfl, rfl, m, m', hm, Life.ok_of_step hm', of_decide_eq_true henabled⟩

end CppPrivate.Workpool
