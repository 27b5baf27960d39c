import CppPrivate.Public.DJBHash
import CppPrivate.Workpool.Routing

/-! Tasks with a key under `GetDJBHashPosition`. The position is one of a worker, so that tasks with
equal keys are executed by one worker, in the order of their calls. -/
namespace CppPrivate.Workpool
open CppPrivate.Monitor CppPrivate.Run CppPrivate.Public.CPublicFunc

theorem toInt_toInt32 {n : UInt32} (h : n.toNat < 2 ^ 31) : n.toInt32.toInt = n.toNat := by
  have hlt : 2 * n.toBitVec.toNat < 2 ^ 32 := by
    change 2 * n.toNat < 2 ^ 32
    omega
  exact BitVec.toInt_eq_toNat_of_lt hlt

theorem toNat_toUInt32 {x : Int32} (h : 0 ≤ x.toInt) : (x.toUInt32.toNat : Int) = x.toInt := by
  rw [Int32.toNat_toUInt32_of_le (Int32.le_iff_toInt_le.mpr h)]
  exact Int.toNat_of_nonneg h

/-- Between the states `m₁` and `m₂` of a run the tasks with a key go to the worker of their
position, and every worker executes what has been pushed to it in order. -/
structure PerKey {α ε : Type*} [Station α] (fuel : Nat) (n : UInt32) (m₁ m₂ : Manager α ε) :
    Prop where
  /-- The index is the position itself, and not the fallback. -/
  select : ∀ t key r, t.key = some key → m₂.select t = some r →
    ∃ pos, GetDJBHashPosition fuel key n.toInt32 = some pos ∧ r.1 = pos.toUInt32 ∧ r.1 < n
  queued : ∀ (i : Nat) w t key, m₂.vecWorker[i]? = some w → t ∈ w.pushed → t.key = some key →
    ∃ pos, GetDJBHashPosition fuel key n.toInt32 = some pos ∧ pos.toInt = i
  inOrder : ∀ w ∈ m₂.vecWorker, w.pushed.Nodup ∧
    w.executed ++ Station.taken w.state ++ w.queue = w.pushed
  calls : ∀ a b w, a ∈ m₁.returned → m₁.called ≤ b.id → a.key = b.key → a.key ≠ none →
    w ∈ m₂.vecWorker → b ∈ w.executed → [a, b].Sublist w.executed

section Position
variable {fuel : Nat} {n : UInt32} {key : List UInt8} {pos : Int32}

/-- No position is out of the range of the workers. -/
theorem position_lt (hpos : 1 ≤ n.toNat) (hlt : n.toNat < 2 ^ 31)
    (h : GetDJBHashPosition fuel key n.toInt32 = some pos) :
    (pos.toUInt32.toNat : Int) = pos.toInt ∧ pos.toUInt32 < n := by
  have hn := toInt_toInt32 hlt
  obtain ⟨hlow, hhigh⟩ := getDJBHashPosition_bounds (by omega) h
  have hnat := toNat_toUInt32 hlow
  refine ⟨hnat, ?_⟩
  rw [UInt32.lt_iff_toNat_lt]
  omega

theorem routed_position {i : Nat} {t : Task} (hpos : 1 ≤ n.toNat) (hlt : n.toNat < 2 ^ 31)
    (h : t.Routed (GetDJBHashPosition fuel) n i) (hkey : t.key = some key) :
    ∃ pos, GetDJBHashPosition fuel key n.toInt32 = some pos ∧ pos.toInt = i := by
  obtain ⟨pos, hsome, hi⟩ := h key hkey
  obtain ⟨hnat, hin⟩ := position_lt hpos hlt hsome
  rw [if_neg (UInt32.not_le.mpr hin)] at hi
  exact ⟨pos, hsome, by rw [← hnat, hi]⟩

theorem perKey_of {α ε : Type*} [Station α] {o : Order} {m₁ m₂ : Manager α ε}
    (hpos : 1 ≤ n.toNat) (hlt : n.toNat < 2 ^ 31)
    (hr₁ : Manager.Routes (GetDJBHashPosition fuel) n m₁) (hd₁ : Manager.Delivers o m₁)
    (hr₂ : Manager.Routes (GetDJBHashPosition fuel) n m₂) (hd₂ : Manager.Delivers o m₂)
    (hs₂ : Manager.Served m₂) (hgrows : Manager.Grows m₁ m₂) : PerKey fuel n m₁ m₂ := by
  refine ⟨?_, ?_, ?_, ?_⟩
  · intro t key r hkey hr
    simp only [Manager.select, hkey, hr₂.installed.1, hr₂.installed.2, Option.map_eq_some_iff] at hr
    obtain ⟨pos, hsome, rfl⟩ := hr
    obtain ⟨-, hin⟩ := position_lt hpos hlt hsome
    simp only [ge_iff_le, if_neg (UInt32.not_le.mpr hin)]
    exact ⟨pos, hsome, rfl, hin⟩
  · intro i w t key hw ht hkey
    refine routed_position hpos hlt (hr₂.pushed i w.pushed ?_ t ht) hkey
    rw [Manager.pushes, List.getElem?_map, hw]
    rfl
  · intro w hw
    exact ⟨Manager.pushed_nodup hd₂ hw, hs₂.order w hw⟩
  · intro a b w ha hb hkey hsome hw hbw
    exact Manager.executed_after hd₁ hr₁ hr₂ hgrows (hs₂.order w hw) ha hb hkey hsome hw hbw

end Position

/-- A run of calls that each are made by a producer, or leave the calls alone. -/
theorem perKey_of_runs {α ε ω : Type*} [Station α] {o : Order} {fuel : Nat} {n : UInt32}
    {step : Manager α ε → ω → Option (Manager α ε)} {C : Manager α ε → ω → Prop}
    {m m₁ m₂ : Manager α ε} {ops₁ ops₂ : List ω}
    (hstep : ∀ m op m', step m op = some m' →
      (∃ a, Manager.AddStep m o a m') ∨ Manager.SameCalls m m')
    (hpos : 1 ≤ n.toNat) (hlt : n.toNat < 2 ^ 31) (hfresh : Manager.Fresh m)
    (hreturned : m.returned = []) (hhash : m.taskHashFunc = some (GetDJBHashPosition fuel))
    (hcount : m.nWorkerCount = n) (h₁ : Runs step C m ops₁ m₁) (h₂ : Runs step C m₁ ops₂ m₂)
    (hs₂ : Manager.Served m₂) : PerKey fuel n m₁ m₂ := by
  have hroutes : ∀ ops m', Runs step C m ops m' →
      Manager.Routes (GetDJBHashPosition fuel) n m' := by
    intro ops m' h
    apply h.invariant _ (Manager.routes_fresh hfresh hhash hcount)
    intro m op m' hm _ hs
    cases hstep m op m' hs with
    | inl ha =>
      obtain ⟨a, ha⟩ := ha
      exact Manager.routes_add hm ha
    | inr hsame => exact Manager.routes_same hm hsame
  have hdelivers : ∀ ops m', Runs step C m ops m' → Manager.Delivers o m' := by
    intro ops m' h
    apply h.invariant _ (Manager.delivers_fresh hfresh hreturned)
    intro m op m' hm _ hs
    cases hstep m op m' hs with
    | inl ha =>
      obtain ⟨a, ha⟩ := ha
      exact Manager.delivers_add hm ha
    | inr hsame => exact Manager.delivers_same hm hsame
  have hgrows : Manager.Grows m₁ m₂ := by
    apply h₂.invariant _ (Manager.Grows.refl m₁)
    intro m op m' hm _ hs
    cases hstep m op m' hs with
    | inl ha =>
      obtain ⟨a, ha⟩ := ha
      exact hm.trans (Manager.grows_add ha)
    | inr hsame => exact hm.trans (Manager.grows_same hsame)
  have h := h₁.append h₂
  exact perKey_of hpos hlt (hroutes _ _ h₁) (hdelivers _ _ h₁) (hroutes _ _ h) (hdelivers _ _ h) hs₂
    hgrows

/-- `GetDJBHashPosition` gives a position for the strings whose size fits into its index and for no
other one. Installed in a manager it keeps the order of the tasks with equal keys, and a worker of
the pool has one task in its hands. -/
theorem djbHash_keeps_order (n : UInt32) (hpos : 1 ≤ n.toNat) (hlt : n.toNat < 2 ^ 31) :
    (∀ str : List UInt8, (∃ fuel pos, GetDJBHashPosition fuel str n.toInt32 = some pos ∧
      0 ≤ pos.toInt ∧ pos.toInt < n.toNat) ↔ str.length < 2 ^ 32) ∧
    (∀ (fuel : Nat) (max : UInt32) (enabled callback : Bool) (threads : Nat)
      (ops₁ ops₂ : List WorkerPoolOp) (m₁ m₂ : WorkerPool),
      Runs WorkerPool.step (fun _ _ => True)
        (WorkerPool.started n max enabled callback (some (GetDJBHashPosition fuel)) threads)
        ops₁ m₁ →
      Runs WorkerPool.step (fun _ _ => True) m₁ ops₂ m₂ →
      PerKey fuel n m₁ m₂ ∧ ∀ w ∈ m₂.vecWorker,
        (Station.taken w.state).length + (Station.running w.state).length ≤ 1) ∧
    ∀ (fuel : Nat) (max : UInt32) (state : BatchMgrState) (enabled : Bool) (threads : Nat)
      (ops₁ ops₂ : List BatchMgrOp) (m₁ m₂ : BatchWorkerMgr),
      Runs BatchWorkerMgr.step (fun _ _ => True)
        (BatchWorkerMgr.started n max state enabled (some (GetDJBHashPosition fuel)) threads)
        ops₁ m₁ →
      Runs BatchWorkerMgr.step (fun _ _ => True) m₁ ops₂ m₂ → PerKey fuel n m₁ m₂ := by
  refine ⟨?_, ?_, ?_⟩
  · intro str
    have hn := toInt_toInt32 hlt
    rw [← hn]
    exact getDJBHashPosition_iff (by omega)
  · intro fuel max enabled callback threads ops₁ ops₂ m₁ m₂ h₁ h₂
    refine ⟨?_, ?_⟩
    · refine perKey_of_runs (fun _ _ _ => WorkerPool.calls_of_step) hpos hlt
        WorkerPool.fresh_started ?_ ?_ ?_ h₁ h₂ (WorkerPool.sound (h₁.append h₂)).served
      · cases enabled <;> rfl
      · cases enabled <;> rfl
      · cases enabled <;> rfl
    · intro w _
      cases hw : w.state.phase <;> simp [Station.taken, Station.running, hw]
  · intro fuel max state enabled threads ops₁ ops₂ m₁ m₂ h₁ h₂
    refine perKey_of_runs (fun _ _ _ => BatchWorkerMgr.calls_of_step) hpos hlt
      BatchWorkerMgr.fresh_started ?_ ?_ ?_ h₁ h₂ (BatchWorkerMgr.served (h₁.append h₂))
    · cases enabled <;> rfl
    · cases enabled <;> rfl
    · cases enabled <;> rfl

def keyOps : List WorkerPoolOp :=
  [.add (.AddTask 0 (some [97])), .add (.lock 0), .add (.check 0), .add (.push 0), .add (.count 0),
   .add (.leave 0)]

def keyBatchOps : List BatchMgrOp :=
  [.add (.AddTask 0 (some [97])), .add (.lock 0), .add (.check 0), .add (.count 0), .add (.push 0),
   .add (.leave 0)]

def executeOps : List WorkerPoolOp :=
  [.pop 0, .Execute 0 false, .uncount 0, .callback 0, .complete 0, .pop 0, .Execute 0 false]

theorem djbHash_keeps_order_two :
    (∃ fuel pos, GetDJBHashPosition fuel [97] (2 : UInt32).toInt32 = some pos ∧
      0 ≤ pos.toInt ∧ pos.toInt < (2 : UInt32).toNat) ∧
    (∃ m₁ m₂, Runs WorkerPool.step (fun _ _ => True)
        (WorkerPool.started 2 10 true false (some (GetDJBHashPosition 2)) 1) keyOps m₁ ∧
      Runs WorkerPool.step (fun _ _ => True) m₁ (keyOps ++ executeOps) m₂ ∧
      (∃ w ∈ m₂.vecWorker, w.executed = [⟨0, some [97]⟩, ⟨1, some [97]⟩]) ∧ PerKey 2 2 m₁ m₂) ∧
    ∃ m₁ m₂, Runs BatchWorkerMgr.step (fun _ _ => True)
        (BatchWorkerMgr.started 2 10 ⟨8, 0, true⟩ true (some (GetDJBHashPosition 2)) 1)
        keyBatchOps m₁ ∧
      Runs BatchWorkerMgr.step (fun _ _ => True) m₁ keyBatchOps m₂ ∧
      (∃ w ∈ m₂.vecWorker, w.queue = [⟨0, some [97]⟩, ⟨1, some [97]⟩]) ∧ PerKey 2 2 m₁ m₂ := by
  have hpool : ((exec WorkerPool.step (fun _ _ => True)
      (WorkerPool.started 2 10 true false (some (GetDJBHashPosition 2)) 1) keyOps).any fun m₁ =>
        (exec WorkerPool.step (fun _ _ => True) m₁ (keyOps ++ executeOps)).any fun m₂ =>
          decide (∃ w ∈ m₂.vecWorker, w.executed = [⟨0, some [97]⟩, ⟨1, some [97]⟩])) = true := by
    decide +kernel
  have hbatch : ((exec BatchWorkerMgr.step (fun _ _ => True)
      (BatchWorkerMgr.started 2 10 ⟨8, 0, true⟩ true (some (GetDJBHashPosition 2)) 1)
        keyBatchOps).any fun m₁ =>
          (exec BatchWorkerMgr.step (fun _ _ => True) m₁ keyBatchOps).any fun m₂ =>
            decide (∃ w ∈ m₂.vecWorker, w.queue = [⟨0, some [97]⟩, ⟨1, some [97]⟩])) = true := by
    decide +kernel
  obtain ⟨m₁, h₁, hm₁⟩ := exists_of_exec hpool
  obtain ⟨m₂, h₂, hm₂⟩ := exists_of_exec hm₁
  obtain ⟨b₁, hb₁, hc₁⟩ := exists_of_exec hbatch
  obtain ⟨b₂, hb₂, hc₂⟩ := exists_of_exec hc₁
  obtain ⟨hstr, hp, hb⟩ := djbHash_keeps_order 2 (by decide) (by decide)
  exact ⟨(hstr [97]).mpr (by decide),
    ⟨m₁, m₂, h₁, h₂, of_decide_eq_true hm₂, (hp _ _ _ _ _ _ _ _ _ h₁ h₂).1⟩,
    ⟨b₁, b₂, hb₁, hb₂, of_decide_eq_true hc₂, hb _ _ _ _ _ _ _ _ _ hb₁ hb₂⟩⟩

/-- There is no position for a string of `2^32` characters, in whatever number of rounds. -/
theorem djbHash_runs_on :
    ¬ ∃ fuel pos, GetDJBHashPosition fuel (List.replicate (2 ^ 32) 97) 1 = some pos := by
  intro hcase
  obtain ⟨fuel, pos, h⟩ := hcase
  have hnone : DJBHash fuel (List.replicate (2 ^ 32) 97) = none :=
    loop_runs_on (Nat.le_of_eq List.length_replicate.symm)
  rw [GetDJBHashPosition, hnone, if_neg (by decide)] at h
  cases h

end CppPrivate.Workpool
