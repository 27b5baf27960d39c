import CppPrivate.Workpool.Counting

/-! The batch worker. It collects tasks from its queue until the batch is full or its time is up,
has the batch executed as a whole, and calls the completion callback for each of its tasks. -/
namespace CppPrivate.Workpool
open CppPrivate.Run

/-- How far a worker has come in `Handle`, with the readings of the clock at the start and last,
and then with the rounds of the loop over the batch and the callbacks called for it. -/
inductive BatchPhase where
  | idle
  | found
  | collecting (nStarTime nEndTime : UInt64)
  | polled (nStarTime : UInt64)
  | completing (i calls : Nat)
deriving DecidableEq

structure BatchState where
  nMaxBatch : UInt32
  nWaitTimeout : UInt32
  /-- `m_taskListInterface` has been set. -/
  hasList : Bool
  /-- `m_taskCompleteFunc` has been set. -/
  wired : Bool
  /-- The content of the task list. -/
  taskList : List Task
  phase : BatchPhase
  /-- The batches that are finished, each with the number of callbacks called for it. -/
  finished : List (List Task × Nat)
deriving DecidableEq

abbrev BatchWorker : Type := Worker BatchState

inductive Setter where
  | SetMaxBatch (nMaxBatch : UInt32)
  | SetWaitTimeout (nWaitTimeout : UInt32)
  | SetTaskCompleteFunc (isSet : Bool)
  | SetBatchTaskListPtr (isSet : Bool)

/-- The steps of `Handle`, with the readings of the clock, and the pushes of other threads. -/
inductive BatchOp where
  | AddTask (t : Task)
  | look
  | start (clock : UInt64)
  | tryPop
  | read (clock : UInt64)
  | ExecuteBatch
  | complete
  | Clear
deriving DecidableEq

namespace BatchState

def DefaultMaxBatch : UInt32 := 20

def DefaultBatchWaitTimeout : UInt32 := 1000

def new : BatchState := ⟨DefaultMaxBatch, DefaultBatchWaitTimeout, false, false, [], .idle, []⟩

def set (b : BatchState) : Setter → BatchState
  | .SetMaxBatch n => if n ≤ 0 then b else { b with nMaxBatch := n }
  | .SetWaitTimeout n => if n ≤ 0 then b else { b with nWaitTimeout := n }
  | .SetTaskCompleteFunc isSet => { b with wired := isSet }
  | .SetBatchTaskListPtr isSet => { b with hasList := isSet }

/-- The condition of the loop that collects the batch. -/
def goesOn (b : BatchState) (nStarTime nEndTime : UInt64) : Bool :=
  decide (nEndTime - nStarTime < b.nWaitTimeout.toUInt64) &&
    decide (b.taskList.length < b.nMaxBatch.toNat)

/-- The batch that has been passed to `ExecuteBatch` and is not finished. -/
def current (b : BatchState) : List (List Task) :=
  match b.phase with
  | .completing _ _ => [b.taskList]
  | _ => []

def batches (b : BatchState) : List (List Task) := b.finished.map Prod.fst ++ b.current

end BatchState

instance : Station BatchState where
  taken b := match b.phase with
    | .completing _ _ => []
    | _ => b.taskList
  running b := match b.phase with
    | .completing i _ => b.taskList.drop i
    | _ => []

namespace BatchWorker

def configured (sets : List Setter) : BatchWorker :=
  ⟨[], [], [], sets.foldl BatchState.set BatchState.new⟩

def setPhase (w : BatchWorker) (phase : BatchPhase) : BatchWorker :=
  { w with state := { w.state with phase } }

def step (w : BatchWorker) : BatchOp → Option BatchWorker
  | .AddTask t => some { w with queue := w.queue ++ [t], pushed := w.pushed ++ [t] }
  | .look =>
    match w.state.phase with
    | .idle => some (if w.queue.isEmpty || !w.state.hasList then w else w.setPhase .found)
    | _ => none
  | .start clock =>
    match w.state.phase with
    | .found => some (w.setPhase (.collecting clock clock))
    | _ => none
  | .tryPop =>
    match w.state.phase with
    | .collecting nStarTime nEndTime =>
      if w.state.goesOn nStarTime nEndTime then
        match w.queue with
        | t :: queue =>
          some { w with queue, state := { w.state with
            taskList := w.state.taskList ++ [t], phase := .polled nStarTime } }
        | [] => some (w.setPhase (.polled nStarTime))
      else none
    | _ => none
  | .read clock =>
    match w.state.phase with
    | .polled nStarTime => some (w.setPhase (.collecting nStarTime clock))
    | _ => none
  | .ExecuteBatch =>
    match w.state.phase with
    | .collecting nStarTime nEndTime =>
      if w.state.goesOn nStarTime nEndTime then none
      else if w.state.taskList.length > 0 then
        some { w with executed := w.executed ++ w.state.taskList,
                      state := { w.state with phase := .completing 0 0 } }
      else some (w.setPhase .idle)
    | _ => none
  | .complete =>
    match w.state.phase with
    | .completing i calls =>
      if i < w.state.taskList.length then
        some (w.setPhase (.completing (i + 1) (if w.state.wired then calls + 1 else calls)))
      else none
    | _ => none
  | .Clear =>
    match w.state.phase with
    | .completing i calls =>
      if i < w.state.taskList.length then none
      else some { w with state := { w.state with
        taskList := [], phase := .idle, finished := w.state.finished ++ [(w.state.taskList, calls)] } }
    | _ => none

inductive Stepped (w : BatchWorker) : BatchOp → BatchWorker → Prop
  | AddTask {t : Task} :
      Stepped w (.AddTask t) { w with queue := w.queue ++ [t], pushed := w.pushed ++ [t] }
  | pass : Stepped w .look w
  | found : w.state.phase = .idle → Stepped w .look (w.setPhase .found)
  | start {clock : UInt64} : w.state.phase = .found →
      Stepped w (.start clock) (w.setPhase (.collecting clock clock))
  | pop {nStarTime nEndTime : UInt64} {t : Task} {queue : List Task} :
      w.state.phase = .collecting nStarTime nEndTime → w.state.goesOn nStarTime nEndTime = true →
      w.queue = t :: queue → Stepped w .tryPop { w with queue, state := { w.state with
        taskList := w.state.taskList ++ [t], phase := .polled nStarTime } }
  | miss {nStarTime nEndTime : UInt64} : w.state.phase = .collecting nStarTime nEndTime →
      Stepped w .tryPop (w.setPhase (.polled nStarTime))
  | read {nStarTime clock : UInt64} : w.state.phase = .polled nStarTime →
      Stepped w (.read clock) (w.setPhase (.collecting nStarTime clock))
  | ExecuteBatch {nStarTime nEndTime : UInt64} : w.state.phase = .collecting nStarTime nEndTime →
      0 < w.state.taskList.length → Stepped w .ExecuteBatch
        { w with executed := w.executed ++ w.state.taskList,
                 state := { w.state with phase := .completing 0 0 } }
  | giveUp {nStarTime nEndTime : UInt64} : w.state.phase = .collecting nStarTime nEndTime →
      Stepped w .ExecuteBatch (w.setPhase .idle)
  | complete {i calls : Nat} : w.state.phase = .completing i calls → i < w.state.taskList.length →
      Stepped w .complete
        (w.setPhase (.completing (i + 1) (if w.state.wired then calls + 1 else calls)))
  | Clear {i calls : Nat} : w.state.phase = .completing i calls → w.state.taskList.length ≤ i →
      Stepped w .Clear { w with state := { w.state with
        taskList := [], phase := .idle, finished := w.state.finished ++ [(w.state.taskList, calls)] } }

section Step
variable {w v : BatchWorker} {op : BatchOp}

theorem stepped_of_step (h : w.step op = some v) : Stepped w op v := by
  cases op with
  | AddTask t =>
    obtain rfl := Option.some.inj h
    exact .AddTask
  | look =>
    simp only [step] at h
    split at h
    · rename_i hphase
      obtain rfl := Option.some.inj h
      split
      · exact .pass
      · exact .found hphase
    · cases h
  | start clock =>
    simp only [step] at h
    split at h
    · rename_i hphase
      obtain rfl := Option.some.inj h
      exact .start hphase
    · cases h
  | tryPop =>
    simp only [step] at h
    split at h
    · rename_i nStarTime nEndTime hphase
      split at h
      · rename_i hgo
        split at h
        · rename_i t queue hqueue
          obtain rfl := Option.some.inj h
          exact .pop hphase hgo hqueue
        · obtain rfl := Option.some.inj h
          exact .miss hphase
      · cases h
    · cases h
  | read clock =>
    simp only [step] at h
    split at h
    · rename_i nStarTime hphase
      obtain rfl := Option.some.inj h
      exact .read hphase
    · cases h
  | ExecuteBatch =>
    simp only [step] at h
    split at h
    · rename_i nStarTime nEndTime hphase
      split at h
      · cases h
      · split at h
        · rename_i hsome
          obtain rfl := Option.some.inj h
          exact .ExecuteBatch hphase hsome
        · obtain rfl := Option.some.inj h
          exact .giveUp hphase
    · cases h
  | complete =>
    simp only [step] at h
    split at h
    · rename_i i calls hphase
      split at h
      · rename_i hlt
        obtain rfl := Option.some.inj h
        exact .complete hphase hlt
      · cases h
    · cases h
  | Clear =>
    simp only [step] at h
    split at h
    · rename_i i calls hphase
      split at h
      · cases h
      · rename_i hle
        obtain rfl := Option.some.inj h
        exact .Clear hphase (Nat.le_of_not_lt hle)
    · cases h

/-- A completion callback is called for the next task of the batch, or the task is forgotten if
there is no callback. -/
theorem move_of_complete (h : w.step .complete = some v) :
    if w.state.wired then ∃ t, w.Move (.complete t) v else w.Move .forget v := by
  cases stepped_of_step h with
  | @complete i calls hphase hlt =>
    split
    · refine ⟨w.state.taskList[i], .complete ?_ ?_⟩
      · simp [Station.taken, hphase]
      · simp [Station.running, hphase]
    · refine .forget ?_ ?_
      · simp [Station.taken, hphase]
      · simp [Station.running, hphase]
        omega

/-- Another step of `Handle` is a move that no other thread sees. -/
theorem move_of_step (hadd : ∀ t, op ≠ .AddTask t) (hcomplete : op ≠ .complete)
    (h : w.step op = some v) : w.Move .quiet v := by
  cases stepped_of_step h with
  | AddTask => exact absurd rfl (hadd _)
  | complete => exact absurd rfl hcomplete
  | pass => exact .keep rfl rfl
  | found hphase => exact .keep (by simp [Station.taken, hphase]) (by simp [Station.running, hphase])
  | start hphase => exact .keep (by simp [Station.taken, hphase]) (by simp [Station.running, hphase])
  | pop hphase _ hqueue =>
    exact .pop hqueue (by simp [Station.taken, hphase]) (by simp [Station.running, hphase])
  | miss hphase => exact .keep (by simp [Station.taken, hphase]) (by simp [Station.running, hphase])
  | read hphase => exact .keep (by simp [Station.taken, hphase]) (by simp [Station.running, hphase])
  | ExecuteBatch hphase =>
    have htaken : Station.taken w.state = w.state.taskList := by simp [Station.taken, hphase]
    rw [← htaken]
    exact .execute rfl (by simp [Station.running, hphase]) (by simp [Station.running, htaken])
  | giveUp hphase => exact .keep (by simp [Station.taken, hphase]) (by simp [Station.running, hphase])
  | @Clear i calls hphase hle =>
    have hdrop : w.state.taskList.drop i = [] := List.drop_of_length_le hle
    exact .keep (by simp [Station.taken, hphase]) (by simp [Station.running, hphase, hdrop])

/-- The batches of a worker that has been given the limit `max`, and a callback or not. -/
structure Batched (max : UInt32) (wired : Bool) (w : BatchWorker) : Prop where
  limit : w.state.nMaxBatch = max
  callback : w.state.wired = wired
  executed : w.executed = w.state.batches.flatten
  list : w.state.taskList.length ≤ max.toNat
  sizes : ∀ b ∈ w.state.batches, 1 ≤ b.length ∧ b.length ≤ max.toNat
  finished : ∀ f ∈ w.state.finished, f.2 = if wired then f.1.length else 0
  current : ∀ i calls, w.state.phase = .completing i calls →
    i ≤ w.state.taskList.length ∧ calls = if wired then i else 0

variable {max : UInt32} {wired : Bool} {nStarTime nEndTime : UInt64} {i calls : Nat}

/-- While no batch is with `ExecuteBatch`, the worker may go on to any place and have another
list, as long as the list is not too long. -/
theorem Batched.collect {taskList queue pushed : List Task} {phase : BatchPhase}
    (hw : Batched max wired w) (hphase : ∀ i calls, w.state.phase ≠ .completing i calls)
    (hnext : ∀ i calls, phase ≠ .completing i calls) (hlist : taskList.length ≤ max.toNat) :
    Batched max wired ⟨queue, pushed, w.executed, { w.state with taskList, phase }⟩ := by
  have hnone : w.state.current = [] := by
    rw [BatchState.current]
    split
    · rename_i i calls h
      exact absurd h (hphase i calls)
    · rfl
  have hnone' : BatchState.current { w.state with taskList, phase } = [] := by
    rw [BatchState.current]
    split
    · rename_i i calls h
      exact absurd h (hnext i calls)
    · rfl
  have hsame : BatchState.batches { w.state with taskList, phase } = w.state.batches := by
    rw [BatchState.batches, BatchState.batches, hnone, hnone']
  refine ⟨hw.limit, hw.callback, ?_, hlist, ?_, hw.finished, ?_⟩
  · rw [hsame]
    exact hw.executed
  · rw [hsame]
    exact hw.sizes
  · intro i calls h
    exact absurd h (hnext i calls)

theorem Batched.pass_on (hw : Batched max wired w)
    (hphase : w.state.phase = .collecting nStarTime nEndTime) (hsome : 0 < w.state.taskList.length) :
    Batched max wired { w with
      executed := w.executed ++ w.state.taskList,
      state := { w.state with phase := .completing 0 0 } } := by
  have hbefore : w.state.batches = w.state.finished.map Prod.fst := by
    simp [BatchState.batches, BatchState.current, hphase]
  have hafter : BatchState.batches { w.state with phase := .completing 0 0 } =
      w.state.finished.map Prod.fst ++ [w.state.taskList] := rfl
  have hexecuted := hw.executed
  have hsizes := hw.sizes
  rw [hbefore] at hexecuted hsizes
  refine ⟨hw.limit, hw.callback, ?_, hw.list, ?_, hw.finished, ?_⟩
  · simp only [hafter, hexecuted, List.flatten_append, List.flatten_singleton]
  · rw [hafter]
    intro b hb
    cases List.mem_append.mp hb with
    | inl hb => exact hsizes b hb
    | inr hb =>
      rw [List.mem_singleton.mp hb]
      exact ⟨hsome, hw.list⟩
  · intro i calls hi
    cases hi
    exact ⟨Nat.zero_le _, by cases wired <;> rfl⟩

theorem Batched.call (hw : Batched max wired w) (hphase : w.state.phase = .completing i calls)
    (hlt : i < w.state.taskList.length) : Batched max wired
      (w.setPhase (.completing (i + 1) (if w.state.wired then calls + 1 else calls))) := by
  have hsame : BatchState.batches { w.state with
      phase := (.completing (i + 1) (if w.state.wired then calls + 1 else calls)) } =
        w.state.batches := by
    simp [BatchState.batches, BatchState.current, hphase]
  refine ⟨hw.limit, hw.callback, ?_, hw.list, ?_, hw.finished, ?_⟩
  · exact hw.executed.trans (congrArg List.flatten hsame.symm)
  · intro b hb
    exact hw.sizes b (hsame ▸ hb)
  · intro j calls' hj
    cases hj
    refine ⟨hlt, ?_⟩
    rw [hw.callback, (hw.current i calls hphase).2]
    cases wired <;> rfl

theorem Batched.clear (hw : Batched max wired w) (hphase : w.state.phase = .completing i calls)
    (hle : w.state.taskList.length ≤ i) : Batched max wired { w with state := { w.state with
      taskList := [], phase := .idle,
      finished := w.state.finished ++ [(w.state.taskList, calls)] } } := by
  have hsame : BatchState.batches { w.state with
      taskList := [], phase := .idle,
      finished := w.state.finished ++ [(w.state.taskList, calls)] } = w.state.batches := by
    simp [BatchState.batches, BatchState.current, hphase]
  obtain ⟨hi, hcalls⟩ := hw.current i calls hphase
  refine ⟨hw.limit, hw.callback, ?_, Nat.zero_le _, ?_, ?_, ?_⟩
  · exact hw.executed.trans (congrArg List.flatten hsame.symm)
  · intro b hb
    exact hw.sizes b (hsame ▸ hb)
  · intro f hf
    cases List.mem_append.mp hf with
    | inl hf => exact hw.finished f hf
    | inr hf =>
      rw [List.mem_singleton.mp hf, hcalls]
      have hlength : i = w.state.taskList.length := by omega
      rw [hlength]
  · intro j calls' hj
    cases hj

theorem batched_step (hw : Batched max wired w) (h : w.step op = some v) : Batched max wired v := by
  cases stepped_of_step h with
  | AddTask =>
    exact ⟨hw.limit, hw.callback, hw.executed, hw.list, hw.sizes, hw.finished, hw.current⟩
  | pass => exact hw
  | found hphase => exact hw.collect (by simp [hphase]) (by simp) hw.list
  | start hphase => exact hw.collect (by simp [hphase]) (by simp) hw.list
  | pop hphase hgo =>
    have hlt : w.state.taskList.length < max.toNat := by
      simp only [BatchState.goesOn, hw.limit, Bool.and_eq_true, decide_eq_true_eq] at hgo
      exact hgo.2
    refine hw.collect (by simp [hphase]) (by simp) ?_
    simp only [List.length_append, List.length_singleton]
    omega
  | miss hphase => exact hw.collect (by simp [hphase]) (by simp) hw.list
  | read hphase => exact hw.collect (by simp [hphase]) (by simp) hw.list
  | ExecuteBatch hphase hsome => exact hw.pass_on hphase hsome
  | giveUp hphase => exact hw.collect (by simp [hphase]) (by simp) hw.list
  | complete hphase hlt => exact hw.call hphase hlt
  | Clear hphase hle => exact hw.clear hphase hle

theorem inOrder_step (hw : w.InOrder) (h : w.step op = some v) : v.InOrder := by
  by_cases hadd : ∀ t, op ≠ .AddTask t
  · by_cases hcomplete : op = .complete
    · rw [hcomplete] at h
      have hmove := move_of_complete h
      split at hmove
      · obtain ⟨t, hmove⟩ := hmove
        exact Worker.move_inOrder hw hmove
      · exact Worker.move_inOrder hw hmove
    · exact Worker.move_inOrder hw (move_of_step hadd hcomplete h)
  · simp only [ne_eq, not_forall, not_not] at hadd
    obtain ⟨t, rfl⟩ := hadd
    obtain rfl := Option.some.inj h
    have horder : _ = _ := hw
    rw [Worker.InOrder, ← horder]
    simp only [List.append_assoc]

end Step

section Run
variable {sets : List Setter} {w : BatchWorker} {ops : List BatchOp}

theorem set_start (sets : List Setter) (b : BatchState) (hlist : b.taskList = [])
    (hphase : b.phase = .idle) (hfinished : b.finished = []) :
    (sets.foldl BatchState.set b).taskList = [] ∧ (sets.foldl BatchState.set b).phase = .idle ∧
      (sets.foldl BatchState.set b).finished = [] := by
  induction sets generalizing b with
  | nil => exact ⟨hlist, hphase, hfinished⟩
  | cons x sets ih =>
    rw [List.foldl_cons]
    apply ih <;> cases x <;> simp only [BatchState.set] <;> (try split) <;> assumption

theorem batched_configured (sets : List Setter) :
    Batched (configured sets).state.nMaxBatch (configured sets).state.wired (configured sets) := by
  obtain ⟨hlist, hphase, hfinished⟩ := set_start sets BatchState.new rfl rfl rfl
  have hlist : (configured sets).state.taskList = [] := hlist
  have hphase : (configured sets).state.phase = .idle := hphase
  have hfinished : (configured sets).state.finished = [] := hfinished
  have hnone : (configured sets).state.batches = [] := by
    simp [BatchState.batches, BatchState.current, hphase, hfinished]
  refine ⟨rfl, rfl, ?_, ?_, ?_, ?_, ?_⟩
  · rw [hnone]
    rfl
  · rw [hlist]
    exact Nat.zero_le _
  · rw [hnone]
    intro b hb
    cases hb
  · rw [hfinished]
    intro f hf
    cases hf
  · rw [hphase]
    intro i calls h
    cases h

theorem inOrder_configured (sets : List Setter) : (configured sets).InOrder := by
  obtain ⟨hlist, hphase, -⟩ := set_start sets BatchState.new rfl rfl rfl
  simp [Worker.InOrder, Station.taken, configured, hlist, hphase]

theorem batchWorker_batches (h : Runs step (fun _ _ => True) (configured sets) ops w) :
    w.state.batches.flatten <+: w.pushed ∧
      (∀ b ∈ w.state.batches,
        1 ≤ b.length ∧ b.length ≤ (configured sets).state.nMaxBatch.toNat) ∧
      ((configured sets).state.wired = true → ∀ f ∈ w.state.finished, f.2 = f.1.length) := by
  have hw : Batched (configured sets).state.nMaxBatch (configured sets).state.wired w :=
    h.invariant _ (batched_configured sets) fun _ _ _ hw _ hs => batched_step hw hs
  have horder : w.InOrder :=
    h.invariant _ (inOrder_configured sets) fun _ _ _ hw _ hs => inOrder_step hw hs
  refine ⟨?_, hw.sizes, ?_⟩
  · rw [← hw.executed, ← show w.executed ++ _ ++ _ = _ from horder, List.append_assoc]
    exact List.prefix_append _ _
  · intro hwired f hf
    simpa [hwired] using hw.finished f hf

def pairs : List Setter :=
  [.SetMaxBatch 2, .SetMaxBatch 0, .SetTaskCompleteFunc true, .SetBatchTaskListPtr true]

/-- A batch that is full, and one whose time is up because the clock jumps backwards. -/
def twoBatches : List BatchOp :=
  [.look, .AddTask ⟨0, none⟩, .AddTask ⟨1, none⟩, .look, .start 7, .tryPop, .read 8, .tryPop,
   .AddTask ⟨2, none⟩, .read 9, .ExecuteBatch, .complete, .complete, .Clear, .look, .start 9,
   .tryPop, .read 3, .ExecuteBatch, .complete]

theorem batchWorker_batches_two : ∃ w, Runs step (fun _ _ => True) (configured pairs) twoBatches w ∧
    w.state.batches = [[⟨0, none⟩, ⟨1, none⟩], [⟨2, none⟩]] ∧
      w.state.batches.flatten <+: w.pushed ∧
      (∀ b ∈ w.state.batches,
        1 ≤ b.length ∧ b.length ≤ (configured pairs).state.nMaxBatch.toNat) ∧
      ∀ f ∈ w.state.finished, f.2 = f.1.length := by
  have hexec : ((exec step (fun _ _ => True) (configured pairs) twoBatches).any fun w =>
      decide (w.state.batches = [[⟨0, none⟩, ⟨1, none⟩], [⟨2, none⟩]])) = true := by decide
  obtain ⟨w, hrun, hcheck⟩ := exists_of_exec hexec
  obtain ⟨hflatten, hsizes, hfinished⟩ := batchWorker_batches hrun
  exact ⟨w, hrun, of_decide_eq_true hcheck, hflatten, hsizes, hfinished rfl⟩

end Run

end BatchWorker

end CppPrivate.Workpool
