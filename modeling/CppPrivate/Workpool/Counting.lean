import CppPrivate.Workpool.Manager

/-! Where the tasks of a manager are, and what its counter counts. A task that has been pushed is
in the queue of a worker, in its hands, or completed; a producer holds the mutex from the choice
of the worker to its return. -/
namespace CppPrivate.Workpool
open CppPrivate.Monitor

inductive Place where
  | idle
  | called
  | selected
  | waiting
  | checked
  | pushed
  | counted
deriving DecidableEq

def Producer.place : Producer → Place
  | .idle => .idle
  | .called _ => .called
  | .selected _ _ => .selected
  | .waiting _ _ => .waiting
  | .checked _ _ => .checked
  | .pushed _ _ => .pushed
  | .counted _ _ => .counted

def Place.inside : Place → Nat
  | .selected | .checked | .pushed | .counted => 1
  | _ => 0

def Place.is (c d : Place) : Nat := if d = c then 1 else 0

theorem Order.toPush_inside (o : Order) (t : Task) (i : Nat) : (o.toPush t i).place.inside = 1 := by
  cases o <;> rfl

theorem Order.toCount_inside (o : Order) (t : Task) (i : Nat) : (o.toCount t i).place.inside = 1 := by
  cases o <;> rfl

theorem Order.toLeave_inside (o : Order) (t : Task) (i : Nat) : (o.toLeave t i).place.inside = 1 := by
  cases o <;> rfl

/-- The task of a call is still to be pushed. -/
def Order.ahead (o : Order) : Place → Nat
  | .called | .selected | .waiting | .checked => 1
  | .counted => if o = .countFirst then 1 else 0
  | _ => 0

/-- The task has been pushed and is still to be counted, or the other way round. -/
def Order.uncounted (o : Order) (c : Place) : Nat := if o = .pushFirst then Place.is .pushed c else 0

def Order.precounted (o : Order) (c : Place) : Nat :=
  if o = .countFirst then Place.is .counted c else 0

/-- What a worker that is in some state has in its hands: tasks that it has taken from its queue,
and executed tasks whose completion callback is still to come. -/
class Station (α : Type*) where
  taken : α → List Task
  running : α → List Task

/-- What a worker brings about for the other threads. -/
inductive Event where
  | quiet
  | complete (t : Task)
  | forget
deriving DecidableEq

def Event.completed : Event → Nat
  | .complete _ => 1
  | _ => 0

namespace Worker
variable {α : Type*} [Station α]

def load (w : Worker α) : Nat :=
  w.queue.length + (Station.taken w.state).length + (Station.running w.state).length

/-- The tasks pushed to a worker are executed in their order. -/
def InOrder (w : Worker α) : Prop := w.executed ++ Station.taken w.state ++ w.queue = w.pushed

/-- What a worker does: it takes a task, goes on, executes what it has taken, has the completion
callback called for a task, or forgets tasks when it has no callback. -/
inductive Move (w : Worker α) : Event → Worker α → Prop
  | pop {t : Task} {queue : List Task} {x : α} : w.queue = t :: queue →
      Station.taken x = Station.taken w.state ++ [t] → Station.running x = Station.running w.state →
      Move w .quiet { w with queue, state := x }
  | keep {x : α} : Station.taken x = Station.taken w.state →
      Station.running x = Station.running w.state → Move w .quiet { w with state := x }
  | execute {x : α} : Station.taken x = [] → Station.running w.state = [] →
      Station.running x = Station.taken w.state →
      Move w .quiet { w with executed := w.executed ++ Station.taken w.state, state := x }
  | complete {t : Task} {x : α} : Station.taken x = Station.taken w.state →
      Station.running w.state = t :: Station.running x → Move w (.complete t) { w with state := x }
  | forget {x : α} : Station.taken x = Station.taken w.state →
      (Station.running x).length ≤ (Station.running w.state).length →
      Move w .forget { w with state := x }

variable {w v : Worker α} {e : Event}

theorem move_inOrder (hw : w.InOrder) (h : Move w e v) : v.InOrder := by
  unfold InOrder at *
  cases h with
  | pop hqueue htaken =>
    rw [← hw, htaken, hqueue]
    simp only [List.append_assoc, List.singleton_append]
  | keep htaken => rw [← hw, htaken]
  | execute htaken => rw [← hw, htaken, List.append_nil]
  | complete htaken => rw [← hw, htaken]
  | forget htaken => rw [← hw, htaken]

theorem move_running (h : Move w e v) :
    e.completed + (Station.running v.state).length + w.executed.length ≤
      (Station.running w.state).length + v.executed.length := by
  cases h with
  | pop _ _ hrunning =>
    simp only [hrunning, Event.completed]
    omega
  | keep _ hrunning =>
    simp only [hrunning, Event.completed]
    omega
  | execute _ hnone hrunning =>
    simp only [hnone, hrunning, Event.completed, List.length_append, List.length_nil]
    omega
  | complete _ hrunning =>
    simp only [hrunning, Event.completed, List.length_cons]
    omega
  | forget _ hle =>
    simp only [Event.completed]
    omega

theorem move_pushed (h : Move w e v) : v.pushed = w.pushed := by
  cases h <;> rfl

end Worker

namespace Manager
variable {α ε : Type*}

def places (m : Manager α ε) (f : Place → Nat) : Nat := total (fun x => f x.place) m.producers

/-- The tasks that have been accepted: pushed to a worker. -/
def accepted (m : Manager α ε) : Nat := total (fun w => w.pushed.length) m.vecWorker

def executed (m : Manager α ε) : Nat := total (fun w => w.executed.length) m.vecWorker

section
variable [Station α]

/-- The tasks that have been executed and not yet completed. -/
def running (m : Manager α ε) : Nat :=
  total (fun w => (Station.running w.state).length) m.vecWorker

/-- The tasks in the queues and in the hands of the workers. -/
def load (m : Manager α ε) : Nat := total Worker.load m.vecWorker

end

def Locked (m : Manager α ε) : Prop := m.places Place.inside = if m.mutex.isSome then 1 else 0

inductive Serve [Station α] (m : Manager α ε) : Event → Manager α ε → Prop
  | move {i : Nat} {w v : Worker α} {own : ε} {e : Event} : m.vecWorker[i]? = some w →
      w.Move e v → (∀ t, e ≠ .complete t) → Serve m e { m.setWorker i v with own }
  | complete {i : Nat} {w v : Worker α} {t : Task} {own : ε} : m.vecWorker[i]? = some w →
      w.Move (.complete t) v → Serve m (.complete t) { m.setWorker i v with
        own, nTaskCount := m.nTaskCount - 1, completed := m.completed + 1 }

/-- Every worker executes its tasks in their order, and a task is completed after its execution. -/
structure Served [Station α] (m : Manager α ε) : Prop where
  order : ∀ w ∈ m.vecWorker, w.InOrder
  completed : m.completed + m.running ≤ m.executed

/-- Every call has pushed its task, or is still to push it. -/
def Called (o : Order) (m : Manager α ε) : Prop := m.called = m.accepted + m.places o.ahead

/-- The counter, in 32 bits, is the number of tasks that have been counted and not completed. -/
def Tallied (o : Order) (m : Manager α ε) : Prop :=
  (m.nTaskCount.toNat + m.completed + m.places o.uncounted) % 2 ^ 32 =
    (m.accepted + m.places o.precounted) % 2 ^ 32

section Places
variable {m m' : Manager α ε} {o : Order} {op : AddOp} {p : Nat} {x y : Producer}
  {f g : Place → Nat}

theorem places_set (f : Place → Nat) (h : m.producers[p]? = some x) (y : Producer) :
    (m.setProducer p y).places f + f x.place = m.places f + f y.place :=
  total_set (fun z : Producer => f z.place) y h

theorem le_places (f : Place → Nat) (h : m.producers[p]? = some x) : f x.place ≤ m.places f :=
  le_total (fun z : Producer => f z.place) (List.mem_of_getElem? h)

theorem places_eq_zero (h : ∀ c, f c = 0) : m.places f = 0 := by
  rw [places, total_congr (g := fun _ => 0) fun x _ => h x.place, total_zero]

theorem places_mono (h : ∀ c, f c ≤ g c) : m.places f ≤ m.places g := by
  apply total_mono
  intro z
  exact h z.place

theorem Locked.one (hm : Locked m) : m.places Place.inside ≤ 1 := by
  rw [show m.places Place.inside = _ from hm]
  split <;> omega

/-- While one producer is inside there is no other one. -/
theorem Locked.alone (hm : Locked m) (hfg : ∀ c, f c + g c ≤ c.inside)
    (h : m.producers[p]? = some x) (hg : 0 < g x.place) : m.places f = 0 := by
  have hle : m.places f + m.places g ≤ m.places Place.inside := by
    rw [places, places, ← total_add]
    exact total_mono (fun x => hfg x.place) m.producers
  have hpos := le_places g h
  have hone := hm.one
  omega

/-- A producer that stays inside, or outside, leaves the mutex. -/
theorem Locked.stay (hm : Locked m) (h : m.producers[p]? = some x)
    (hxy : x.place.inside = y.place.inside) : Locked (m.setProducer p y) := by
  have hset := places_set Place.inside h y
  change (m.setProducer p y).places Place.inside = if m.mutex.isSome then 1 else 0
  rw [← show m.places Place.inside = _ from hm]
  omega

theorem Locked.enter (hm : Locked m) (hfree : m.mutex = none) (h : m.producers[p]? = some x)
    (hx : x.place.inside = 0) (hy : y.place.inside = 1) :
    (m.setProducer p y).places Place.inside = 1 := by
  have hset := places_set Place.inside h y
  have hnone : m.places Place.inside = 0 := by
    rw [show m.places Place.inside = _ from hm, hfree]
    rfl
  omega

theorem Locked.exit (hm : Locked m) (h : m.producers[p]? = some x)
    (hx : x.place.inside = 1) (hy : y.place.inside = 0) :
    (m.setProducer p y).places Place.inside = 0 := by
  have hset := places_set Place.inside h y
  have hpos := le_places Place.inside h
  have hone := hm.one
  omega

theorem locked_step (hm : Locked m) (h : AddStep m o op m') : Locked m' := by
  cases h with
  | AddTask hp => exact hm.stay hp rfl
  | lock hp hfree => exact hm.enter hfree hp rfl rfl
  | full hp => exact hm.exit hp rfl rfl
  | check hp => exact hm.stay hp rfl
  | pass hp => exact hm.stay hp rfl
  | wake hp hfree => exact hm.enter hfree hp rfl rfl
  | push hp => exact hm.stay hp (o.toPush_inside _ _)
  | count hp => exact hm.stay hp (o.toCount_inside _ _)
  | leave hp => exact hm.exit hp (o.toLeave_inside _ _) rfl

theorem accepted_push {i : Nat} {w : Worker α} (t : Task) (hw : m.vecWorker[i]? = some w) :
    (m.setWorker i { w with queue := w.queue ++ [t], pushed := w.pushed ++ [t] }).accepted =
      m.accepted + 1 := by
  have h := total_set (fun w : Worker α => w.pushed.length)
    { w with queue := w.queue ++ [t], pushed := w.pushed ++ [t] } hw
  simp only [List.length_append, List.length_singleton] at h
  change total (fun w : Worker α => w.pushed.length) (m.vecWorker.set i _) =
    total (fun w : Worker α => w.pushed.length) m.vecWorker + 1
  omega

theorem Called.stay (hm : Called o m) (h : m.producers[p]? = some x)
    (hxy : o.ahead x.place = o.ahead y.place) : Called o (m.setProducer p y) := by
  have hset := places_set o.ahead h y
  change m.called = m.accepted + (m.setProducer p y).places o.ahead
  rw [show m.called = _ from hm]
  omega

theorem called_step (hm : Called o m) (h : AddStep m o op m') : Called o m' := by
  cases h with
  | @AddTask p key hp =>
    have hset := places_set o.ahead hp (.called ⟨m.called, key⟩)
    have hcalled : m.called = m.accepted + m.places o.ahead := hm
    change m.called + 1 = m.accepted + (m.setProducer p (.called ⟨m.called, key⟩)).places o.ahead
    simp only [Producer.place, Order.ahead] at hset
    omega
  | lock hp => exact hm.stay hp rfl
  | full hp => exact hm.stay hp rfl
  | check hp => exact hm.stay hp rfl
  | pass hp _ ho =>
    refine hm.stay hp ?_
    rw [ho]
    rfl
  | wake hp => exact hm.stay hp rfl
  | @push p i t w hp hw =>
    have hset := places_set o.ahead hp (.pushed t i)
    have hahead : o.ahead (o.toPush t i).place = 1 := by cases o <;> rfl
    rw [hahead] at hset
    change m.called = ((m.setProducer p (.pushed t i)).setWorker i _).accepted +
      (m.setProducer p (.pushed t i)).places o.ahead
    rw [accepted_push (m := m.setProducer p (.pushed t i)) t hw, show m.called = _ from hm]
    simp only [Producer.place, Order.ahead] at hset
    change _ = m.accepted + 1 + _
    omega
  | @count p i t hp =>
    refine hm.stay hp ?_
    cases o <;> rfl
  | @leave p i t hp =>
    refine hm.stay hp ?_
    cases o <;> rfl

theorem Tallied.stay (hm : Tallied o m) (h : m.producers[p]? = some x)
    (hx : o.uncounted x.place = o.uncounted y.place)
    (hy : o.precounted x.place = o.precounted y.place) : Tallied o (m.setProducer p y) := by
  have h1 := places_set o.uncounted h y
  have h2 := places_set o.precounted h y
  unfold Tallied at *
  change (m.nTaskCount.toNat + m.completed + (m.setProducer p y).places o.uncounted) % 2 ^ 32 =
    (m.accepted + (m.setProducer p y).places o.precounted) % 2 ^ 32
  omega

theorem tallied_step (hm : Tallied o m) (henabled : o = .countFirst → m.isEnableMaxTaskCount = true)
    (h : AddStep m o op m') : Tallied o m' := by
  cases h with
  | AddTask hp => exact hm.stay hp (by cases o <;> rfl) (by cases o <;> rfl)
  | lock hp => exact hm.stay hp (by cases o <;> rfl) (by cases o <;> rfl)
  | full hp => exact hm.stay hp (by cases o <;> rfl) (by cases o <;> rfl)
  | check hp => exact hm.stay hp (by cases o <;> rfl) (by cases o <;> rfl)
  | pass _ hnot ho =>
    rw [henabled ho] at hnot
    cases hnot
  | wake hp => exact hm.stay hp (by cases o <;> rfl) (by cases o <;> rfl)
  | @push p i t w hp hw =>
    have h1 := places_set o.uncounted hp (.pushed t i)
    have h2 := places_set o.precounted hp (.pushed t i)
    unfold Tallied at *
    change (m.nTaskCount.toNat + m.completed +
        (m.setProducer p (.pushed t i)).places o.uncounted) % 2 ^ 32 =
      (((m.setProducer p (.pushed t i)).setWorker i _).accepted +
        (m.setProducer p (.pushed t i)).places o.precounted) % 2 ^ 32
    rw [accepted_push (m := m.setProducer p (.pushed t i)) t hw]
    change _ = (m.accepted + 1 + _) % 2 ^ 32
    cases o with
    | pushFirst =>
      simp [Order.uncounted, Order.precounted, Order.toPush, Producer.place, Place.is] at *
      omega
    | countFirst =>
      simp [Order.uncounted, Order.precounted, Order.toPush, Producer.place, Place.is] at *
      omega
  | @count p i t hp =>
    have h1 := places_set o.uncounted hp (.counted t i)
    have h2 := places_set o.precounted hp (.counted t i)
    unfold Tallied at *
    change ((m.nTaskCount + 1).toNat + m.completed +
        (m.setProducer p (.counted t i)).places o.uncounted) % 2 ^ 32 =
      (m.accepted + (m.setProducer p (.counted t i)).places o.precounted) % 2 ^ 32
    rw [UInt32.toNat_add]
    cases o with
    | pushFirst =>
      simp [Order.uncounted, Order.precounted, Order.toCount, Producer.place, Place.is] at *
      omega
    | countFirst =>
      simp [Order.uncounted, Order.precounted, Order.toCount, Producer.place, Place.is] at *
      omega
  | @leave p i t hp =>
    exact hm.stay hp (by cases o <;> rfl) (by cases o <;> rfl)

end Places

section Workers
variable [Station α] {m m' : Manager α ε} {o : Order} {op : AddOp} {e : Event} {i : Nat}
  {w v : Worker α}

theorem workers_set (h : m.vecWorker[i]? = some w) (v : Worker α) :
    (m.setWorker i v).executed + w.executed.length = m.executed + v.executed.length ∧
      (m.setWorker i v).running + (Station.running w.state).length =
        m.running + (Station.running v.state).length :=
  ⟨total_set (fun w : Worker α => w.executed.length) v h,
    total_set (fun w : Worker α => (Station.running w.state).length) v h⟩

omit [Station α] in
/-- A worker that keeps what has been pushed to it keeps the tasks accepted. -/
theorem accepted_set (h : m.vecWorker[i]? = some w) (hv : v.pushed = w.pushed) :
    (m.setWorker i v).accepted = m.accepted := by
  have hset := total_set (fun w : Worker α => w.pushed.length) v h
  rw [hv] at hset
  exact Nat.add_right_cancel hset

/-- One worker goes on, and `k` of its tasks are completed. -/
theorem Served.setWorker {k : Nat} (v : Worker α) (hm : Served m) (h : m.vecWorker[i]? = some w)
    (hv : v.InOrder)
    (hcount : k + (Station.running v.state).length + w.executed.length ≤
      (Station.running w.state).length + v.executed.length)
    (hvec : m'.vecWorker = m.vecWorker.set i v) (hcompleted : m'.completed = m.completed + k) :
    Served m' := by
  obtain ⟨h1, h2⟩ := workers_set h v
  refine ⟨?_, ?_⟩
  · rw [hvec]
    intro u hu
    cases List.mem_or_eq_of_mem_set hu with
    | inl hu => exact hm.order u hu
    | inr hu => rw [hu]; exact hv
  · have hle := hm.completed
    have hrun : m'.running = (m.setWorker i v).running := by rw [running, hvec]; rfl
    have hexec : m'.executed = (m.setWorker i v).executed := by rw [executed, hvec]; rfl
    omega

theorem served_add (hm : Served m) (h : AddStep m o op m') : Served m' := by
  cases h with
  | @push p i t w hp hw =>
    have horder : _ = _ := hm.order _ (List.mem_of_getElem? hw)
    refine hm.setWorker (k := 0) ⟨w.queue ++ [t], w.pushed ++ [t], w.executed, w.state⟩ hw ?_ ?_
      rfl rfl
    · rw [Worker.InOrder, ← horder]
      simp only [List.append_assoc]
    · change 0 + (Station.running w.state).length + w.executed.length ≤
        (Station.running w.state).length + w.executed.length
      omega
  | AddTask => exact ⟨hm.order, hm.completed⟩
  | lock => exact ⟨hm.order, hm.completed⟩
  | full => exact ⟨hm.order, hm.completed⟩
  | check => exact ⟨hm.order, hm.completed⟩
  | pass => exact ⟨hm.order, hm.completed⟩
  | wake => exact ⟨hm.order, hm.completed⟩
  | count => exact ⟨hm.order, hm.completed⟩
  | leave => exact ⟨hm.order, hm.completed⟩

theorem served_serve (hm : Served m) (h : Serve m e m') : Served m' := by
  cases h with
  | @move i w v own e hw hmove hquiet =>
    have horder := Worker.move_inOrder (hm.order w (List.mem_of_getElem? hw)) hmove
    have hcount := Worker.move_running hmove
    have hnone : e.completed = 0 := by
      cases e with
      | complete t => exact absurd rfl (hquiet t)
      | quiet => rfl
      | forget => rfl
    rw [hnone] at hcount
    exact hm.setWorker v hw horder hcount rfl rfl
  | @complete i w v t own hw hmove =>
    have horder := Worker.move_inOrder (hm.order w (List.mem_of_getElem? hw)) hmove
    exact hm.setWorker v hw horder (Worker.move_running hmove) rfl rfl

/-- The tasks pushed have been executed, or are in the queues and hands of the workers. -/
theorem accepted_running (hm : Served m) : m.accepted + m.running = m.executed + m.load := by
  rw [accepted, running, executed, load, ← total_add, ← total_add]
  apply total_congr
  intro w hw
  have hlength := congrArg List.length (hm.order w hw)
  simp only [List.length_append] at hlength
  simp only [Worker.load]
  omega

theorem running_le_load : m.running ≤ m.load := by
  apply total_mono
  intro w
  simp only [Worker.load]
  omega

/-- The tasks pushed have been completed, or are in the queues and hands of the workers. -/
theorem completed_load (hm : Served m) : m.completed + m.load ≤ m.accepted := by
  have hsum := accepted_running hm
  have hle := hm.completed
  omega

/-- A worker leaves the calls alone. -/
theorem serve_frame (h : Serve m e m') : m'.producers = m.producers ∧ m'.mutex = m.mutex ∧
    m'.called = m.called ∧ m'.accepted = m.accepted ∧
      m'.isEnableMaxTaskCount = m.isEnableMaxTaskCount := by
  cases h with
  | move hw hmove => exact ⟨rfl, rfl, rfl, accepted_set hw (Worker.move_pushed hmove), rfl⟩
  | complete hw hmove => exact ⟨rfl, rfl, rfl, accepted_set hw (Worker.move_pushed hmove), rfl⟩

theorem locked_serve (hm : Locked m) (h : Serve m e m') : Locked m' := by
  obtain ⟨hprod, hmutex, -, -, -⟩ := serve_frame h
  rw [Locked, places, hprod, hmutex]
  exact hm

theorem called_serve (hm : Called o m) (h : Serve m e m') : Called o m' := by
  obtain ⟨hprod, -, hcalled, haccepted, -⟩ := serve_frame h
  rw [Called, places, hprod, hcalled, haccepted]
  exact hm

theorem tallied_serve (hm : Tallied o m) (h : Serve m e m') : Tallied o m' := by
  obtain ⟨hprod, -, -, haccepted, -⟩ := serve_frame h
  unfold Tallied at *
  rw [places, places, hprod, haccepted]
  cases h with
  | move => exact hm
  | complete =>
    change ((m.nTaskCount - 1).toNat + (m.completed + 1) + m.places o.uncounted) % 2 ^ 32 =
      (m.accepted + m.places o.precounted) % 2 ^ 32
    rw [UInt32.toNat_sub]
    have hlt := m.nTaskCount.toNat_lt
    simp only [UInt32.toNat_one]
    omega

structure Sound (o : Order) (m : Manager α ε) : Prop where
  locked : Locked m
  called : Called o m
  tallied : Tallied o m
  served : Served m
  enabled : o = .countFirst → m.isEnableMaxTaskCount = true

omit [Station α] in
theorem addStep_enabled (h : AddStep m o op m') :
    m'.isEnableMaxTaskCount = m.isEnableMaxTaskCount := by
  cases h <;> rfl

theorem sound_add (hm : Sound o m) (h : AddStep m o op m') : Sound o m' where
  locked := locked_step hm.locked h
  called := called_step hm.called h
  tallied := tallied_step hm.tallied hm.enabled h
  served := served_add hm.served h
  enabled := fun ho => by rw [addStep_enabled h]; exact hm.enabled ho

theorem sound_serve (hm : Sound o m) (h : Serve m e m') : Sound o m' where
  locked := locked_serve hm.locked h
  called := called_serve hm.called h
  tallied := tallied_serve hm.tallied h
  served := served_serve hm.served h
  enabled := fun ho => by rw [(serve_frame h).2.2.2.2]; exact hm.enabled ho

structure Fresh (m : Manager α ε) : Prop where
  count : m.nTaskCount = 0
  mutex : m.mutex = none
  producers : ∀ x ∈ m.producers, x = .idle
  workers : ∀ w ∈ m.vecWorker, w.queue = [] ∧ w.pushed = [] ∧ w.executed = [] ∧
    Station.taken w.state = [] ∧ Station.running w.state = []
  called : m.called = 0
  completed : m.completed = 0

theorem Fresh.places (hm : Fresh m) (f : Place → Nat) (hf : f .idle = 0) : m.places f = 0 := by
  apply total_eq_zero
  intro x hx
  rw [hm.producers x hx]
  exact hf

theorem Fresh.accepted (hm : Fresh m) : m.accepted = 0 := by
  apply total_eq_zero
  intro w hw
  rw [(hm.workers w hw).2.1]
  rfl

theorem Fresh.executed (hm : Fresh m) : m.executed = 0 := by
  apply total_eq_zero
  intro w hw
  rw [(hm.workers w hw).2.2.1]
  rfl

theorem Fresh.running (hm : Fresh m) : m.running = 0 := by
  apply total_eq_zero
  intro w hw
  rw [(hm.workers w hw).2.2.2.2]
  rfl

theorem served_fresh (hm : Fresh m) : Served m := by
  refine ⟨?_, ?_⟩
  · intro w hw
    obtain ⟨h1, h2, h3, h4, -⟩ := hm.workers w hw
    simp [Worker.InOrder, h1, h2, h3, h4]
  · rw [hm.completed, hm.running]
    exact Nat.zero_le _

theorem sound_fresh (hm : Fresh m) (henabled : o = .countFirst → m.isEnableMaxTaskCount = true) :
    Sound o m := by
  refine ⟨?_, ?_, ?_, served_fresh hm, henabled⟩
  · rw [Locked, hm.places _ rfl, hm.mutex]
    rfl
  · rw [Called, hm.places _ rfl, hm.accepted, hm.called]
  · rw [Tallied, hm.places _ (by cases o <;> rfl), hm.places _ (by cases o <;> rfl), hm.accepted,
      hm.count, hm.completed]
    rfl

end Workers

end Manager

end CppPrivate.Workpool
