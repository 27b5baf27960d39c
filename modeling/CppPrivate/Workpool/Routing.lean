import CppPrivate.Lib.Machine
import CppPrivate.Workpool.BatchWorkerMgr
import CppPrivate.Workpool.WorkerPool

/-! Which worker a task goes to, and in which order. With a hash function a task with a key goes to
the worker of its hash; every call pushes its task once, and before it returns. -/
namespace CppPrivate.Workpool
open CppPrivate.Monitor CppPrivate.Run

/-- The task of a call that has chosen a worker, and the index of the worker. -/
def Producer.target : Producer → Option (Task × Nat)
  | .selected t i | .waiting t i | .checked t i | .pushed t i | .counted t i => some (t, i)
  | .idle | .called _ => none

def Producer.task : Producer → Option Task
  | .called t | .selected t _ | .waiting t _ | .checked t _ | .pushed t _ | .counted t _ => some t
  | .idle => none

/-- The producer is still to push the task of the call `k`. -/
def Order.carries (o : Order) (k : Nat) (x : Producer) : Nat :=
  match x.task with
  | some t => if t.id = k then o.ahead x.place else 0
  | none => 0

/-- A task with a key goes to the worker of its hash. -/
def Task.Routed (hash : TaskHashFunc) (n : UInt32) (i : Nat) (t : Task) : Prop :=
  ∀ key, t.key = some key → ∃ pos, hash key n.toInt32 = some pos ∧
    (if pos.toUInt32 ≥ n then 0 else pos.toUInt32).toNat = i

/-- Two tasks with one key go to one worker. -/
theorem Task.Routed.inj {hash : TaskHashFunc} {n : UInt32} {i j : Nat} {a b : Task}
    (ha : a.Routed hash n i) (hb : b.Routed hash n j) (hkey : a.key = b.key)
    (hsome : a.key ≠ none) : i = j := by
  obtain ⟨key, heq⟩ := Option.ne_none_iff_exists'.mp hsome
  obtain ⟨pos, hpos, hi⟩ := ha key heq
  obtain ⟨pos', hpos', hj⟩ := hb key (hkey.symm.trans heq)
  obtain rfl := Option.some.inj (hpos.symm.trans hpos')
  exact hi.symm.trans hj

namespace Manager
variable {α ε : Type*}

def pushes (m : Manager α ε) : List (List Task) := m.vecWorker.map Worker.pushed

/-- How often the task of the call `k` is with a producer that is to push it, or has been pushed. -/
def copies (o : Order) (k : Nat) (m : Manager α ε) : Nat :=
  total (o.carries k) m.producers + total (List.countP fun t => decide (t.id = k)) m.pushes

/-- Every task with a key that has been pushed, or is to be pushed, is at its worker. -/
structure Routes (hash : TaskHashFunc) (n : UInt32) (m : Manager α ε) : Prop where
  installed : m.taskHashFunc = some hash ∧ m.nWorkerCount = n
  pushed : ∀ (i : Nat) (l : List Task), m.pushes[i]? = some l → ∀ t ∈ l, t.Routed hash n i
  chosen : ∀ x ∈ m.producers, ∀ t i, x.target = some (t, i) → t.Routed hash n i

/-- Every call pushes its task once, and before it returns. -/
structure Delivers (o : Order) (m : Manager α ε) : Prop where
  once : ∀ k, m.copies o k ≤ 1
  fresh : ∀ k, m.called ≤ k → m.copies o k = 0
  pushed : ∀ x ∈ m.producers, ∀ t i, x.target = some (t, i) → o.ahead x.place = 0 →
    ∃ l : List Task, m.pushes[i]? = some l ∧ t ∈ l
  returned : ∀ t ∈ m.returned, ∃ (i : Nat) (l : List Task), m.pushes[i]? = some l ∧ t ∈ l

def Grows (m m' : Manager α ε) : Prop :=
  ∀ (i : Nat) (l : List Task), m.pushes[i]? = some l → ∃ l', m'.pushes[i]? = some (l ++ l')

def SameCalls (m m' : Manager α ε) : Prop :=
  m'.pushes = m.pushes ∧ m'.producers = m.producers ∧ m'.called = m.called ∧
    m'.returned = m.returned ∧ m'.taskHashFunc = m.taskHashFunc ∧ m'.nWorkerCount = m.nWorkerCount

section Frame
variable {m m' : Manager α ε} {o : Order} {hash : TaskHashFunc} {n : UInt32}

theorem routes_same (hm : Routes hash n m) (h : SameCalls m m') : Routes hash n m' := by
  obtain ⟨hpushes, hprod, -, -, hhash, hcount⟩ := h
  refine ⟨?_, ?_, ?_⟩
  · rw [hhash, hcount]
    exact hm.installed
  · rw [hpushes]
    exact hm.pushed
  · rw [hprod]
    exact hm.chosen

theorem delivers_same (hm : Delivers o m) (h : SameCalls m m') : Delivers o m' := by
  obtain ⟨hpushes, hprod, hcalled, hreturned, -, -⟩ := h
  have hcopies : ∀ k, m'.copies o k = m.copies o k := fun k => by rw [copies, hprod, hpushes]; rfl
  refine ⟨?_, ?_, ?_, ?_⟩
  · intro k
    rw [hcopies]
    exact hm.once k
  · intro k hk
    rw [hcalled] at hk
    rw [hcopies]
    exact hm.fresh k hk
  · rw [hprod, hpushes]
    exact hm.pushed
  · rw [hreturned, hpushes]
    exact hm.returned

theorem Grows.refl (m : Manager α ε) : Grows m m := by
  intro i l hl
  exact ⟨[], by rw [List.append_nil]; exact hl⟩

theorem Grows.trans {m'' : Manager α ε} (h : Grows m m') (h' : Grows m' m'') : Grows m m'' := by
  intro i l hl
  obtain ⟨l₁, hl₁⟩ := h i l hl
  obtain ⟨l₂, hl₂⟩ := h' i _ hl₁
  exact ⟨l₁ ++ l₂, by rw [← List.append_assoc]; exact hl₂⟩

theorem Grows.mem {i : Nat} {l : List Task} {t : Task} (h : Grows m m')
    (hl : m.pushes[i]? = some l) (ht : t ∈ l) : ∃ l' : List Task, m'.pushes[i]? = some l' ∧ t ∈ l' := by
  obtain ⟨l', hl'⟩ := h i l hl
  exact ⟨l ++ l', hl', List.mem_append_left _ ht⟩

theorem grows_same (h : SameCalls m m') : Grows m m' := by
  intro i l hl
  exact ⟨[], by rw [h.1, List.append_nil]; exact hl⟩

theorem set_same {β : Type*} {l : List β} {i : Nat} {b : β} (h : l[i]? = some b) :
    l.set i b = l := by
  obtain ⟨hi, rfl⟩ := List.getElem?_eq_some_iff.mp h
  exact List.set_getElem_self hi

theorem serve_same [Station α] {e : Event} (h : Serve m e m') : SameCalls m m' := by
  have hpushes : ∀ {i : Nat} {w v : Worker α}, m.vecWorker[i]? = some w → w.Move e v →
      (m.vecWorker.set i v).map Worker.pushed = m.pushes := by
    intro i w v hw hmove
    rw [List.map_set, Worker.move_pushed hmove]
    exact set_same (by rw [List.getElem?_map, hw]; rfl)
  cases h with
  | move hw hmove => exact ⟨hpushes hw hmove, rfl, rfl, rfl, rfl, rfl⟩
  | complete hw hmove => exact ⟨hpushes hw hmove, rfl, rfl, rfl, rfl, rfl⟩

end Frame

section Add
variable {m m' : Manager α ε} {o : Order} {op : AddOp} {hash : TaskHashFunc} {n : UInt32} {p : Nat}
  {x y : Producer}

theorem pushes_push {i : Nat} {w : Worker α} (t : Task) (h : m.vecWorker[i]? = some w) :
    (m.setWorker i { w with queue := w.queue ++ [t], pushed := w.pushed ++ [t] }).pushes =
      m.pushes.set i (w.pushed ++ [t]) ∧ m.pushes[i]? = some w.pushed := by
  refine ⟨List.map_set, ?_⟩
  rw [pushes, List.getElem?_map, h]
  rfl

theorem routed_select {t : Task} {r : UInt32 × UInt32}
    (hm : m.taskHashFunc = some hash ∧ m.nWorkerCount = n) (h : m.select t = some r) :
    t.Routed hash n r.1.toNat := by
  intro key hkey
  simp only [select, hkey, hm.1, hm.2, Option.map_eq_some_iff] at h
  obtain ⟨pos, hpos, rfl⟩ := h
  exact ⟨pos, hpos, rfl⟩

/-- A producer that goes on has chosen a worker rightly, or the one it had. -/
theorem Routes.move (hm : Routes hash n m) (h : m.producers[p]? = some x)
    (hy : ∀ t i, y.target = some (t, i) → x.target = some (t, i) ∨ t.Routed hash n i) :
    Routes hash n (m.setProducer p y) := by
  refine ⟨hm.installed, hm.pushed, ?_⟩
  intro z hz t i ht
  cases List.mem_or_eq_of_mem_set hz with
  | inl hz => exact hm.chosen z hz t i ht
  | inr hz =>
    rw [hz] at ht
    cases hy t i ht with
    | inl hx => exact hm.chosen x (List.mem_of_getElem? h) t i hx
    | inr hr => exact hr

theorem routes_add (hm : Routes hash n m) (h : AddStep m o op m') : Routes hash n m' := by
  cases h with
  | @AddTask p key hp =>
    have hmove := hm.move (y := .called ⟨m.called, key⟩) hp (by simp [Producer.target])
    exact ⟨hmove.installed, hmove.pushed, hmove.chosen⟩
  | @lock p t r hp hfree hr =>
    have hrouted := routed_select hm.installed hr
    have hmove := hm.move (y := .selected t r.1.toNat) hp (by
      intro u i hcase
      obtain ⟨rfl, rfl⟩ := hcase
      exact Or.inr hrouted)
    exact ⟨hmove.installed, hmove.pushed, hmove.chosen⟩
  | @full p i t hp =>
    have hmove := hm.move (y := .waiting t i) hp fun _ _ => Or.inl
    exact ⟨hmove.installed, hmove.pushed, hmove.chosen⟩
  | check hp => exact hm.move hp fun _ _ => Or.inl
  | pass hp => exact hm.move hp fun _ _ => Or.inl
  | @wake p i t hp =>
    have hmove := hm.move (y := .selected t i) hp fun _ _ => Or.inl
    exact ⟨hmove.installed, hmove.pushed, hmove.chosen⟩
  | @push p i t w hp hw =>
    have htarget : (o.toPush t i).target = some (t, i) := by cases o <;> rfl
    have hmove := hm.move (y := .pushed t i) hp (by
      rw [htarget]
      exact fun _ _ => Or.inl)
    obtain ⟨hset, hget⟩ := pushes_push (m := m.setProducer p (.pushed t i)) t hw
    refine ⟨hm.installed, ?_, hmove.chosen⟩
    intro j l hl u hu
    rw [hset] at hl
    obtain ⟨rfl, rfl⟩ | ⟨-, hl⟩ := getElem?_set_cases hl
    · cases List.mem_append.mp hu with
      | inl hu => exact hm.pushed i w.pushed hget u hu
      | inr hu =>
        rw [List.mem_singleton.mp hu]
        exact hm.chosen _ (List.mem_of_getElem? hp) t i htarget
    · exact hm.pushed j l hl u hu
  | @count p i t hp =>
    have htarget : (o.toCount t i).target = some (t, i) := by cases o <;> rfl
    have hmove := hm.move (y := .counted t i) hp (by
      rw [htarget]
      exact fun _ _ => Or.inl)
    exact ⟨hmove.installed, hmove.pushed, hmove.chosen⟩
  | @leave p i t hp =>
    have hmove := hm.move (y := .idle) hp (by simp [Producer.target])
    exact ⟨hmove.installed, hmove.pushed, hmove.chosen⟩

theorem copies_set (k : Nat) (h : m.producers[p]? = some x) (y : Producer) :
    copies o k (m.setProducer p y) + o.carries k x = m.copies o k + o.carries k y := by
  have hset := total_set (o.carries k) y h
  change total (o.carries k) (m.producers.set p y) + _ + _ = total (o.carries k) m.producers + _ + _
  change total (o.carries k) (m.producers.set p y) + total _ m.pushes + _ = _ + total _ m.pushes + _
  omega

theorem grows_add (h : AddStep m o op m') : Grows m m' := by
  cases h with
  | @push p i t w hp hw =>
    obtain ⟨hset, hget⟩ := pushes_push (m := m.setProducer p (.pushed t i)) t hw
    intro j l hl
    rw [hset]
    by_cases hij : i = j
    · subst hij
      obtain rfl := Option.some.inj (hget.symm.trans hl)
      exact ⟨[t], List.getElem?_set_self (List.getElem?_eq_some_iff.mp hget).1⟩
    · exact ⟨[], by rw [List.getElem?_set_ne hij, List.append_nil]; exact hl⟩
  | AddTask => exact Grows.refl m
  | lock => exact Grows.refl m
  | full => exact Grows.refl m
  | check => exact Grows.refl m
  | pass => exact Grows.refl m
  | wake => exact Grows.refl m
  | count => exact Grows.refl m
  | leave => exact Grows.refl m

/-- A producer that goes on keeps its task. -/
theorem Delivers.move (hm : Delivers o m) (h : m.producers[p]? = some x)
    (hcarries : ∀ k, o.carries k y = o.carries k x)
    (hpushed : ∀ t i, y.target = some (t, i) → o.ahead y.place = 0 →
      x.target = some (t, i) ∧ o.ahead x.place = 0) : Delivers o (m.setProducer p y) := by
  have hcopies : ∀ k, copies o k (m.setProducer p y) = m.copies o k := by
    intro k
    have hset := copies_set (o := o) k h y
    rw [hcarries] at hset
    exact Nat.add_right_cancel hset
  refine ⟨?_, ?_, ?_, hm.returned⟩
  · intro k
    rw [hcopies]
    exact hm.once k
  · intro k hk
    rw [hcopies]
    exact hm.fresh k hk
  · intro z hz t i ht hz0
    cases List.mem_or_eq_of_mem_set hz with
    | inl hz => exact hm.pushed z hz t i ht hz0
    | inr hz =>
      rw [hz] at ht hz0
      obtain ⟨hx, hx0⟩ := hpushed t i ht hz0
      exact hm.pushed x (List.mem_of_getElem? h) t i hx hx0

/-- A call that begins brings the next task. -/
theorem Delivers.call {key : Option (List UInt8)} (hm : Delivers o m)
    (hp : m.producers[p]? = some .idle) :
    Delivers o { m.setProducer p (.called ⟨m.called, key⟩) with called := m.called + 1 } := by
  have hcopies : ∀ k, copies o k (m.setProducer p (.called ⟨m.called, key⟩)) =
      m.copies o k + if m.called = k then 1 else 0 := fun k => copies_set k hp _
  refine ⟨?_, ?_, ?_, hm.returned⟩
  · intro k
    have hk := hcopies k
    have honce := hm.once k
    have hfresh := hm.fresh k
    change copies o k (m.setProducer p (.called ⟨m.called, key⟩)) ≤ 1
    split at hk
    · have := hfresh (by omega)
      omega
    · omega
  · intro k hk
    change m.called + 1 ≤ k at hk
    change copies o k (m.setProducer p (.called ⟨m.called, key⟩)) = 0
    rw [hcopies, hm.fresh k (by omega), if_neg (by omega)]
  · intro z hz t i ht h0
    cases List.mem_or_eq_of_mem_set hz with
    | inl hz => exact hm.pushed z hz t i ht h0
    | inr hz =>
      rw [hz] at ht
      cases ht

/-- The push takes the task from the producer to the worker. -/
theorem copies_push {t : Task} {i : Nat} {w : Worker α} (k : Nat)
    (hp : m.producers[p]? = some (o.toPush t i)) (hw : m.vecWorker[i]? = some w) :
    copies o k ((m.setProducer p (.pushed t i)).setWorker i
      { w with queue := w.queue ++ [t], pushed := w.pushed ++ [t] }) = m.copies o k := by
  obtain ⟨hset, hget⟩ := pushes_push (m := m.setProducer p (.pushed t i)) t hw
  have hprod := copies_set (o := o) k hp (.pushed t i)
  have hpush := total_set (List.countP fun u : Task => decide (u.id = k)) (w.pushed ++ [t]) hget
  have hcarries : o.carries k (o.toPush t i) = if t.id = k then 1 else 0 := by cases o <;> rfl
  have hnone : o.carries k (.pushed t i) = 0 := by simp [Order.carries, Producer.task,
    Producer.place, Order.ahead]
  rw [hcarries, hnone] at hprod
  rw [List.countP_append, List.countP_singleton] at hpush
  rw [copies, hset]
  rw [copies] at hprod
  simp only [decide_eq_true_eq] at hpush
  change total (o.carries k) (m.setProducer p (.pushed t i)).producers + _ = _
  omega

theorem Delivers.push {t : Task} {i : Nat} {w : Worker α} (hm : Delivers o m)
    (hp : m.producers[p]? = some (o.toPush t i)) (hw : m.vecWorker[i]? = some w) :
    Delivers o ((m.setProducer p (.pushed t i)).setWorker i
      { w with queue := w.queue ++ [t], pushed := w.pushed ++ [t] }) := by
  have hgrows := grows_add (.push (o := o) hp hw)
  obtain ⟨hset, hget⟩ := pushes_push (m := m.setProducer p (.pushed t i)) t hw
  refine ⟨?_, ?_, ?_, ?_⟩
  · intro k
    rw [copies_push k hp hw]
    exact hm.once k
  · intro k hk
    rw [copies_push k hp hw]
    exact hm.fresh k hk
  · intro z hz u j hu h0
    cases List.mem_or_eq_of_mem_set hz with
    | inl hz =>
      obtain ⟨l, hl, hmem⟩ := hm.pushed z hz u j hu h0
      exact hgrows.mem hl hmem
    | inr hz =>
      rw [hz] at hu
      cases hu
      refine ⟨w.pushed ++ [t], ?_, List.mem_append_right _ (List.mem_singleton_self t)⟩
      rw [hset, List.getElem?_set_self (List.getElem?_eq_some_iff.mp hget).1]
  · intro u hu
    obtain ⟨j, l, hl, hmem⟩ := hm.returned u hu
    exact ⟨j, hgrows.mem hl hmem⟩

/-- A call that returns has pushed its task. -/
theorem Delivers.leave {t : Task} {i : Nat} (hm : Delivers o m)
    (hp : m.producers[p]? = some (o.toLeave t i)) :
    Delivers o { m.setProducer p .idle with returned := m.returned ++ [t], mutex := none } := by
  have hpushed : ∃ l : List Task, m.pushes[i]? = some l ∧ t ∈ l := by
    apply hm.pushed _ (List.mem_of_getElem? hp) t i
    · cases o <;> rfl
    · cases o <;> rfl
  have hmove : Delivers o (m.setProducer p .idle) := by
    refine hm.move hp (fun k => ?_) (fun _ _ ht => by cases ht)
    cases o <;> simp [Order.carries, Order.toLeave, Producer.task, Producer.place, Order.ahead]
  refine ⟨hmove.once, hmove.fresh, hmove.pushed, ?_⟩
  intro u hu
  cases List.mem_append.mp hu with
  | inl hu => exact hm.returned u hu
  | inr hu =>
    rw [List.mem_singleton.mp hu]
    exact ⟨i, hpushed⟩

theorem delivers_add (hm : Delivers o m) (h : AddStep m o op m') : Delivers o m' := by
  cases h with
  | AddTask hp => exact hm.call hp
  | @lock p t r hp hfree hr =>
    refine delivers_same (m := m.setProducer p (.selected t r.1.toNat)) ?_ ⟨rfl, rfl, rfl, rfl, rfl, rfl⟩
    exact hm.move hp (fun k => rfl) (fun _ _ _ h0 => by cases h0)
  | @full p i t hp =>
    refine delivers_same (m := m.setProducer p (.waiting t i)) ?_ ⟨rfl, rfl, rfl, rfl, rfl, rfl⟩
    exact hm.move hp (fun k => rfl) (fun _ _ ht h0 => ⟨ht, h0⟩)
  | check hp => exact hm.move hp (fun k => rfl) (fun _ _ ht h0 => ⟨ht, h0⟩)
  | @pass p i t hp _ ho =>
    subst ho
    exact hm.move hp (fun k => rfl) (fun _ _ ht h0 => ⟨ht, h0⟩)
  | @wake p i t hp =>
    refine delivers_same (m := m.setProducer p (.selected t i)) ?_ ⟨rfl, rfl, rfl, rfl, rfl, rfl⟩
    exact hm.move hp (fun k => rfl) (fun _ _ ht h0 => ⟨ht, h0⟩)
  | push hp hw => exact hm.push hp hw
  | @count p i t hp =>
    refine delivers_same (m := m.setProducer p (.counted t i)) ?_ ⟨rfl, rfl, rfl, rfl, rfl, rfl⟩
    refine hm.move hp (fun k => ?_) (fun _ _ ht h0 => ?_)
    · cases o <;> rfl
    · cases o with
      | pushFirst => exact ⟨ht, h0⟩
      | countFirst => exact ⟨ht, h0⟩
  | leave hp => exact hm.leave hp

end Add

section Order
variable [Station α] {m m₁ m₂ : Manager α ε} {o : Order} {hash : TaskHashFunc} {n : UInt32}
  {w : Worker α} {t : Task}

omit [Station α] in
theorem pushes_of_mem (hw : w ∈ m.vecWorker) : w.pushed ∈ m.pushes := List.mem_map_of_mem hw

omit [Station α] in
theorem countP_le_copies (hw : w ∈ m.vecWorker) (k : Nat) :
    w.pushed.countP (fun t => decide (t.id = k)) ≤ m.copies o k := by
  have hle := le_total (List.countP fun t : Task => decide (t.id = k)) (pushes_of_mem hw)
  rw [copies]
  omega

omit [Station α] in
theorem pushed_nodup (hm : Delivers o m) (hw : w ∈ m.vecWorker) : w.pushed.Nodup := by
  apply List.nodup_iff_count.mpr
  intro t
  have hcount : w.pushed.count t ≤ w.pushed.countP fun u => decide (u.id = t.id) := by
    apply List.countP_mono_left
    intro u _ hu
    rw [beq_iff_eq.mp hu]
    exact decide_eq_true rfl
  exact Nat.le_trans hcount (Nat.le_trans (countP_le_copies hw t.id) (hm.once t.id))

omit [Station α] in
theorem id_lt_called (hm : Delivers o m) (hw : w ∈ m.vecWorker) (ht : t ∈ w.pushed) :
    t.id < m.called := by
  by_contra hnot
  have hle := countP_le_copies (o := o) hw t.id
  rw [hm.fresh t.id (Nat.le_of_not_lt hnot)] at hle
  have hpos : 0 < w.pushed.countP fun u => decide (u.id = t.id) :=
    List.countP_pos_iff.mpr ⟨t, ht, decide_eq_true rfl⟩
  omega

/-- A task whose call begins when the call of another one with the same key has returned is executed
after it. -/
theorem executed_after {a b : Task} (hd₁ : Delivers o m₁) (hr₁ : Routes hash n m₁)
    (hr₂ : Routes hash n m₂) (hgrows : Grows m₁ m₂) (horder : w.InOrder)
    (ha : a ∈ m₁.returned) (hb : m₁.called ≤ b.id) (hkey : a.key = b.key) (hsome : a.key ≠ none)
    (hw : w ∈ m₂.vecWorker) (hbw : b ∈ w.executed) : [a, b].Sublist w.executed := by
  obtain ⟨j, hj⟩ := List.getElem?_of_mem hw
  have hpushes : m₂.pushes[j]? = some w.pushed := by
    rw [pushes, List.getElem?_map, hj]
    rfl
  have hbpushed : b ∈ w.pushed := by
    rw [← horder, List.append_assoc]
    exact List.mem_append_left _ hbw
  -- both tasks are with the worker `j`
  obtain ⟨i, l, hl, hal⟩ := hd₁.returned a ha
  have hij : i = j := (hr₁.pushed i l hl a hal).inj (hr₂.pushed j w.pushed hpushes b hbpushed) hkey
    hsome
  subst hij
  obtain ⟨l', hl'⟩ := hgrows i l hl
  have hsplit : w.executed ++ (Station.taken w.state ++ w.queue) = l ++ l' := by
    rw [← List.append_assoc, horder]
    exact Option.some.inj (hpushes.symm.trans hl')
  -- the first part of what has been pushed was there before the call for `b`
  have hbl : b ∉ l := by
    intro hmem
    obtain ⟨v, hv, hvl⟩ := List.mem_map.mp (List.mem_of_getElem? hl)
    rw [← hvl] at hmem
    have := id_lt_called hd₁ hv hmem
    omega
  cases List.append_eq_append_iff.mp hsplit with
  | inl h =>
    obtain ⟨r, hlr, -⟩ := h
    exact absurd (by rw [hlr]; exact List.mem_append_left _ hbw) hbl
  | inr h =>
    obtain ⟨r, hwr, -⟩ := h
    rw [hwr] at hbw ⊢
    have hbr : b ∈ r := (List.mem_append.mp hbw).resolve_left hbl
    exact (List.singleton_sublist.mpr hal).append (List.singleton_sublist.mpr hbr)

end Order

section Fresh
variable [Station α] {m : Manager α ε} {o : Order} {hash : TaskHashFunc} {n : UInt32}

theorem Fresh.pushes (hm : Fresh m) {l : List Task} (hl : l ∈ m.pushes) : l = [] := by
  obtain ⟨w, hw, rfl⟩ := List.mem_map.mp hl
  exact (hm.workers w hw).2.1

theorem routes_fresh (hm : Fresh m) (hhash : m.taskHashFunc = some hash)
    (hcount : m.nWorkerCount = n) : Routes hash n m := by
  refine ⟨⟨hhash, hcount⟩, ?_, ?_⟩
  · intro i l hl t ht
    rw [hm.pushes (List.mem_of_getElem? hl)] at ht
    cases ht
  · intro x hx t i ht
    rw [hm.producers x hx] at ht
    cases ht

theorem delivers_fresh (hm : Fresh m) (hreturned : m.returned = []) : Delivers o m := by
  have hnone : ∀ k, m.copies o k = 0 := by
    intro k
    have hprod : total (o.carries k) m.producers = 0 := by
      apply total_eq_zero
      intro x hx
      rw [hm.producers x hx]
      rfl
    have hpush : total (List.countP fun t : Task => decide (t.id = k)) m.pushes = 0 := by
      apply total_eq_zero
      intro l hl
      rw [hm.pushes hl]
      rfl
    rw [copies, hprod, hpush]
  refine ⟨?_, fun k _ => hnone k, ?_, ?_⟩
  · intro k
    rw [hnone]
    exact Nat.zero_le 1
  · intro x hx t i ht
    rw [hm.producers x hx] at ht
    cases ht
  · rw [hreturned]
    intro t ht
    cases ht

end Fresh

end Manager

namespace WorkerPool
open Manager
variable {m m' : WorkerPool} {op : WorkerPoolOp}

/-- A step is one of a producer, or leaves the calls alone. -/
theorem calls_of_step (h : m.step op = some m') :
    (∃ a, AddStep m .pushFirst a m') ∨ SameCalls m m' := by
  cases kind_of_step h with
  | add h => exact Or.inl ⟨_, h⟩
  | quiet h => exact Or.inr (serve_same h)
  | complete _ _ h => exact Or.inr (serve_same h)
  | skip _ _ h => exact Or.inr (serve_same h)
  | store => exact Or.inr ⟨rfl, rfl, rfl, rfl, rfl, rfl⟩

end WorkerPool

namespace BatchWorkerMgr
open Manager
variable {m m' : BatchWorkerMgr} {op : BatchMgrOp}

theorem calls_of_step (h : m.step op = some m') :
    (∃ a, AddStep m .countFirst a m') ∨ SameCalls m m' := by
  cases kind_of_step h with
  | add h => exact Or.inl ⟨_, h⟩
  | serve h => exact Or.inr (serve_same h)

end BatchWorkerMgr

end CppPrivate.Workpool
