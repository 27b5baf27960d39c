import CppPrivate.Workpool.Routing
import CppPrivate.Workpool.TaskCount

/-! The limit of tasks. A producer passes while the counter is not above the product of the two
limits, hence also when as many tasks are outstanding as are allowed. -/
namespace CppPrivate.Workpool
open CppPrivate.Monitor CppPrivate.Run

/-- The producer has passed the limit and is still to push its task. -/
def Order.admitted (o : Order) : Place → Nat
  | .checked => 1
  | .counted => if o = .countFirst then 1 else 0
  | _ => 0

namespace Manager
variable {α ε : Type*}

/-- The number of tasks allowed, without overflow. -/
def limit (m : Manager α ε) : Nat := m.nWorkerMaxTaskCount.toNat * m.nWorkerCount.toNat

/-- The product in 32 bits is smaller than the number of tasks allowed, and the counter can exceed
it. -/
def Wraps (m : Manager α ε) : Prop :=
  2 ^ 32 ≤ m.limit ∧ (m.nWorkerMaxTaskCount * m.nWorkerCount).toNat + 1 < 2 ^ 32

instance (m : Manager α ε) : Decidable m.Wraps := inferInstanceAs (Decidable (_ ∧ _))

/-- No producer tries to pass when as many tasks are outstanding as are allowed, unless the product
wraps. -/
def BelowLimit (m : Manager α ε) : AddOp → Prop
  | .check _ => m.Wraps ∨ m.outstanding ≠ m.limit
  | _ => True

instance (m : Manager α ε) : DecidablePred m.BelowLimit := fun
  | .check _ => inferInstanceAs (Decidable (_ ∨ _))
  | .AddTask _ _ | .lock _ | .wake _ | .push _ | .count _ | .leave _ => isTrue trivial

/-- Every worker that a producer has chosen exists. -/
def Aimed (m : Manager α ε) : Prop :=
  ∀ x ∈ m.producers, ∀ t i, x.target = some (t, i) → i < m.vecWorker.length

/-- At most `b` tasks are outstanding, also when the producers that have passed push theirs. -/
def Within (o : Order) (b : Nat) (m : Manager α ε) : Prop :=
  m.accepted + m.places o.admitted ≤ m.completed + b

section Add
variable {m m' : Manager α ε} {o : Order} {op : AddOp} {b : Nat}

theorem Within.stay {p : Nat} {x y : Producer} (hm : Within o b m) (h : m.producers[p]? = some x)
    (hxy : o.admitted x.place = o.admitted y.place) : Within o b (m.setProducer p y) := by
  have hset := places_set o.admitted h y
  unfold Within at *
  change m.accepted + (m.setProducer p y).places o.admitted ≤ m.completed + b
  omega

/-- The producer at the check is the only one inside. -/
theorem check_alone {p i : Nat} {t : Task} {f : Place → Nat} (hl : Locked m)
    (hf : ∀ c, f c + Place.is .selected c ≤ c.inside)
    (h : m.producers[p]? = some (.selected t i)) : m.places f = 0 :=
  hl.alone hf h Nat.one_pos

theorem admitted_alone {p i : Nat} {t : Task} (hl : Locked m)
    (h : m.producers[p]? = some (.selected t i)) : m.places o.admitted = 0 := by
  refine check_alone hl ?_ h
  intro c
  cases c <;> cases o <;> decide

theorem within_add (hm : Within o b m) (hl : Locked m)
    (henabled : o = .countFirst → m.isEnableMaxTaskCount = true)
    (hcheck : ∀ p t i, op = .check p → m.producers[p]? = some (.selected t i) →
      (m.isEnableMaxTaskCount = true → m.isFull = false) → m.accepted < m.completed + b)
    (h : AddStep m o op m') : Within o b m' := by
  cases h with
  | AddTask hp => exact hm.stay hp rfl
  | lock hp => exact hm.stay hp rfl
  | full hp => exact hm.stay hp rfl
  | @check p i t hp hfull =>
    have hlt := hcheck p t i rfl hp hfull
    have hset := places_set o.admitted hp (.checked t i)
    have hnone : m.places o.admitted = 0 := admitted_alone hl hp
    simp only [Producer.place, Order.admitted] at hset
    change m.accepted + (m.setProducer p (.checked t i)).places o.admitted ≤ m.completed + b
    omega
  | pass _ hnot ho =>
    rw [henabled ho] at hnot
    cases hnot
  | wake hp => exact hm.stay hp rfl
  | @push p i t w hp hw =>
    have hset := places_set o.admitted hp (.pushed t i)
    have haccepted := accepted_push (m := m.setProducer p (.pushed t i)) t hw
    have hone : o.admitted (o.toPush t i).place = 1 := by cases o <;> rfl
    rw [hone] at hset
    simp only [Producer.place, Order.admitted] at hset
    unfold Within at *
    rw [haccepted]
    change m.accepted + 1 + (m.setProducer p (.pushed t i)).places o.admitted ≤ m.completed + b
    omega
  | count hp => exact hm.stay hp (by cases o <;> rfl)
  | leave hp => exact hm.stay hp (by cases o <;> rfl)

theorem Within.mono {c : Nat} (hm : Within o b m) (h : b ≤ c) : Within o c m :=
  Nat.le_trans hm (Nat.add_le_add_left h _)

theorem limit_add (h : AddStep m o op m') :
    m'.nWorkerCount = m.nWorkerCount ∧ m'.nWorkerMaxTaskCount = m.nWorkerMaxTaskCount := by
  cases h <;> exact ⟨rfl, rfl⟩

theorem Aimed.move {p : Nat} {x y : Producer} (hm : Aimed m) (h : m.producers[p]? = some x)
    (hy : ∀ t i, y.target = some (t, i) → x.target = some (t, i) ∨ i < m.vecWorker.length) :
    Aimed (m.setProducer p y) := by
  intro z hz t i ht
  cases List.mem_or_eq_of_mem_set hz with
  | inl hz => exact hm z hz t i ht
  | inr hz =>
    rw [hz] at ht
    cases hy t i ht with
    | inl hx => exact hm x (List.mem_of_getElem? h) t i hx
    | inr hi => exact hi

theorem aimed_same (hm : Aimed m) (hprod : m'.producers = m.producers)
    (hlength : m'.vecWorker.length = m.vecWorker.length) : Aimed m' := by
  rw [Aimed, hprod, hlength]
  exact hm

theorem aimed_add (hm : Aimed m) (h : AddStep m o op m') : Aimed m' := by
  cases h with
  | @AddTask p key hp =>
    have hmove := hm.move (y := .called ⟨m.called, key⟩) hp (by simp [Producer.target])
    exact aimed_same hmove rfl rfl
  | @lock p t r hp _ _ hlt =>
    have hmove := hm.move (y := .selected t r.1.toNat) hp (by
      intro u i hcase
      obtain ⟨rfl, rfl⟩ := hcase
      exact Or.inr hlt)
    exact aimed_same hmove rfl rfl
  | @full p i t hp =>
    have hmove := hm.move (y := .waiting t i) hp fun _ _ => Or.inl
    exact aimed_same hmove rfl rfl
  | check hp => exact hm.move hp fun _ _ => Or.inl
  | pass hp => exact hm.move hp fun _ _ => Or.inl
  | @wake p i t hp =>
    have hmove := hm.move (y := .selected t i) hp fun _ _ => Or.inl
    exact aimed_same hmove rfl rfl
  | @push p i t w hp =>
    have htarget : (o.toPush t i).target = some (t, i) := by cases o <;> rfl
    have hmove := hm.move (y := .pushed t i) hp (by
      rw [htarget]
      exact fun _ _ => Or.inl)
    exact aimed_same hmove rfl List.length_set
  | @count p i t hp =>
    have htarget : (o.toCount t i).target = some (t, i) := by cases o <;> rfl
    have hmove := hm.move (y := .counted t i) hp (by
      rw [htarget]
      exact fun _ _ => Or.inl)
    exact aimed_same hmove rfl rfl
  | leave hp =>
    have hmove := hm.move (y := .idle) hp (by simp [Producer.target])
    exact aimed_same hmove rfl rfl

theorem setProducer_self {p : Nat} {x : Producer} (h : m.producers[p]? = some x) (y : Producer) :
    (m.setProducer p y).producers[p]? = some y :=
  List.getElem?_set_self (List.getElem?_eq_some_iff.mp h).1

/-- A producer that is to push its task to a worker that exists pushes it. -/
theorem exists_push {p i : Nat} {t : Task} (hp : m.producers[p]? = some (o.toPush t i))
    (hi : i < m.vecWorker.length) :
    ∃ u, m.stepAdd o (.push p) = some u ∧ u.accepted = m.accepted + 1 ∧
      u.completed = m.completed := by
  have hw : m.vecWorker[i]? = some m.vecWorker[i] := List.getElem?_eq_getElem hi
  refine ⟨_, ?_, accepted_push (m := m.setProducer p (.pushed t i)) t hw, rfl⟩
  cases o with
  | pushFirst =>
    rw [Order.toPush] at hp
    simp only [stepAdd, hp, hw, Option.map_some]
  | countFirst =>
    rw [Order.toPush] at hp
    simp only [stepAdd, hp, hw, Option.map_some]

theorem not_belowLimit (h : ¬ m.BelowLimit op) :
    ∃ p, op = .check p ∧ m.outstanding = m.limit := by
  cases op with
  | check p =>
    rw [BelowLimit, not_or, not_not] at h
    exact ⟨p, rfl, h.2⟩
  | _ => exact absurd trivial h

theorem outstanding_le (hm : Within o b m) : m.outstanding ≤ b := by
  rw [Within] at hm
  rw [outstanding]
  omega

end Add

section Serve
variable [Station α] {m m' : Manager α ε} {o : Order} {op : AddOp} {e : Event} {b : Nat}

theorem within_serve (hm : Within o b m) (h : Serve m e m') : Within o b m' := by
  obtain ⟨hprod, -, -, haccepted, -⟩ := serve_frame h
  unfold Within at *
  rw [haccepted, places, hprod]
  apply Nat.le_trans hm
  cases h with
  | move => exact Nat.le_refl _
  | complete =>
    change m.completed + b ≤ m.completed + 1 + b
    omega

theorem limit_serve (h : Serve m e m') :
    m'.nWorkerCount = m.nWorkerCount ∧ m'.nWorkerMaxTaskCount = m.nWorkerMaxTaskCount := by
  cases h <;> exact ⟨rfl, rfl⟩

/-- A producer that does not try at the limit passes below it. -/
theorem below_limit (hm : Within o m.limit m) (hs : Served m) (hbelow : m.outstanding ≠ m.limit) :
    m.accepted < m.completed + m.limit := by
  have hle := completed_load hs
  rw [Within] at hm
  rw [outstanding] at hbelow
  omega

/-- While a producer is at the check the counter, in 32 bits, is the number of tasks. -/
theorem counted_alone {p i : Nat} {t : Task} (hm : Sound o m)
    (h : m.producers[p]? = some (.selected t i)) :
    (m.nTaskCount.toNat + m.completed) % 2 ^ 32 = m.accepted % 2 ^ 32 := by
  have htally := hm.tallied
  have huncounted : m.places o.uncounted = 0 := by
    refine check_alone hm.locked ?_ h
    intro c
    cases c <;> cases o <;> decide
  have hprecounted : m.places o.precounted = 0 := by
    refine check_alone hm.locked ?_ h
    intro c
    cases c <;> cases o <;> decide
  rw [Tallied, huncounted, hprecounted] at htally
  exact htally

/-- A producer that the code lets pass finds at most as many tasks as the product in 32 bits. -/
theorem below_isFull {p i : Nat} {t : Task} (hm : Sound o m)
    (hb : Within o ((m.nWorkerMaxTaskCount * m.nWorkerCount).toNat + 1) m)
    (hlt : (m.nWorkerMaxTaskCount * m.nWorkerCount).toNat + 1 < 2 ^ 32)
    (h : m.producers[p]? = some (.selected t i)) (hfull : m.isFull = false) :
    m.accepted < m.completed + ((m.nWorkerMaxTaskCount * m.nWorkerCount).toNat + 1) := by
  have hle := completed_load hm.served
  have htally := counted_alone hm h
  have hcount : m.nTaskCount.toNat ≤ (m.nWorkerMaxTaskCount * m.nWorkerCount).toNat := by
    rw [isFull, decide_eq_false_iff_not, gt_iff_lt, UInt32.lt_iff_toNat_lt] at hfull
    omega
  rw [Within] at hb
  omega

/-- When as many tasks are outstanding as are allowed, the counter is not above the product. -/
theorem isFull_limit {p i : Nat} {t : Task} (hm : Sound o m)
    (hlimit : m.outstanding = m.limit) (h : m.producers[p]? = some (.selected t i)) :
    m.isFull = false := by
  have hcount := counted_alone hm h
  have hle := completed_load hm.served
  have hlt := m.nTaskCount.toNat_lt
  have hproduct : (m.nWorkerMaxTaskCount * m.nWorkerCount).toNat = m.limit % 2 ^ 32 :=
    UInt32.toNat_mul _ _
  rw [isFull, decide_eq_false_iff_not, gt_iff_lt, UInt32.lt_iff_toNat_lt]
  rw [outstanding] at hlimit
  omega

/-- A producer that tries at the limit is let pass. -/
theorem check_limit (hm : Sound o m) (henabled : m.isEnableMaxTaskCount = true)
    (hpass : ¬ m.BelowLimit op) (hs : (m.stepAdd o op).isSome) :
    ∃ p t i, op = .check p ∧ m.producers[p]? = some (.selected t i) ∧ m.outstanding = m.limit ∧
      m.stepAdd o op = some (m.setProducer p (.checked t i)) := by
  obtain ⟨p, rfl, hlimit⟩ := not_belowLimit hpass
  have hselected : ∃ t i, m.producers[p]? = some (.selected t i) := by
    obtain ⟨u, hu⟩ := Option.isSome_iff_exists.mp hs
    cases addStep_of_stepAdd hu with
    | full hp => exact ⟨_, _, hp⟩
    | check hp => exact ⟨_, _, hp⟩
    | pass hp => exact ⟨_, _, hp⟩
  obtain ⟨t, i, hp⟩ := hselected
  refine ⟨p, t, i, rfl, hp, hlimit, ?_⟩
  simp [stepAdd, hp, henabled, isFull_limit hm hlimit hp]

theorem aimed_serve (hm : Aimed m) (h : Serve m e m') : Aimed m' := by
  apply aimed_same hm (serve_frame h).1
  cases h with
  | move => exact List.length_set
  | complete => exact List.length_set

omit [Station α] in
theorem aimed_fresh (hm : ∀ x ∈ m.producers, x = .idle) : Aimed m := by
  intro x hx t i ht
  rw [hm x hx] at ht
  cases ht

theorem within_fresh (hm : Fresh m) : Within o b m := by
  rw [Within, hm.accepted, hm.places _ rfl]
  exact Nat.zero_le _

end Serve

end Manager

namespace WorkerPool
open Manager
variable {n max : UInt32} {callback : Bool} {hash : Option TaskHashFunc} {threads b : Nat}
  {m m' : WorkerPool} {op : WorkerPoolOp} {ops : List WorkerPoolOp}
  {C : WorkerPool → WorkerPoolOp → Prop}

def BelowLimit (m : WorkerPool) : WorkerPoolOp → Prop
  | .add op => Manager.BelowLimit m op
  | _ => True

instance (m : WorkerPool) : DecidablePred (BelowLimit m) := fun
  | .add op => inferInstanceAs (Decidable (Manager.BelowLimit m op))
  | .pop _ | .Execute _ _ | .uncount _ | .callback _ | .complete _ | .skip _
  | .ResetTaskFailedCount | .EnableMaxTaskCount => isTrue trivial

theorem within_step (hm : Within .pushFirst b m) (hl : Locked m)
    (hcheck : ∀ p t i, op = .add (.check p) → m.producers[p]? = some (.selected t i) →
      (m.isEnableMaxTaskCount = true → m.isFull = false) → m.accepted < m.completed + b)
    (h : m.step op = some m') : Within .pushFirst b m' := by
  cases kind_of_step h with
  | add h =>
    refine within_add hm hl (by simp) ?_ h
    intro p t i hop
    exact hcheck p t i (by rw [hop])
  | quiet h => exact within_serve hm h
  | complete _ _ h => exact within_serve hm h
  | skip _ _ h => exact within_serve hm h
  | store => exact hm

def Fixed (n max : UInt32) (m : WorkerPool) : Prop :=
  m.nWorkerCount = n ∧ m.nWorkerMaxTaskCount = max ∧ m.isEnableMaxTaskCount = true

theorem fixed_step (hm : Fixed n max m) (h : m.step op = some m') : Fixed n max m' := by
  obtain ⟨hn, hmax, henabled⟩ := hm
  cases stepped_of_step h with
  | add h => exact ⟨(limit_add h).1.trans hn, (limit_add h).2.trans hmax,
      (addStep_enabled h).trans henabled⟩
  | pop => exact ⟨hn, hmax, henabled⟩
  | Execute => exact ⟨hn, hmax, henabled⟩
  | uncount => exact ⟨hn, hmax, henabled⟩
  | callback => exact ⟨hn, hmax, henabled⟩
  | complete => exact ⟨hn, hmax, henabled⟩
  | skip => exact ⟨hn, hmax, henabled⟩
  | ResetTaskFailedCount => exact ⟨hn, hmax, henabled⟩
  | EnableMaxTaskCount => exact ⟨hn, hmax, rfl⟩

theorem fixed (h : Runs step C (started n max true callback hash threads) ops m) :
    Fixed n max m := by
  apply h.invariant (Fixed n max) ⟨rfl, rfl, rfl⟩
  intro m op m' hm _ hs
  exact fixed_step hm hs

theorem limit_eq (h : Runs step C (started n max true callback hash threads) ops m) :
    m.limit = max.toNat * n.toNat := by
  obtain ⟨hn, hmax, -⟩ := fixed h
  rw [limit, hn, hmax]

theorem wraps_iff (h : Runs step C (started n max true callback hash threads) ops m) :
    m.Wraps ↔ 2 ^ 32 ≤ max.toNat * n.toNat ∧ (max * n).toNat + 1 < 2 ^ 32 := by
  obtain ⟨hn, hmax, -⟩ := fixed h
  rw [Wraps, limit, hn, hmax]

theorem aimed (h : Runs step C (started n max enabled callback hash threads) ops m) :
    Aimed m := by
  apply h.invariant Aimed
  · exact aimed_fresh fresh_started.producers
  · intro m op m' hm _ hs
    cases kind_of_step hs with
    | add h => exact aimed_add hm h
    | quiet h => exact aimed_serve hm h
    | complete _ _ h => exact aimed_serve hm h
    | skip _ _ h => exact aimed_serve hm h
    | store => exact hm

/-- A producer that tries at the limit passes it with its next step. -/
theorem exceeds (h : Runs step C (started n max true callback hash threads) ops m)
    (hpass : ¬ BelowLimit m op) (hs : (m.step op).isSome) :
    ∃ l u, Runs step (fun _ _ => True) m (op :: l) u ∧
      u.outstanding = max.toNat * n.toNat + 1 := by
  cases op with
  | add a =>
    obtain ⟨p, t, i, -, hp, hlimit, hcheck⟩ := check_limit (sound h) (fixed h).2.2 hpass hs
    have hi := aimed h _ (List.mem_of_getElem? hp) t i rfl
    have hle := completed_load (sound h).served
    obtain ⟨u, hpush, haccepted, hcompleted⟩ :=
      exists_push (o := .pushFirst) (setProducer_self hp (.checked t i)) hi
    refine ⟨[.add (.push p)], u, .cons trivial hcheck (Runs.nil.snoc trivial hpush), ?_⟩
    change u.accepted = m.accepted + 1 at haccepted
    change u.completed = m.completed at hcompleted
    rw [limit_eq h, outstanding] at hlimit
    rw [outstanding]
    omega
  | _ => exact absurd trivial hpass

/-- In every run the code exceeds the product in 32 bits by one task at most. -/
theorem within_succ (hlt : (max * n).toNat + 1 < 2 ^ 32)
    (h : Runs step C (started n max true callback hash threads) ops m) :
    Within .pushFirst ((max * n).toNat + 1) m := by
  induction h with
  | nil => exact within_fresh fresh_started
  | @snoc ops m m' op hr _ hs ih =>
    obtain ⟨hn, hmax, henabled⟩ := fixed hr
    apply within_step ih (sound hr).locked _ hs
    intro p t i _ hp hfull
    rw [← hn, ← hmax] at ih hlt ⊢
    exact below_isFull (sound hr) ih hlt hp (hfull henabled)

/-- If no producer tries at the limit, or the product wraps, the limit holds. -/
theorem within (h : Runs step BelowLimit (started n max true callback hash threads) ops m) :
    Within .pushFirst (max.toNat * n.toNat) m := by
  by_cases hwrap : 2 ^ 32 ≤ max.toNat * n.toNat ∧ (max * n).toNat + 1 < 2 ^ 32
  · obtain ⟨hlimit, hlt⟩ := hwrap
    exact (within_succ hlt h).mono (by omega)
  induction h with
  | nil => exact within_fresh fresh_started
  | @snoc ops m m' op hr hbelow hs ih =>
    apply within_step ih (sound hr).locked _ hs
    intro p t i hop _ _
    rw [hop] at hbelow
    have hne := Or.resolve_left hbelow fun hm => hwrap ((wraps_iff hr).mp hm)
    rw [← limit_eq hr] at ih ⊢
    exact below_limit ih (sound hr).served hne

end WorkerPool

namespace BatchWorkerMgr
open Manager
variable {n max : UInt32} {state : BatchMgrState} {hash : Option TaskHashFunc} {threads b : Nat}
  {m m' : BatchWorkerMgr} {op : BatchMgrOp} {ops : List BatchMgrOp}
  {C : BatchWorkerMgr → BatchMgrOp → Prop}

def BelowLimit (m : BatchWorkerMgr) : BatchMgrOp → Prop
  | .add op => Manager.BelowLimit m op
  | _ => True

instance (m : BatchWorkerMgr) : DecidablePred (BelowLimit m) := fun
  | .add op => inferInstanceAs (Decidable (Manager.BelowLimit m op))
  | .worker _ _ => isTrue trivial

theorem within_step (hm : Within .countFirst b m) (hs : Sound .countFirst m)
    (hcheck : ∀ p t i, op = .add (.check p) → m.producers[p]? = some (.selected t i) →
      m.isFull = false → m.accepted < m.completed + b)
    (h : m.step op = some m') : Within .countFirst b m' := by
  cases kind_of_step h with
  | add h =>
    refine within_add hm hs.locked hs.enabled ?_ h
    intro p t i hop hp hfull
    exact hcheck p t i (by rw [hop]) hp (hfull (hs.enabled rfl))
  | serve h => exact within_serve hm h

def Fixed (n max : UInt32) (m : BatchWorkerMgr) : Prop :=
  m.nWorkerCount = n ∧ m.nWorkerMaxTaskCount = max

theorem fixed (h : Runs step C (started n max state true hash threads) ops m) :
    Fixed n max m := by
  apply h.invariant (Fixed n max) ⟨rfl, rfl⟩
  intro m op m' hm _ hs
  cases kind_of_step hs with
  | add h => exact ⟨(limit_add h).1.trans hm.1, (limit_add h).2.trans hm.2⟩
  | serve h => exact ⟨(limit_serve h).1.trans hm.1, (limit_serve h).2.trans hm.2⟩

theorem limit_eq (h : Runs step C (started n max state true hash threads) ops m) :
    m.limit = max.toNat * n.toNat := by
  obtain ⟨hn, hmax⟩ := fixed h
  rw [limit, hn, hmax]

theorem wraps_iff (h : Runs step C (started n max state true hash threads) ops m) :
    m.Wraps ↔ 2 ^ 32 ≤ max.toNat * n.toNat ∧ (max * n).toNat + 1 < 2 ^ 32 := by
  obtain ⟨hn, hmax⟩ := fixed h
  rw [Wraps, limit, hn, hmax]

theorem aimed (h : Runs step C (started n max state true hash threads) ops m) : Aimed m := by
  apply h.invariant Aimed
  · exact aimed_fresh fresh_started.producers
  · intro m op m' hm _ hs
    cases kind_of_step hs with
    | add h => exact aimed_add hm h
    | serve h => exact aimed_serve hm h

/-- A producer that tries at the limit counts its task and then passes it. -/
theorem exceeds (h : Runs step C (started n max state true hash threads) ops m)
    (hpass : ¬ BelowLimit m op) (hs : (m.step op).isSome) :
    ∃ l u, Runs step (fun _ _ => True) m (op :: l) u ∧
      u.outstanding = max.toNat * n.toNat + 1 := by
  cases op with
  | add a =>
    obtain ⟨p, t, i, -, hp, hlimit, hcheck⟩ :=
      check_limit (sound h) ((sound h).enabled rfl) hpass hs
    have hi := aimed h _ (List.mem_of_getElem? hp) t i rfl
    have hle := completed_load (sound h).served
    have hchecked := setProducer_self hp (.checked t i)
    let v : BatchWorkerMgr := { (m.setProducer p (.checked t i)).setProducer p (.counted t i) with
      nTaskCount := m.nTaskCount + 1 }
    have hcount : (m.setProducer p (.checked t i)).stepAdd .countFirst (.count p) = some v := by
      simp only [stepAdd, hchecked]
      rfl
    obtain ⟨u, hpush, haccepted, hcompleted⟩ :=
      exists_push (m := v) (o := .countFirst) (setProducer_self hchecked (.counted t i)) hi
    refine ⟨[.add (.count p), .add (.push p)], u,
      .cons trivial hcheck (.cons trivial hcount (Runs.nil.snoc trivial hpush)), ?_⟩
    change u.accepted = m.accepted + 1 at haccepted
    change u.completed = m.completed at hcompleted
    rw [limit_eq h, outstanding] at hlimit
    rw [outstanding]
    omega
  | worker => exact absurd trivial hpass

theorem within_succ (hlt : (max * n).toNat + 1 < 2 ^ 32)
    (h : Runs step C (started n max state true hash threads) ops m) :
    Within .countFirst ((max * n).toNat + 1) m := by
  induction h with
  | nil => exact within_fresh fresh_started
  | @snoc ops m m' op hr _ hs ih =>
    obtain ⟨hn, hmax⟩ := fixed hr
    apply within_step ih (sound hr) _ hs
    intro p t i _ hp hfull
    rw [← hn, ← hmax] at ih hlt ⊢
    exact below_isFull (sound hr) ih hlt hp hfull

theorem within (h : Runs step BelowLimit (started n max state true hash threads) ops m) :
    Within .countFirst (max.toNat * n.toNat) m := by
  by_cases hwrap : 2 ^ 32 ≤ max.toNat * n.toNat ∧ (max * n).toNat + 1 < 2 ^ 32
  · obtain ⟨hlimit, hlt⟩ := hwrap
    exact (within_succ hlt h).mono (by omega)
  induction h with
  | nil => exact within_fresh fresh_started
  | @snoc ops m m' op hr hbelow hs ih =>
    apply within_step ih (sound hr) _ hs
    intro p t i hop _ _
    rw [hop] at hbelow
    have hne := Or.resolve_left hbelow fun hm => hwrap ((wraps_iff hr).mp hm)
    rw [← limit_eq hr] at ih ⊢
    exact below_limit ih (sound hr).served hne

end BatchWorkerMgr

/-- Whatever the producers do, the product in 32 bits is exceeded by one task at most; and if none
of them tries to pass when as many tasks are outstanding as are allowed, or the product wraps, there
are never more than are allowed. A producer that does try then is let through, and there are more
as soon as it has pushed its task. -/
theorem limit_kept (n max : UInt32) (hash : Option TaskHashFunc) (threads : Nat) :
    (∀ (callback : Bool) (ops : List WorkerPoolOp) (m : WorkerPool),
      (Runs WorkerPool.step (fun _ _ => True)
          (WorkerPool.started n max true callback hash threads) ops m →
        ((max * n).toNat + 1 < 2 ^ 32 → m.outstanding ≤ (max * n).toNat + 1) ∧
        ∀ op, ¬ WorkerPool.BelowLimit m op → (m.step op).isSome →
          ∃ l u, Runs WorkerPool.step (fun _ _ => True) m (op :: l) u ∧
            u.outstanding = max.toNat * n.toNat + 1) ∧
      (Runs WorkerPool.step WorkerPool.BelowLimit
          (WorkerPool.started n max true callback hash threads) ops m →
        m.outstanding ≤ max.toNat * n.toNat)) ∧
    ∀ (state : BatchMgrState) (ops : List BatchMgrOp) (m : BatchWorkerMgr),
      (Runs BatchWorkerMgr.step (fun _ _ => True)
          (BatchWorkerMgr.started n max state true hash threads) ops m →
        ((max * n).toNat + 1 < 2 ^ 32 → m.outstanding ≤ (max * n).toNat + 1) ∧
        ∀ op, ¬ BatchWorkerMgr.BelowLimit m op → (m.step op).isSome →
          ∃ l u, Runs BatchWorkerMgr.step (fun _ _ => True) m (op :: l) u ∧
            u.outstanding = max.toNat * n.toNat + 1) ∧
      (Runs BatchWorkerMgr.step BatchWorkerMgr.BelowLimit
          (BatchWorkerMgr.started n max state true hash threads) ops m →
        m.outstanding ≤ max.toNat * n.toNat) := by
  refine ⟨?_, ?_⟩
  · intro callback ops m
    refine ⟨?_, fun h => Manager.outstanding_le (WorkerPool.within h)⟩
    intro h
    exact ⟨fun hlt => Manager.outstanding_le (WorkerPool.within_succ hlt h),
      fun op => WorkerPool.exceeds h⟩
  · intro state ops m
    refine ⟨?_, fun h => Manager.outstanding_le (BatchWorkerMgr.within h)⟩
    intro h
    exact ⟨fun hlt => Manager.outstanding_le (BatchWorkerMgr.within_succ hlt h),
      fun op => BatchWorkerMgr.exceeds h⟩

def addOps (p : Nat) : List WorkerPoolOp :=
  [.add (.AddTask p none), .add (.lock p), .add (.check p), .add (.push p), .add (.count p),
   .add (.leave p)]

def addBatchOps (p : Nat) : List BatchMgrOp :=
  [.add (.AddTask p none), .add (.lock p), .add (.check p), .add (.count p), .add (.push p),
   .add (.leave p)]

/-- The producer comes back with a second task and stands at the check. -/
def secondOps (p : Nat) : List WorkerPoolOp :=
  addOps p ++ [.add (.AddTask p none), .add (.lock p)]

def secondBatchOps (p : Nat) : List BatchMgrOp :=
  addBatchOps p ++ [.add (.AddTask p none), .add (.lock p)]

theorem limit_kept_one :
    (∃ m, Runs WorkerPool.step WorkerPool.BelowLimit (WorkerPool.started 1 1 true false none 1)
      (addOps 0) m ∧ m.outstanding = 1 ∧
        m.outstanding ≤ (1 : UInt32).toNat * (1 : UInt32).toNat) ∧
    (∃ m, Runs BatchWorkerMgr.step BatchWorkerMgr.BelowLimit
      (BatchWorkerMgr.started 1 1 ⟨8, 0, true⟩ true none 1) (addBatchOps 0) m ∧
        m.outstanding = 1 ∧ m.outstanding ≤ (1 : UInt32).toNat * (1 : UInt32).toNat) ∧
    (∃ m, Runs WorkerPool.step (fun _ _ => True) (WorkerPool.started 1 1 true false none 1)
      (addOps 0 ++ addOps 0) m ∧ m.outstanding = 2 ∧
        m.outstanding ≤ ((1 : UInt32) * 1).toNat + 1) ∧
    (∃ m, Runs WorkerPool.step (fun _ _ => True) (WorkerPool.started 1 1 true false none 1)
      (secondOps 0) m ∧ ∃ l u, Runs WorkerPool.step (fun _ _ => True) m (.add (.check 0) :: l) u ∧
        u.outstanding = (1 : UInt32).toNat * (1 : UInt32).toNat + 1) ∧
    ∃ m, Runs BatchWorkerMgr.step (fun _ _ => True)
      (BatchWorkerMgr.started 1 1 ⟨8, 0, true⟩ true none 1) (secondBatchOps 0) m ∧
        ∃ l u, Runs BatchWorkerMgr.step (fun _ _ => True) m (.add (.check 0) :: l) u ∧
          u.outstanding = (1 : UInt32).toNat * (1 : UInt32).toNat + 1 := by
  have hpool : ((exec WorkerPool.step WorkerPool.BelowLimit
      (WorkerPool.started 1 1 true false none 1) (addOps 0)).any
        fun m => decide (m.outstanding = 1)) = true := by decide
  have hbatch : ((exec BatchWorkerMgr.step BatchWorkerMgr.BelowLimit
      (BatchWorkerMgr.started 1 1 ⟨8, 0, true⟩ true none 1) (addBatchOps 0)).any
        fun m => decide (m.outstanding = 1)) = true := by decide
  have htwo : ((exec WorkerPool.step (fun _ _ => True)
      (WorkerPool.started 1 1 true false none 1) (addOps 0 ++ addOps 0)).any
        fun m => decide (m.outstanding = 2)) = true := by decide
  have hsecond : ((exec WorkerPool.step (fun _ _ => True)
      (WorkerPool.started 1 1 true false none 1) (secondOps 0)).any fun m =>
        decide (¬ m.BelowLimit (.add (.check 0)) ∧ (m.step (.add (.check 0))).isSome)) = true := by
    decide
  have hsecond' : ((exec BatchWorkerMgr.step (fun _ _ => True)
      (BatchWorkerMgr.started 1 1 ⟨8, 0, true⟩ true none 1) (secondBatchOps 0)).any fun m =>
        decide (¬ m.BelowLimit (.add (.check 0)) ∧ (m.step (.add (.check 0))).isSome)) = true := by
    decide
  obtain ⟨m, hm, hone⟩ := exists_of_exec hpool
  obtain ⟨b, hb, hone'⟩ := exists_of_exec hbatch
  obtain ⟨u, hu, htwo'⟩ := exists_of_exec htwo
  obtain ⟨v, hv, htry⟩ := exists_of_exec hsecond
  obtain ⟨w, hw, htry'⟩ := exists_of_exec hsecond'
  obtain ⟨hpass, hstep⟩ := of_decide_eq_true htry
  obtain ⟨hpass', hstep'⟩ := of_decide_eq_true htry'
  obtain ⟨h1, h2⟩ := limit_kept 1 1 none 1
  exact ⟨⟨m, hm, of_decide_eq_true hone, (h1 _ _ _).2 hm⟩,
    ⟨b, hb, of_decide_eq_true hone', (h2 _ _ _).2 hb⟩,
    ⟨u, hu, of_decide_eq_true htwo', ((h1 _ _ _).1 hu).1 (by decide)⟩,
    ⟨v, hv, ((h1 _ _ _).1 hv).2 _ hpass hstep⟩,
    ⟨w, hw, ((h2 _ _ _).1 hw).2 _ hpass' hstep'⟩⟩

/-- With one worker and one task for each worker, two tasks are accepted. -/
theorem limit_exceeded :
    (∃ m, Runs WorkerPool.step (fun _ _ => True) (WorkerPool.started 1 1 true false none 1)
      (addOps 0 ++ addOps 0) m ∧ m.accepted = 2 ∧ m.completed = 0 ∧ m.limit = 1) ∧
    ∃ m, Runs BatchWorkerMgr.step (fun _ _ => True)
      (BatchWorkerMgr.started 1 1 ⟨8, 0, true⟩ true none 1) (addBatchOps 0 ++ addBatchOps 0) m ∧
        m.accepted = 2 ∧ m.completed = 0 ∧ m.limit = 1 := by
  have hpool : ((exec WorkerPool.step (fun _ _ => True)
      (WorkerPool.started 1 1 true false none 1) (addOps 0 ++ addOps 0)).any
        fun m => decide (m.accepted = 2 ∧ m.completed = 0 ∧ m.limit = 1)) = true := by decide
  have hbatch : ((exec BatchWorkerMgr.step (fun _ _ => True)
      (BatchWorkerMgr.started 1 1 ⟨8, 0, true⟩ true none 1) (addBatchOps 0 ++ addBatchOps 0)).any
        fun m => decide (m.accepted = 2 ∧ m.completed = 0 ∧ m.limit = 1)) = true := by decide
  obtain ⟨m, hm, hcounts⟩ := exists_of_exec hpool
  obtain ⟨b, hb, hcounts'⟩ := exists_of_exec hbatch
  exact ⟨⟨m, hm, of_decide_eq_true hcounts⟩, ⟨b, hb, of_decide_eq_true hcounts'⟩⟩

end CppPrivate.Workpool
