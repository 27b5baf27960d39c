import CppPrivate.Lib.Chain
import CppPrivate.Lib.Simulation
import Mathlib.Algebra.Group.Nat.Defs
import Mathlib.Data.Fintype.Card

/-! The list that carries the accepted connections to their worker. Its links lie in the nodes
themselves. Every call holds the list's mutex throughout, so the calls of all threads form one
sequence. -/
namespace CppPrivate.Tcp
open Simulation

abbrev Ptr := UInt64

def null : Ptr := 0

/-- The list, with the fields `next` and `prev` of every node there is. -/
structure CSyncList where
  next : Ptr → Ptr
  prev : Ptr → Ptr
  m_first : Ptr
  m_last : Ptr
  m_nCount : UInt64

namespace CSyncList

/-- `p->next = v`. -/
def setNext (s : CSyncList) (p v : Ptr) : Option CSyncList :=
  if p = null then none else some { s with next := Function.update s.next p v }

/-- `p->prev = v`. -/
def setPrev (s : CSyncList) (p v : Ptr) : Option CSyncList :=
  if p = null then none else some { s with prev := Function.update s.prev p v }

/-- The constructor; the nodes are as their owners left them. -/
def new (next prev : Ptr → Ptr) : CSyncList := ⟨next, prev, null, null, 0⟩

def linkTail (s : CSyncList) (newNode : Ptr) : Option CSyncList := do
  let s ← if s.m_first ≠ null then do
      let s ← s.setNext s.m_last newNode
      s.setPrev newNode s.m_last
    else do
      let s ← s.setPrev newNode null
      some { s with m_first := newNode }
  let s ← s.setNext newNode null
  some { s with m_last := newNode }

def AddTail (s : CSyncList) (newNode : Ptr) : Option CSyncList := do
  let s ← s.linkTail newNode
  some { s with m_nCount := s.m_nCount + 1 }

def GetHeadAndRemove (s : CSyncList) : Option (CSyncList × Ptr) :=
  if s.m_first ≠ null then do
    let pRet := s.m_first
    let s ← if s.m_first = s.m_last then some { s with m_last := null }
      else s.setPrev (s.next pRet) null
    some ({ s with m_first := s.next pRet, m_nCount := s.m_nCount - 1 }, pRet)
  else some (s, null)

def linkHead (s : CSyncList) (newNode : Ptr) : Option CSyncList := do
  let s ← s.setPrev newNode null
  let s ← if s.m_first ≠ null then do
      let s ← s.setNext newNode s.m_first
      s.setPrev s.m_first newNode
    else do
      let s ← s.setNext newNode null
      some { s with m_last := newNode }
  some { s with m_first := newNode }

/-- The node goes before `istNode`, which has a node before it. -/
def linkBefore (s : CSyncList) (istNode newNode : Ptr) : Option CSyncList := do
  let s ← s.setNext newNode istNode
  let s ← s.setPrev newNode (s.prev istNode)
  let s ← s.setNext (s.prev istNode) newNode
  s.setPrev istNode newNode

def Insert (s : CSyncList) (istNode newNode : Ptr) : Option CSyncList := do
  let s ← if s.m_first = istNode then s.linkHead newNode
    else if null = istNode then s.linkTail newNode
    else s.linkBefore istNode newNode
  some { s with m_nCount := s.m_nCount + 1 }

def Clear (s : CSyncList) : CSyncList := { s with m_first := null, m_last := null, m_nCount := 0 }

end CSyncList

/-- A call on the list, or a write of an owner to the links of its own node. -/
inductive ListOp where
  | addTail (newNode : Ptr)
  | insert (istNode newNode : Ptr)
  | getHeadAndRemove
  | clear
  | relink (node next prev : Ptr)

/-- The call, with the pointer it returns if it returns one. -/
def CSyncList.call (s : CSyncList) : ListOp → Option (CSyncList × Option Ptr)
  | .addTail newNode => (s.AddTail newNode).map fun s => (s, none)
  | .insert istNode newNode => (s.Insert istNode newNode).map fun s => (s, none)
  | .getHeadAndRemove => s.GetHeadAndRemove.map fun r => (r.1, some r.2)
  | .clear => some (s.Clear, none)
  | .relink node next prev =>
    some ({ s with
      next := Function.update s.next node next
      prev := Function.update s.prev node prev }, none)

/-- What the list is for: a sequence of nodes. -/
abbrev NodeSeq := List Ptr

namespace NodeSeq

def insert (l : NodeSeq) (istNode newNode : Ptr) : NodeSeq :=
  if istNode = null then l ++ [newNode]
  else l.takeWhile (· ≠ istNode) ++ newNode :: l.dropWhile (· ≠ istNode)

def call (l : NodeSeq) : ListOp → NodeSeq × Option Ptr
  | .addTail newNode => (l ++ [newNode], none)
  | .insert istNode newNode => (l.insert istNode newNode, none)
  | .getHeadAndRemove => (l.tail, some (l.headD null))
  | .clear => ([], none)
  | .relink .. => (l, none)

/-- New nodes are not in the list, a position is null or in it. -/
def Allows (l : NodeSeq) : ListOp → Prop
  | .addTail newNode => newNode ≠ null ∧ newNode ∉ l
  | .insert istNode newNode => newNode ≠ null ∧ newNode ∉ l ∧ (istNode = null ∨ istNode ∈ l)
  | .relink node _ _ => node ∉ l
  | .getHeadAndRemove | .clear => True

instance (l : NodeSeq) : (op : ListOp) → Decidable (l.Allows op)
  | .addTail newNode => inferInstanceAs (Decidable (newNode ≠ null ∧ newNode ∉ l))
  | .insert istNode newNode => inferInstanceAs
      (Decidable (newNode ≠ null ∧ newNode ∉ l ∧ (istNode = null ∨ istNode ∈ l)))
  | .relink node _ _ => inferInstanceAs (Decidable (node ∉ l))
  | .getHeadAndRemove | .clear => inferInstanceAs (Decidable True)

/-- The position comes right after the new node, and nothing else moves. -/
theorem insert_eq {l l' : List Ptr} {istNode : Ptr} (newNode : Ptr) (hist : istNode ≠ null)
    (hl : istNode ∉ l) :
    insert (l ++ istNode :: l') istNode newNode = l ++ newNode :: istNode :: l' := by
  have hall : ∀ a ∈ l, decide (a ≠ istNode) = true := by
    intro a ha
    rw [decide_eq_true_iff]
    intro heq
    subst heq
    exact hl ha
  rw [insert, if_neg hist, List.takeWhile_append_of_pos hall, List.dropWhile_append_of_pos hall]
  simp

theorem insert_perm (l : NodeSeq) (istNode newNode : Ptr) :
    (l.insert istNode newNode).Perm (newNode :: l) := by
  rw [insert]
  split
  · exact List.perm_append_singleton newNode l
  · refine List.perm_middle.trans ?_
    rw [List.takeWhile_append_dropWhile]

/-- The nodes that a call puts into the list. -/
def entering : ListOp → List Ptr
  | .addTail newNode | .insert _ newNode => [newNode]
  | .getHeadAndRemove | .clear | .relink .. => []

/-- The nodes that a call takes out of the list. -/
def leaving (l : NodeSeq) : ListOp → List Ptr
  | .getHeadAndRemove => l.take 1
  | .clear => l
  | .addTail _ | .insert .. | .relink .. => []

/-- A call neither loses nor doubles a node. -/
theorem call_perm (l : NodeSeq) (op : ListOp) :
    ((l.call op).1 ++ l.leaving op).Perm (l ++ entering op) := by
  cases op with
  | addTail newNode => simp [call, leaving, entering]
  | insert istNode newNode =>
    simpa [call, leaving, entering] using
      (insert_perm l istNode newNode).trans (List.perm_append_singleton newNode l).symm
  | getHeadAndRemove =>
    cases l with
    | nil => exact List.Perm.refl _
    | cons a l => simp [call, leaving, entering]
  | clear => simp [call, leaving, entering]
  | relink node next prev => simp [call, leaving, entering]

def leavingAll : NodeSeq → List ListOp → List Ptr
  | _, [] => []
  | l, op :: ops => l.leaving op ++ leavingAll (l.call op).1 ops

theorem specAll_perm (l : NodeSeq) (ops : List ListOp) :
    ((specAll call l ops).1 ++ leavingAll l ops).Perm (l ++ ops.flatMap entering) := by
  induction ops generalizing l with
  | nil => simp [specAll, leavingAll]
  | cons op ops ih =>
    have hone := (call_perm l op).append_right (ops.flatMap entering)
    have hrest := (ih (l.call op).1).append_right (l.leaving op)
    simp only [specAll, leavingAll, List.flatMap_cons]
    rw [← List.append_assoc l]
    refine List.Perm.trans ?_ ((hrest.trans ?_).trans hone)
    · rw [List.append_assoc]
      exact List.perm_append_comm.append_left _
    · rw [List.append_assoc, List.append_assoc]
      exact List.perm_append_comm.append_left _

end NodeSeq

namespace CSyncList
variable {s : CSyncList} {l : NodeSeq} {newNode istNode : Ptr}

theorem linkTail_first (hfirst : s.m_first = null) (hnode : newNode ≠ null) :
    s.linkTail newNode = some ⟨Function.update s.next newNode null,
      Function.update s.prev newNode null, newNode, newNode, s.m_nCount⟩ := by
  simp [linkTail, setNext, setPrev, hfirst, hnode]

theorem linkTail_behind (hfirst : s.m_first ≠ null) (hlast : s.m_last ≠ null)
    (hnode : newNode ≠ null) :
    s.linkTail newNode = some ⟨Function.update (Function.update s.next s.m_last newNode) newNode null,
      Function.update s.prev newNode s.m_last, s.m_first, newNode, s.m_nCount⟩ := by
  simp [linkTail, setNext, setPrev, hfirst, hlast, hnode]

theorem linkHead_first (hfirst : s.m_first = null) (hnode : newNode ≠ null) :
    s.linkHead newNode = s.linkTail newNode := by
  simp [linkHead, linkTail, setNext, setPrev, hfirst, hnode]

theorem linkHead_before (hfirst : s.m_first ≠ null) (hnode : newNode ≠ null) :
    s.linkHead newNode = some ⟨Function.update s.next newNode s.m_first,
      Function.update (Function.update s.prev newNode null) s.m_first newNode,
      newNode, s.m_last, s.m_nCount⟩ := by
  simp [linkHead, setNext, setPrev, hfirst, hnode]

theorem linkBefore_eq (hist : istNode ≠ null) (hnode : newNode ≠ null) (hne : istNode ≠ newNode)
    (hprev : s.prev istNode ≠ null) :
    s.linkBefore istNode newNode = some ⟨
      Function.update (Function.update s.next newNode istNode) (s.prev istNode) newNode,
      Function.update (Function.update s.prev newNode (s.prev istNode)) istNode newNode,
      s.m_first, s.m_last, s.m_nCount⟩ := by
  simp [linkBefore, setNext, setPrev, hist, hnode, hne, hprev]

theorem getHeadAndRemove_only {a : Ptr} (hfirst : s.m_first = a) (ha : a ≠ null)
    (hlast : s.m_last = a) :
    s.GetHeadAndRemove = some (⟨s.next, s.prev, s.next a, null, s.m_nCount - 1⟩, a) := by
  simp [GetHeadAndRemove, hfirst, ha, hlast]

theorem getHeadAndRemove_more {a b : Ptr} (hfirst : s.m_first = a) (ha : a ≠ null)
    (hlast : s.m_last ≠ a) (hnext : s.next a = b) (hb : b ≠ null) :
    s.GetHeadAndRemove =
      some (⟨s.next, Function.update s.prev b null, b, s.m_last, s.m_nCount - 1⟩, a) := by
  simp [GetHeadAndRemove, setPrev, hfirst, ha, hlast.symm, hnext, hb]

/-- The links of the list run through the nodes of `l`, and back. -/
structure Linked (s : CSyncList) (l : NodeSeq) : Prop where
  forward : Path s.next s.m_first l null
  backward : Path s.prev s.m_last l.reverse null
  nodup : l.Nodup
  valid : null ∉ l

namespace Linked

theorem first_eq {a : Ptr} (h : Linked s (a :: l)) : s.m_first = a := h.forward.1

theorem first_null (h : Linked s []) : s.m_first = null := h.forward

theorem last_eq {b : Ptr} (h : Linked s (l ++ [b])) : s.m_last = b := by
  have hback := h.backward
  rw [List.reverse_append] at hback
  exact hback.1

theorem first_ne (h : Linked s l) (hl : l ≠ []) : s.m_first ≠ null := by
  cases l with
  | nil => exact absurd rfl hl
  | cons a l =>
    rw [h.first_eq]
    intro heq
    subst heq
    exact h.valid List.mem_cons_self

theorem linkTail (h : Linked s l) (hnode : newNode ≠ null) (hnew : newNode ∉ l) :
    ∃ t, s.linkTail newNode = some t ∧ Linked t (l ++ [newNode]) ∧ t.m_nCount = s.m_nCount := by
  have hnodup : (l ++ [newNode]).Nodup := by simpa using h.nodup.concat hnew
  have hvalid : null ∉ l ++ [newNode] := by simpa using ⟨h.valid, hnode.symm⟩
  rcases List.eq_nil_or_concat l with rfl | ⟨l, b, rfl⟩
  · refine ⟨_, linkTail_first h.first_null hnode, ⟨?_, ?_, hnodup, hvalid⟩, rfl⟩
    · exact ⟨rfl, Function.update_self _ _ _⟩
    · exact ⟨rfl, Function.update_self _ _ _⟩
  · rw [List.concat_eq_append] at *
    have hlast := h.last_eq
    have hb : b ≠ null := by
      intro heq
      subst heq
      exact h.valid (by simp)
    have hbn : b ≠ newNode := by
      intro heq
      subst heq
      exact hnew (by simp)
    have hbl : b ∉ l := by
      have := h.nodup
      rw [List.nodup_append] at this
      intro hm
      exact this.2.2 b hm b (by simp) rfl
    refine ⟨_, linkTail_behind (h.first_ne (by simp)) (hlast ▸ hb) hnode,
      ⟨?_, ?_, hnodup, hvalid⟩, rfl⟩
    · have hfront := h.forward.redirect
        (g := Function.update (Function.update s.next s.m_last newNode) newNode null) ?_
      · refine hfront.append ⟨?_, Function.update_self _ _ _⟩
        rw [Function.update_of_ne hbn, hlast, Function.update_self]
      · intro d hd
        rw [Function.update_of_ne, Function.update_of_ne]
        · intro heq
          subst heq
          exact hbl (hlast ▸ hd)
        · intro heq
          subst heq
          exact hnew (by simp [hd])
    · have hback := h.backward.congr (g := Function.update s.prev newNode s.m_last) ?_
      · rw [List.reverse_concat]
        refine ⟨rfl, ?_⟩
        simpa only [Function.update_self] using hback
      · intro d hd
        refine Function.update_of_ne ?_ _ _
        intro heq
        subst heq
        exact hnew (List.mem_reverse.mp hd)

theorem linkHead {a : Ptr} (h : Linked s (a :: l)) (hnode : newNode ≠ null)
    (hnew : newNode ∉ a :: l) :
    ∃ t, s.linkHead newNode = some t ∧ Linked t (newNode :: a :: l) ∧ t.m_nCount = s.m_nCount := by
  have hnodup : (newNode :: a :: l).Nodup := List.nodup_cons.mpr ⟨hnew, h.nodup⟩
  have hvalid : null ∉ newNode :: a :: l := by
    rw [List.mem_cons, not_or]
    exact ⟨hnode.symm, h.valid⟩
  have hfirst := h.first_eq
  have hna : newNode ≠ a := by
    intro heq
    subst heq
    exact hnew List.mem_cons_self
  refine ⟨_, linkHead_before (h.first_ne (by simp)) hnode, ⟨?_, ?_, hnodup, hvalid⟩, rfl⟩
  · have hfront := h.forward.congr (g := Function.update s.next newNode s.m_first) ?_
    · refine ⟨rfl, ?_⟩
      simpa only [Function.update_self] using hfront
    · intro d hd
      refine Function.update_of_ne ?_ _ _
      intro heq
      subst heq
      exact hnew hd
  · have hback := h.backward
    rw [List.reverse_cons] at hback
    have hback := hback.redirect
      (g := Function.update (Function.update s.prev newNode null) s.m_first newNode) ?_
    · rw [List.reverse_cons, List.reverse_cons]
      refine hback.append ⟨?_, ?_⟩
      · rw [hfirst, Function.update_self]
      · rw [hfirst, Function.update_of_ne hna, Function.update_self]
        rfl
    · intro d hd
      rw [Function.update_of_ne, Function.update_of_ne]
      · intro heq
        subst heq
        exact hnew (List.mem_cons_of_mem _ (List.mem_reverse.mp hd))
      · intro heq
        subst heq
        exact (List.nodup_cons.mp h.nodup).1 (hfirst ▸ List.mem_reverse.mp hd)

theorem linkBefore {a : Ptr} {l' : List Ptr} (h : Linked s (l ++ a :: istNode :: l'))
    (hnode : newNode ≠ null) (hnew : newNode ∉ l ++ a :: istNode :: l') :
    ∃ t, s.linkBefore istNode newNode = some t ∧
      Linked t (l ++ a :: newNode :: istNode :: l') ∧ t.m_nCount = s.m_nCount := by
  have hperm : (l ++ a :: newNode :: istNode :: l').Perm (newNode :: (l ++ a :: istNode :: l')) := by
    have hmiddle : (l ++ [a] ++ newNode :: (istNode :: l')).Perm
        (newNode :: (l ++ [a] ++ istNode :: l')) := List.perm_middle
    simpa using hmiddle
  have hnodup := hperm.nodup_iff.mpr (List.nodup_cons.mpr ⟨hnew, h.nodup⟩)
  have hvalid : null ∉ l ++ a :: newNode :: istNode :: l' := by
    rw [hperm.mem_iff, List.mem_cons, not_or]
    exact ⟨hnode.symm, h.valid⟩
  have hback := h.backward
  have hrev : (l ++ a :: istNode :: l').reverse = l'.reverse ++ istNode :: a :: l.reverse := by simp
  rw [hrev] at hback
  have hprev : s.prev istNode = a := hback.next_eq
  have hnd := List.nodup_append.mp h.nodup
  have hne : ∀ {d}, d ∈ l ++ a :: istNode :: l' → d ≠ newNode := by
    intro d hd heq
    subst heq
    exact hnew hd
  have hist : istNode ≠ null := by
    intro heq
    subst heq
    exact h.valid (by simp)
  have ha : a ≠ null := by
    intro heq
    subst heq
    exact h.valid (by simp)
  have hia : istNode ≠ a := by
    intro heq
    subst heq
    simpa using hnd.2.1
  refine ⟨_, linkBefore_eq hist hnode (hne (by simp)) (hprev ▸ ha), ⟨?_, ?_, hnodup, hvalid⟩, rfl⟩
  · refine h.forward.insert ?_ ?_ ?_ ?_
    · intro d hd
      simp only
      rw [hprev, Function.update_of_ne, Function.update_of_ne (hne (by simp [hd]))]
      intro heq
      subst heq
      exact hnd.2.2 d hd d (by simp) rfl
    · intro d hd
      simp only
      rw [hprev, Function.update_of_ne, Function.update_of_ne (hne (by simp at hd; simp [hd]))]
      intro heq
      subst heq
      exact (List.nodup_cons.mp hnd.2.1).1 hd
    · simp only
      rw [hprev, Function.update_self]
    · simp only
      rw [hprev, Function.update_of_ne (hne (by simp)).symm, Function.update_self]
  · have hrev' : (l ++ a :: newNode :: istNode :: l').reverse =
        l'.reverse ++ istNode :: newNode :: a :: l.reverse := by simp
    rw [hrev']
    refine hback.insert ?_ ?_ ?_ ?_
    · intro d hd
      have hd' := List.mem_reverse.mp hd
      simp only
      rw [Function.update_of_ne, Function.update_of_ne (hne (by simp [hd']))]
      intro heq
      subst heq
      exact (List.nodup_cons.mp (List.nodup_cons.mp hnd.2.1).2).1 hd'
    · intro d hd
      simp only [List.mem_cons, List.mem_reverse] at hd
      simp only
      rw [Function.update_of_ne, Function.update_of_ne]
      · refine hne ?_
        rcases hd with rfl | hd
        · simp
        · simp [hd]
      · intro heq
        subst heq
        rcases hd with rfl | hd
        · exact hia rfl
        · exact hnd.2.2 d hd d (by simp) rfl
    · simp only
      rw [Function.update_self]
    · simp only
      rw [hprev, Function.update_of_ne (hne (by simp)).symm, Function.update_self]

theorem getHeadAndRemove {a : Ptr} (h : Linked s (a :: l)) :
    ∃ t, s.GetHeadAndRemove = some (t, a) ∧ Linked t l ∧ t.m_nCount = s.m_nCount - 1 := by
  have ha : a ≠ null := by
    intro heq
    subst heq
    exact h.valid List.mem_cons_self
  obtain ⟨hal, hnodup⟩ := List.nodup_cons.mp h.nodup
  have hvalid : null ∉ l := fun hm => h.valid (List.mem_cons_of_mem _ hm)
  have hforward := h.forward.2
  cases l with
  | nil =>
    have hlast : s.m_last = a := h.last_eq (l := [])
    exact ⟨_, getHeadAndRemove_only h.first_eq ha hlast, ⟨hforward, (rfl : null = null), hnodup,
      hvalid⟩, rfl⟩
  | cons b l =>
    have hb : b ≠ null := by
      intro heq
      subst heq
      exact hvalid List.mem_cons_self
    have hlast : s.m_last ≠ a := by
      rcases List.eq_nil_or_concat (b :: l) with hl | ⟨l', c, hl⟩
      · cases hl
      · rw [List.concat_eq_append] at hl
        rw [hl] at h hal
        rw [h.last_eq (l := a :: l')]
        intro heq
        subst heq
        exact hal (by simp)
    have hback := h.backward
    rw [List.reverse_cons, List.reverse_cons] at hback
    obtain ⟨m, hback, -⟩ := hback.split
    have hback := hback.redirect (g := Function.update s.prev b null) ?_
    · refine ⟨_, getHeadAndRemove_more h.first_eq ha hlast hforward.1 hb, ⟨?_, ?_, hnodup, hvalid⟩,
        rfl⟩
      · exact ⟨rfl, hforward.2⟩
      · rw [Function.update_self] at hback
        rw [List.reverse_cons]
        exact hback
    · intro d hd
      refine Function.update_of_ne ?_ _ _
      intro heq
      subst heq
      exact (List.nodup_cons.mp hnodup).1 (List.mem_reverse.mp hd)

/-- Writes to the links of other nodes do no harm. -/
theorem relink {node next prev : Ptr} (h : Linked s l) (hnode : node ∉ l) :
    Linked { s with
      next := Function.update s.next node next
      prev := Function.update s.prev node prev } l := by
  have hne : ∀ {d}, d ∈ l → d ≠ node := by
    intro d hd heq
    subst heq
    exact hnode hd
  refine ⟨?_, ?_, h.nodup, h.valid⟩
  · exact h.forward.congr fun d hd => Function.update_of_ne (hne hd) _ _
  · exact h.backward.congr fun d hd => Function.update_of_ne (hne (List.mem_reverse.mp hd)) _ _

theorem insert (h : Linked s l) (hallow : l.Allows (.insert istNode newNode)) :
    ∃ t, s.Insert istNode newNode = some t ∧ Linked t (l.insert istNode newNode) ∧
      t.m_nCount = s.m_nCount + 1 := by
  obtain ⟨hnode, hnew, hist⟩ := hallow
  by_cases hnull : istNode = null
  · subst hnull
    obtain ⟨t, ht, hl, hcount⟩ := h.linkTail hnode hnew
    refine ⟨{ t with m_nCount := t.m_nCount + 1 }, ?_, ?_, by rw [hcount]⟩
    · by_cases hfirst : s.m_first = null
      · simp [Insert, hfirst, linkHead_first hfirst hnode, ht]
      · simp [Insert, hfirst, ht]
    · rw [NodeSeq.insert, if_pos rfl]
      exact ⟨hl.forward, hl.backward, hl.nodup, hl.valid⟩
  · obtain ⟨l, l', rfl⟩ := List.append_of_mem (hist.resolve_left hnull)
    have hnotin : istNode ∉ l := by
      intro hm
      exact (List.nodup_append.mp h.nodup).2.2 istNode hm istNode (by simp) rfl
    rw [NodeSeq.insert_eq newNode hnull hnotin]
    rcases List.eq_nil_or_concat l with rfl | ⟨l, a, rfl⟩
    · obtain ⟨t, ht, hl, hcount⟩ := h.linkHead hnode hnew
      have hfirst : s.m_first = istNode := h.first_eq (l := l')
      refine ⟨{ t with m_nCount := t.m_nCount + 1 }, ?_, ?_, by rw [hcount]⟩
      · simp [Insert, hfirst, ht]
      · exact ⟨hl.forward, hl.backward, hl.nodup, hl.valid⟩
    · rw [List.concat_eq_append, List.append_assoc] at *
      have hfirst : s.m_first ≠ istNode := by
        cases l with
        | nil =>
          rw [h.first_eq (l := istNode :: l')]
          intro heq
          subst heq
          exact hnotin (by simp)
        | cons b l =>
          rw [h.first_eq]
          intro heq
          subst heq
          exact hnotin (by simp)
      obtain ⟨t, ht, hl, hcount⟩ := h.linkBefore hnode hnew
      refine ⟨{ t with m_nCount := t.m_nCount + 1 }, ?_, ?_, by rw [hcount]⟩
      · simp [Insert, hfirst, Ne.symm hnull, ht]
      · exact ⟨hl.forward, hl.backward, hl.nodup, hl.valid⟩

/-- There are fewer nodes than addresses. -/
theorem length_lt (h : Linked s l) : l.length + 1 ≤ 2 ^ 64 := by
  have hnodup : (null :: l).Nodup := List.nodup_cons.mpr ⟨h.valid, h.nodup⟩
  have hinj : Function.Injective UInt64.toFin := fun a b => UInt64.toFin_inj.mp
  have hle := (hnodup.map hinj).length_le_card
  rw [Fintype.card_fin, List.length_map] at hle
  exact hle

end Linked

/-- The list is the sequence `l`: its links run through it, and its counter counts it. -/
structure Represents (s : CSyncList) (l : NodeSeq) : Prop extends Linked s l where
  count : s.m_nCount.toNat = l.length

/-- Each call does to the list what it does to the sequence. -/
theorem Represents.call {op : ListOp} (h : Represents s l) (hallow : l.Allows op) :
    ∃ t, s.call op = some (t, (l.call op).2) ∧ Represents t (l.call op).1 := by
  have hone : ∀ {t : CSyncList} {l' : NodeSeq}, Linked t l' → t.m_nCount = s.m_nCount + 1 →
      l'.length = l.length + 1 → Represents t l' := by
    intro t l' ht hcount hlen
    refine ⟨ht, ?_⟩
    have hlt := ht.length_lt
    rw [hcount, UInt64.toNat_add, h.count, hlen]
    exact Nat.mod_eq_of_lt (by rw [UInt64.toNat_one]; omega)
  cases op with
  | addTail newNode =>
    obtain ⟨t, ht, hl, hcount⟩ := h.linkTail hallow.1 hallow.2
    refine ⟨{ t with m_nCount := t.m_nCount + 1 }, by simp [CSyncList.call, AddTail, ht, NodeSeq.call], ?_⟩
    exact hone ⟨hl.forward, hl.backward, hl.nodup, hl.valid⟩ (by rw [hcount]) (by simp [NodeSeq.call])
  | insert istNode newNode =>
    obtain ⟨t, ht, hl, hcount⟩ := h.insert hallow
    refine ⟨t, by simp [CSyncList.call, ht, NodeSeq.call], hone hl hcount ?_⟩
    exact (NodeSeq.insert_perm l istNode newNode).length_eq
  | getHeadAndRemove =>
    cases l with
    | nil =>
      have hfirst := h.first_null
      exact ⟨s, by simp [CSyncList.call, GetHeadAndRemove, hfirst, NodeSeq.call], h⟩
    | cons a l =>
      obtain ⟨t, ht, hl, hcount⟩ := h.getHeadAndRemove
      refine ⟨t, by simp [CSyncList.call, ht, NodeSeq.call], hl, ?_⟩
      have hlen := h.count
      rw [List.length_cons] at hlen
      rw [hcount, UInt64.toNat_sub_of_le]
      · simp [hlen, NodeSeq.call]
      · rw [UInt64.le_iff_toNat_le, hlen]
        simp
  | clear =>
    exact ⟨s.Clear, rfl, ⟨rfl, rfl, List.nodup_nil, List.not_mem_nil⟩, rfl⟩
  | relink node next prev => exact ⟨_, rfl, h.relink hallow, h.count⟩

/-- Whatever calls are made with nodes that are not in the list, it remains one sequence that no
node is lost from and no node is twice in. -/
theorem syncList_refines (next prev : Ptr → Ptr) {ops : List ListOp}
    (hops : AllowsAll NodeSeq.call NodeSeq.Allows [] ops) :
    ∃ s, callAll call (new next prev) ops = some (s, (specAll NodeSeq.call [] ops).2) ∧
      s.Represents (specAll NodeSeq.call [] ops).1 ∧
      ((specAll NodeSeq.call [] ops).1 ++ NodeSeq.leavingAll [] ops).Perm
        (ops.flatMap NodeSeq.entering) := by
  have hnew : (new next prev).Represents [] := ⟨⟨rfl, rfl, List.nodup_nil, List.not_mem_nil⟩, rfl⟩
  have hcall : ∀ (s : CSyncList) (l : NodeSeq) (op : ListOp), s.Represents l → l.Allows op →
      ∃ t, s.call op = some (t, (l.call op).2) ∧ t.Represents (l.call op).1 := fun _ _ _ h => h.call
  obtain ⟨s, hs, hr⟩ := callAll_refines Represents hcall hnew hops
  exact ⟨s, hs, hr, NodeSeq.specAll_perm [] ops⟩

/-- Nodes go to the end, to the middle and to the front, and two of them are taken. -/
def mixedOps : List ListOp :=
  [.addTail 10, .insert null 20, .insert 20 30, .relink 40 10 10, .insert 10 40, .getHeadAndRemove,
    .getHeadAndRemove]

theorem syncList_refines_mixed : ∃ s,
    callAll call (new (fun _ => 7) (fun _ => 7)) mixedOps =
      some (s, [none, none, none, none, none, some 40, some 10]) ∧
    s.Represents [30, 20] := by
  have hops : AllowsAll NodeSeq.call NodeSeq.Allows [] mixedOps := by decide
  have hspec : specAll NodeSeq.call [] mixedOps =
      ([30, 20], [none, none, none, none, none, some 40, some 10]) := by decide
  obtain ⟨s, hs, hr, -⟩ := syncList_refines (fun _ => 7) (fun _ => 7) hops
  rw [hspec] at hs hr
  exact ⟨s, hs, hr⟩

end CSyncList
end CppPrivate.Tcp
