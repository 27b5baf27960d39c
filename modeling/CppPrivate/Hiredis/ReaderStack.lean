import CppPrivate.Hiredis.Reader

/-! The tasks and the unfinished reply of the reader, computed from the aggregates it is inside
of. -/
namespace CppPrivate.Hiredis
open Redis

mutual

def ofReply : redisReply → Object
  | .array l => .aggregate .ARRAY (ofReplies l)
  | .map l => .aggregate .MAP (ofReplies l)
  | .set l => .aggregate .SET (ofReplies l)
  | .push l => .aggregate .PUSH (ofReplies l)
  | .string s => .leaf (.string s)
  | .status s => .leaf (.status s)
  | .error s => .leaf (.error s)
  | .double s => .leaf (.double s)
  | .verb s => .leaf (.verb s)
  | .integer n => .leaf (.integer n)
  | .bool b => .leaf (.bool b)
  | .nil => .leaf .nil

def ofReplies : List redisReply → List (Option Object)
  | [] => []
  | r :: l => some (ofReply r) :: ofReplies l

end

theorem ofReplies_eq (l : List redisReply) : ofReplies l = l.map fun r => some (ofReply r) := by
  induction l with
  | nil => rfl
  | cons r l ih => rw [ofReplies, ih, List.map_cons]

theorem ofReply_aggregate {type : REDIS_REPLY} (h : IsAggregate type) (l : List redisReply) :
    ofReply (aggregate type l) = .aggregate type (l.map fun r => some (ofReply r)) := by
  obtain rfl | rfl | rfl | rfl := h <;> rw [← ofReplies_eq] <;> rfl

namespace Unfinished

/-- The elements of an aggregate of which some are read, with what stands in the next place. -/
def slots (f : Unfinished) (next : Option Object) : Object :=
  .aggregate f.type (f.done.map (fun r => some (ofReply r)) ++
    next :: List.replicate (f.total - f.done.length - 1) none)

def Fits (f : Unfinished) : Prop := f.done.length < f.total ∧ IsAggregate f.type

def here : List Unfinished → Int
  | [] => -1
  | f :: _ => f.done.length

/-- The way from the root to an element of the innermost aggregate. -/
def way : List Unfinished → List Nat
  | [] => []
  | f :: fs => way fs ++ [f.done.length]

def stack : List Unfinished → List redisReadTask
  | [] => []
  | f :: fs => ⟨some f.type, f.total, here fs, some (way fs)⟩ :: stack fs

/-- The reply in which an object stands in the next place of the innermost aggregate. -/
def plug : List Unfinished → Object → Object
  | [], o => o
  | f :: fs, o => plug fs (f.slots (some o))

def built : List Unfinished → Option Object
  | [] => none
  | f :: fs => some (plug fs (f.slots none))

variable {f : Unfinished} {fs fs' : List Unfinished} {o : Object} {place : List Nat}
  {act : Object → Except Fault Object}

theorem getElem?_slots (f : Unfinished) (next : Option Object) (tail : List (Option Object)) :
    (f.done.map (fun r => some (ofReply r)) ++ next :: tail)[f.done.length]? = some next := by
  rw [List.getElem?_append_right (by rw [List.length_map]), List.length_map, Nat.sub_self,
    List.getElem?_cons_zero]

theorem set_slots (f : Unfinished) (next other : Option Object) (tail : List (Option Object)) :
    (f.done.map (fun r => some (ofReply r)) ++ next :: tail).set f.done.length other =
      f.done.map (fun r => some (ofReply r)) ++ other :: tail := by
  rw [List.set_append_right _ _ (by rw [List.length_map]), List.length_map, Nat.sub_self,
    List.set_cons_zero]

theorem update_slots (f : Unfinished) (o : Object) (place : List Nat) :
    (f.slots (some o)).update (f.done.length :: place) act =
      (o.update place act).map fun o => f.slots (some o) := by
  rw [slots, Object.update, getElem?_slots]
  dsimp only
  cases o.update place act with
  | error e => rfl
  | ok o' => rw [Except.map, Except.map, set_slots, slots]

/-- What a change does behind the way to the innermost aggregate. -/
theorem update_plug (fs : List Unfinished) (o : Object) (place : List Nat) :
    (plug fs o).update (way fs ++ place) act = (o.update place act).map (plug fs) := by
  induction fs generalizing o place with
  | nil =>
    rw [way, List.nil_append, plug]
    cases o.update place act <;> rfl
  | cons f fs ih =>
    rw [plug, way, List.append_assoc, List.singleton_append, ih, update_slots]
    cases o.update place act <;> rfl

/-- An element is written into the next place. -/
theorem setElement_slots {parents : List REDIS_REPLY} (hf : f.type ∈ parents) (o : Object) :
    Object.setElement parents f.done.length o (f.slots none) = .ok (f.slots (some o)) := by
  rw [slots, Object.setElement, if_neg (not_not_intro hf), if_pos, Int.toNat_natCast, set_slots]
  · rfl
  · rw [List.length_append, List.length_map, List.length_cons]
    omega

/-- The last element makes an aggregate complete. -/
theorem slots_last (hf : f.Fits) (hlast : f.done.length + 1 = f.total) (r : redisReply) :
    f.slots (some (ofReply r)) = ofReply (aggregate f.type (f.done ++ [r])) := by
  have hnone : f.total - f.done.length - 1 = 0 := by omega
  rw [ofReply_aggregate hf.2, slots, hnone, List.map_append]
  rfl

/-- Before the last element the next place is free. -/
theorem slots_more (hmore : f.done.length + 1 < f.total) (r : redisReply) :
    f.slots (some (ofReply r)) = { f with done := f.done ++ [r] }.slots none := by
  have hnone : f.total - f.done.length - 1 = f.total - (f.done ++ [r]).length - 1 + 1 := by
    rw [List.length_append, List.length_singleton]
    omega
  rw [slots, slots, hnone, List.replicate_succ, List.map_append, List.append_assoc]
  rfl

/-- The reply after an element, or the complete one. -/
def Left (fs : List Unfinished) (out : List redisReply) (reply : Option Object) : Prop :=
  match fs with
  | [] => ∃ r, out = [r] ∧ reply = some (ofReply r)
  | f :: fs => out = [] ∧ reply = built (f :: fs)

/-- What is complete in the reply is an aggregate or more, as it is read. -/
theorem left_finish {out : List redisReply} {r : redisReply} (hfs : ∀ f ∈ fs, f.Fits)
    (h : finish fs r = .ok (fs', out)) : Left fs' out (some (plug fs (ofReply r))) := by
  induction fs generalizing r with
  | nil =>
    cases h
    exact ⟨r, rfl, rfl⟩
  | cons f fs ih =>
    rw [List.forall_mem_cons] at hfs
    obtain ⟨hf, hfs⟩ := hfs
    rw [finish] at h
    rw [plug]
    by_cases hlast : f.done.length + 1 = f.total
    · rw [if_pos hlast] at h
      rw [slots_last hf hlast]
      exact ih hfs h
    · have hmore : f.done.length + 1 < f.total := Nat.lt_of_le_of_ne hf.1 hlast
      rw [if_neg hlast] at h
      split at h
      · cases h
      · cases h
        rw [slots_more hmore]
        exact ⟨rfl, rfl⟩

theorem fits_finish {out : List redisReply} {r : redisReply} (hfs : ∀ f ∈ fs, f.Fits)
    (h : finish fs r = .ok (fs', out)) : ∀ f ∈ fs', f.Fits := by
  induction fs generalizing r with
  | nil =>
    cases h
    exact hfs
  | cons f fs ih =>
    rw [List.forall_mem_cons] at hfs
    obtain ⟨hf, hfs⟩ := hfs
    rw [finish] at h
    by_cases hlast : f.done.length + 1 = f.total
    · rw [if_pos hlast] at h
      exact ih hfs h
    · rw [if_neg hlast] at h
      split at h
      · cases h
      · cases h
        rw [List.forall_mem_cons]
        refine ⟨⟨?_, hf.2⟩, hfs⟩
        have hle := hf.1
        rw [List.length_append, List.length_singleton]
        exact Nat.lt_of_le_of_ne hle hlast

theorem length_stack (fs : List Unfinished) : (stack fs).length = fs.length := by
  induction fs with
  | nil => rfl
  | cons f fs ih => rw [stack, List.length_cons, ih, List.length_cons]

theorem length_finish {out : List redisReply} {r : redisReply} (h : finish fs r = .ok (fs', out)) :
    fs'.length ≤ fs.length := by
  induction fs generalizing r with
  | nil =>
    cases h
    exact Nat.le_refl _
  | cons f fs ih =>
    rw [finish] at h
    split at h
    · exact Nat.le_succ_of_le (ih h)
    · split at h
      · cases h
      · cases h
        exact Nat.le_refl _

/-- The stack after an element: nothing where the reply is complete, else a task that reads the
next. -/
def Tasks (fs : List Unfinished) (task : List redisReadTask) : Prop :=
  match fs with
  | [] => task = []
  | f :: fs => ∃ obj, task = ⟨none, -1, here (f :: fs), obj⟩ :: stack (f :: fs)

/-- The tasks go on as the aggregates do. -/
theorem nextTask_stack {cur : redisReadTask} (hfs : ∀ f ∈ fs, f.Fits) (hcur : cur.idx = here fs)
    (r : redisReply) : match finish fs r with
      | .ok (fs', _) => ∃ task, nextTask (cur :: stack fs) = .ok task ∧ Tasks fs' task
      | .error e => nextTask (cur :: stack fs) = .error e := by
  induction fs generalizing cur r with
  | nil => exact ⟨[], rfl, rfl⟩
  | cons f fs ih =>
    rw [List.forall_mem_cons] at hfs
    obtain ⟨hf, hfs⟩ := hfs
    have htype : some f.type ∈ [some REDIS_REPLY.ARRAY, some .MAP, some .SET, some .PUSH] := by
      obtain h | h | h | h := hf.2 <;> rw [h] <;> decide
    have hlt := hf.1
    rw [here] at hcur
    rw [stack, finish, nextTask, if_neg (not_not_intro htype)]
    dsimp only
    by_cases hlast : f.done.length + 1 = f.total
    · rw [if_pos hlast, if_pos (by omega)]
      exact ih hfs rfl _
    · have hidx : ¬ cur.idx = (f.total : Int) - 1 := by omega
      have hmore : ¬ (f.total : Int) ≤ cur.idx := by omega
      rw [if_neg hlast, if_neg hidx, if_neg hmore]
      by_cases hover : 2 ^ 31 ≤ f.done.length + 1
      · rw [if_pos hover, if_pos (by omega)]
      · rw [if_neg hover, if_neg (by omega)]
        refine ⟨_, rfl, cur.obj, ?_⟩
        rw [here, stack, List.length_append, List.length_singleton, hcur]
        rfl

end Unfinished
end CppPrivate.Hiredis
