import CppPrivate.Hiredis.ReaderStack

/-! What the reader does with an item is what the protocol says. -/
namespace CppPrivate.Hiredis
open Redis
open Incremental
open Unfinished (here way stack plug built)
open redisReader (errstr)

/-- There is memory for the tasks of `depth` aggregates and for that of a value in them. The number
of tasks is an `int`, and there are nine more at a time. -/
structure Room (depth tasks : Nat) : Prop where
  above : depth < tasks
  nines : REDIS_READER_STACK_SIZE ∣ tasks
  int : tasks < 2 ^ 31

structure Stands (r : redisReader) (s : Resp) : Prop where
  err : r.err = none
  fits : ∀ f ∈ s.frames, f.Fits
  task : ∃ elements obj, r.task = ⟨s.type, elements, here s.frames, obj⟩ :: stack s.frames
  reply : s.frames ≠ [] → r.reply = built s.frames
  pos : r.pos ≤ r.buf.length
  tasks : Room s.frames.length r.tasks
  deep : ∀ type ∈ s.type, ¬ TooDeep s.frames type

/-- The reader after an element: the reply is complete, or the next element is to be read. -/
structure Received (r : redisReader) (fs : List Unfinished) (out : List redisReply) : Prop where
  err : r.err = none
  fits : ∀ f ∈ fs, f.Fits
  task : Unfinished.Tasks fs r.task
  left : Unfinished.Left fs out r.reply
  pos : r.pos ≤ r.buf.length
  tasks : Room fs.length r.tasks

def Agrees (result : Except Fault (redisReader × Bool)) (s : Resp) (l : Bytes) : Prop :=
  match s.step l with
  | .took t out rest =>
    t.type = none ∧ ∃ r, result = .ok (r, true) ∧ Received r t.frames out ∧ r.unread = rest
  | .wants => ∃ r, result = .ok (r, false) ∧ Stands r s ∧ r.unread = l
  | .failed (.error str) => ∃ r, result = .ok (r, false) ∧ r.err = some (errstr str)
  | .failed (.fault f) => result = .error f

section Step
variable {r : redisReader} {s : Resp} {fs : List Unfinished} {type : REDIS_REPLY}
  {parents : List REDIS_REPLY} {pos : Nat}

theorem readLine_eq (hpos : r.pos ≤ r.buf.length) (hlen : r.unread.length ≤ 2 ^ 31) :
    match cutLine r.unread with
    | none => r.readLine = .ok none
    | some (line, rest) => if 2 ^ 31 ≤ line.length + 2 then r.readLine = .error .overflow
      else ∃ pos, r.readLine = .ok (some (line, { r with pos })) ∧
        pos ≤ r.buf.length ∧ r.buf.drop pos = rest := by
  rw [redisReader.readLine, seekNewline_eq hlen, cutLine]
  cases hfind : Pattern.find CRLF r.unread with
  | none => rfl
  | some n =>
    have hle : n + 2 ≤ r.unread.length := Pattern.find_le hfind
    have hline : (r.unread.take n).length = n := List.length_take_of_le (by omega)
    rw [redisReader.unread, List.length_drop] at hle
    dsimp only
    rw [Option.map_some]
    dsimp only
    rw [hline]
    split
    · rfl
    · refine ⟨r.pos + (n + 2), rfl, by omega, ?_⟩
      rw [redisReader.unread, List.drop_drop]

theorem Stands.withPos (h : Stands r s) (hpos : pos ≤ r.buf.length) :
    Stands { r with pos } s :=
  ⟨h.err, h.fits, h.task, h.reply, hpos, h.tasks, h.deep⟩

/-- An object is created where the tasks are. -/
theorem createObject_eq (h : Stands r s) (obj : Object) : createObject parents obj r =
    if ∀ f ∈ s.frames.head?, f.type ∈ parents then
      .ok { r with reply := some (plug s.frames obj) }
    else .error .assertion := by
  obtain ⟨elements, o, htask⟩ := h.task
  rw [createObject, htask]
  cases hfs : s.frames with
  | nil =>
    rw [if_pos nofun]
    rfl
  | cons f fs =>
    have hreply := h.reply (by rw [hfs]; exact List.cons_ne_nil f fs)
    rw [hfs, built] at hreply
    rw [stack, hreply, here]
    dsimp only
    rw [← List.append_nil (way fs), Unfinished.update_plug, Object.update]
    by_cases hf : f.type ∈ parents
    · rw [Unfinished.setElement_slots hf, if_pos]
      · rfl
      · intro g hg
        cases hg
        exact hf
    · rw [if_neg fun hall => hf (hall f rfl), Unfinished.slots, Object.setElement, if_pos hf]
      rfl

/-- It stands in what it may stand in. -/
theorem createValue_eq (h : Stands r s) {v : redisReply} (hv : ofReply v = .leaf v) :
    createValue v r =
      if ∀ f ∈ s.frames.head?, Admits f.type v then
        .ok { r with reply := some (plug s.frames (ofReply v)) }
      else .error .assertion := by
  have hadmit : ∀ parents : List REDIS_REPLY, createValue v r = createObject parents (.leaf v) r →
      (∀ type, IsAggregate type → (type ∈ parents ↔ Admits type v)) →
      createValue v r = if ∀ f ∈ s.frames.head?, Admits f.type v then
        .ok { r with reply := some (plug s.frames (ofReply v)) } else .error .assertion := by
    intro parents hcreate hparents
    rw [hcreate, createObject_eq h, hv]
    refine if_congr (forall₂_congr fun f hf => ?_) rfl rfl
    exact hparents f.type (h.fits f (List.mem_of_mem_head? hf)).2
  have hfour : ∀ v : redisReply, v.type ≠ .NIL ∧ v.type ≠ .DOUBLE ∧ v.type ≠ .BOOL →
      ∀ type, IsAggregate type → (type ∈ [REDIS_REPLY.ARRAY, .MAP, .SET, .PUSH] ↔ Admits type v) := by
    intro v hv type htype
    refine iff_of_true ?_ fun _ => hv
    obtain rfl | rfl | rfl | rfl := htype <;> decide
  have hthree : ∀ v : redisReply, ¬ (v.type ≠ .NIL ∧ v.type ≠ .DOUBLE ∧ v.type ≠ .BOOL) →
      ∀ type, IsAggregate type → (type ∈ [REDIS_REPLY.ARRAY, .MAP, .SET] ↔ Admits type v) := by
    intro v hv type htype
    obtain rfl | rfl | rfl | rfl := htype
    · exact iff_of_true (by decide) nofun
    · exact iff_of_true (by decide) nofun
    · exact iff_of_true (by decide) nofun
    · exact iff_of_false (by decide) fun hpush => hv (hpush rfl)
  cases v with
  | integer n => exact hadmit _ rfl (hfour _ ⟨nofun, nofun, nofun⟩)
  | string s => exact hadmit _ rfl (hfour _ ⟨nofun, nofun, nofun⟩)
  | status s => exact hadmit _ rfl (hfour _ ⟨nofun, nofun, nofun⟩)
  | error s => exact hadmit _ rfl (hfour _ ⟨nofun, nofun, nofun⟩)
  | verb s => exact hadmit _ rfl (hfour _ ⟨nofun, nofun, nofun⟩)
  | double s => exact hadmit _ rfl (hthree _ fun h => h.2.1 rfl)
  | bool b => exact hadmit _ rfl (hthree _ fun h => h.2.2 rfl)
  | nil => exact hadmit _ rfl (hthree _ fun h => h.1 rfl)
  | array l => cases hv
  | map l => cases hv
  | set l => cases hv
  | push l => cases hv

/-- A reply is complete, and the tasks go on behind it. -/
theorem move_eq (h : Stands r s) (hpos : pos ≤ r.buf.length) (v : redisReply) :
    match finish s.frames v with
    | .error f =>
      moveToNextTask { r with pos, reply := some (plug s.frames (ofReply v)) } = .error f
    | .ok (fs, out) => ∃ r',
      moveToNextTask { r with pos, reply := some (plug s.frames (ofReply v)) } = .ok r' ∧
        Received r' fs out ∧ r'.unread = r.buf.drop pos := by
  obtain ⟨elements, o, htask⟩ := h.task
  have hidx : (⟨s.type, elements, here s.frames, o⟩ : redisReadTask).idx = here s.frames := rfl
  have hnext := Unfinished.nextTask_stack h.fits hidx v
  rw [moveToNextTask]
  dsimp only
  rw [htask]
  cases hfinish : finish s.frames v with
  | error f =>
    rw [hfinish] at hnext
    dsimp only at hnext ⊢
    rw [hnext]
    rfl
  | ok p =>
    obtain ⟨fs, out⟩ := p
    rw [hfinish] at hnext
    obtain ⟨task, htasks, hnew⟩ := hnext
    dsimp only
    rw [htasks]
    refine ⟨_, rfl, ⟨h.err, Unfinished.fits_finish h.fits hfinish, hnew,
      Unfinished.left_finish h.fits hfinish, hpos, ?_⟩, rfl⟩
    exact ⟨Nat.lt_of_le_of_lt (Unfinished.length_finish hfinish) h.tasks.above, h.tasks.nines,
      h.tasks.int⟩

/-- A value is created, and the tasks go on behind it. -/
theorem deliver_eq (h : Stands r s) (hpos : pos ≤ r.buf.length) {v : redisReply}
    (hv : ofReply v = .leaf v) {move : redisReader → Except Fault redisReader}
    (hmove : ∀ reply, move { r with reply } = moveToNextTask { r with pos, reply }) :
    match place s.frames v with
    | .error f => (do
        let r ← createValue v r
        let r ← move r
        return (r, true)) = .error f
    | .ok (fs, out) => ∃ r', (do
        let r ← createValue v r
        let r ← move r
        return (r, true)) = .ok (r', true) ∧ Received r' fs out ∧ r'.unread = r.buf.drop pos := by
  rw [createValue_eq h hv, place]
  by_cases hadmit : ∀ f ∈ s.frames.head?, Admits f.type v
  · rw [if_pos hadmit, if_pos hadmit]
    have hnext := move_eq h hpos v
    rw [← hmove] at hnext
    cases hfinish : finish s.frames v with
    | error f =>
      rw [hfinish] at hnext
      dsimp only at hnext ⊢
      exact congrArg (· >>= fun r => pure (r, true)) hnext
    | ok p =>
      rw [hfinish] at hnext
      obtain ⟨r', hr, hreceived⟩ := hnext
      exact ⟨r', congrArg (· >>= fun r => pure (r, true)) hr, hreceived⟩
  · rw [if_neg hadmit, if_neg hadmit]
    rfl

/-- What `deliver_eq` gives is what the protocol says of a value. -/
theorem agrees_value {rest : Bytes} {v : redisReply} {result : Except Fault (redisReader × Bool)}
    {l : Bytes} (hitem : item type l = some (.ok (.value v, rest)))
    (hresult : match place fs v with
      | .error f => result = .error f
      | .ok (fs, out) => ∃ r', result = .ok (r', true) ∧ Received r' fs out ∧ r'.unread = rest) :
    Agrees result ⟨fs, some type⟩ l := by
  rw [Agrees, Resp.step_some, hitem]
  dsimp only
  rw [enter]
  cases hplace : place fs v with
  | error f =>
    rw [hplace] at hresult
    exact hresult
  | ok p =>
    rw [hplace] at hresult
    exact ⟨rfl, hresult⟩

theorem agrees_fault {f : Fault} {l : Bytes} (hitem : item type l = some (.error (.fault f))) :
    Agrees (.error f) ⟨fs, some type⟩ l := by
  rw [Agrees, Resp.step_some, hitem]

theorem agrees_error {str : Bytes} {l : Bytes} (hitem : item type l = some (.error (.error str)))
    (q : redisReader) : Agrees (.ok (q.setError str, false)) ⟨fs, some type⟩ l := by
  rw [Agrees, Resp.step_some, hitem]
  exact ⟨_, rfl, rfl⟩

theorem agrees_wants (h : Stands r ⟨fs, some type⟩) (hitem : item type r.unread = none) :
    Agrees (.ok (r, false)) ⟨fs, some type⟩ r.unread := by
  rw [Agrees, Resp.step_some, hitem]
  exact ⟨r, rfl, h, rfl⟩

theorem lineValue_leaf {line : Bytes} {v : redisReply} (h : lineValue type line = .ok v) :
    ofReply v = .leaf v := by
  cases type with
  | INTEGER =>
    rw [lineValue] at h
    cases hll : string2ll line with
    | none =>
      rw [hll] at h
      cases h
    | some n =>
      rw [hll] at h
      cases h
      rfl
  | DOUBLE =>
    rw [lineValue] at h
    split at h
    · cases h
    · split at h
      · cases h
        rfl
      · cases h
  | _ =>
    cases h
    rfl

theorem processLineItem_agrees (h : Stands r ⟨fs, some type⟩) (hlen : r.unread.length ≤ 2 ^ 31)
    (hitem : ∀ l, item type l = lineItem (fun line => (lineValue type line).map .value) l) :
    Agrees (processLineItem type r) ⟨fs, some type⟩ r.unread := by
  have hread := readLine_eq h.pos hlen
  have hi := hitem r.unread
  rw [lineItem] at hi
  rw [processLineItem]
  cases hcut : cutLine r.unread with
  | none =>
    rw [hcut] at hread hi
    dsimp only at hread
    rw [hread]
    exact agrees_wants h hi
  | some p =>
    obtain ⟨line, rest⟩ := p
    rw [hcut, Option.map_some] at hi
    rw [hcut] at hread
    dsimp only at hread hi
    by_cases hover : 2 ^ 31 ≤ line.length + 2
    · rw [if_pos hover] at hread hi
      rw [hread]
      exact agrees_fault hi
    · rw [if_neg hover] at hread hi
      obtain ⟨pos, hread, hpos, rfl⟩ := hread
      rw [hread]
      dsimp only
      cases hvalue : lineValue type line with
      | error str =>
        rw [hvalue] at hi
        exact agrees_error hi _
      | ok v =>
        rw [hvalue] at hi
        exact agrees_value hi (deliver_eq (h.withPos hpos) hpos (lineValue_leaf hvalue) fun _ => rfl)

theorem processBulkItem_agrees (h : Stands r ⟨fs, some type⟩) (hlen : r.unread.length ≤ 2 ^ 31)
    (hitem : ∀ l, item type l = bulkItem type l) :
    Agrees (processBulkItem type r) ⟨fs, some type⟩ r.unread := by
  have hi := hitem r.unread
  rw [bulkItem, cutLine] at hi
  rw [processBulkItem, seekNewline_eq hlen]
  cases hfind : Pattern.find CRLF r.unread with
  | none =>
    rw [hfind] at hi
    exact agrees_wants h hi
  | some n =>
    have hle : n + 2 ≤ r.unread.length := Pattern.find_le hfind
    have hsize : r.unread.length = r.buf.length - r.pos := List.length_drop
    have hpos := h.pos
    rw [hfind, Option.map_some, Option.bind_some] at hi
    dsimp only at hi ⊢
    cases hll : string2ll (r.unread.take n) with
    | none =>
      rw [hll] at hi
      exact agrees_error hi _
    | some len =>
      rw [hll] at hi
      dsimp only at hi ⊢
      by_cases hlow : len < -1
      · rw [if_pos hlow] at hi ⊢
        exact agrees_error hi _
      · rw [if_neg hlow] at hi ⊢
        by_cases hnil : len = -1
        · rw [if_pos hnil] at hi ⊢
          refine agrees_value hi ?_
          have hdrop : r.unread.drop (n + 2) = r.buf.drop (r.pos + (n + 2)) := List.drop_drop
          rw [hdrop]
          exact deliver_eq h (by omega) rfl fun _ => rfl
        · rw [if_neg hnil] at hi ⊢
          by_cases hover : 2 ^ 63 ≤ len + 2
          · rw [if_pos hover] at hi ⊢
            exact agrees_fault hi
          · rw [if_neg hover] at hi ⊢
            have hshort : (r.unread.drop (n + 2)).length < len.toNat + 2 ↔
                ¬ r.pos + (n + 2 + (len.toNat + 2)) ≤ r.buf.length := by
              rw [List.length_drop]
              omega
            have hmark : (r.unread.drop (n + 2))[3]? = r.unread[n + 5]? := List.getElem?_drop
            by_cases hall : r.pos + (n + 2 + (len.toNat + 2)) ≤ r.buf.length
            · rw [if_pos hall]
              rw [if_neg (mt hshort.mp (not_not_intro hall)), hmark] at hi
              by_cases hverb : type = .VERB ∧ len < 4 ∨ type = .VERB ∧ r.unread[n + 5]? ≠ some 58
              · rw [if_pos (and_or_left.mpr hverb)] at hi
                rw [if_pos hverb]
                exact agrees_error hi _
              · rw [if_neg (mt and_or_left.mp hverb)] at hi
                rw [if_neg hverb]
                refine agrees_value hi ?_
                have hdrop : (r.unread.drop (n + 2)).drop (len.toNat + 2) =
                    r.buf.drop (r.pos + (n + 2 + (len.toNat + 2))) := by
                  rw [List.drop_drop, redisReader.unread, List.drop_drop]
                rw [hdrop]
                by_cases htype : type = .VERB
                · rw [if_pos htype]
                  exact deliver_eq h hall rfl fun _ => rfl
                · rw [if_neg htype]
                  exact deliver_eq h hall rfl fun _ => rfl
            · rw [if_neg hall]
              rw [if_pos (hshort.mpr hall)] at hi
              exact agrees_wants h hi

theorem Stands.length_task (h : Stands r s) : r.task.length = s.frames.length + 1 := by
  obtain ⟨elements, o, htask⟩ := h.task
  rw [htask, List.length_cons, Unfinished.length_stack]

/-- The stack of tasks grows where it is full. -/
theorem Stands.grow (h : Stands r ⟨fs, some type⟩) (htype : IsAggregate type) :
    ∃ q, r.grow = .ok q ∧ Stands q ⟨fs, some type⟩ ∧ q.unread = r.unread ∧
      q.task.length < q.tasks := by
  have hroom := h.tasks
  have hlen : r.task.length = fs.length + 1 := h.length_task
  have hdeep : ¬ 2 ^ 31 - 2 ≤ fs.length + 1 := fun hle => h.deep type rfl ⟨htype, hle⟩
  have hnines : 9 ∣ r.tasks := hroom.nines
  have habove : fs.length < r.tasks := hroom.above
  rw [redisReader.grow, REDIS_READER_STACK_SIZE]
  by_cases hfull : r.task.length = r.tasks
  · rw [if_pos hfull, if_neg (by omega)]
    refine ⟨_, rfl, ⟨h.err, h.fits, h.task, h.reply, h.pos, ⟨?_, ?_, ?_⟩, h.deep⟩, rfl, ?_⟩
    · exact Nat.lt_add_right _ habove
    · exact Nat.dvd_add hnines (Nat.dvd_refl 9)
    · dsimp only
      omega
    · dsimp only
      omega
  · rw [if_neg hfull]
    exact ⟨r, rfl, h, rfl, by omega⟩

/-- The stack of an aggregate that is too deep is full and does not grow. -/
theorem grow_deep {depth : Nat} (hroom : Room depth r.tasks) (hlen : r.task.length = depth + 1)
    (hdeep : 2 ^ 31 - 2 ≤ depth + 1) : r.grow = .error .overflow := by
  have hnines : 9 ∣ r.tasks := hroom.nines
  have hint := hroom.int
  have habove := hroom.above
  rw [redisReader.grow, REDIS_READER_STACK_SIZE, if_pos (by omega), if_pos (by omega)]

theorem enterTask_eq (h : Stands r ⟨fs, some type⟩) (hroom : r.task.length < r.tasks)
    (htype : IsAggregate type) {n : Nat} (hn : n ≠ 0) (reply : Option Object)
    (hreply : reply = some (plug fs (Unfinished.slots ⟨type, n, []⟩ none))) :
    ∃ r', enterTask type n { r with reply } = .ok r' ∧
      Received r' (⟨type, n, []⟩ :: fs) [] ∧ r'.unread = r.unread := by
  obtain ⟨elements, o, htask⟩ := h.task
  have hlen : r.task.length = fs.length + 1 := h.length_task
  have hplace : placeOf ⟨some type, elements, here fs, o⟩ (stack fs) = some (way fs) := by
    cases fs with
    | nil => rfl
    | cons f fs =>
      rw [stack, placeOf, here, way, Int.toNat_natCast]
      rfl
  refine ⟨{ r with
    task := ⟨none, -1, 0, none⟩ :: ⟨some type, n, here fs, some (way fs)⟩ :: stack fs, reply }, ?_,
    ⟨h.err, ?_, ⟨none, rfl⟩, ⟨rfl, hreply⟩, h.pos, ?_⟩, rfl⟩
  · rw [enterTask]
    dsimp only
    rw [htask] at hroom ⊢
    dsimp only
    rw [if_pos hroom, hplace]
  · rw [List.forall_mem_cons]
    exact ⟨⟨Nat.pos_of_ne_zero hn, htype⟩, h.fits⟩
  · refine ⟨?_, h.tasks.nines, h.tasks.int⟩
    rw [List.length_cons, ← hlen]
    exact hroom

theorem agrees_many {l : Bytes} {n : Nat} (h : Stands r ⟨fs, some type⟩)
    (hroom : r.task.length < r.tasks) (htype : IsAggregate type)
    (hitem : item type l = some (.ok (.many type n, r.unread))) :
    Agrees (do
      let r ← createArrayObject type n r
      let r ← (if 0 < n then enterTask type n r else moveToNextTask r)
      return (r, true)) ⟨fs, some type⟩ l := by
  have hall : ∀ f ∈ fs.head?, f.type ∈ [REDIS_REPLY.ARRAY, .MAP, .SET, .PUSH] := by
    intro f hf
    obtain ht | ht | ht | ht := (h.fits f (List.mem_of_mem_head? hf)).2 <;> rw [ht] <;> decide
  rw [Agrees, Resp.step_some, hitem, createArrayObject, createObject_eq h, if_pos hall]
  dsimp only
  rw [enter]
  by_cases hn : n = 0
  · subst hn
    have hnext := move_eq h h.pos (aggregate type [])
    rw [ofReply_aggregate htype] at hnext
    rw [if_pos rfl]
    cases hfinish : finish fs (aggregate type []) with
    | error f =>
      rw [hfinish] at hnext
      exact congrArg (· >>= fun r => pure (r, true)) hnext
    | ok p =>
      rw [hfinish] at hnext
      obtain ⟨r', hr, hreceived⟩ := hnext
      exact ⟨rfl, r', congrArg (· >>= fun r => pure (r, true)) hr, hreceived⟩
  · have hslots : Object.aggregate type (List.replicate n none) =
        Unfinished.slots ⟨type, n, []⟩ none := by
      obtain ⟨m, rfl⟩ := Nat.exists_eq_succ_of_ne_zero hn
      rfl
    obtain ⟨r', hr, hreceived, hunread⟩ :=
      enterTask_eq h hroom htype hn _ (congrArg (fun o => some (plug fs o)) hslots)
    rw [if_neg hn]
    refine ⟨rfl, r', ?_, hreceived, hunread⟩
    exact congrArg (· >>= fun r => pure (r, true)) ((if_pos (Nat.pos_of_ne_zero hn)).trans hr)

theorem processAggregateItem_agrees (h : Stands r ⟨fs, some type⟩)
    (hlen : r.unread.length ≤ 2 ^ 31) (htype : IsAggregate type)
    (hitem : ∀ l, item type l = lineItem (countItem type) l) :
    Agrees (processAggregateItem type r) ⟨fs, some type⟩ r.unread := by
  obtain ⟨q, hq, hgrow, hunread, hroom⟩ := h.grow htype
  rw [← hunread] at hlen ⊢
  rw [processAggregateItem, hq]
  dsimp only
  have hread := readLine_eq hgrow.pos hlen
  have hi := hitem q.unread
  rw [lineItem] at hi
  cases hcut : cutLine q.unread with
  | none =>
    rw [hcut] at hread hi
    dsimp only at hread
    rw [hread]
    exact agrees_wants hgrow hi
  | some p =>
    obtain ⟨line, rest⟩ := p
    rw [hcut, Option.map_some] at hi
    rw [hcut] at hread
    dsimp only at hread hi
    by_cases hover : 2 ^ 31 ≤ line.length + 2
    · rw [if_pos hover] at hread hi
      rw [hread]
      exact agrees_fault hi
    · rw [if_neg hover] at hread hi
      obtain ⟨pos, hread, hpos, rfl⟩ := hread
      rw [hread]
      rw [countItem] at hi
      dsimp only at hi ⊢
      cases hll : string2ll line with
      | none =>
        rw [hll] at hi
        exact agrees_error hi _
      | some elements =>
        rw [hll] at hi
        dsimp only at hi ⊢
        by_cases hrange : elements < -1 ∨ REDIS_READER_MAX_ARRAY_ELEMENTS < elements
        · rw [if_pos hrange] at hi ⊢
          exact agrees_error hi _
        · rw [if_neg hrange] at hi ⊢
          by_cases hnil : elements = -1
          · rw [if_pos hnil] at hi ⊢
            exact agrees_value hi (deliver_eq (hgrow.withPos hpos) hpos rfl fun _ => rfl)
          · rw [if_neg hnil] at hi ⊢
            exact agrees_many (hgrow.withPos hpos) hroom htype hi

theorem processTyped_agrees (h : Stands r ⟨fs, some type⟩) (hlen : r.unread.length ≤ 2 ^ 31) :
    Agrees (processTyped type r) ⟨fs, some type⟩ r.unread := by
  cases type with
  | STRING => exact processBulkItem_agrees h hlen fun _ => rfl
  | VERB => exact processBulkItem_agrees h hlen fun _ => rfl
  | ARRAY => exact processAggregateItem_agrees h hlen (by decide) fun _ => rfl
  | MAP => exact processAggregateItem_agrees h hlen (by decide) fun _ => rfl
  | SET => exact processAggregateItem_agrees h hlen (by decide) fun _ => rfl
  | PUSH => exact processAggregateItem_agrees h hlen (by decide) fun _ => rfl
  | INTEGER => exact processLineItem_agrees h hlen fun _ => rfl
  | NIL => exact processLineItem_agrees h hlen fun _ => rfl
  | STATUS => exact processLineItem_agrees h hlen fun _ => rfl
  | ERROR => exact processLineItem_agrees h hlen fun _ => rfl
  | DOUBLE => exact processLineItem_agrees h hlen fun _ => rfl
  | BOOL => exact processLineItem_agrees h hlen fun _ => rfl

/-- The first byte of a value may be read with its item. -/
theorem processItem_agrees (h : Stands r s) (hlen : r.unread.length ≤ 2 ^ 31) :
    ∃ t l, Took Resp.step s r.unread [] t l ∧ Agrees (processItem r) t l := by
  obtain ⟨fs, type⟩ := s
  obtain ⟨elements, o, htask⟩ := h.task
  rw [processItem, htask]
  cases type with
  | some type => exact ⟨_, _, .nil _ _, processTyped_agrees h hlen⟩
  | none =>
    dsimp only
    rw [redisReader.readByte]
    cases hunread : r.unread with
    | nil => exact ⟨_, _, .nil _ _, r, rfl, h, hunread⟩
    | cons c l =>
      have hpos : r.pos + 1 ≤ r.buf.length := by
        have hsize : r.unread.length = r.buf.length - r.pos := List.length_drop
        rw [hunread, List.length_cons] at hsize
        omega
      rw [List.head?_cons, Option.map_some]
      dsimp only
      have hstep := Resp.step_none fs c l
      cases hc : typeOf c with
      | none =>
        rw [hc] at hstep
        refine ⟨_, _, .nil _ _, ?_⟩
        rw [Agrees, hstep]
        exact ⟨_, rfl, rfl⟩
      | some type =>
        rw [hc] at hstep
        dsimp only at hstep ⊢
        by_cases hdeep : TooDeep fs type
        · rw [if_pos hdeep] at hstep
          refine ⟨_, _, .nil _ _, ?_⟩
          rw [Agrees, hstep]
          have hlength : fs.length + 1 = r.task.length := h.length_task.symm
          have hgrow : ∀ q : redisReader, q.task.length = r.task.length → q.tasks = r.tasks →
              q.grow = .error .overflow := by
            intro q htask htasks
            exact grow_deep (htasks ▸ h.tasks) (htask.trans hlength.symm) hdeep.2
          have hfull := hgrow ⟨r.err, r.buf, r.pos + 1, ⟨some type, elements, here fs, o⟩ :: stack fs,
            r.tasks, r.reply⟩ (by rw [htask]; rfl) rfl
          obtain rfl | rfl | rfl | rfl := hdeep.1 <;>
            rw [processTyped, processAggregateItem] <;> dsimp only <;> rw [hfull]
        · rw [if_neg hdeep] at hstep
          have hrest : l = r.buf.drop (r.pos + 1) := by
            have htail : r.unread.drop 1 = l := by rw [hunread, List.drop_one, List.tail_cons]
            rw [← htail, redisReader.unread, List.drop_drop]
          refine ⟨_, _, .single hstep, ?_⟩
          rw [hrest]
          refine processTyped_agrees ⟨h.err, h.fits, ⟨elements, o, rfl⟩, h.reply, hpos, h.tasks, ?_⟩ ?_
          · intro type' htype'
            cases htype'
            exact hdeep
          · change (r.buf.drop (r.pos + 1)).length ≤ 2 ^ 31
            rw [← hrest]
            rw [hunread, List.length_cons] at hlen
            omega

end Step
end CppPrivate.Hiredis
