import CppPrivate.Hiredis.ReaderSteps
import CppPrivate.Hiredis.RespTexts

/-! A reader over its life: bytes come in pieces of any size, and replies are asked for at any
time. -/
namespace CppPrivate.Hiredis
open Redis
open Incremental
open redisReader (errstr)

structure Rests (r : redisReader) : Prop where
  err : r.err = none
  task : r.task = []
  pos : r.pos ≤ r.buf.length
  tasks : Room 0 r.tasks

/-- How far the protocol has come when the loop over the items ends. -/
inductive Come (s : Resp) (l : Bytes) : Except Fault redisReader → Prop
  | fault {t : Resp} {m : Bytes} {f : Fault} :
      Took Resp.step s l [] t m → t.step m = .failed (.fault f) → Come s l (.error f)
  | error {t : Resp} {m str : Bytes} {r : redisReader} : Took Resp.step s l [] t m →
      t.step m = .failed (.error str) → r.err = some (errstr str) → Come s l (.ok r)
  | wants {t : Resp} {r : redisReader} : Took Resp.step s l [] t r.unread →
      t.step r.unread = .wants → Stands r t → Come s l (.ok r)
  | reply {v : redisReply} {r : redisReader} : Took Resp.step s l [v] .start r.unread →
      Rests r → r.reply = some (ofReply v) → Come s l (.ok r)

section Items
variable {r : redisReader} {s t : Resp} {l m : Bytes} {result : Except Fault redisReader}

theorem Come.after (h : Took Resp.step s l [] t m) (hcome : Come t m result) :
    Come s l result := by
  cases hcome with
  | fault htook hstep => exact .fault (h.trans htook) hstep
  | error htook hstep herr => exact .error (h.trans htook) hstep herr
  | wants htook hstep hr => exact .wants (h.trans htook) hstep hr
  | reply htook hr hreply => exact .reply (h.trans htook) hr hreply

/-- The loop reads to the end of a reply, or as far as the bytes go. -/
theorem processItems_come {fuel : Nat} (h : Stands r s) (hlen : r.unread.length ≤ 2 ^ 31)
    (hfuel : r.unread.length < fuel) : Come s r.unread (processItems fuel r) := by
  induction fuel generalizing r s with
  | zero => exact absurd hfuel (Nat.not_lt_zero _)
  | succ fuel ih =>
    have htask : r.task ≠ [] := by
      obtain ⟨elements, o, htask⟩ := h.task
      rw [htask]
      exact List.cons_ne_nil _ _
    obtain ⟨t, m, htook, hagrees⟩ := processItem_agrees h hlen
    rw [processItems, if_neg htask]
    rw [Agrees] at hagrees
    cases hstep : t.step m with
    | wants =>
      rw [hstep] at hagrees
      obtain ⟨r', hr, hstands, rfl⟩ := hagrees
      rw [hr]
      exact .wants htook hstep hstands
    | failed e =>
      rw [hstep] at hagrees
      cases e with
      | error str =>
        obtain ⟨r', hr, herr⟩ := hagrees
        rw [hr]
        exact .error htook hstep herr
      | fault f =>
        rw [show processItem r = .error f from hagrees]
        exact .fault htook hstep
    | took u out rest =>
      rw [hstep] at hagrees
      obtain ⟨htype, r', hr, hreceived, rfl⟩ := hagrees
      obtain ⟨fs, type⟩ := u
      obtain rfl : type = none := htype
      rw [hr]
      change Come s r.unread (processItems fuel r')
      have hshort := Resp.stable_step.shorter hstep
      have hle := htook.length_le Resp.stable_step
      cases fs with
      | nil =>
        obtain ⟨v, rfl, hreply⟩ := hreceived.left
        have hnone : r'.task = [] := hreceived.task
        have hdone : processItems fuel r' = .ok r' := by
          cases fuel with
          | zero => rfl
          | succ fuel => rw [processItems, if_pos hnone]
        rw [hdone]
        exact .reply (htook.trans (.single hstep))
          ⟨hreceived.err, hreceived.task, hreceived.pos, hreceived.tasks⟩ hreply
      | cons f fs =>
        obtain ⟨rfl, hreply⟩ := hreceived.left
        obtain ⟨obj, hnext⟩ := hreceived.task
        refine (ih ⟨hreceived.err, hreceived.fits, ⟨-1, obj, hnext⟩, fun _ => hreply,
          hreceived.pos, hreceived.tasks, fun _ h => absurd h (Option.some_ne_none _).symm⟩
          (by omega) (by omega)).after ?_
        exact htook.trans (.single hstep)

end Items

/-- Where a reader is that has been fed some bytes and has given some replies. -/
inductive At (fed : Bytes) (out : List redisReply) (r : redisReader) : Prop
  | failed {t : Resp} {m str : Bytes} : Took Resp.step .start fed out t m →
      t.step m = .failed (.error str) → r.err = some (errstr str) → At fed out r
  | inside {t : Resp} : Took Resp.step .start fed out t r.unread → Stands r t → At fed out r
  | rests : Took Resp.step .start fed out .start r.unread → Rests r → At fed out r

section Calls
variable {r : redisReader} {fed : Bytes} {out : List redisReply}

theorem at_create : At [] [] .create :=
  .rests (.nil _ _) ⟨rfl, rfl, Nat.le_refl 0, by decide, Nat.dvd_refl _, by decide⟩

theorem unread_append (hpos : r.pos ≤ r.buf.length) (b : Bytes) :
    { r with buf := r.buf ++ b }.unread = r.unread ++ b := List.drop_append_of_le_length hpos

theorem At.took (h : At fed out r) : ∃ t m, Took Resp.step .start fed out t m := by
  cases h with
  | failed htook _ _ => exact ⟨_, _, htook⟩
  | inside htook _ => exact ⟨_, _, htook⟩
  | rests htook _ => exact ⟨_, _, htook⟩

theorem At.feed (h : At fed out r) (b : Bytes) : At (fed ++ b) out (redisReaderFeed r b) := by
  cases h with
  | failed htook hstep herr =>
    rw [redisReaderFeed, if_pos (by rw [herr]; rfl)]
    exact .failed (htook.append Resp.stable_step b) (Resp.stable_step.failed hstep b) herr
  | inside htook hr =>
    rw [redisReaderFeed, if_neg (by rw [hr.err]; decide)]
    refine .inside ?_ ⟨hr.err, hr.fits, hr.task, hr.reply, ?_, hr.tasks, hr.deep⟩
    · rw [unread_append hr.pos]
      exact htook.append Resp.stable_step b
    · rw [List.length_append]
      exact Nat.le_add_right_of_le hr.pos
  | rests htook hr =>
    rw [redisReaderFeed, if_neg (by rw [hr.err]; decide)]
    refine .rests ?_ ⟨hr.err, hr.task, ?_, hr.tasks⟩
    · rw [unread_append hr.pos]
      exact htook.append Resp.stable_step b
    · rw [List.length_append]
      exact Nat.le_add_right_of_le hr.pos

theorem unread_discard (r : redisReader) : r.discard.unread = r.unread := by
  rw [redisReader.discard]
  split
  · exact List.drop_zero
  · rfl

theorem Stands.discard {s : Resp} (h : Stands r s) : Stands r.discard s := by
  rw [redisReader.discard]
  split
  · exact ⟨h.err, h.fits, h.task, h.reply, Nat.zero_le _, h.tasks, h.deep⟩
  · exact h

theorem Rests.discard (h : Rests r) : Rests r.discard := by
  rw [redisReader.discard]
  split
  · exact ⟨h.err, h.task, Nat.zero_le _, h.tasks⟩
  · exact h

theorem Resp.step_nil (s : Resp) : s.step [] = .wants := by
  obtain ⟨fs, type⟩ := s
  cases type with
  | none => rfl
  | some type => cases type <;> rfl

/-- The protocol wants more, or has found an error. -/
def Ends (t : Resp) (m : Bytes) (err : Option Bytes) : Prop :=
  t.step m = .wants ∧ err = none ∨ ∃ str, t.step m = .failed (.error str) ∧ err = some (errstr str)

def Drained (fed : Bytes) (out : List redisReply) (err : Option Bytes) : Prop :=
  ∃ t m, Took Resp.step .start fed out t m ∧ Ends t m err

theorem At.begun (h : At fed out r) (herr : ¬ r.err.isSome) :
    ∃ s, Took Resp.step .start fed out s r.unread ∧ Stands r.begun s ∧
      r.begun.unread = r.unread ∧ r.err = none := by
  cases h with
  | failed htook hstep hr =>
    rw [hr] at herr
    exact absurd rfl herr
  | @inside s htook hr =>
    obtain ⟨elements, o, htask⟩ := hr.task
    have hbegun : r.begun = r := by
      rw [redisReader.begun, htask, if_neg (List.cons_ne_nil _ _)]
    rw [hbegun]
    exact ⟨s, htook, hr, rfl, hr.err⟩
  | rests htook hr =>
    rw [redisReader.begun, if_pos hr.task]
    refine ⟨.start, htook, ⟨hr.err, nofun, ⟨-1, none, rfl⟩, fun h => absurd rfl h, hr.pos, hr.tasks,
      nofun⟩, rfl, hr.err⟩

/-- The reader has done what can be done, and waits for more. -/
def Awaits (fed : Bytes) (out : List redisReply) (r : redisReader) : Prop :=
  ∃ t, Took Resp.step .start fed out t r.unread ∧ t.step r.unread = .wants

theorem Awaits.of_unread {q : redisReader} (h : Awaits fed out r) (heq : q.unread = r.unread) :
    Awaits fed out q := by
  rw [Awaits, heq]
  exact h

theorem Come.emit {s : Resp} {l : Bytes} {result : Except Fault redisReader}
    (hcome : Come s l result) (h : Took Resp.step .start fed out s l) :
    match result.map redisReader.emit with
    | .error f => ∃ t m, Took Resp.step .start fed out t m ∧ t.step m = .failed (.fault f)
    | .ok (q, none) => At fed out q ∧ Drained fed out q.err ∧
        (q.err = none → Awaits fed out q ∧ q.unread.length ≤ l.length)
    | .ok (q, some o) => ∃ v, o = ofReply v ∧ At fed (out ++ [v]) q ∧
        q.unread.length ≤ l.length := by
  have hall : ∀ {t : Resp} {m : Bytes}, Took Resp.step s l [] t m →
      Took Resp.step .start fed out t m := by
    intro t m hmore
    rw [← List.append_nil out]
    exact h.trans hmore
  cases hcome with
  | fault hmore hstep => exact ⟨_, _, hall hmore, hstep⟩
  | @error t m str q hmore hstep he =>
    have hemit : q.emit = (q, none) := by rw [redisReader.emit, if_pos (by rw [he]; rfl)]
    rw [Except.map, hemit]
    refine ⟨.failed (hall hmore) hstep he, ⟨t, m, hall hmore, .inr ⟨str, hstep, he⟩⟩, ?_⟩
    intro hnone
    rw [he] at hnone
    cases hnone
  | @wants t q hmore hstep hq =>
    obtain ⟨elements, o, htask⟩ := hq.task
    have hemit : q.emit = (q.discard, none) := by
      rw [redisReader.emit, if_neg (by rw [hq.err]; decide),
        if_neg (by rw [htask]; exact List.cons_ne_nil _ _)]
    rw [Except.map, hemit]
    refine ⟨.inside ?_ hq.discard, ⟨t, q.unread, hall hmore, .inl ⟨hstep, hq.discard.err⟩⟩,
      fun _ => ⟨?_, ?_⟩⟩
    · rw [unread_discard]
      exact hall hmore
    · have hawaits : Awaits fed out q := ⟨t, hall hmore, hstep⟩
      exact hawaits.of_unread (unread_discard q)
    · rw [unread_discard]
      exact hmore.length_le Resp.stable_step
  | @reply v q hmore hq hreply =>
    have hemit : q.emit = ({ q.discard with reply := none }, some (ofReply v)) := by
      rw [redisReader.emit, if_neg (by rw [hq.err]; decide), if_pos hq.task, hreply]
    rw [Except.map, hemit]
    refine ⟨v, rfl, .rests ?_
      ⟨hq.discard.err, hq.discard.task, hq.discard.pos, hq.discard.tasks⟩, ?_⟩
    · change Took Resp.step .start fed (out ++ [v]) .start q.discard.unread
      rw [unread_discard]
      exact h.trans hmore
    · change q.discard.unread.length ≤ l.length
      rw [unread_discard]
      exact hmore.length_le Resp.stable_step

theorem At.getReply (h : At fed out r) (hlen : r.unread.length ≤ 2 ^ 31) :
    match redisReaderGetReply r with
    | .error f => ∃ t m, Took Resp.step .start fed out t m ∧ t.step m = .failed (.fault f)
    | .ok (q, none) => At fed out q ∧ Drained fed out q.err ∧
        (q.err = none → Awaits fed out q ∧ q.unread.length ≤ r.unread.length)
    | .ok (q, some o) => ∃ v, o = ofReply v ∧ At fed (out ++ [v]) q ∧
        q.unread.length ≤ r.unread.length := by
  by_cases herr : r.err.isSome
  · rw [redisReaderGetReply, if_pos herr]
    cases h with
    | failed htook hstep hr =>
      refine ⟨.failed htook hstep hr, ⟨_, _, htook, .inr ⟨_, hstep, hr⟩⟩, fun hnone => ?_⟩
      rw [hnone] at hr
      cases hr
    | inside htook hr =>
      rw [hr.err] at herr
      cases herr
    | rests htook hr =>
      rw [hr.err] at herr
      cases herr
  · obtain ⟨s, htook, hstart, hunread, hnone⟩ := h.begun herr
    rw [redisReaderGetReply, if_neg herr]
    by_cases hempty : r.buf.length = 0
    · rw [if_pos hempty]
      have hnil : r.unread = [] := by
        rw [redisReader.unread, List.eq_nil_of_length_eq_zero hempty, List.drop_nil]
      have hwants : s.step r.unread = .wants := by
        rw [hnil]
        exact Resp.step_nil s
      exact ⟨h, ⟨s, r.unread, htook, .inl ⟨hwants, hnone⟩⟩,
        fun _ => ⟨⟨s, htook, hwants⟩, Nat.le_refl _⟩⟩
    · rw [if_neg hempty]
      rw [← hunread] at htook
      rw [← hunread]
      exact (processItems_come hstart (by rw [hunread]; exact hlen) (Nat.lt_succ_self _)).emit htook

end Calls

inductive Op where
  | feed (buf : Bytes)
  | getReply

def fed : List Op → Bytes
  | [] => []
  | .feed buf :: ops => buf ++ fed ops
  | .getReply :: ops => fed ops

def session : List Op → redisReader → Except Fault (redisReader × List Object)
  | [], r => .ok (r, [])
  | .feed buf :: ops, r => session ops (redisReaderFeed r buf)
  | .getReply :: ops, r =>
    match redisReaderGetReply r with
    | .error f => .error f
    | .ok (r, o) => (session ops r).map fun p => (p.1, o.toList ++ p.2)

/-- Whenever it asks for a reply no more than `2^31` bytes are waiting to be read. -/
def Within : List Op → redisReader → Prop
  | [], _ => True
  | .feed buf :: ops, r => Within ops (redisReaderFeed r buf)
  | .getReply :: ops, r => r.unread.length ≤ 2 ^ 31 ∧
      match redisReaderGetReply r with
      | .error _ => True
      | .ok p => Within ops p.1

instance : ∀ ops r, Decidable (Within ops r)
  | [], _ => inferInstanceAs (Decidable True)
  | .feed buf :: ops, r => instDecidableWithin ops (redisReaderFeed r buf)
  | .getReply :: ops, r =>
    have : Decidable (match redisReaderGetReply r with
        | .error _ => True
        | .ok p => Within ops p.1) :=
      match redisReaderGetReply r with
      | .error _ => inferInstanceAs (Decidable True)
      | .ok p => instDecidableWithin ops p.1
    inferInstanceAs (Decidable (_ ∧ _))

section Sessions
variable {ops ops' : List Op} {r q : redisReader} {before : Bytes} {out : List redisReply}

/-- A session does what the protocol does with all the bytes. -/
theorem At.session (h : At before out r) (hw : Within ops r) :
    match session ops r with
    | .error f => ∃ more t m, Took Resp.step .start (before ++ fed ops) (out ++ more) t m ∧
        t.step m = .failed (.fault f)
    | .ok (q, objects) => ∃ more : List redisReply, objects = more.map ofReply ∧
        At (before ++ fed ops) (out ++ more) q := by
  induction ops generalizing r before out with
  | nil => exact ⟨[], rfl, by rw [fed, List.append_nil, List.append_nil]; exact h⟩
  | cons op ops ih =>
    cases op with
    | feed buf =>
      have hrest := ih (h.feed buf) hw
      rw [List.append_assoc] at hrest
      exact hrest
    | getReply =>
      have hget := h.getReply hw.1
      have hwithin := hw.2
      rw [Hiredis.session]
      cases hreply : redisReaderGetReply r with
      | error f =>
        rw [hreply] at hget
        obtain ⟨t, m, htook, hstep⟩ := hget
        refine ⟨[], t, m ++ fed ops, ?_, Resp.stable_step.failed hstep _⟩
        rw [List.append_nil]
        exact htook.append Resp.stable_step _
      | ok p =>
        obtain ⟨q, o⟩ := p
        rw [hreply] at hget
        rw [hreply] at hwithin
        cases o with
        | none =>
          have hrest := ih hget.1 hwithin
          dsimp only at hrest ⊢
          rw [fed]
          cases hsession : Hiredis.session ops q with
          | error f =>
            rw [hsession] at hrest
            exact hrest
          | ok p =>
            rw [hsession] at hrest
            exact hrest
        | some o =>
          obtain ⟨v, rfl, hat, -⟩ := hget
          have hrest := ih hat hwithin
          dsimp only at hrest ⊢
          rw [fed]
          cases hsession : Hiredis.session ops q with
          | error f =>
            rw [hsession] at hrest
            obtain ⟨more, t, m, htook, hstep⟩ := hrest
            rw [List.append_assoc] at htook
            exact ⟨_, t, m, htook, hstep⟩
          | ok p =>
            rw [hsession] at hrest
            obtain ⟨more, hobjects, hat⟩ := hrest
            rw [List.append_assoc] at hat
            refine ⟨[v] ++ more, ?_, hat⟩
            exact congrArg (ofReply v :: ·) hobjects

theorem Ends.stops {t : Resp} {m : Bytes} {err : Option Bytes} (h : Ends t m err) :
    Stops Resp.step t m := by
  obtain ⟨hstep, -⟩ | ⟨str, hstep, -⟩ := h
  · exact stops_of_wants hstep
  · exact stops_of_failed hstep

theorem Ends.unique {t : Resp} {m : Bytes} {err err' : Option Bytes} (h : Ends t m err)
    (h' : Ends t m err') : err = err' := by
  obtain ⟨hstep, rfl⟩ | ⟨str, hstep, rfl⟩ := h
  · obtain ⟨-, rfl⟩ | ⟨str', hstep', -⟩ := h'
    · rfl
    · rw [hstep] at hstep'
      cases hstep'
  · obtain ⟨hstep', -⟩ | ⟨str', hstep', rfl⟩ := h'
    · rw [hstep] at hstep'
      cases hstep'
    · rw [hstep] at hstep'
      cases hstep'
      rfl

/-- There is one end of what was fed. -/
theorem Drained.unique {out' : List redisReply} {err err' : Option Bytes}
    (h : Drained before out err) (h' : Drained before out' err') : out = out' ∧ err = err' := by
  obtain ⟨t, m, htook, hend⟩ := h
  obtain ⟨t', m', htook', hend'⟩ := h'
  obtain ⟨rfl, rfl, rfl⟩ := htook.unique htook' hend.stops hend'.stops
  exact ⟨rfl, hend.unique hend'⟩

/-- What has failed before is the error in the end. -/
theorem Drained.of_failed {more : List redisReply} {err : Option Bytes} {t : Resp} {l m : Bytes}
    {e : Stop} (h : Drained (before ++ l) out err) (htook : Took Resp.step .start before more t m)
    (hstep : t.step m = .failed e) : ∃ str, e = .error str ∧ err = some (errstr str) := by
  obtain ⟨s, k, htook', hend⟩ := h
  have hlater := Resp.stable_step.failed hstep l
  obtain ⟨-, rfl, rfl⟩ := htook'.unique (htook.append Resp.stable_step l) hend.stops
    (stops_of_failed hlater)
  obtain ⟨hstep', -⟩ | ⟨str, hstep', rfl⟩ := hend
  · rw [hlater] at hstep'
    cases hstep'
  · rw [hlater] at hstep'
    cases hstep'
    exact ⟨str, rfl, rfl⟩

theorem At.prefix_of_drained {more : List redisReply} {err : Option Bytes} {l : Bytes}
    (h : At before more r) (hdrained : Drained (before ++ l) out err) : more <+: out := by
  obtain ⟨t, m, htook⟩ := h.took
  obtain ⟨s, k, htook', hend⟩ := hdrained
  exact htook.prefix_of_append Resp.stable_step htook' hend.stops

/-- A client that has got all replies of its bytes has got what any other gets that feeds the same
bytes in other pieces and asks at other times: until then the other gets the first of these
replies, and in the end all of them and the same error. -/
theorem session_pieces {objects : List Object} (hfed : fed ops' = fed ops)
    (hw : Within ops .create) (hw' : Within ops' .create)
    (hsession : session ops .create = .ok (r, objects)) (hlen : r.unread.length ≤ 2 ^ 31)
    (hend : redisReaderGetReply r = .ok (q, none)) :
    ∃ r' objects', session ops' .create = .ok (r', objects') ∧ objects' <+: objects ∧
      ∀ q', r'.unread.length ≤ 2 ^ 31 → redisReaderGetReply r' = .ok (q', none) →
        objects' = objects ∧ q'.err = q.err := by
  have hone := at_create.session hw
  rw [hsession] at hone
  obtain ⟨out, rfl, hat⟩ := hone
  have hdrained := hat.getReply hlen
  rw [hend] at hdrained
  have hdrained := hdrained.2.1
  rw [← hfed, List.nil_append, List.nil_append] at hdrained
  have hall := hdrained
  rw [← List.append_nil (fed ops')] at hall
  have hother := at_create.session hw'
  cases hsession' : session ops' .create with
  | error f =>
    rw [hsession'] at hother
    obtain ⟨more, t, m, htook, hstep⟩ := hother
    obtain ⟨str, he, -⟩ := hall.of_failed htook hstep
    cases he
  | ok p =>
    obtain ⟨r', objects'⟩ := p
    rw [hsession'] at hother
    obtain ⟨out', rfl, hat'⟩ := hother
    refine ⟨r', _, rfl, (hat'.prefix_of_drained hall).map ofReply, ?_⟩
    intro q' hlen' hend'
    have hdrained' := hat'.getReply hlen'
    rw [hend'] at hdrained'
    obtain ⟨hout, herr⟩ := hdrained'.2.1.unique hdrained
    exact ⟨congrArg (List.map ofReply) hout, herr⟩

theorem session_pieces_two : ∃ r' objects',
    session [.feed (bytes "*2\r\n:12\r\n$2\r\nok\r\n"), .getReply] .create = .ok (r', objects') ∧
      objects' <+: [ofReply (.array [.integer 12, .string (bytes "ok")])] ∧
      ∀ q', r'.unread.length ≤ 2 ^ 31 → redisReaderGetReply r' = .ok (q', none) →
        objects' = [ofReply (.array [.integer 12, .string (bytes "ok")])] ∧ q'.err = none := by
  have hsession : session [.feed (bytes "*2\r\n:1"), .getReply, .feed (bytes "2\r\n$2\r\nok\r\n"),
      .getReply] .create = .ok (⟨none, bytes "*2\r\n:12\r\n$2\r\nok\r\n", 17, [], 9, none⟩,
        [ofReply (.array [.integer 12, .string (bytes "ok")])]) := rfl
  exact session_pieces (by decide) (by decide +kernel) (by decide +kernel) hsession (by decide) rfl

/-- The texts of replies are read to their end. -/
theorem drained_texts {ws : List Wire} (hws : ∀ w ∈ ws, w.Proper) :
    Drained (ws.flatMap Wire.render) (ws.map Wire.reply) none := by
  have htook := Wire.took_texts hws []
  rw [List.append_nil] at htook
  exact ⟨_, _, htook, .inl ⟨Resp.step_nil _, rfl⟩⟩

/-- Where no error comes there has been none. -/
theorem At.err_of_drained {more : List redisReply} {l : Bytes} (h : At before more r)
    (hdrained : Drained (before ++ l) out none) : r.err = none := by
  cases h with
  | inside _ hr => exact hr.err
  | rests _ hr => exact hr.err
  | failed htook hstep _ =>
    obtain ⟨str, -, herr⟩ := hdrained.of_failed htook hstep
    cases herr

/-- What waits in the buffer for more is part of one text. -/
theorem Awaits.length_le {ws : List Wire} {n : Nat} (h : Awaits before out r)
    (hws : ∀ w ∈ ws, w.Proper ∧ w.render.length ≤ n) (hbefore : before <+: ws.flatMap Wire.render) :
    r.unread.length ≤ n := by
  obtain ⟨t, htook, hstep⟩ := h
  obtain ⟨done, todo, part, rfl, rfl, hpart⟩ := Wire.prefix_of_texts hbefore
  have hdone := Wire.took_texts (fun w hw => (hws w (List.mem_append_left _ hw)).1) part
  obtain ⟨more, -, hmore⟩ := hdone.linear htook (stops_of_wants hstep)
  refine Nat.le_trans (hmore.length_le Resp.stable_step) ?_
  obtain rfl | ⟨w, hw, hpre⟩ := hpart
  · exact Nat.zero_le n
  · have hmem := List.mem_append_right done (List.mem_of_mem_head? hw)
    exact Nat.le_trans hpre.length_le (hws w hmem).2

theorem At.took_unread (h : At before out r) (herr : r.err = none) :
    ∃ t, Took Resp.step .start before out t r.unread := by
  cases h with
  | inside htook _ => exact ⟨_, htook⟩
  | rests htook _ => exact ⟨_, htook⟩
  | failed _ _ he =>
    rw [herr] at he
    cases he

/-- A call for a reply while the texts of replies come in. -/
theorem At.getReply_texts {ws : List Wire} (h : At before out r) (hlen : r.unread.length ≤ 2 ^ 31)
    (hws : ∀ w ∈ ws, w.Proper) (hbefore : before <+: ws.flatMap Wire.render) :
    ∃ q o, redisReaderGetReply r = .ok (q, o) ∧ q.err = none ∧
      q.unread.length ≤ r.unread.length ∧
      match o with
      | none => At before out q ∧ Awaits before out q
      | some o => ∃ w ∈ ws, o = ofReply w.reply ∧ At before (out ++ [w.reply]) q := by
  have hdrained := drained_texts hws
  obtain ⟨l, hl⟩ := hbefore
  rw [← hl] at hdrained
  have hget := h.getReply hlen
  cases hreply : redisReaderGetReply r with
  | error f =>
    rw [hreply] at hget
    obtain ⟨t, m, htook, hstep⟩ := hget
    obtain ⟨str, he, -⟩ := hdrained.of_failed htook hstep
    cases he
  | ok p =>
    obtain ⟨q, o⟩ := p
    rw [hreply] at hget
    cases o with
    | none =>
      obtain ⟨hat, -, hnone⟩ := hget
      have herr := hat.err_of_drained hdrained
      obtain ⟨hawaits, hle⟩ := hnone herr
      exact ⟨q, none, rfl, herr, hle, hat, hawaits⟩
    | some o =>
      obtain ⟨v, rfl, hat, hle⟩ := hget
      have hmem : v ∈ ws.map Wire.reply := by
        refine (hat.prefix_of_drained hdrained).subset ?_
        exact List.mem_append_right _ (List.mem_singleton_self v)
      obtain ⟨w, hw, rfl⟩ := List.mem_map.mp hmem
      exact ⟨q, _, rfl, hat.err_of_drained hdrained, hle, w, hw, rfl, hat⟩

/-- Of the texts of replies a client gets these replies in turn, however many of the bytes have
come in whatever pieces, and no error. -/
theorem session_texts {ws : List Wire} (hws : ∀ w ∈ ws, w.Proper)
    (hfed : fed ops <+: ws.flatMap Wire.render) (hw : Within ops .create) :
    ∃ r objects, session ops .create = .ok (r, objects) ∧ r.err = none ∧
      objects <+: ws.map (fun w => ofReply w.reply) ∧
      ∀ q, fed ops = ws.flatMap Wire.render → r.unread.length ≤ 2 ^ 31 →
        redisReaderGetReply r = .ok (q, none) → objects = ws.map fun w => ofReply w.reply := by
  have hdrained := drained_texts hws
  obtain ⟨l, hl⟩ := hfed
  rw [← hl] at hdrained
  have hone := at_create.session hw
  rw [List.nil_append] at hone
  have hmap : ws.map (fun w => ofReply w.reply) = (ws.map Wire.reply).map ofReply := by
    rw [List.map_map]
    rfl
  rw [hmap]
  cases hsession : session ops .create with
  | error f =>
    rw [hsession] at hone
    obtain ⟨more, t, m, htook, hstep⟩ := hone
    obtain ⟨str, he, -⟩ := hdrained.of_failed htook hstep
    cases he
  | ok p =>
    obtain ⟨r, objects⟩ := p
    rw [hsession] at hone
    obtain ⟨out, rfl, hat⟩ := hone
    refine ⟨r, _, rfl, ?_, (hat.prefix_of_drained hdrained).map ofReply, ?_⟩
    · exact hat.err_of_drained hdrained
    · intro q hfed hlen hend
      have hdrained' := hat.getReply hlen
      rw [hend, hfed] at hdrained'
      exact congrArg (List.map ofReply) (hdrained'.2.1.unique (drained_texts hws)).1

theorem session_texts_two : ∃ r objects,
    session [.feed (bytes ":12\r\n$2\r"), .getReply, .getReply] .create = .ok (r, objects) ∧
      r.err = none ∧ objects <+: [ofReply (.integer 12), ofReply (.string (bytes "ok"))] ∧
      ∀ q, bytes ":12\r\n$2\r" = bytes ":12\r\n$2\r\nok\r\n" → r.unread.length ≤ 2 ^ 31 →
        redisReaderGetReply r = .ok (q, none) →
          objects = [ofReply (.integer 12), ofReply (.string (bytes "ok"))] := by
  have hws : ∀ w ∈ [Wire.integer 12, .bulk (bytes "ok")], w.Proper := by
    intro w hw
    obtain rfl | hw := List.mem_cons.mp hw
    · exact ⟨by decide, by decide⟩
    · rw [List.mem_singleton.mp hw]
      exact Nat.lt_trans (by decide : 4 < 5) (by decide)
  exact session_texts hws (by decide) (by decide +kernel)

theorem finish_error {fs : List Unfinished} {v : redisReply} {f : Fault} (h : finish fs v = .error f) :
    f = .overflow ∧ ∃ frame ∈ fs, 2 ^ 31 ≤ frame.done.length + 1 := by
  induction fs generalizing v with
  | nil => cases h
  | cons frame fs ih =>
    rw [finish] at h
    split at h
    · obtain ⟨hf, g, hg, hlen⟩ := ih h
      exact ⟨hf, g, List.mem_cons_of_mem _ hg, hlen⟩
    · split at h
      · rename_i hlen
        cases h
        exact ⟨rfl, frame, List.mem_cons_self, hlen⟩
      · cases h

theorem enter_error {fs : List Unfinished} {i : Item} {f : Fault} (h : enter fs i = .error f) :
    (f = .assertion ∧ ∃ v, i = .value v ∧ ∃ frame ∈ fs.head?, ¬ Admits frame.type v) ∨
    (f = .overflow ∧ ∃ frame ∈ fs, 2 ^ 31 ≤ frame.done.length + 1) := by
  cases i with
  | value v =>
    rw [enter, place] at h
    by_cases hadmit : ∀ frame ∈ fs.head?, Admits frame.type v
    · rw [if_pos hadmit] at h
      exact .inr (finish_error h)
    · rw [if_neg hadmit] at h
      cases h
      simp only [not_forall] at hadmit
      obtain ⟨frame, hframe, hv⟩ := hadmit
      exact .inl ⟨rfl, v, rfl, frame, hframe, hv⟩
  | many type n =>
    rw [enter] at h
    split at h
    · exact .inr (finish_error h)
    · cases h

/-- A number that leaves its type: the index of an element, the length of a line or of a text with
the end of the line, or the number of the tasks. -/
inductive Overflows (t : Resp) (m : Bytes) : Prop
  | idx {frame : Unfinished} : frame ∈ t.frames → 2 ^ 31 ≤ frame.done.length + 1 → Overflows t m
  | line {line rest : Bytes} : cutLine m = some (line, rest) → 2 ^ 31 ≤ line.length + 2 →
      Overflows t m
  | len {line rest : Bytes} {len : Int} : t.type = some .STRING ∨ t.type = some .VERB →
      cutLine m = some (line, rest) → string2ll line = some len → 2 ^ 63 ≤ len + 2 → Overflows t m
  | tasks {c : UInt8} {rest : Bytes} {type : REDIS_REPLY} : t.type = none → m = c :: rest →
      typeOf c = some type → TooDeep t.frames type → Overflows t m

/-- What makes the process stop: an element of a push message that the assertions refuse, or an
overflow. -/
def Stopped (t : Resp) (m : Bytes) (f : Fault) : Prop :=
  (f = .assertion ∧ ∃ type v rest frame, t.type = some type ∧
    item type m = some (.ok (.value v, rest)) ∧ frame ∈ t.frames.head? ∧ frame.type = .PUSH ∧
    v.type ∈ [REDIS_REPLY.NIL, .DOUBLE, .BOOL]) ∨
  (f = .overflow ∧ Overflows t m)

theorem bulkItem_fault {type : REDIS_REPLY} {m : Bytes} {f : Fault}
    (h : bulkItem type m = some (.error (.fault f))) : f = .overflow ∧ ∃ line rest len,
      cutLine m = some (line, rest) ∧ string2ll line = some len ∧ 2 ^ 63 ≤ len + 2 := by
  obtain ⟨⟨line, rest⟩, hcut, h⟩ := Option.bind_eq_some_iff.mp h
  dsimp only at h
  cases hlen : string2ll line with
  | none =>
    rw [hlen] at h
    cases h
  | some len =>
    rw [hlen] at h
    dsimp only at h
    split at h
    · cases h
    · split at h
      · cases h
      · split at h
        · rename_i hover
          cases h
          exact ⟨rfl, line, rest, len, hcut, hlen, hover⟩
        · split at h
          · cases h
          · split at h <;> cases h

theorem lineItem_fault {read : Bytes → Except Bytes Item} {m : Bytes} {f : Fault}
    (h : lineItem read m = some (.error (.fault f))) : f = .overflow ∧ ∃ line rest,
      cutLine m = some (line, rest) ∧ 2 ^ 31 ≤ line.length + 2 := by
  obtain ⟨⟨line, rest⟩, hcut, h⟩ := Option.map_eq_some_iff.mp h
  dsimp only at h
  split at h
  · rename_i hover
    cases h
    exact ⟨rfl, line, rest, hcut, hover⟩
  · split at h <;> cases h

/-- An item stops the process only where a length leaves its type. -/
theorem item_fault {fs : List Unfinished} {type : REDIS_REPLY} {m : Bytes} {f : Fault}
    (h : item type m = some (.error (.fault f))) :
    f = .overflow ∧ Overflows ⟨fs, some type⟩ m := by
  obtain ⟨hbulk, hitem⟩ | ⟨read, hitem⟩ := item_cases type
  · rw [hitem] at h
    obtain ⟨hf, line, rest, len, hcut, hlen, hover⟩ := bulkItem_fault h
    exact ⟨hf, .len (hbulk.imp (congrArg some) (congrArg some)) hcut hlen hover⟩
  · rw [hitem] at h
    obtain ⟨hf, line, rest, hcut, hover⟩ := lineItem_fault h
    exact ⟨hf, .line hcut hover⟩

theorem Resp.stopped {t : Resp} {m : Bytes} {f : Fault} (h : t.step m = .failed (.fault f)) :
    Stopped t m f := by
  obtain ⟨fs, type⟩ := t
  obtain ⟨c, l, -, -, -, he⟩ | ⟨c, l, type, rfl, rfl, hc, hdeep, he⟩ | ⟨type, rfl, hitem⟩ |
    ⟨type, i, rest, g, rfl, hitem, henter, he⟩ := Resp.step_failed h
  · cases he
  · cases he
    exact .inr ⟨rfl, .tasks rfl rfl hc hdeep⟩
  · exact .inr (item_fault hitem)
  · cases he
    obtain ⟨rfl, v, rfl, frame, hframe, hv⟩ | ⟨hf, frame, hframe, hover⟩ := enter_error henter
    · simp only [Admits, not_forall] at hv
      obtain ⟨hpush, hv⟩ := hv
      refine .inl ⟨rfl, type, v, rest, frame, rfl, hitem, hframe, hpush, ?_⟩
      by_contra hmem
      simp only [List.mem_cons, List.not_mem_nil, or_false, not_or] at hmem
      exact hv hmem
    · exact .inr ⟨hf, .idx hframe hover⟩

/-- No session writes where no element is, and no reply is handed out before it is complete. -/
theorem session_safe (hw : Within ops .create) :
    match session ops .create with
    | .ok (_, objects) => ∃ replies : List redisReply, objects = replies.map ofReply
    | .error f => ∃ out t m, Took Resp.step .start (fed ops) out t m ∧ Stopped t m f := by
  have hone := at_create.session hw
  cases hsession : session ops .create with
  | error f =>
    rw [hsession] at hone
    obtain ⟨out, t, m, htook, hstep⟩ := hone
    exact ⟨out, t, m, htook, Resp.stopped hstep⟩
  | ok p =>
    rw [hsession] at hone
    obtain ⟨replies, hobjects, -⟩ := hone
    exact ⟨replies, hobjects⟩

theorem session_safe_push :
    match session [.feed (bytes ">1\r\n_\r\n"), .getReply] .create with
    | .ok (_, objects) => ∃ replies : List redisReply, objects = replies.map ofReply
    | .error f => ∃ out t m,
        Took Resp.step .start (fed [.feed (bytes ">1\r\n_\r\n"), .getReply]) out t m ∧
          Stopped t m f := by
  have hw : Within [.feed (bytes ">1\r\n_\r\n"), .getReply] .create := by decide +kernel
  exact session_safe hw

end Sessions
end CppPrivate.Hiredis
