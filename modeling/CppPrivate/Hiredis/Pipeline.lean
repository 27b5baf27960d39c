import CppPrivate.Lib.Run
import CppPrivate.Hiredis.Context
import CppPrivate.Hiredis.ReaderRuns

/-! A connection and the server at its other end. Bytes travel in pieces of any size, the server
works whenever it likes, and each reply must still be the one to its command. -/
namespace CppPrivate.Hiredis
open Redis
open Incremental Run
open redisReader (errstr)

/-- The server reads its input as it comes and answers with values of the protocol. -/
abbrev Serve (σ : Type) := σ → Bytes → Outcome σ UInt8 Wire Empty

/-- `inbox` has reached the server, `flight` has left it. `commands` are those that were appended,
`replies` those that were given. -/
structure Conn (σ : Type) where
  c : redisContext
  phase : Phase
  peer : σ
  inbox : Bytes
  flight : Bytes
  commands : List Bytes
  replies : List Object

/-- A socket takes or gives some bytes, is interrupted, or fails. -/
inductive Event where
  | append (cmd : Bytes)
  | getReply
  | send (n : Nat)
  | sendFails (s : SendResult)
  | recv (n : Nat)
  | recvFails (s : RecvResult)
  | serve

namespace Conn
variable {σ : Type}

def start (peer : σ) : Conn σ := ⟨.connected, .idle, peer, [], [], [], []⟩

def resume (k : Conn σ) (part : Part) : Conn σ :=
  { k with c := part.1, phase := part.2.1, replies := k.replies ++ part.2.2.toList }

def step (serve : Serve σ) (k : Conn σ) : Event → Option (Conn σ)
  | .append cmd =>
    match k.phase with
    | .idle => some { k with c := k.c.appendCommand cmd, commands := k.commands ++ [cmd] }
    | _ => none
  | .getReply =>
    match k.phase with
    | .idle => some (k.resume k.c.getReply)
    | _ => none
  | .send n =>
    match k.phase with
    | .writing =>
      if k.c.err = none ∧ 0 < n ∧ n ≤ k.c.obuf.length then
        some { k.resume (k.c.written (.some n)) with inbox := k.inbox ++ k.c.obuf.take n }
      else none
    | _ => none
  | .sendFails s =>
    match k.phase with
    | .writing => if s.moves then none else some (k.resume (k.c.written s))
    | _ => none
  | .recv n =>
    match k.phase with
    | .reading =>
      if k.c.err = none ∧ 0 < n ∧ n ≤ k.flight.length ∧ n ≤ 1024 * 16 then
        some { k.resume (k.c.read (.some (k.flight.take n))) with flight := k.flight.drop n }
      else none
    | _ => none
  | .recvFails s =>
    match k.phase with
    | .reading => if s.moves then none else some (k.resume (k.c.read s))
    | _ => none
  | .serve =>
    match serve k.peer k.inbox with
    | .took peer ws inbox =>
      some { k with peer, inbox, flight := k.flight ++ ws.flatMap Wire.render }
    | _ => none

end Conn

/-- The server answers each of the commands, when it has all of it, with one value. -/
inductive Answers {σ : Type} (serve : Serve σ) : σ → List Bytes → List Wire → σ → Prop
  | nil (s : σ) : Answers serve s [] [] s
  | cons {s t u : σ} {cmd : Bytes} {w : Wire} {cmds : List Bytes} {ws : List Wire} :
      serve s cmd = .took t [w] [] → Answers serve t cmds ws u →
      Answers serve s (cmd :: cmds) (w :: ws) u

/-- What the server may answer: no push message, and not too long. -/
def Wire.Fits (w : Wire) : Prop :=
  w.Proper ∧ w.render.length ≤ 2 ^ 31 - 2 ^ 14 ∧ w.reply.type ≠ .PUSH

section Server
variable {σ : Type} {serve : Serve σ} {s p u : σ} {cmds : List Bytes} {ws served : List Wire}
  {rest : Bytes}

theorem Answers.took (hs : Stable serve) (h : Answers serve s cmds ws u) :
    Took serve s cmds.flatten ws u [] := by
  induction h with
  | nil s => exact .nil s []
  | cons hcmd _ ih =>
    rw [List.flatten_cons]
    exact .cons (hs.took hcmd _) ih

/-- The server has dealt with some of the commands, and with nothing of the others. -/
theorem Answers.split (hs : Stable serve) (h : Answers serve s cmds ws u)
    (htook : Took serve s cmds.flatten served p rest) :
    ∃ todo ws', Answers serve p todo ws' u ∧ rest = todo.flatten ∧ ws = served ++ ws' := by
  induction h generalizing served with
  | nil s =>
    cases htook with
    | nil => exact ⟨[], [], .nil _, rfl, rfl⟩
    | cons hstep _ => exact absurd (hs.shorter hstep) (Nat.not_lt_zero _)
  | cons hcmd hcmds ih =>
    cases htook with
    | nil => exact ⟨_, _, .cons hcmd hcmds, rfl, rfl⟩
    | cons hstep htook =>
      rw [List.flatten_cons, hs.took hcmd] at hstep
      cases hstep
      obtain ⟨todo, ws', hanswers, hrest, rfl⟩ := ih htook
      exact ⟨todo, ws', hanswers, hrest, rfl⟩

/-- More commands do not change the answers to the first. -/
theorem Answers.of_append {more : List Bytes} (h : Answers serve s (cmds ++ more) ws u) :
    ∃ t ws', Answers serve s cmds ws' t ∧ ws' <+: ws := by
  induction cmds generalizing s ws with
  | nil => exact ⟨s, [], .nil s, List.nil_prefix⟩
  | cons cmd cmds ih =>
    cases h with
    | cons hcmd h =>
      obtain ⟨t, ws', hanswers, hpre⟩ := ih h
      exact ⟨t, _, .cons hcmd hanswers, List.cons_prefix_cons.mpr ⟨rfl, hpre⟩⟩

end Server

section Calls
variable {c : redisContext} {received : Bytes} {out : List redisReply} {ws : List Wire} {n : Nat}

def Waits (c : redisContext) (phase : Phase) (received : Bytes) (out : List redisReply) : Prop :=
  match phase with
  | .idle => True
  | .writing => c.err = none ∧ c.obuf ≠ [] ∧ Awaits received out c.reader
  | .reading => c.err = none ∧ c.obuf = [] ∧ Awaits received out c.reader
  | .stopped _ => False

structure Holds (c : redisContext) (received : Bytes) (out : List redisReply) : Prop where
  at_ : At received out c.reader
  short : c.reader.unread.length ≤ 2 ^ 31

/-- A part of a call keeps what is to be sent, and hands out the next reply if it hands out any. -/
def Goes (part : Part) (obuf received : Bytes) (out : List redisReply) : Prop :=
  part.1.obuf = obuf ∧ ∃ more : List redisReply, part.2.2.toList = more.map ofReply ∧
    Holds part.1 received (out ++ more) ∧ Waits part.1 part.2.1 received (out ++ more)

/-- A part of a call that ends with a reply if it ends, and with no error. -/
def Unfailed (part : Part) : Prop :=
  part.1.err = none ∧ (part.2.1 = .idle ∧ part.2.2.isSome ∨ part.2.1 ≠ .idle ∧ part.2.2 = none)

theorem getReplyFromReader_eq (h : Holds c received out) (hws : ∀ w ∈ ws, w.Fits)
    (hreceived : received <+: ws.flatMap Wire.render) :
    ∃ q o, c.getReplyFromReader = .ok ({ c with reader := q }, some o) ∧
      q.unread.length ≤ c.reader.unread.length ∧
      match o with
      | none => At received out q ∧ Awaits received out q
      | some o => ∃ w ∈ ws, o = ofReply w.reply ∧ At received (out ++ [w.reply]) q := by
  obtain ⟨q, o, hget, herr, hle, hat⟩ :=
    h.at_.getReply_texts h.short (fun w hw => (hws w hw).1) hreceived
  refine ⟨q, o, ?_, hle, hat⟩
  simp only [redisContext.getReplyFromReader, hget, bind, Except.bind, herr]
  rfl

/-- A reply that is no push message is not kept back. -/
theorem not_push {w : Wire} (hw : w.Fits) : redisIsPushReply (ofReply w.reply) = false := by
  cases hreply : w.reply with
  | push l => exact absurd (by rw [hreply]; rfl) hw.2.2
  | _ => rfl

theorem goes_getReply (h : Holds c received out) (hws : ∀ w ∈ ws, w.Fits)
    (hreceived : received <+: ws.flatMap Wire.render) :
    Goes c.getReply c.obuf received out ∧ (c.err = none → Unfailed c.getReply) := by
  obtain ⟨q, o, hget, hle, hat⟩ := getReplyFromReader_eq h hws hreceived
  have hshort := Nat.le_trans hle h.short
  rw [redisContext.getReply, hget]
  cases o with
  | none =>
    dsimp only
    by_cases herr : c.err.isSome
    · rw [if_pos herr]
      refine ⟨⟨rfl, [], rfl, ⟨by rw [List.append_nil]; exact hat.1, hshort⟩, trivial⟩, ?_⟩
      intro hnone
      rw [hnone] at herr
      cases herr
    · have hnone : c.err = none := by simpa using herr
      rw [if_neg herr]
      refine ⟨⟨rfl, [], rfl, ⟨by rw [List.append_nil]; exact hat.1, hshort⟩, ?_⟩,
        fun _ => ⟨hnone, .inr ⟨?_, rfl⟩⟩⟩
      · rw [List.append_nil]
        by_cases hobuf : c.obuf = []
        · rw [if_pos hobuf]
          exact ⟨hnone, hobuf, hat.2⟩
        · rw [if_neg hobuf]
          exact ⟨hnone, hobuf, hat.2⟩
      · dsimp only
        split
        · exact nofun
        · exact nofun
  | some o =>
    obtain ⟨w, hw, rfl, hat⟩ := hat
    exact ⟨⟨rfl, [w.reply], rfl, ⟨hat, hshort⟩, trivial⟩, fun hnone => ⟨hnone, .inl ⟨rfl, rfl⟩⟩⟩

theorem goes_send (h : Holds c received out) (herr : c.err = none)
    (hawaits : Awaits received out c.reader) (n : Nat) :
    Goes (c.written (.some n)) (c.obuf.drop n) received out ∧ Unfailed (c.written (.some n)) := by
  have hwritten : c.bufferWrite (.some n) = ({ c with obuf := c.obuf.drop n }, true) := by
    rw [redisContext.bufferWrite, if_neg (by rw [herr]; decide)]
    rfl
  rw [redisContext.written, hwritten]
  refine ⟨⟨rfl, [], rfl, ⟨by rw [List.append_nil]; exact h.at_, h.short⟩, ?_⟩,
    herr, .inr ⟨?_, rfl⟩⟩
  · rw [List.append_nil]
    by_cases hobuf : c.obuf.drop n = []
    · dsimp only
      rw [if_pos hobuf]
      exact ⟨herr, hobuf, hawaits⟩
    · dsimp only
      rw [if_neg hobuf]
      exact ⟨herr, hobuf, hawaits⟩
  · dsimp only
    split
    · exact nofun
    · exact nofun

/-- A call that ends without a reply changes neither the buffers nor the reader. -/
theorem goes_end {c' : redisContext} (h : Holds c received out) (hobuf : c'.obuf = c.obuf)
    (hreader : c'.reader = c.reader) : Goes (c', .idle, none) c.obuf received out := by
  refine ⟨hobuf, [], rfl, ⟨?_, ?_⟩, trivial⟩
  · rw [List.append_nil]
    exact hreader ▸ h.at_
  · exact hreader ▸ h.short

theorem goes_sendFails (h : Holds c received out) {r : SendResult} (hr : ¬ r.moves) :
    Goes (c.written r) c.obuf received out := by
  have hfails : ∃ c' : redisContext, c.bufferWrite r = (c', false) ∧ c'.obuf = c.obuf ∧
      c'.reader = c.reader := by
    rw [redisContext.bufferWrite]
    by_cases herr : c.err.isSome
    · rw [if_pos herr]
      exact ⟨c, rfl, rfl, rfl⟩
    · rw [if_neg herr]
      cases r with
      | some n => exact absurd rfl hr
      | again => exact ⟨_, rfl, rfl, rfl⟩
      | failed => exact ⟨_, rfl, rfl, rfl⟩
  obtain ⟨c', hc, hobuf, hreader⟩ := hfails
  rw [redisContext.written, hc]
  exact goes_end h hobuf hreader

/-- What the reader says after bytes have come, or none. -/
theorem goes_read {r : RecvResult} {reader : redisReader}
    (hread : c.bufferRead r = ({ c with reader }, true)) (hobuf : c.obuf = [])
    (h : Holds { c with reader } received out) (hws : ∀ w ∈ ws, w.Fits)
    (hreceived : received <+: ws.flatMap Wire.render) (herr : c.err = none) :
    Goes (c.read r) c.obuf received out ∧ Unfailed (c.read r) := by
  obtain ⟨q, o, hget, hle, hat⟩ := getReplyFromReader_eq h hws hreceived
  have hshort := Nat.le_trans hle h.short
  have hloop : inBandReply (reader.unread.length + 1) { c with reader } =
      .ok ({ c with reader := q }, some o) := by
    rw [inBandReply, hget]
    cases o with
    | none => rfl
    | some o =>
      obtain ⟨w, hw, rfl, -⟩ := hat
      change (if redisIsPushReply (ofReply w.reply) then _ else _) = _
      rw [not_push (hws w hw)]
      rfl
  rw [redisContext.read, hread]
  dsimp only
  rw [hloop]
  cases o with
  | none =>
    refine ⟨⟨rfl, [], rfl, ⟨by rw [List.append_nil]; exact hat.1, hshort⟩, ?_⟩, herr,
      .inr ⟨nofun, rfl⟩⟩
    rw [List.append_nil]
    exact ⟨herr, hobuf, hat.2⟩
  | some o =>
    obtain ⟨w, hw, rfl, hat⟩ := hat
    exact ⟨⟨rfl, [w.reply], rfl, ⟨hat, hshort⟩, trivial⟩, herr, .inl ⟨rfl, rfl⟩⟩

theorem goes_recv {buf : Bytes} (h : Holds c received out) (herr : c.err = none)
    (hobuf : c.obuf = []) (hawaits : Awaits received out c.reader) (hws : ∀ w ∈ ws, w.Fits)
    (hreceived : received ++ buf <+: ws.flatMap Wire.render) (hbuf : buf ≠ [])
    (hlen : buf.length ≤ 2 ^ 14) :
    Goes (c.read (.some buf)) c.obuf (received ++ buf) out ∧ Unfailed (c.read (.some buf)) := by
  have hbefore := (List.prefix_append received buf).trans hreceived
  have hpart := hawaits.length_le (fun w hw => ⟨(hws w hw).1, (hws w hw).2.1⟩) hbefore
  obtain ⟨l, hl⟩ := hreceived
  have hdrained := drained_texts fun w hw => (hws w hw).1
  rw [← hl] at hdrained
  have hat := h.at_.feed buf
  have hnone := hat.err_of_drained hdrained
  have hfeed : redisReaderFeed c.reader buf = { c.reader with buf := c.reader.buf ++ buf } := by
    rw [redisReaderFeed, if_neg]
    intro hsome
    rw [redisReaderFeed, if_pos hsome] at hnone
    rw [hnone] at hsome
    cases hsome
  have hread : c.bufferRead (.some buf) =
      ({ c with reader := redisReaderFeed c.reader buf }, true) := by
    obtain ⟨b, buf, rfl⟩ := List.exists_cons_of_ne_nil hbuf
    rw [redisContext.bufferRead, if_neg (by rw [herr]; decide)]
    simp only [redisContext.netRead, hnone]
  refine goes_read hread hobuf ⟨hat, ?_⟩ hws ⟨l, hl⟩ herr
  have hsize : (redisReaderFeed c.reader buf).unread.length ≤
      c.reader.unread.length + buf.length := by
    rw [hfeed, redisReader.unread, redisReader.unread, List.length_drop, List.length_drop,
      List.length_append]
    dsimp only
    omega
  refine Nat.le_trans hsize ?_
  omega

theorem goes_recvFails (h : Holds c received out) (herr : c.err = none) (hobuf : c.obuf = [])
    (hws : ∀ w ∈ ws, w.Fits) (hreceived : received <+: ws.flatMap Wire.render) {r : RecvResult}
    (hr : ¬ r.moves) : Goes (c.read r) c.obuf received out := by
  cases r with
  | some buf => exact absurd rfl hr
  | again =>
    have hread : c.bufferRead .again = ({ c with reader := c.reader }, true) := by
      rw [redisContext.bufferRead, if_neg (by rw [herr]; decide)]
      rfl
    exact (goes_read hread hobuf h hws hreceived herr).1
  | timeout =>
    have hread : c.bufferRead .timeout = ({ c with err := some .timeout }, false) := by
      rw [redisContext.bufferRead, if_neg (by rw [herr]; decide)]
      rfl
    rw [redisContext.read, hread]
    exact goes_end h rfl rfl
  | closed =>
    have hread : c.bufferRead .closed = ({ c with err := some .eof }, false) := by
      rw [redisContext.bufferRead, if_neg (by rw [herr]; decide)]
      rfl
    rw [redisContext.read, hread]
    exact goes_end h rfl rfl
  | failed =>
    have hread : c.bufferRead .failed = ({ c with err := some .io }, false) := by
      rw [redisContext.bufferRead, if_neg (by rw [herr]; decide)]
      rfl
    rw [redisContext.read, hread]
    exact goes_end h rfl rfl

end Calls
section Runs
variable {σ : Type} {serve : Serve σ} {s₀ u : σ} {k k' : Conn σ} {events : List Event}
  {ws : List Wire}

/-- All bytes are somewhere: the commands have been sent or are to be sent, what was sent has been
answered or waits at the server, and the answers have come or are on their way. -/
structure Carries (serve : Serve σ) (s₀ : σ) (k : Conn σ) (sent : Bytes) (served : List Wire)
    (received : Bytes) (out : List redisReply) : Prop where
  asked : k.commands.flatten = sent ++ k.c.obuf
  took : Took serve s₀ sent served k.peer k.inbox
  answered : served.flatMap Wire.render = received ++ k.flight
  given : k.replies = out.map ofReply
  holds : Holds k.c received out
  waits : Waits k.c k.phase received out

def Carried (serve : Serve σ) (s₀ : σ) (k : Conn σ) : Prop :=
  ∃ sent served received out, Carries serve s₀ k sent served received out

theorem carried_start (serve : Serve σ) (s₀ : σ) : Carried serve s₀ (.start s₀) :=
  ⟨[], [], [], [], rfl, .nil _ _, rfl, rfl, ⟨at_create, Nat.zero_le _⟩, trivial⟩

section Step
variable {sent received : Bytes} {served : List Wire} {out : List redisReply}

/-- A part of the call, with what it does to the bytes on both ways. -/
theorem Carries.resume (h : Carries serve s₀ k sent served received out) {part : Part}
    {obuf bytes bytes' flight : Bytes} (hstable : Stable serve)
    (hgoes : Goes part obuf (received ++ bytes') out) (hobuf : k.c.obuf = bytes ++ obuf)
    (hflight : k.flight = bytes' ++ flight) :
    Carried serve s₀ { k.resume part with inbox := k.inbox ++ bytes, flight } := by
  obtain ⟨hout, more, hmore, hholds, hwaits⟩ := hgoes
  refine ⟨sent ++ bytes, served, received ++ bytes', out ++ more, ?_, ?_, ?_, ?_, hholds, hwaits⟩
  · change k.commands.flatten = sent ++ bytes ++ part.1.obuf
    rw [h.asked, hobuf, hout, List.append_assoc]
  · exact h.took.append hstable bytes
  · rw [h.answered, hflight, List.append_assoc]
  · change k.replies ++ part.2.2.toList = _
    rw [h.given, hmore, List.map_append]

/-- A part of the call that moves no bytes. -/
theorem Carries.resume_only (h : Carries serve s₀ k sent served received out) {part : Part}
    (hstable : Stable serve) (hgoes : Goes part k.c.obuf received out) :
    Carried serve s₀ (k.resume part) := by
  have hgoes' : Goes part k.c.obuf (received ++ []) out := by
    rw [List.append_nil]
    exact hgoes
  have hresume := h.resume hstable hgoes' (List.nil_append _).symm (List.nil_append _).symm
  rw [List.append_nil] at hresume
  exact hresume

/-- The answers so far are the first of all. -/
theorem Carries.served_prefix (h : Carries serve s₀ k sent served received out)
    (hstable : Stable serve) (hanswers : Answers serve s₀ k.commands ws u) : served <+: ws := by
  have htook := h.took.append hstable k.c.obuf
  rw [← h.asked] at htook
  obtain ⟨todo, ws', -, -, rfl⟩ := hanswers.split hstable htook
  exact List.prefix_append served ws'

end Step

/-- Every step keeps all bytes where they belong. -/
theorem Carried.step (hstable : Stable serve) (h : Carried serve s₀ k) {e : Event}
    (hanswers : Answers serve s₀ k.commands ws u) (hws : ∀ w ∈ ws, w.Fits)
    (hstep : k.step serve e = some k') : Carried serve s₀ k' := by
  obtain ⟨sent, served, received, out, h⟩ := h
  have hfits : ∀ w ∈ served, w.Fits := fun w hw =>
    hws w ((h.served_prefix hstable hanswers).subset hw)
  have hreceived : received <+: served.flatMap Wire.render := ⟨k.flight, h.answered.symm⟩
  have hwaits := h.waits
  cases e with
  | append cmd =>
    rw [Conn.step] at hstep
    split at hstep
    · rename_i hphase
      cases hstep
      refine ⟨sent, served, received, out, ?_, h.took, h.answered, h.given,
        ⟨h.holds.at_, h.holds.short⟩, ?_⟩
      · rw [List.flatten_append, List.flatten_singleton, h.asked, List.append_assoc]
        rfl
      · dsimp only
        rw [hphase]
        trivial
    · cases hstep
  | getReply =>
    rw [Conn.step] at hstep
    split at hstep
    · cases hstep
      exact h.resume_only hstable (goes_getReply h.holds hfits hreceived).1
    · cases hstep
  | send n =>
    rw [Conn.step] at hstep
    split at hstep
    · rename_i hphase
      rw [hphase] at hwaits
      split at hstep
      · cases hstep
        have hgoes := (goes_send h.holds hwaits.1 hwaits.2.2 n).1
        rw [← List.append_nil received] at hgoes
        exact h.resume hstable hgoes (List.take_append_drop n _).symm (List.nil_append _).symm
      · cases hstep
    · cases hstep
  | sendFails r =>
    rw [Conn.step] at hstep
    split at hstep
    · split at hstep
      · cases hstep
      · rename_i hmoves
        cases hstep
        exact h.resume_only hstable (goes_sendFails h.holds hmoves)
    · cases hstep
  | recv n =>
    rw [Conn.step] at hstep
    split at hstep
    · rename_i hphase
      rw [hphase] at hwaits
      obtain ⟨herr, hobuf, hawaits⟩ := hwaits
      split at hstep
      · rename_i hn
        cases hstep
        have hsplit : k.flight = k.flight.take n ++ k.flight.drop n :=
          (List.take_append_drop n _).symm
        have hlen : (k.flight.take n).length = n := List.length_take_of_le hn.2.2.1
        have hne : k.flight.take n ≠ [] := by
          intro hnil
          rw [hnil] at hlen
          exact absurd hlen (Nat.ne_of_lt hn.2.1)
        have hbefore : received ++ k.flight.take n <+: served.flatMap Wire.render := by
          rw [h.answered]
          exact (List.prefix_append_right_inj _).mpr (List.take_prefix n _)
        have hgoes := goes_recv h.holds herr hobuf hawaits hfits hbefore hne
          (by rw [hlen]; exact hn.2.2.2)
        have hresume := h.resume hstable hgoes.1 (List.nil_append _).symm hsplit
        rw [List.append_nil] at hresume
        exact hresume
      · cases hstep
    · cases hstep
  | recvFails r =>
    rw [Conn.step] at hstep
    split at hstep
    · rename_i hphase
      rw [hphase] at hwaits
      split at hstep
      · cases hstep
      · rename_i hmoves
        cases hstep
        exact h.resume_only hstable
          (goes_recvFails h.holds hwaits.1 hwaits.2.1 hfits hreceived hmoves)
    · cases hstep
  | serve =>
    rw [Conn.step] at hstep
    cases hserve : serve k.peer k.inbox with
    | took t o r =>
      rw [hserve] at hstep
      cases hstep
      refine ⟨sent, served ++ o, received, out, h.asked, ?_, ?_, h.given, h.holds, h.waits⟩
      · exact h.took.trans (.single hserve)
      · rw [List.flatMap_append, h.answered, List.append_assoc]
    | wants =>
      rw [hserve] at hstep
      cases hstep
    | failed e =>
      rw [hserve] at hstep
      cases hstep

/-- The commands are those before and maybe one more. -/
theorem commands_step {e : Event} (hstep : k.step serve e = some k') :
    ∃ more, k'.commands = k.commands ++ more := by
  cases e with
  | append cmd =>
    rw [Conn.step] at hstep
    split at hstep <;> cases hstep
    exact ⟨[cmd], rfl⟩
  | serve =>
    rw [Conn.step] at hstep
    split at hstep <;> cases hstep
    exact ⟨[], (List.append_nil _).symm⟩
  | getReply =>
    rw [Conn.step] at hstep
    split at hstep <;> cases hstep
    exact ⟨[], (List.append_nil _).symm⟩
  | send n =>
    rw [Conn.step] at hstep
    split at hstep
    · split at hstep <;> cases hstep
      exact ⟨[], (List.append_nil _).symm⟩
    · cases hstep
  | sendFails s =>
    rw [Conn.step] at hstep
    split at hstep
    · split at hstep <;> cases hstep
      exact ⟨[], (List.append_nil _).symm⟩
    · cases hstep
  | recv n =>
    rw [Conn.step] at hstep
    split at hstep
    · split at hstep <;> cases hstep
      exact ⟨[], (List.append_nil _).symm⟩
    · cases hstep
  | recvFails s =>
    rw [Conn.step] at hstep
    split at hstep
    · split at hstep <;> cases hstep
      exact ⟨[], (List.append_nil _).symm⟩
    · cases hstep

abbrev Reaches (serve : Serve σ) (s₀ : σ) (events : List Event) (k : Conn σ) : Prop :=
  Runs (fun k e => k.step serve e) (fun _ _ => True) (.start s₀) events k

theorem carried_run (hstable : Stable serve) (hrun : Reaches serve s₀ events k)
    (hanswers : Answers serve s₀ k.commands ws u) (hws : ∀ w ∈ ws, w.Fits) :
    Carried serve s₀ k := by
  induction hrun generalizing ws u with
  | nil => exact carried_start serve s₀
  | snoc _ _ hstep ih =>
    obtain ⟨more, hmore⟩ := commands_step hstep
    rw [hmore] at hanswers
    obtain ⟨t, ws', hbefore, hpre⟩ := hanswers.of_append
    have hfits : ∀ w ∈ ws', w.Fits := fun w hw => hws w (hpre.subset hw)
    exact (ih hbefore hfits).step hstable hbefore hfits hstep

theorem Answers.length_eq {cmds : List Bytes} (h : Answers serve s₀ cmds ws u) :
    cmds.length = ws.length := by
  induction h with
  | nil => rfl
  | cons _ _ ih => rw [List.length_cons, List.length_cons, ih]

theorem Answers.flatten_ne_nil {todo : List Bytes} (hstable : Stable serve)
    (h : Answers serve s₀ todo ws u) (htodo : todo ≠ []) :
    ∃ t w ws' rest, serve s₀ todo.flatten = .took t [w] rest ∧ ws = w :: ws' := by
  cases h with
  | nil => exact absurd rfl htodo
  | cons hcmd h =>
    rw [List.flatten_cons]
    exact ⟨_, _, _, _, hstable.took hcmd _, rfl⟩

section Step
variable {sent received : Bytes} {served : List Wire} {out : List redisReply}

/-- The replies that were given are the first answers. -/
theorem Carries.prefix_served (h : Carries serve s₀ k sent served received out)
    (hfits : ∀ w ∈ served, w.Fits) : out <+: served.map Wire.reply := by
  have hdrained := drained_texts fun w hw => (hfits w hw).1
  rw [h.answered] at hdrained
  exact h.holds.at_.prefix_of_drained hdrained

/-- When all replies have been given, nothing is left anywhere. -/
theorem Carries.nothing_left (hstable : Stable serve)
    (h : Carries serve s₀ k sent served received out)
    (hanswers : Answers serve s₀ k.commands ws u) (hws : ∀ w ∈ ws, w.Fits)
    (hall : out.length = ws.length) :
    k.c.obuf = [] ∧ k.inbox = [] ∧ k.flight = [] ∧ k.c.reader.unread = [] := by
  obtain ⟨ws', hserved⟩ := h.served_prefix hstable hanswers
  have hfits : ∀ w ∈ served, w.Fits := fun w hw => by
    refine hws w ?_
    rw [← hserved]
    exact List.mem_append_left _ hw
  have hout := (h.prefix_served hfits).length_le
  rw [List.length_map, hall, ← hserved, List.length_append] at hout
  obtain rfl : ws' = [] := List.eq_nil_of_length_eq_zero (by omega)
  rw [List.append_nil] at hserved
  subst hserved
  -- every command has been answered
  have htook := h.took.append hstable k.c.obuf
  rw [← h.asked] at htook
  obtain ⟨todo, more, htodo, hrest, hmore⟩ := hanswers.split hstable htook
  have hlen := htodo.length_eq
  rw [List.append_right_eq_self.mp hmore.symm, List.length_nil] at hlen
  rw [List.eq_nil_of_length_eq_zero hlen] at hrest
  obtain ⟨hinbox, hobuf⟩ := List.append_eq_nil_iff.mp hrest
  -- every answer has been read
  have hdrained := drained_texts fun w hw => (hfits w hw).1
  rw [h.answered] at hdrained
  obtain ⟨t, hread⟩ := h.holds.at_.took_unread (h.holds.at_.err_of_drained hdrained)
  have hread := hread.append Resp.stable_step k.flight
  rw [← h.answered] at hread
  obtain ⟨done, last, hdone, rfl, hlast⟩ := Wire.took_of_texts (fun w hw => (hfits w hw).1) hread
  have hnone : last = [] := by
    rw [hdone, List.length_map, List.length_append] at hall
    exact List.eq_nil_of_length_eq_zero (by omega)
  rw [hnone] at hlast
  have hzero := List.eq_nil_of_length_eq_zero
    (Nat.le_zero.mp (hlast.length_le Resp.stable_step))
  obtain ⟨hunread, hflight⟩ := List.append_eq_nil_iff.mp hzero
  exact ⟨hobuf, hinbox, hflight, hunread⟩

end Step

/-- Whatever pieces the bytes come in, whenever the server works and whatever fails, the replies are
the answers to the commands in their order; and when each command has its reply, nothing of it is
left in a buffer for the next. -/
theorem replies_answer_commands (hstable : Stable serve) (hrun : Reaches serve s₀ events k)
    (hanswers : Answers serve s₀ k.commands ws u) (hws : ∀ w ∈ ws, w.Fits) :
    k.replies <+: ws.map (fun w => ofReply w.reply) ∧ (∀ f, k.phase ≠ .stopped f) ∧
      k.c.reader.err = none ∧
      (k.replies.length = k.commands.length →
        k.c.obuf = [] ∧ k.inbox = [] ∧ k.flight = [] ∧ k.c.reader.unread = []) := by
  obtain ⟨sent, served, received, out, h⟩ := carried_run hstable hrun hanswers hws
  have hserved := h.served_prefix hstable hanswers
  have hfits : ∀ w ∈ served, w.Fits := fun w hw => hws w (hserved.subset hw)
  have hdrained := drained_texts fun w hw => (hfits w hw).1
  rw [h.answered] at hdrained
  refine ⟨?_, ?_, h.holds.at_.err_of_drained hdrained, ?_⟩
  · have hmap : ws.map (fun w => ofReply w.reply) = (ws.map Wire.reply).map ofReply := by
      rw [List.map_map]
      rfl
    rw [h.given, hmap]
    exact ((h.prefix_served hfits).trans (hserved.map _)).map ofReply
  · intro f hphase
    have hwaits := h.waits
    rw [hphase] at hwaits
    exact hwaits
  · intro hlen
    rw [h.given, List.length_map, hanswers.length_eq] at hlen
    exact h.nothing_left hstable hanswers hws hlen

/-- Steps in which nothing fails. -/
def Event.Works : Event → Prop
  | .send _ | .recv _ | .serve => True
  | _ => False

/-- What is on its way to the server, and what is on its way back. -/
def Conn.ahead (k : Conn σ) : Nat × Nat :=
  (2 * k.c.obuf.length + k.inbox.length, k.flight.length)

/-- A call goes on, or ends with one reply more. -/
def Advances (k k' : Conn σ) : Prop :=
  k'.commands = k.commands ∧ k'.c.err = none ∧
    (k'.phase ≠ .idle ∧ k'.replies = k.replies ∨
      k'.phase = .idle ∧ k'.replies.length = k.replies.length + 1)

theorem advances_of_unfailed {part : Part} (hunfailed : Unfailed part) (inbox flight : Bytes) :
    Advances k { k.resume part with inbox, flight } := by
  obtain ⟨herr, ⟨hidle, hsome⟩ | ⟨hidle, hnone⟩⟩ := hunfailed
  · obtain ⟨o, ho⟩ := Option.isSome_iff_exists.mp hsome
    refine ⟨rfl, herr, .inr ⟨hidle, ?_⟩⟩
    change (k.replies ++ part.2.2.toList).length = _
    rw [ho, List.length_append]
    rfl
  · refine ⟨rfl, herr, .inl ⟨hidle, ?_⟩⟩
    change k.replies ++ part.2.2.toList = _
    rw [hnone]
    exact List.append_nil _

theorem Carries.advances {sent received : Bytes} {served : List Wire} {out : List redisReply}
    (h : Carries serve s₀ k sent served received out) (hfits : ∀ w ∈ served, w.Fits)
    (hstable : Stable serve) {e : Event} (he : e.Works) (hphase : k.phase ≠ .idle)
    (hstep : k.step serve e = some k') :
    Advances k k' ∧ Prod.Lex (· < ·) (· < ·) k'.ahead k.ahead := by
  have hwaits := h.waits
  cases e with
  | append cmd => exact he.elim
  | getReply => exact he.elim
  | sendFails r => exact he.elim
  | recvFails r => exact he.elim
  | serve =>
    rw [Conn.step] at hstep
    cases hserve : serve k.peer k.inbox with
    | took t o r =>
      rw [hserve] at hstep
      cases hstep
      have herr : k.c.err = none := by
        cases hp : k.phase with
        | idle => exact absurd hp hphase
        | writing =>
          rw [hp] at hwaits
          exact hwaits.1
        | reading =>
          rw [hp] at hwaits
          exact hwaits.1
        | stopped f =>
          rw [hp] at hwaits
          exact hwaits.elim
      refine ⟨⟨rfl, herr, .inl ⟨hphase, rfl⟩⟩, .left _ _ ?_⟩
      exact Nat.add_lt_add_left (hstable.shorter hserve) _
    | wants =>
      rw [hserve] at hstep
      cases hstep
    | failed e =>
      rw [hserve] at hstep
      cases hstep
  | send n =>
    rw [Conn.step] at hstep
    split at hstep
    · rename_i hp
      rw [hp] at hwaits
      split at hstep
      · rename_i hn
        cases hstep
        obtain ⟨⟨hobuf, -⟩, hunfailed⟩ := goes_send h.holds hwaits.1 hwaits.2.2 n
        refine ⟨advances_of_unfailed hunfailed _ _, .left _ _ ?_⟩
        change 2 * (k.c.written (.some n)).1.obuf.length + (k.inbox ++ k.c.obuf.take n).length <
          2 * k.c.obuf.length + k.inbox.length
        rw [hobuf, List.length_append, List.length_drop, List.length_take_of_le hn.2.2]
        omega
      · cases hstep
    · cases hstep
  | recv n =>
    rw [Conn.step] at hstep
    split at hstep
    · rename_i hp
      rw [hp] at hwaits
      obtain ⟨herr, hobuf, hawaits⟩ := hwaits
      split at hstep
      · rename_i hn
        cases hstep
        have hlen : (k.flight.take n).length = n := List.length_take_of_le hn.2.2.1
        have hne : k.flight.take n ≠ [] := by
          intro hnil
          rw [hnil] at hlen
          exact absurd hlen (Nat.ne_of_lt hn.2.1)
        have hbefore : received ++ k.flight.take n <+: served.flatMap Wire.render := by
          rw [h.answered]
          exact (List.prefix_append_right_inj _).mpr (List.take_prefix n _)
        obtain ⟨⟨hsame, -⟩, hunfailed⟩ := goes_recv h.holds herr hobuf hawaits hfits hbefore hne
          (by rw [hlen]; exact hn.2.2.2)
        refine ⟨advances_of_unfailed hunfailed _ _, ?_⟩
        have hahead : Conn.ahead { k.resume (k.c.read (.some (k.flight.take n))) with
            flight := k.flight.drop n } =
              (2 * k.c.obuf.length + k.inbox.length, (k.flight.drop n).length) := by
          rw [← hsame]
          rfl
        rw [hahead, List.length_drop]
        exact .right _ (by omega)
      · cases hstep
    · cases hstep

/-- While an answer is missing, a call that waits does not wait for nothing. -/
theorem Carries.enabled {sent received : Bytes} {served : List Wire} {out : List redisReply}
    (h : Carries serve s₀ k sent served received out) (hstable : Stable serve)
    (hanswers : Answers serve s₀ k.commands ws u) (hws : ∀ w ∈ ws, w.Fits)
    (hphase : k.phase ≠ .idle) (hfew : out.length < ws.length) :
    ∃ e k', Event.Works e ∧ k.step serve e = some k' := by
  have hwaits := h.waits
  cases hp : k.phase with
  | idle => exact absurd hp hphase
  | stopped f =>
    rw [hp] at hwaits
    exact hwaits.elim
  | writing =>
    rw [hp] at hwaits
    refine ⟨.send 1, { k.resume (k.c.written (.some 1)) with inbox := k.inbox ++ k.c.obuf.take 1 },
      trivial, ?_⟩
    rw [Conn.step, hp]
    exact if_pos ⟨hwaits.1, Nat.one_pos, List.length_pos_of_ne_nil hwaits.2.1⟩
  | reading =>
    rw [hp] at hwaits
    obtain ⟨herr, hobuf, hawaits⟩ := hwaits
    by_cases hflight : k.flight = []
    · have htook := h.took
      have hasked := h.asked
      rw [hobuf, List.append_nil] at hasked
      rw [← hasked] at htook
      obtain ⟨todo, ws', htodo, hinbox, rfl⟩ := hanswers.split hstable htook
      have hne : todo ≠ [] := by
        intro hnil
        have hlen := htodo.length_eq
        rw [hnil] at hlen
        rw [List.eq_nil_of_length_eq_zero hlen.symm, List.append_nil] at hfew
        -- all answers have come, so they have been given
        have hall : Drained (served.flatMap Wire.render) (served.map Wire.reply) none :=
          drained_texts fun w hw => (hws w (List.mem_append_left _ hw)).1
        rw [h.answered, hflight, List.append_nil] at hall
        obtain ⟨t, hread, hwants⟩ := hawaits
        have hend : Drained received out none := ⟨t, _, hread, .inl ⟨hwants, rfl⟩⟩
        rw [(hend.unique hall).1, List.length_map] at hfew
        exact Nat.lt_irrefl _ hfew
      obtain ⟨t, w, more, rest, hserve, -⟩ := htodo.flatten_ne_nil hstable hne
      refine ⟨.serve, { k with peer := t, inbox := rest, flight := k.flight ++ [w].flatMap Wire.render },
        trivial, ?_⟩
      rw [Conn.step, hinbox, hserve]
    · refine ⟨.recv 1, { k.resume (k.c.read (.some (k.flight.take 1))) with
        flight := k.flight.drop 1 }, trivial, ?_⟩
      rw [Conn.step, hp]
      exact if_pos ⟨herr, Nat.one_pos, List.length_pos_of_ne_nil hflight, by decide⟩

/-- The replies that have been given, by their number. -/
theorem Carried.replies_eq (h : Carried serve s₀ k) (hstable : Stable serve)
    (hanswers : Answers serve s₀ k.commands ws u) (hws : ∀ w ∈ ws, w.Fits) :
    k.replies = (ws.take k.replies.length).map fun w => ofReply w.reply := by
  obtain ⟨sent, served, received, out, h⟩ := h
  have hserved := h.served_prefix hstable hanswers
  have hpre := (h.prefix_served fun w hw => hws w (hserved.subset hw)).trans (hserved.map _)
  have hout := List.prefix_iff_eq_take.mp hpre
  rw [h.given, List.length_map]
  calc out.map ofReply = ((ws.map Wire.reply).take out.length).map ofReply := by rw [← hout]
    _ = (ws.take out.length).map fun w => ofReply w.reply := by
      rw [← List.map_take, List.map_map]
      rfl

/-- A call for the reply to a command that was appended comes back with it, in whatever pieces the
bytes travel and however the server's work falls between, as long as nothing fails. -/
theorem reply_comes (hstable : Stable serve) (hrun : Reaches serve s₀ events k)
    (hanswers : Answers serve s₀ k.commands ws u) (hws : ∀ w ∈ ws, w.Fits) (herr : k.c.err = none)
    (hfew : k.replies.length < k.commands.length) (hcall : k.step serve .getReply = some k') :
    Eventually (fun k e => k.step serve e) (fun _ e => e.Works)
      (fun t => t.phase = .idle ∧ t.c.err = none ∧
        t.replies = (ws.take (k.replies.length + 1)).map fun w => ofReply w.reply) k' := by
  have hcarried := carried_run hstable hrun hanswers hws
  have hlen := hanswers.length_eq
  -- a call that has not ended waits, with the replies from before
  have hwaiting : ∀ {t : Conn σ}, Carried serve s₀ t → Advances k t →
      ¬ (t.phase = .idle ∧ t.c.err = none ∧
        t.replies = (ws.take (k.replies.length + 1)).map fun w => ofReply w.reply) →
      t.phase ≠ .idle ∧ t.replies = k.replies := by
    intro t ht hadvances hnot
    obtain ⟨hcommands, hterr, hwait | ⟨hidle, hone⟩⟩ := hadvances
    · exact hwait
    · rw [← hcommands] at hanswers
      have hreplies := ht.replies_eq hstable hanswers hws
      rw [hone] at hreplies
      exact absurd ⟨hidle, hterr, hreplies⟩ hnot
  refine eventually_of_measure (Prod.lex Nat.lt_wfRel Nat.lt_wfRel).wf Conn.ahead
    (fun t => Carried serve s₀ t ∧ Advances k t) ?_ ?_ ?_
  · intro t e t' ht hnot hworks hstep
    obtain ⟨hphase, hsame⟩ := hwaiting ht.1 ht.2 hnot
    obtain ⟨hcarries, hcommands, -, -⟩ := ht
    rw [← hcommands] at hanswers
    have ht' := hcarries.step hstable hanswers hws hstep
    obtain ⟨sent, served, received, out, h⟩ := hcarries
    have hfits : ∀ w ∈ served, w.Fits := fun w hw =>
      hws w ((h.served_prefix hstable hanswers).subset hw)
    obtain ⟨⟨hcommands', herr', hnext⟩, hless⟩ := h.advances hfits hstable hworks hphase hstep
    rw [hsame] at hnext
    exact ⟨⟨ht', hcommands'.trans hcommands, herr', hnext⟩, hless⟩
  · intro t ht hnot
    obtain ⟨hphase, hsame⟩ := hwaiting ht.1 ht.2 hnot
    obtain ⟨⟨sent, served, received, out, h⟩, hcommands, -, -⟩ := ht
    rw [← hcommands] at hanswers hlen hfew
    have hout : out.length < ws.length := by
      have hgiven := congrArg List.length (h.given.symm.trans hsame)
      rw [List.length_map] at hgiven
      omega
    exact h.enabled hstable hanswers hws hphase hout
  · refine ⟨hcarried.step hstable hanswers hws hcall, ?_⟩
    obtain ⟨sent, served, received, out, h⟩ := hcarried
    have hfits : ∀ w ∈ served, w.Fits := fun w hw =>
      hws w ((h.served_prefix hstable hanswers).subset hw)
    have hgoes := goes_getReply h.holds hfits ⟨k.flight, h.answered.symm⟩
    rw [Conn.step] at hcall
    split at hcall
    · cases hcall
      exact advances_of_unfailed (hgoes.2 herr) k.inbox k.flight
    · cases hcall

end Runs

def knows (cmd : Bytes) (w : Wire) : Serve Unit := fun _ l =>
  if cmd.isPrefixOf l then .took () [w] (l.drop cmd.length) else .wants

theorem stable_knows {cmd : Bytes} (hcmd : cmd ≠ []) (w : Wire) : Stable (knows cmd w) := by
  have hlen := List.length_pos_of_ne_nil hcmd
  refine ⟨?_, ?_, ?_⟩
  · intro s l t out r h m
    rw [knows] at h ⊢
    split at h
    · rename_i hpre
      obtain ⟨rest, rfl⟩ := List.isPrefixOf_iff_prefix.mp hpre
      cases h
      rw [if_pos (List.isPrefixOf_iff_prefix.mpr ⟨rest ++ m, (List.append_assoc _ _ _).symm⟩),
        List.append_assoc, List.drop_left, List.drop_left]
    · cases h
  · intro s l e
    exact e.elim
  · intro s l t out r h
    rw [knows] at h
    split at h
    · rename_i hpre
      cases h
      have hle := (List.isPrefixOf_iff_prefix.mp hpre).length_le
      rw [List.length_drop]
      omega
    · cases h

section Ping

def ping : Bytes := encode [bytes "PING"]

theorem answers_ping (n : Nat) : Answers (knows ping (.status (bytes "PONG"))) ()
    (List.replicate n ping) (List.replicate n (.status (bytes "PONG"))) () := by
  induction n with
  | zero => exact .nil ()
  | succ n ih => exact .cons rfl ih

theorem fits_pong (n : Nat) : ∀ w ∈ List.replicate n (Wire.status (bytes "PONG")), w.Fits := by
  intro w hw
  rw [List.eq_of_mem_replicate hw]
  have hline : ¬ CRLF <:+: bytes "PONG" := by decide
  exact ⟨⟨hline, by decide⟩, by decide, by decide⟩

/-- Two commands are appended, one reply has been read, and half of the other. -/
def pinged : Conn Unit :=
  { c := ⟨none, [], ⟨none, bytes "+PONG\r\n+PO", 7, [], 9, none⟩⟩, phase := .idle, peer := (),
    inbox := [], flight := bytes "NG\r\n", commands := [ping, ping],
    replies := [ofReply (.status (bytes "PONG"))] }

theorem reaches_pinged : Reaches (knows ping (.status (bytes "PONG"))) ()
    [.append ping, .append ping, .getReply, .send 20, .serve, .send 8, .recv 5, .serve, .recv 5]
    pinged := runs_of_exec rfl

theorem replies_answer_pings :
    pinged.replies <+: [Wire.status (bytes "PONG"), .status (bytes "PONG")].map
        (fun w => ofReply w.reply) ∧ (∀ f, pinged.phase ≠ .stopped f) ∧
      pinged.c.reader.err = none ∧
      (pinged.replies.length = pinged.commands.length → pinged.c.obuf = [] ∧ pinged.inbox = [] ∧
        pinged.flight = [] ∧ pinged.c.reader.unread = []) :=
  replies_answer_commands (stable_knows (by decide) _) reaches_pinged (answers_ping 2) (fits_pong 2)

theorem second_pong_comes : Eventually
    (fun k e => Conn.step (knows ping (.status (bytes "PONG"))) k e) (fun _ e => e.Works)
    (fun t => t.phase = .idle ∧ t.c.err = none ∧
      t.replies = ([Wire.status (bytes "PONG"), .status (bytes "PONG")].take 2).map
        fun w => ofReply w.reply)
    (pinged.resume pinged.c.getReply) :=
  reply_comes (stable_knows (by decide) _) reaches_pinged (answers_ping 2) (fits_pong 2) rfl
    (by decide) rfl

end Ping

end CppPrivate.Hiredis
