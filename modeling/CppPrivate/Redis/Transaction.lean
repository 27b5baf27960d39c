import CppPrivate.Redis.Commands

/-! Transactions. Between `MULTI` and `EXEC` the server puts commands aside, and what the client makes
of the replies decides what its callers see of that. -/
namespace CppPrivate.Redis
variable {σ : Type}

inductive Control where
  | multi | exec | discard
deriving DecidableEq

/-- A server that follows the protocol of transactions; `queue` holds the commands of the transaction
that is open, and `executes` tells whether it would be carried out now. -/
structure TxServer (σ : Type) where
  server : Server σ
  control : Bytes → Option Control
  queue : σ → Option (List Bytes)
  executes : σ → Bool
  multi : control (encode [bytes "MULTI"]) = some .multi
  exec : control (encode [bytes "EXEC"]) = some .exec
  discard : control (encode [bytes "DISCARD"]) = some .discard
  opens : ∀ {s cmd}, queue s = none → control cmd = some .multi →
    (server s cmd).2 = some (.status (bytes "OK")) ∧ queue (server s cmd).1 = some []
  /-- Any other command is queued, or is refused with an error. -/
  queues : ∀ {s cmd q}, queue s = some q → control cmd = none →
    ((server s cmd).2 = some (.status (bytes "QUEUED")) ∧
      queue (server s cmd).1 = some (q ++ [cmd])) ∨
    ((∃ e, (server s cmd).2 = some (.error e)) ∧ queue (server s cmd).1 = some q)
  nested : ∀ {s cmd q}, queue s = some q → control cmd = some .multi →
    (∃ e, (server s cmd).2 = some (.error e)) ∧ queue (server s cmd).1 = some q
  drops : ∀ {s cmd q}, queue s = some q → control cmd = some .discard →
    (server s cmd).2 = some (.status (bytes "OK")) ∧ queue (server s cmd).1 = none
  closes : ∀ {s cmd q}, queue s = some q → control cmd = some .exec →
    queue (server s cmd).1 = none ∧
    if executes s then ∃ l, (server s cmd).2 = some (.array l) ∧ l.length = q.length
    else (server s cmd).2 = some .nil ∨ ∃ e, (server s cmd).2 = some (.error e)
  /-- Without a transaction there is nothing to execute, and only `MULTI` opens one. -/
  refuses : ∀ {s cmd}, queue s = none → control cmd = some .exec →
    ∃ e, (server s cmd).2 = some (.error e)
  outside : ∀ {s cmd}, queue s = none → control cmd ≠ some .multi → queue (server s cmd).1 = none

/-- The client with the server behind it; `live` until the connection has an error. -/
structure Client (σ : Type) where
  state : σ
  live : Bool

/-- A call with its result, and whether the server has queued a command of it. -/
structure Issued where
  command : Command
  queued : Bool
  result : Result

structure Session (σ : Type) where
  issued : List Issued
  last : Client σ  -- when `exec` is called
  exec : Result

/-- The call returns a text of the server's: `get`, `getset`, `spop`, `hget`, `lpop`, `zscore`. -/
def Call.isText : Call → Bool
  | .text _ _ => true
  | _ => false

def Command.isText : Command → Bool
  | .method m => m.call.isText
  | _ => false

namespace TxServer
variable (T : TxServer σ)

/-- Over a broken connection nothing is sent. -/
def seen (live : Bool) : Server σ := if live then T.server else fun s _ => (s, none)

def grew (s t : σ) : Bool :=
  match T.queue s, T.queue t with
  | some q, some r => decide (q.length < r.length)
  | _, _ => false

/-- A call. An invalid format, which only `setnx_ex` can come to, is an error of the connection. -/
def issue (c : Client σ) (cmd : Command) : Except CommandError (Client σ × Issued) :=
  match cmd.run (T.seen c.live) c.state with
  | .ok (t, r) => .ok (⟨t, c.live⟩, ⟨cmd, T.grew c.state t, r⟩)
  | .error .invalid => .ok (⟨c.state, false⟩, ⟨cmd, false, .bool false⟩)
  | .error .undefined => .error .undefined

def issueAll : Client σ → List Command → Except CommandError (Client σ × List Issued)
  | c, [] => .ok (c, [])
  | c, cmd :: cmds => do
    let (c, e) ← T.issue c cmd
    let (c, es) ← issueAll c cmds
    return (c, e :: es)

def session (s : σ) (cmds : List Command) : Except CommandError (Session σ) := do
  let (c, _) ← T.issue ⟨s, true⟩ (.method .multi)
  let (c, issued) ← T.issueAll c cmds
  let (_, e) ← T.issue c (.method .exec)
  return ⟨issued, c, e.result⟩

/-- The server has the `EXEC` and carries out what it has queued. -/
def Executes (c : Client σ) : Prop :=
  c.live = true ∧ (∃ q, T.queue c.state = some q) ∧ T.executes c.state = true

/-- `exec` succeeds if the transaction was executed, and the reply to a command that was queued is not
given out as a value. -/
structure Honest (x : Session σ) : Prop where
  exec : x.exec = .bool true ↔ T.Executes x.last
  issued : ∀ e ∈ x.issued, e.queued = true → bytes "QUEUED" ∉ e.result.texts

variable {T} {s t : σ} {cmd : Bytes}

/-- A transaction grows by nothing but a command that is answered with `QUEUED`. -/
theorem queued_of_grew (h : T.grew s (T.server s cmd).1 = true) :
    (T.server s cmd).2 = some (.status (bytes "QUEUED")) := by
  rw [grew] at h
  cases hq : T.queue s with
  | none => simp [hq] at h
  | some q =>
    cases hc : T.control cmd with
    | none =>
      cases T.queues hq hc with
      | inl hqueued => exact hqueued.1
      | inr hrefused => simp [hq, hrefused.2] at h
    | some k =>
      cases k with
      | multi => simp [hq, (T.nested hq hc).2] at h
      | exec => simp [hq, (T.closes hq hc).1] at h
      | discard => simp [hq, (T.drops hq hc).2] at h

theorem not_grew (s : σ) : T.grew s s = false := by
  rw [grew]
  cases T.queue s with
  | none => rfl
  | some q => simp

/-- What is queued has been sent. -/
theorem seen_of_grew {live : Bool} (h : T.grew s (T.seen live s cmd).1 = true) :
    (T.seen live s cmd).2 = some (.status (bytes "QUEUED")) := by
  cases live with
  | true => exact queued_of_grew h
  | false =>
    change T.grew s s = true at h
    rw [not_grew] at h
    cases h

section Call
variable {live : Bool} {type : REDIS_REPLY} {fmt : Bytes} {args argv : List Bytes}
  {reply : Option redisReply} {r : Result}

theorem accepted_queued (type : REDIS_REPLY) : accepted type (.status (bytes "QUEUED")) = true := by
  have hprefix : (bytes "QUEUED").isPrefixOf (C_STR (bytes "QUEUED")) = true := by decide
  simp [accepted, hprefix]

theorem query_grew (h : query (T.seen live) s type fmt args = .ok (t, reply))
    (hgrew : T.grew s t = true) : reply = some (.status (bytes "QUEUED")) := by
  simp only [query, bind_eq_ok] at h
  obtain ⟨cmd, -, hsent⟩ := h
  obtain ⟨rfl, rfl⟩ := Prod.mk.inj (Except.ok.inj hsent)
  rw [seen_of_grew hgrew]
  simp [accepted_queued]

theorem queryArgv_grew (h : queryArgv (T.seen live) s type argv = .ok (t, reply))
    (hgrew : T.grew s t = true) :
    reply = if type = .STATUS then some (.status (bytes "QUEUED")) else none := by
  simp only [queryArgv, bind_eq_ok] at h
  obtain ⟨cmd, -, hsent⟩ := h
  obtain ⟨rfl, rfl⟩ := Prod.mk.inj (Except.ok.inj hsent)
  rw [seen_of_grew hgrew]
  cases type <;> rfl

theorem arrayElements_queued : arrayElements (some (.status (bytes "QUEUED"))) = [] := by
  simp [arrayElements, Option.filter, accepted_queued, redisReply.element]

theorem strings_queued : strings (some (.status (bytes "QUEUED"))) = .ok [] := by
  simp [strings, arrayElements_queued]
  rfl

theorem hgetallInto_queued {κ : Type} {cmp : κ → κ → Ordering} [Std.TransCmp cmp]
    {toKey : Bytes → κ} :
    hgetallInto cmp toKey (some (.status (bytes "QUEUED"))) = .ok (true, ∅) := by
  rw [hgetallInto, arrayElements_queued]
  rfl

/-- The placeholder has no elements. -/
theorem texts_reading {reading : Reading}
    (h : reading.result (some (.status (bytes "QUEUED"))) = .ok r) : r.texts = [] := by
  cases reading with
  | list | array | less now | bigger now =>
    simp only [Reading.result, strings_queued] at h
    cases h
    rfl
  | set =>
    simp only [Reading.result, smembersSet, strings_queued] at h
    cases h
    simp [Result.texts]
  | map =>
    simp only [Reading.result, hgetallMap, hgetallInto_queued] at h
    cases h
    simp [Result.texts]
  | intMap =>
    simp only [Reading.result, hgetallIntMap, hgetallInto_queued] at h
    cases h
    simp [Result.texts]
  | descMap =>
    simp only [Reading.result, hgetallDescMap, hgetallInto_queued] at h
    cases h
    simp [Result.texts]
  | scan =>
    simp only [Reading.result, hscan, arrayElements_queued] at h
    cases h
    simp [Result.texts]

/-- What a call gives out when its command is queued. -/
theorem texts_call {c : Call} (h : c.run (T.seen live) s = .ok (t, r)) (hgrew : T.grew s t = true) :
    r.texts = if c.isText then [bytes "QUEUED"] else [] := by
  cases c with
  | text fmt args =>
    simp only [Call.run, bind_eq_ok] at h
    obtain ⟨⟨t', reply⟩, hquery, s, hs, hr⟩ := h
    cases hr
    rw [query_grew hquery hgrew] at hs
    cases hs
    have hwhole : C_STR (bytes "QUEUED") = bytes "QUEUED" := by decide
    exact congrArg (fun s => [s]) hwhole
  | array fmt args reading =>
    simp only [Call.run, bind_eq_ok] at h
    obtain ⟨⟨t', reply⟩, hquery, r, hreading, hr⟩ := h
    cases hr
    rw [query_grew hquery hgrew] at hreading
    exact texts_reading hreading
  | arrayArgv argv =>
    simp only [Call.run, bind_eq_ok] at h
    obtain ⟨⟨t', reply⟩, hquery, l, hl, hr⟩ := h
    cases hr
    rw [queryArgv_grew hquery hgrew] at hl
    cases hl
    rfl
  | _ =>
    simp only [Call.run, bind_eq_ok] at h
    obtain ⟨p, -, hr⟩ := h
    cases hr
    rfl

/-- A call gives out the placeholder exactly if it returns a text. -/
theorem queued_text {c d : Client σ} {cmd : Command} {e : Issued} (h : T.issue c cmd = .ok (d, e))
    (hqueued : e.queued = true) : bytes "QUEUED" ∉ e.result.texts ↔ e.command.isText = false := by
  rw [issue] at h
  split at h
  · rename_i t r hrun
    cases h
    cases cmd with
    | method m =>
      rw [texts_call hrun hqueued, Command.isText]
      cases m.call.isText <;> simp
    | setnx_ex key val expire =>
      simp only [Command.run, bind_eq_ok] at hrun
      obtain ⟨p, -, hr⟩ := hrun
      cases hr
      simp [Result.texts, Command.isText]
    | del_match_keys match_key =>
      simp only [Command.run, bind_eq_ok] at hrun
      obtain ⟨p, -, hr⟩ := hrun
      cases hr
      simp [Result.texts, Command.isText]
  · cases h
    cases hqueued
  · cases h

theorem issued_of_mem {c d : Client σ} {cmds : List Command} {es : List Issued} {e : Issued}
    (h : T.issueAll c cmds = .ok (d, es)) (he : e ∈ es) :
    ∃ c d cmd, T.issue c cmd = .ok (d, e) := by
  induction cmds generalizing c es with
  | nil =>
    cases h
    cases he
  | cons cmd cmds ih =>
    simp only [issueAll, bind_eq_ok] at h
    obtain ⟨⟨c', e'⟩, hfirst, ⟨d', es'⟩, hrest, hr⟩ := h
    cases hr
    cases List.mem_cons.mp he with
    | inl heq => exact ⟨c, c', cmd, heq ▸ hfirst⟩
    | inr hmem => exact ih hrest hmem

theorem exec_reply (s : σ) : ((T.server s (encode [bytes "EXEC"])).2.filter
    (accepted .STATUS)) = none := by
  cases hq : T.queue s with
  | none =>
    obtain ⟨e, he⟩ := T.refuses hq T.exec
    rw [he]
    rfl
  | some q =>
    have hreply := (T.closes hq T.exec).2
    split at hreply
    · obtain ⟨l, hl, -⟩ := hreply
      rw [hl]
      rfl
    · cases hreply with
      | inl hnil =>
        rw [hnil]
        rfl
      | inr herror =>
        obtain ⟨e, he⟩ := herror
        rw [he]
        rfl

/-- No reply to `EXEC` is the status that `exec` waits for. -/
theorem exec_false {c d : Client σ} {e : Issued} (h : T.issue c (.method .exec) = .ok (d, e)) :
    e.result = .bool false := by
  have hfmt : redisvFormatCommand (bytes "EXEC") [] = .ok (encode [bytes "EXEC"]) := by
    decide +kernel
  have hreply : (T.seen c.live c.state (encode [bytes "EXEC"])).2.filter (accepted .STATUS) = none := by
    cases c.live with
    | true => exact exec_reply c.state
    | false => rfl
  rw [issue] at h
  simp only [Command.run, Method.call, Call.run, query, hfmt, bind, Except.bind, pure, Except.pure,
    hreply] at h
  cases h
  rfl

end Call

/-- A session does what its callers are told exactly if the server does not execute the transaction
and no call that returns a text is queued. -/
theorem honest_iff {cmds : List Command} {x : Session σ} (h : T.session s cmds = .ok x) :
    T.Honest x ↔
      ¬T.Executes x.last ∧ ∀ e ∈ x.issued, e.queued = true → e.command.isText = false := by
  simp only [session, bind_eq_ok] at h
  obtain ⟨⟨c, e₀⟩, -, ⟨d, issued⟩, hissued, ⟨d', e⟩, hexec, hx⟩ := h
  cases hx
  have htext : ∀ e ∈ issued, e.queued = true →
      (bytes "QUEUED" ∉ e.result.texts ↔ e.command.isText = false) := by
    intro e he hqueued
    obtain ⟨c, d, cmd, hissue⟩ := issued_of_mem hissued he
    exact queued_text hissue hqueued
  constructor
  · intro honest
    refine ⟨?_, ?_⟩
    · intro hexecutes
      have htrue := honest.exec.mpr hexecutes
      rw [exec_false hexec] at htrue
      cases htrue
    · intro e he hqueued
      exact (htext e he hqueued).mp (honest.issued e he hqueued)
  · intro hcond
    refine ⟨?_, ?_⟩
    · rw [exec_false hexec]
      exact iff_of_false nofun hcond.1
    · intro e he hqueued
      exact (htext e he hqueued).mpr (hcond.2 e he hqueued)

/-- A server that has nothing but the transaction, and executes every one or none. -/
def keeperControl (cmd : Bytes) : Option Control :=
  if cmd = encode [bytes "MULTI"] then some .multi
  else if cmd = encode [bytes "EXEC"] then some .exec
  else if cmd = encode [bytes "DISCARD"] then some .discard
  else none

def keeperServer (carried : Bool) : Server (Option (List Bytes)) := fun q cmd =>
  match q, keeperControl cmd with
  | none, some .multi => (some [], some (.status (bytes "OK")))
  | none, some _ => (none, some (.error (bytes "ERR without MULTI")))
  | none, none => (none, some .nil)
  | some q, none => (some (q ++ [cmd]), some (.status (bytes "QUEUED")))
  | some q, some .multi => (some q, some (.error (bytes "ERR MULTI calls can not be nested")))
  | some _, some .discard => (none, some (.status (bytes "OK")))
  | some q, some .exec =>
    (none, some (if carried then .array (q.map fun _ => .status (bytes "OK")) else .nil))

def keeper (carried : Bool) : TxServer (Option (List Bytes)) where
  server := keeperServer carried
  control := keeperControl
  queue := id
  executes := fun _ => carried
  multi := by decide +kernel
  exec := by decide +kernel
  discard := by decide +kernel
  opens := by
    intro s cmd hq hc
    cases s with
    | none => simp [keeperServer, hc]
    | some q => cases hq
  queues := by
    intro s cmd q hq hc
    cases hq
    exact Or.inl (by simp [keeperServer, hc])
  nested := by
    intro s cmd q hq hc
    cases hq
    simp [keeperServer, hc]
  drops := by
    intro s cmd q hq hc
    cases hq
    simp [keeperServer, hc]
  closes := by
    intro s cmd q hq hc
    cases hq
    cases carried <;> simp [keeperServer, hc]
  refuses := by
    intro s cmd hq hc
    cases s with
    | none => simp [keeperServer, hc]
    | some q => cases hq
  outside := by
    intro s cmd hq hc
    cases s with
    | none =>
      unfold keeperServer
      cases hk : keeperControl cmd with
      | none => rfl
      | some k =>
        cases k with
        | multi => exact absurd hk hc
        | exec => rfl
        | discard => rfl
    | some q => cases hq

/-- A transaction with a `set` that the server does not execute. -/
theorem honest_iff_set : ∃ x, (keeper false).session none
    [.method (.set (bytes "k") (bytes "v"))] = .ok x ∧ (keeper false).Honest x := by
  have hsession : (keeper false).session none [.method (.set (bytes "k") (bytes "v"))] = .ok
      ⟨[⟨.method (.set (bytes "k") (bytes "v")), true, .bool false⟩],
        ⟨some [encode [bytes "SET", bytes "k", bytes "v"]], true⟩, .bool false⟩ := by
    rfl
  refine ⟨_, hsession, (honest_iff hsession).mpr ⟨?_, ?_⟩⟩
  · intro h
    cases h.2.2
  · intro e he _
    cases List.mem_singleton.mp he
    rfl

/-- A transaction with a `get` that the server executes: `exec` reports a failure, and the value of
the key is `QUEUED`. -/
theorem exec_denied : ∃ x, (keeper true).session none [.method (.get (bytes "k"))] = .ok x ∧
    (keeper true).Executes x.last ∧ x.exec = .bool false ∧
    x.issued = [⟨.method (.get (bytes "k")), true, .text (bytes "QUEUED")⟩] ∧
    ¬(keeper true).Honest x := by
  refine ⟨⟨[⟨.method (.get (bytes "k")), true, .text (bytes "QUEUED")⟩],
    ⟨some [encode [bytes "GET", bytes "k"]], true⟩, .bool false⟩, by rfl, ?_, rfl, rfl, ?_⟩
  · exact ⟨rfl, ⟨_, rfl⟩, rfl⟩
  · intro h
    have hdata := h.issued _ List.mem_cons_self rfl
    exact hdata List.mem_cons_self

end TxServer

end CppPrivate.Redis
