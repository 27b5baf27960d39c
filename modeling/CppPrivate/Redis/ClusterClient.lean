import CppPrivate.Lib.Traced
import CppPrivate.Redis.Commands

/-! The two classes of clients. They share the union `m_ctx`, of which each class has a member, and the
functions of the base class, some of which the cluster's class overrides. -/
namespace CppPrivate.Redis
open Traced

/-- The members of the union `m_ctx`. -/
inductive Member where
  | pSingle  -- a `redisContext`
  | pCluster  -- a `redisClusterContext`
deriving DecidableEq

structure CtxObject (κ : Type) where
  type : Member
  ctx : κ

/-- An object of either class; all its fields are those of the base class. -/
structure ClientObject (κ : Type) where
  m_ctx : Option (CtxObject κ)
  m_reply : Option redisReply
  m_sFmtCmd : Bytes

/-- A read of `m_ctx`: the member it is read through, and that of the context it points to. -/
structure CtxRead where
  member : Member
  type : Option Member
deriving DecidableEq

/-- A context of one type is taken for one of the other. -/
def CtxRead.Misread (r : CtxRead) : Prop := ∃ type ∈ r.type, type ≠ r.member

/-- What the library does with a context and shows of it; nothing where a call is undefined. -/
structure Hiredis (κ : Type) where
  err : κ → Bool
  errstr : κ → Bytes
  block : κ → Bool  -- `flags & REDIS_BLOCK`
  vCommand : κ → Bytes → List Bytes → Option (κ × Option redisReply)
  commandArgv : κ → List Bytes → Option (κ × Option redisReply)
  appendFormattedCommand : κ → Bytes → κ × Bool
  getReply : κ → κ × Option (Option redisReply)
  setTimeout : κ → Int → κ × Bool
  enableKeepAlive : κ → κ × Bool

/-- A function of a client, with its reads of `m_ctx`. It stops where its behaviour is undefined. -/
abbrev Exec (κ : Type) := Traced (ClientObject κ) CtxRead

section Functions
variable {κ : Type} (lib : Member → Hiredis κ) (member : Member)

def readCtx : Exec κ (Option (CtxObject κ)) := do
  let s ← Traced.get
  emit ⟨member, s.m_ctx.map CtxObject.type⟩
  return s.m_ctx

theorem readCtx_apply (s : ClientObject κ) : readCtx member s =
    ([⟨member, s.m_ctx.map CtxObject.type⟩], some (s.m_ctx, s)) := rfl

/-- The context that the member points to, taken for one of its type. -/
def deref : Exec κ κ := do
  let c ← readCtx member
  ofOption (c.bind fun c => if c.type = member then some c.ctx else none)

/-- What a call of the library makes of the context. -/
def updateCtx (ctx : κ) : Exec κ Unit := modify fun s => { s with m_ctx := some ⟨member, ctx⟩ }

def setReply (reply : Option redisReply) : Exec κ Unit := modify fun s => { s with m_reply := reply }

def freeReply : Exec κ Unit := setReply none

/-! Both classes have the functions that follow, each with a member of its own. -/

/-- `connect`, for which the library returns `c`. -/
def connectThrough (c : Option κ) : Exec κ Int :=
  match c with
  | none => return -1
  | some c =>
    if (lib member).err c then return -1
    else do
      updateCtx member c
      return 0

def closeThrough : Exec κ Unit := do
  let c ← readCtx member
  if c.isSome then do
    let _ ← deref member  -- freed
    modify fun s => { s with m_ctx := none }
    freeReply
  else freeReply

/-- `query(type, fmt, ...)`, with `m_reply` when the result is `true`. -/
def queryThrough (type : REDIS_REPLY) (fmt : Bytes) (args : List Bytes) :
    Exec κ (Option redisReply) := do
  let c ← readCtx member
  if c.isSome then do
    freeReply
    let ctx ← deref member
    let (ctx, reply) ← ofOption ((lib member).vCommand ctx fmt args)
    updateCtx member ctx
    setReply reply
    return reply.filter (accepted type)
  else return none

/-- `query(type, argc, argv, argvlen)`. -/
def queryArgvThrough (type : REDIS_REPLY) (argv : List Bytes) : Exec κ (Option redisReply) := do
  let c ← readCtx member
  if c.isSome then do
    freeReply
    let ctx ← deref member
    let (ctx, reply) ← ofOption ((lib member).commandArgv ctx argv)
    updateCtx member ctx
    setReply reply
    return reply.filter fun reply => decide (reply.type = type)
  else return none

/-- The reply that a blocking context waits for. -/
def getReplyThrough : Exec κ Bool := do
  let ctx ← deref member
  let (ctx, reply) := (lib member).getReply ctx
  updateCtx member ctx
  match reply with
  | some reply => do
    setReply reply
    return reply.any fun reply => decide (reply.type ≠ .ERROR)
  | none => return false

def formatQueryThrough (cmd : Bytes) : Exec κ Bool := do
  let c ← readCtx member
  if c.isSome then do
    let ctx ← deref member
    let (ctx, ok) := (lib member).appendFormattedCommand ctx cmd
    updateCtx member ctx
    if ok then do
      let ctx ← deref member
      if (lib member).block ctx then getReplyThrough lib member else return false
    else return false
  else return false

/-- `m_reply && m_reply->type == REDIS_REPLY_ERROR`. -/
def ClientObject.errorReply (s : ClientObject κ) : Bool :=
  s.m_reply.any fun reply => decide (reply.type = .ERROR)

/-- `m_ctx && m_ctx->err`. -/
def errThrough : Exec κ Bool := do
  let c ← readCtx member
  if c.isSome then do
    let ctx ← deref member
    return (lib member).err ctx
  else return false

def strerrorThrough : Exec κ Bytes := do
  let s ← Traced.get
  if s.errorReply then return (s.m_reply.bind redisReply.str).getD []
  else do
    let err ← errThrough lib member
    if err then do
      let ctx ← deref member
      return (lib member).errstr ctx
    else return []

def HasErrorThrough : Exec κ Bool := do
  let s ← Traced.get
  if s.errorReply then return true
  else do
    let err ← errThrough lib member
    if err then return true
    else do
      let c ← readCtx member
      return c.isNone

end Functions

section Commands
variable {m : Type → Type} [Monad m]

/-- The functions `query` that a command calls through `this`, and how it goes on with what it makes of
a reply. -/
structure Querying (m : Type → Type) where
  query : REDIS_REPLY → Bytes → List Bytes → m (Option redisReply)
  queryArgv : REDIS_REPLY → List Bytes → m (Option redisReply)
  take : {α : Type} → Except CommandError α → m α

variable (q : Querying m)

def Call.on : Call → m Result
  | .text fmt args => do
    let reply ← q.query .STRING fmt args
    return .text (← q.take (replyText reply))
  | .integer fmt args => do
    let reply ← q.query .INTEGER fmt args
    return .integer (replyInteger reply)
  | .status fmt args => do
    let reply ← q.query .STATUS fmt args
    return .bool (replyOk reply)
  | .pong fmt args => do
    let reply ← q.query .STATUS fmt args
    return .bool (replyPong reply)
  | .array fmt args reading => do
    let reply ← q.query .ARRAY fmt args
    q.take (reading.result reply)
  | .integerArgv argv => do
    let reply ← q.queryArgv .INTEGER argv
    return .integer (replyInteger reply)
  | .statusArgv argv => do
    let reply ← q.queryArgv .STATUS argv
    return .bool (replyOk reply)
  | .arrayArgv argv => do
    let reply ← q.queryArgv .ARRAY argv
    return .list (← q.take (hmget reply))

def Command.on : Command → m Result
  | .method c => c.call.on q
  | .setnx_ex key val expire => do
    let sQuery ← q.take (setnxQuery key val expire)
    let reply ← q.query .STATUS (C_STR sQuery) []
    return .bool (replyOk reply)
  | .del_match_keys match_key => do
    let reply ← q.query .ARRAY (bytes "KEYS %s") [C_STR match_key]
    let keys_arry ← q.take (keys reply)
    keys_arry.foldlM (fun _ key => do
      let _ ← (Method.expire key 1).call.on q
      return ()) ()
    return .bool true

end Commands

section Server
variable {σ : Type} (server : Server σ) (s : σ)

/-- The functions `query` of a client with a server behind it. -/
def Querying.ofServer : Querying (StateT σ (Except CommandError)) where
  query type fmt args := fun s => Prod.swap <$> Redis.query server s type fmt args
  queryArgv type argv := fun s => Prod.swap <$> Redis.queryArgv server s type argv
  take x := fun s => (fun a => (a, s)) <$> x

/-- A program behind a server, with the server's state first. -/
def swapped {α : Type} (x : StateT σ (Except CommandError) α) : Except CommandError (σ × α) :=
  Prod.swap <$> x s

theorem swapped_pure {α : Type} (a : α) : swapped s (pure a) = pure (s, a) := rfl

theorem swapped_bind {α β : Type} (x : StateT σ (Except CommandError) α)
    (f : α → StateT σ (Except CommandError) β) :
    swapped s (x >>= f) = swapped s x >>= fun p => swapped p.1 (f p.2) := by
  change Prod.swap <$> (x s >>= fun p => f p.1 p.2) = _
  rw [swapped]
  cases x s with
  | error e => rfl
  | ok p => rfl

theorem swapped_query (type : REDIS_REPLY) (fmt : Bytes) (args : List Bytes) :
    swapped s ((Querying.ofServer server).query type fmt args) =
      Redis.query server s type fmt args := by
  change Prod.swap <$> Prod.swap <$> Redis.query server s type fmt args = _
  cases Redis.query server s type fmt args with
  | error e => rfl
  | ok p => rfl

theorem swapped_queryArgv (type : REDIS_REPLY) (argv : List Bytes) :
    swapped s ((Querying.ofServer server).queryArgv type argv) =
      Redis.queryArgv server s type argv := by
  change Prod.swap <$> Prod.swap <$> Redis.queryArgv server s type argv = _
  cases Redis.queryArgv server s type argv with
  | error e => rfl
  | ok p => rfl

theorem swapped_take {α : Type} (x : Except CommandError α) :
    swapped s ((Querying.ofServer server).take x) = x >>= fun a => pure (s, a) := by
  change Prod.swap <$> (fun a => (a, s)) <$> x = _
  cases x with
  | error e => rfl
  | ok a => rfl

/-- Behind a server a call does what it has been defined to do. -/
theorem Call.on_ofServer (c : Call) : swapped s (c.on (.ofServer server)) = c.run server s := by
  cases c with
  | text fmt args =>
    simp only [Call.on, swapped_bind, swapped_query, swapped_take, swapped_pure, bind_assoc,
      pure_bind]
    rfl
  | integer fmt args =>
    simp only [Call.on, swapped_bind, swapped_query, swapped_pure]
    rfl
  | status fmt args =>
    simp only [Call.on, swapped_bind, swapped_query, swapped_pure]
    rfl
  | pong fmt args =>
    simp only [Call.on, swapped_bind, swapped_query, swapped_pure]
    rfl
  | array fmt args reading =>
    simp only [Call.on, swapped_bind, swapped_query, swapped_take]
    rfl
  | integerArgv argv =>
    simp only [Call.on, swapped_bind, swapped_queryArgv, swapped_pure]
    rfl
  | statusArgv argv =>
    simp only [Call.on, swapped_bind, swapped_queryArgv, swapped_pure]
    rfl
  | arrayArgv argv =>
    simp only [Call.on, swapped_bind, swapped_queryArgv, swapped_take, swapped_pure, bind_assoc,
      pure_bind]
    rfl

/-- The loop of `del_match_keys`. -/
theorem swapped_expire (keys : List Bytes) :
    swapped s (keys.foldlM (fun _ key => do
      let _ ← (Method.expire key 1).call.on (.ofServer server)
      return ()) ()) =
    (keys.foldlM (fun s key => do
      let (s, _) ← (Method.expire key 1).call.run server s
      return s) s) >>= fun s => pure (s, ()) := by
  induction keys generalizing s with
  | nil => rfl
  | cons key keys ih =>
    simp only [List.foldlM_cons, swapped_bind, Call.on_ofServer, bind_assoc, pure_bind, ih]

theorem Command.on_ofServer (c : Command) : swapped s (c.on (.ofServer server)) = c.run server s := by
  cases c with
  | method c => exact Call.on_ofServer server s c.call
  | setnx_ex key val expire =>
    simp only [Command.on, swapped_bind, swapped_query, swapped_take, swapped_pure, bind_assoc,
      pure_bind, Command.run, Redis.setnx_ex]
  | del_match_keys match_key =>
    simp only [Command.on, swapped_bind, swapped_query, swapped_take, swapped_pure, bind_assoc,
      pure_bind, Command.run, Redis.del_match_keys, swapped_expire]

end Server

structure Virtual (κ : Type) where
  connect : Option κ → Exec κ Int
  close : Exec κ Unit
  ping : Exec κ Result
  strerror : Exec κ Bytes
  HasError : Exec κ Bool
  formatCommand : Bytes → List Bytes → Exec κ Bytes
  formatQuery : Bytes → Exec κ Bool
  query : REDIS_REPLY → Bytes → List Bytes → Exec κ (Option redisReply)
  queryArgv : REDIS_REPLY → List Bytes → Exec κ (Option redisReply)
  destroy : Exec κ Unit

/-- A null pointer made into a string is undefined. -/
def takeResult {κ α : Type} : Except CommandError α → Exec κ α
  | .ok a => pure a
  | .error _ => stop

namespace CRedisClient
variable {κ : Type} (lib : Member → Hiredis κ)

def connect (c : Option κ) : Exec κ Int := connectThrough lib .pSingle c

def close : Exec κ Unit := closeThrough .pSingle

def setTimeout (timeout : Int) : Exec κ Bool := do
  let ctx ← deref .pSingle
  let (ctx, ok) := (lib .pSingle).setTimeout ctx timeout
  updateCtx .pSingle ctx
  return ok

def setKeepAlive : Exec κ Bool := do
  let ctx ← deref .pSingle
  let (ctx, ok) := (lib .pSingle).enableKeepAlive ctx
  updateCtx .pSingle ctx
  return ok

def query (type : REDIS_REPLY) (fmt : Bytes) (args : List Bytes) : Exec κ (Option redisReply) :=
  queryThrough lib .pSingle type fmt args

def queryArgv (type : REDIS_REPLY) (argv : List Bytes) : Exec κ (Option redisReply) :=
  queryArgvThrough lib .pSingle type argv

/-- `query(fmt, ...)`, which is public and not virtual. -/
def queryAny (fmt : Bytes) (args : List Bytes) : Exec κ Bool := do
  let c ← readCtx .pSingle
  if c.isSome then do
    freeReply
    let ctx ← deref .pSingle
    let (ctx, reply) ← ofOption ((lib .pSingle).vCommand ctx fmt args)
    updateCtx .pSingle ctx
    setReply reply
    return reply.any fun reply => decide (reply.type ≠ .ERROR)
  else return false

def ping : Exec κ Result := Method.ping.call.on ⟨query lib, queryArgv lib, takeResult⟩

def strerror : Exec κ Bytes := strerrorThrough lib .pSingle

def HasError : Exec κ Bool := HasErrorThrough lib .pSingle

/-- `formatCommand`, which does not send what it formats. -/
def formatCommand (fmt : Bytes) (args : List Bytes) : Exec κ Bytes :=
  match redisvFormatCommand fmt args with
  | .ok cmd => do
    modify fun s => { s with m_sFmtCmd := C_STR cmd }
    return C_STR cmd
  | .error .invalid => do
    modify fun s => { s with m_sFmtCmd := [] }
    return []
  | .error .undefined => stop

def formatQuery (cmd : Bytes) : Exec κ Bool := formatQueryThrough lib .pSingle cmd

/-- `~CRedisClient`. -/
def destroy : Exec κ Unit := close

def virtual : Virtual κ where
  connect := connect lib
  close := close
  ping := ping lib
  strerror := strerror lib
  HasError := HasError lib
  formatCommand := formatCommand
  formatQuery := formatQuery lib
  query := query lib
  queryArgv := queryArgv lib
  destroy := destroy

end CRedisClient

namespace CRedisClusterClient
variable {κ : Type} (lib : Member → Hiredis κ)

def connect (c : Option κ) : Exec κ Int := connectThrough lib .pCluster c

def close : Exec κ Unit := closeThrough .pCluster

def query (type : REDIS_REPLY) (fmt : Bytes) (args : List Bytes) : Exec κ (Option redisReply) :=
  queryThrough lib .pCluster type fmt args

def queryArgv (type : REDIS_REPLY) (argv : List Bytes) : Exec κ (Option redisReply) :=
  queryArgvThrough lib .pCluster type argv

def ping : Exec κ Result := return .bool true

def strerror : Exec κ Bytes := strerrorThrough lib .pCluster

/-- The member is that of the base class. -/
def HasError : Exec κ Bool := HasErrorThrough lib .pSingle

def formatQuery (cmd : Bytes) : Exec κ Bool := formatQueryThrough lib .pCluster cmd

/-- `~CRedisClusterClient`, and the destructor of the base class after it. -/
def destroy : Exec κ Unit := do
  close
  CRedisClient.destroy

def virtual : Virtual κ where
  connect := connect lib
  close := close
  ping := ping
  strerror := strerror lib
  HasError := HasError lib
  formatCommand := CRedisClient.formatCommand
  formatQuery := formatQuery lib
  query := query lib
  queryArgv := queryArgv lib
  destroy := destroy

end CRedisClusterClient

inductive ClientCall (κ : Type) where
  | connect (c : Option κ)
  | close
  | setTimeout (timeout : Int)
  | setKeepAlive
  | query (fmt : Bytes) (args : List Bytes)
  | command (c : Command)
  | strerror
  | HasError
  | formatCommand (fmt : Bytes) (args : List Bytes)
  | formatQuery (cmd : Bytes)
  | delete

section Dispatch
variable {κ : Type} (lib : Member → Hiredis κ) (v : Virtual κ)

def Virtual.querying : Querying (Exec κ) := ⟨v.query, v.queryArgv, takeResult⟩

/-- What a call does to an object of the class that has the virtual functions `v`. After `delete` there
is no object. -/
def Virtual.call : ClientCall κ → Exec κ (Option Result)
  | .connect c => do
    let code ← v.connect c
    return some (.integer code)
  | .close => do
    v.close
    return none
  | .setTimeout timeout => do
    let ok ← CRedisClient.setTimeout lib timeout
    return some (.bool ok)
  | .setKeepAlive => do
    let ok ← CRedisClient.setKeepAlive lib
    return some (.bool ok)
  | .query fmt args => do
    let ok ← CRedisClient.queryAny lib fmt args
    return some (.bool ok)
  | .command (.method .ping) => some <$> v.ping
  | .command c => some <$> c.on v.querying
  | .strerror => do
    let text ← v.strerror
    return some (.text text)
  | .HasError => do
    let err ← v.HasError
    return some (.bool err)
  | .formatCommand fmt args => do
    let cmd ← v.formatCommand fmt args
    return some (.text cmd)
  | .formatQuery cmd => do
    let ok ← v.formatQuery cmd
    return some (.bool ok)
  | .delete => do
    v.destroy
    stop

/-- The reads of `m_ctx` in a sequence of calls. -/
def Virtual.reads (s : ClientObject κ) (ops : List (ClientCall κ)) : List CtxRead :=
  (calls (v.call lib) ops s).1

end Dispatch

end CppPrivate.Redis
