import CppPrivate.Redis.Format

/-! The replies of the server and how the client takes them. -/
namespace CppPrivate.Redis

inductive REDIS_REPLY where
  | STRING | ARRAY | INTEGER | NIL | STATUS | ERROR | DOUBLE | BOOL | MAP | SET | PUSH | VERB
deriving DecidableEq

/-- A reply as it is read from the server; a text has its bytes in `str`, with a zero byte after
them. -/
inductive redisReply where
  | string (str : Bytes)
  | status (str : Bytes)
  | error (str : Bytes)
  | double (str : Bytes)
  | verb (str : Bytes)
  | array (element : List redisReply)
  | map (element : List redisReply)
  | set (element : List redisReply)
  | push (element : List redisReply)
  | integer (integer : Int)
  | bool (bval : Bool)
  | nil

namespace redisReply

def type : redisReply → REDIS_REPLY
  | string _ => .STRING
  | status _ => .STATUS
  | error _ => .ERROR
  | double _ => .DOUBLE
  | verb _ => .VERB
  | array _ => .ARRAY
  | map _ => .MAP
  | set _ => .SET
  | push _ => .PUSH
  | integer _ => .INTEGER
  | bool _ => .BOOL
  | nil => .NIL

/-- The field `str`; `NULL` in what is not a text. -/
def str : redisReply → Option Bytes
  | string s | status s | error s | double s | verb s => some s
  | _ => none

def element : redisReply → List redisReply
  | array l | map l | set l | push l => l
  | _ => []

def text (r : redisReply) : Except CommandError Bytes :=
  match r.str with
  | some s => .ok (C_STR s)
  | none => .error .undefined

end redisReply

/-- `query` has a reply of the type, or the reply inside a transaction. -/
def accepted (type : REDIS_REPLY) (reply : redisReply) : Bool :=
  decide (reply.type = type) ||
    match reply with
    | .status s => (bytes "QUEUED").isPrefixOf (C_STR s)
    | _ => false

/-- What the server makes of a command, with its reply if there comes one. -/
abbrev Server (σ : Type) := σ → Bytes → σ × Option redisReply

section Query
variable {σ : Type} (server : Server σ) (s : σ)

/-- `query(type, fmt, ...)`, with `m_reply` when the result is `true`. -/
def query (type : REDIS_REPLY) (fmt : Bytes) (args : List Bytes) :
    Except CommandError (σ × Option redisReply) := do
  let cmd ← redisvFormatCommand fmt args
  let (s, reply) := server s cmd
  return (s, reply.filter (accepted type))

/-- `query(type, argc, argv, argvlen)`. -/
def queryArgv (type : REDIS_REPLY) (argv : List Bytes) :
    Except CommandError (σ × Option redisReply) := do
  let cmd ← redisFormatSdsCommandArgv argv
  let (s, reply) := server s cmd
  return (s, reply.filter fun reply => decide (reply.type = type))

/-- `m_reply->str` where there is a reply. -/
def replyText (reply : Option redisReply) : Except CommandError Bytes :=
  match reply with
  | some reply => reply.text
  | none => .ok []

/-- `REPLY_STATUS_OK(m_reply->str)` where there is a reply. -/
def replyOk (reply : Option redisReply) : Bool :=
  (reply.bind redisReply.str).any fun s => (bytes "OK").isPrefixOf s

end Query

/-- A server that keeps the commands and gives no reply. -/
def wire : Server (List Bytes) := fun sent cmd => (sent ++ [cmd], none)

end CppPrivate.Redis
