import CppPrivate.Cluster.Slot
import CppPrivate.Http.UrlParser
import CppPrivate.Lib.Digits
import CppPrivate.Lib.Loop
import CppPrivate.Redis.Protocol

/-! How a formatted command is parsed for its keys. A pointer into the text is what is left of the
text from there on. -/
namespace CppPrivate.Cluster
open Loop
open Http (tolower)

/-- `cmd_type_t`, in its order. -/
inductive cmd_type where
  | UNKNOWN | DEL | EXISTS | EXPIRE | EXPIREAT | PEXPIRE | PEXPIREAT | PERSIST | PTTL | SORT
  | TTL | TYPE | APPEND | BITCOUNT | DECR | DECRBY | DUMP | GET | GETBIT | GETRANGE | GETSET
  | INCR | INCRBY | INCRBYFLOAT | MGET | MSET | PSETEX | RESTORE | SET | SETBIT | SETEX | SETNX
  | SETRANGE | STRLEN | HDEL | HEXISTS | HGET | HGETALL | HINCRBY | HINCRBYFLOAT | HKEYS | HLEN
  | HMGET | HMSET | HSET | HSETNX | HSCAN | HVALS | LINDEX | LINSERT | LLEN | LPOP | LPUSH
  | LPUSHX | LRANGE | LREM | LSET | LTRIM | PFADD | PFCOUNT | PFMERGE | RPOP | RPOPLPUSH | RPUSH
  | RPUSHX | SADD | SCARD | SDIFF | SDIFFSTORE | SINTER | SINTERSTORE | SISMEMBER | SMEMBERS
  | SMOVE | SPOP | SRANDMEMBER | SREM | SUNION | SUNIONSTORE | SSCAN | XACK | XADD | XAUTOCLAIM
  | XCLAIM | XDEL | XGROUP | XINFO | XLEN | XPENDING | XRANGE | XREVRANGE | XTRIM | ZADD | ZCARD
  | ZCOUNT | ZINCRBY | ZINTERSTORE | ZLEXCOUNT | ZRANGE | ZRANGEBYLEX | ZRANGEBYSCORE | ZRANK
  | ZREM | ZREMRANGEBYRANK | ZREMRANGEBYLEX | ZREMRANGEBYSCORE | ZREVRANGE | ZREVRANGEBYSCORE
  | ZREVRANK | ZSCORE | ZUNIONSTORE | ZSCAN | EVAL | EVALSHA | PING | QUIT | AUTH | RSP_STATUS
  | RSP_ERROR | RSP_INTEGER | RSP_BULK | RSP_MULTIBULK | SENTINEL
deriving DecidableEq

/-- Format: command -/
def redis_argz : cmd_type → Bool
  | .PING | .QUIT => true
  | _ => false

/-- Format: command key -/
def redis_arg0 : cmd_type → Bool
  | .PERSIST | .PTTL | .SORT | .TTL | .TYPE | .DUMP | .DECR | .GET | .INCR | .STRLEN | .HGETALL
  | .HKEYS | .HLEN | .HVALS | .LLEN | .LPOP | .RPOP | .SCARD | .SMEMBERS | .SPOP | .XLEN
  | .ZCARD | .PFCOUNT | .AUTH => true
  | _ => false

/-- Format: command key arg -/
def redis_arg1 : cmd_type → Bool
  | .EXPIRE | .EXPIREAT | .PEXPIRE | .PEXPIREAT | .APPEND | .DECRBY | .GETBIT | .GETSET
  | .INCRBY | .INCRBYFLOAT | .SETNX | .HEXISTS | .HGET | .LINDEX | .LPUSHX | .RPOPLPUSH
  | .RPUSHX | .SISMEMBER | .ZRANK | .ZREVRANK | .ZSCORE => true
  | _ => false

/-- Format: command key arg1 arg2 -/
def redis_arg2 : cmd_type → Bool
  | .GETRANGE | .PSETEX | .SETBIT | .SETEX | .SETRANGE | .HINCRBY | .HINCRBYFLOAT | .HSET
  | .HSETNX | .LRANGE | .LREM | .LSET | .LTRIM | .SMOVE | .ZCOUNT | .ZLEXCOUNT | .ZINCRBY
  | .ZREMRANGEBYLEX | .ZREMRANGEBYRANK | .ZREMRANGEBYSCORE | .RESTORE => true
  | _ => false

/-- Format: command key arg1 arg2 arg3 -/
def redis_arg3 : cmd_type → Bool
  | .LINSERT => true
  | _ => false

/-- Format: command key [ arg ... ] -/
def redis_argn : cmd_type → Bool
  | .BITCOUNT | .SET | .HDEL | .HMGET | .HMSET | .HSCAN | .LPUSH | .RPUSH | .SADD | .SDIFF
  | .SDIFFSTORE | .SINTER | .SINTERSTORE | .SREM | .SUNION | .SUNIONSTORE | .SRANDMEMBER
  | .SSCAN | .PFADD | .PFMERGE | .XACK | .XADD | .XAUTOCLAIM | .XCLAIM | .XDEL | .XPENDING
  | .XRANGE | .XREVRANGE | .XTRIM | .ZADD | .ZINTERSTORE | .ZRANGE | .ZRANGEBYSCORE | .ZREM
  | .ZREVRANGE | .ZRANGEBYLEX | .ZREVRANGEBYSCORE | .ZUNIONSTORE | .ZSCAN => true
  | _ => false

/-- Format: command key [ key ... ] -/
def redis_argx : cmd_type → Bool
  | .EXISTS | .MGET | .DEL => true
  | _ => false

/-- Format: command key value [ key value ... ] -/
def redis_argkvx : cmd_type → Bool
  | .MSET => true
  | _ => false

/-- Format: command subcommand key [ arg ... ] -/
def redis_argsub : cmd_type → Bool
  | .XGROUP | .XINFO => true
  | _ => false

/-- Format: command arg1 arg2 key [ key ... ] [ arg ... ] -/
def redis_argeval : cmd_type → Bool
  | .EVAL | .EVALSHA => true
  | _ => false

/-- The names of each length, in the order in which they are tried. -/
def verbs : Nat → List (String × cmd_type)
  | 3 => [
    ("get", .GET), ("set", .SET), ("ttl", .TTL), ("del", .DEL)]
  | 4 => [
    ("pttl", .PTTL), ("decr", .DECR), ("dump", .DUMP), ("hdel", .HDEL), ("hget", .HGET),
    ("hlen", .HLEN), ("hset", .HSET), ("incr", .INCR), ("llen", .LLEN), ("lpop", .LPOP),
    ("lrem", .LREM), ("lset", .LSET), ("rpop", .RPOP), ("sadd", .SADD), ("spop", .SPOP),
    ("srem", .SREM), ("type", .TYPE), ("mget", .MGET), ("mset", .MSET), ("xack", .XACK),
    ("xadd", .XADD), ("xdel", .XDEL), ("xlen", .XLEN), ("zadd", .ZADD), ("zrem", .ZREM),
    ("eval", .EVAL), ("sort", .SORT), ("ping", .PING), ("quit", .QUIT), ("auth", .AUTH)]
  | 5 => [
    ("hkeys", .HKEYS), ("hmget", .HMGET), ("hmset", .HMSET), ("hvals", .HVALS), ("hscan", .HSCAN),
    ("lpush", .LPUSH), ("ltrim", .LTRIM), ("rpush", .RPUSH), ("scard", .SCARD), ("sdiff", .SDIFF),
    ("setex", .SETEX), ("setnx", .SETNX), ("smove", .SMOVE), ("sscan", .SSCAN), ("xinfo", .XINFO),
    ("xtrim", .XTRIM), ("zcard", .ZCARD), ("zrank", .ZRANK), ("zscan", .ZSCAN), ("pfadd", .PFADD)]
  | 6 => [
    ("append", .APPEND), ("decrby", .DECRBY), ("exists", .EXISTS), ("expire", .EXPIRE),
    ("getbit", .GETBIT), ("getset", .GETSET), ("psetex", .PSETEX), ("hsetnx", .HSETNX),
    ("incrby", .INCRBY), ("lindex", .LINDEX), ("lpushx", .LPUSHX), ("lrange", .LRANGE),
    ("rpushx", .RPUSHX), ("setbit", .SETBIT), ("sinter", .SINTER), ("strlen", .STRLEN),
    ("sunion", .SUNION), ("xclaim", .XCLAIM), ("xgroup", .XGROUP), ("xrange", .XRANGE),
    ("zcount", .ZCOUNT), ("zrange", .ZRANGE), ("zscore", .ZSCORE)]
  | 7 => [
    ("persist", .PERSIST), ("pexpire", .PEXPIRE), ("hexists", .HEXISTS), ("hgetall", .HGETALL),
    ("hincrby", .HINCRBY), ("linsert", .LINSERT), ("zincrby", .ZINCRBY), ("evalsha", .EVALSHA),
    ("restore", .RESTORE), ("pfcount", .PFCOUNT), ("pfmerge", .PFMERGE)]
  | 8 => [
    ("expireat", .EXPIREAT), ("bitcount", .BITCOUNT), ("getrange", .GETRANGE),
    ("setrange", .SETRANGE), ("smembers", .SMEMBERS), ("xpending", .XPENDING), ("zrevrank", .ZREVRANK)]
  | 9 => [
    ("pexpireat", .PEXPIREAT), ("rpoplpush", .RPOPLPUSH), ("sismember", .SISMEMBER),
    ("xrevrange", .XREVRANGE), ("zrevrange", .ZREVRANGE), ("zlexcount", .ZLEXCOUNT)]
  | 10 => [
    ("sdiffstore", .SDIFFSTORE), ("xautoclaim", .XAUTOCLAIM)]
  | 11 => [
    ("incrbyfloat", .INCRBYFLOAT), ("sinterstore", .SINTERSTORE), ("srandmember", .SRANDMEMBER),
    ("sunionstore", .SUNIONSTORE), ("zinterstore", .ZINTERSTORE), ("zunionstore", .ZUNIONSTORE),
    ("zrangebylex", .ZRANGEBYLEX)]
  | 12 => [
    ("hincrbyfloat", .HINCRBYFLOAT)]
  | 13 => [
    ("zrangebyscore", .ZRANGEBYSCORE)]
  | 14 => [
    ("zremrangebylex", .ZREMRANGEBYLEX)]
  | 15 => [
    ("zremrangebyrank", .ZREMRANGEBYRANK)]
  | 16 => [
    ("zremrangebyscore", .ZREMRANGEBYSCORE), ("zrevrangebyscore", .ZREVRANGEBYSCORE)]
  | _ => []

def redis_parse_cmd_verb (m : Bytes) : cmd_type :=
  match (verbs m.length).find? fun v => m.map tolower == bytes v.1 with
  | some v => v.2
  | none => .UNKNOWN

/-- The arguments that have states of their own. -/
inductive Arg where
  | KEY | ARG1 | ARG2 | ARG3 | ARGN
deriving DecidableEq

/-- The states. Of an argument there are those of its length, of the line feed behind it, of its text
and of the line feed behind that. -/
inductive SW where
  | START | NARG | NARG_LF | CMD_TYPE_LEN | CMD_TYPE_LEN_LF | CMD_TYPE | CMD_TYPE_LF
  | LEN (a : Arg) | LEN_LF (a : Arg) | TEXT (a : Arg) | LF (a : Arg)
deriving DecidableEq

def SW.number : SW → Nat
  | START => 0
  | NARG => 1
  | NARG_LF => 2
  | CMD_TYPE_LEN => 3
  | CMD_TYPE_LEN_LF => 4
  | CMD_TYPE => 5
  | CMD_TYPE_LF => 6
  | LEN a => 7 + 4 * a.ctorIdx
  | LEN_LF a => 8 + 4 * a.ctorIdx
  | TEXT a => 9 + 4 * a.ctorIdx
  | LF a => 10 + 4 * a.ctorIdx

/-- Where a key starts and ends, and how much behind it goes with it. -/
structure keypos where
  start : Bytes
  end_ : Bytes
  remain_len : Nat := 0
deriving DecidableEq

def keypos.key (kp : keypos) : Bytes := kp.start.take (kp.start.length - kp.end_.length)

structure Parse where
  p : Bytes
  state : SW := .START
  token : Option Bytes := none
  rlen : Nat := 0
  rnarg : Nat := 0
  type : cmd_type := .UNKNOWN
  narg : Nat := 0
  keys : List keypos := []
deriving DecidableEq

inductive Parsed where
  | ok (r : Parse)
  | error (r : Parse)
deriving DecidableEq

def digitU32 (n : Nat) (c : UInt8) : Nat := (n * 10 + (c.toNat - 48)) % 2 ^ 32

/-- `p++`. -/
def go (s : Parse) : Round Parse Parsed := .next { s with p := s.p.tail }

def fail (s : Parse) : Round Parse Parsed := .done (.error s)

/-- `m = token + rlen`, where a carriage return has to be. -/
def textEnd (token : Bytes) (rlen : Nat) : Option Bytes :=
  match token.drop rlen with
  | 13 :: m => some (13 :: m)
  | _ => none

def lenRound (s : Parse) (ch : UInt8) (bad : Bool) (next : SW) : Round Parse Parsed :=
  match s.token with
  | none => if ch ≠ 36 then fail s else go { s with token := some s.p, rlen := 0 }
  | some _ =>
    if isDigit ch then go { s with rlen := digitU32 s.rlen ch }
    else if ch = 13 then
      if bad then fail s else go { s with rnarg := s.rnarg - 1, token := none, state := next }
    else fail s

/-- A state of a line feed with one state behind it. -/
def lfRound (s : Parse) (ch : UInt8) (next : SW) : Round Parse Parsed :=
  if ch = 10 then go { s with state := next } else fail s

/-- `p - token`. -/
def tokenLen (s : Parse) : Nat := (s.token.getD s.p).length - s.p.length

def typeRound (s : Parse) : Round Parse Parsed :=
  match textEnd s.p s.rlen with
  | none => fail s
  | some m =>
    let t := redis_parse_cmd_verb (s.p.take s.rlen)
    let s := { s with p := m, rlen := 0, token := none, type := t }
    if t = .UNKNOWN then fail s else go { s with state := .CMD_TYPE_LF }

def textRound (s : Parse) (a : Arg) : Round Parse Parsed :=
  match textEnd s.p s.rlen with
  | none => fail s
  | some m =>
    let arg := s.p.take s.rlen
    let t := { s with p := m, rlen := 0, state := .LF a }
    match a with
    | .KEY => go { t with keys := s.keys ++ [⟨s.p, m, 0⟩] }
    | .ARG2 =>
      if redis_argeval s.type then
        let bad := { s with p := m, rlen := 0 }
        if arg = [] then fail bad
        else if ¬ arg.all isDigit then fail bad
        else if arg.foldl digitU32 0 = 0 then fail bad
        else go t
      else go t
    | .ARG1 | .ARG3 | .ARGN => go t

/-- What comes after an argument: the states of the source's branches, with the test of `rnarg` in
each. -/
def afterText (s : Parse) (a : Arg) : Round Parse Parsed :=
  let goTo (a : Arg) : Round Parse Parsed := go { s with state := .LEN a }
  let exactly (n : Nat) (next : Round Parse Parsed) := if s.rnarg ≠ n then fail s else next
  let unlessDone (next : Round Parse Parsed) := if s.rnarg = 0 then .done (.ok s) else next
  let r := s.type
  match a with
  | .KEY =>
    if redis_arg0 r then exactly 0 (.done (.ok s))
    else if redis_arg1 r then exactly 1 (goTo .ARG1)
    else if redis_arg2 r then exactly 2 (goTo .ARG1)
    else if redis_arg3 r then exactly 3 (goTo .ARG1)
    else if redis_argn r then unlessDone (goTo .ARG1)
    else if redis_argx r then unlessDone (goTo .KEY)
    else if redis_argkvx r then unlessDone (if s.narg % 2 = 0 then fail s else goTo .ARG1)
    else if redis_argeval r || redis_argsub r then unlessDone (goTo .ARGN)
    else fail s
  | .ARG1 =>
    if redis_arg1 r then exactly 0 (.done (.ok s))
    else if redis_arg2 r then exactly 1 (goTo .ARG2)
    else if redis_arg3 r then exactly 2 (goTo .ARG2)
    else if redis_argn r then unlessDone (goTo .ARGN)
    else if redis_argeval r then if s.rnarg < 2 then fail s else goTo .ARG2
    else if redis_argsub r then if s.rnarg < 1 then fail s else goTo .KEY
    else if redis_argkvx r then unlessDone (goTo .KEY)
    else fail s
  | .ARG2 =>
    if redis_arg2 r then exactly 0 (.done (.ok s))
    else if redis_arg3 r then exactly 1 (goTo .ARG3)
    else if redis_argn r then unlessDone (goTo .ARGN)
    else if redis_argeval r then if s.rnarg < 1 then fail s else goTo .KEY
    else fail s
  | .ARG3 =>
    if redis_arg3 r then exactly 0 (.done (.ok s))
    else if redis_argn r then unlessDone (goTo .ARGN)
    else fail s
  | .ARGN =>
    if redis_argn r || redis_argeval r || redis_argsub r then unlessDone (goTo .ARGN)
    else fail s

/-- A turn of the loop. Where the text is at its end `result` is as `command_get` has set it. -/
def parseRound (s : Parse) : Round Parse Parsed :=
  match s.p with
  | [] => .done (.ok s)
  | ch :: _ =>
    match s.state with
    | .START | .NARG =>
      match s.token with
      | none =>
        if ch ≠ 42 then fail s else go { s with token := some s.p, rnarg := 0, state := .NARG }
      | some _ =>
        if isDigit ch then go { s with rnarg := digitU32 s.rnarg ch }
        else if ch = 13 then
          if s.rnarg = 0 then fail s
          else go { s with narg := s.rnarg, token := none, state := .NARG_LF }
        else fail s
    | .NARG_LF => lfRound s ch .CMD_TYPE_LEN
    | .CMD_TYPE_LEN => lenRound s ch (s.rlen = 0 || s.rnarg = 0) .CMD_TYPE_LEN_LF
    | .CMD_TYPE_LEN_LF => lfRound s ch .CMD_TYPE
    | .CMD_TYPE => typeRound s
    | .CMD_TYPE_LF =>
      if ch ≠ 10 then fail s
      else if redis_argz s.type then .done (.ok s)
      else if redis_argeval s.type || redis_argsub s.type then go { s with state := .LEN .ARG1 }
      else go { s with state := .LEN .KEY }
    | .LEN .KEY => lenRound s ch (s.rnarg = 0) (.LEN_LF .KEY)
    | .LEN a => lenRound s ch (tokenLen s ≤ 1 || s.rnarg = 0) (.LEN_LF a)
    | .LEN_LF a => lfRound s ch (.TEXT a)
    | .TEXT a => textRound s a
    | .LF a => if ch = 10 then afterText s a else fail s

def redis_parse_cmd (cmd : Bytes) : Option Parsed :=
  iterate parseRound (cmd.length + 1) { p := cmd }

def errstr (cmd : Bytes) (r : Parse) : Bytes :=
  bytes "Parse command error. Cmd type: " ++ decimal r.type.ctorIdx ++ bytes ", state: " ++
    decimal r.state.number ++ bytes ", break position: " ++ decimal (cmd.length - r.p.length : Nat) ++
    bytes "."

end CppPrivate.Cluster
