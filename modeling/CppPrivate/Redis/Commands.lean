import CppPrivate.Redis.Decode
import CppPrivate.Redis.Setnx
import CppPrivate.Redis.Values

/-! All calls of the client that send a command. They differ in the format, the type of reply that
they query for, and what they make of it. -/
namespace CppPrivate.Redis
variable {σ : Type}

/-- A format with its conversions of numbers written as conversions of texts; a number is printed in
place as the text of its digits would be. -/
def asText : Bytes → Bytes
  | 37 :: 108 :: 108 :: 100 :: rest => bytes "%s" ++ asText rest  -- `%lld`
  | 37 :: 100 :: rest => bytes "%s" ++ asText rest  -- `%d`
  | 37 :: 117 :: rest => bytes "%s" ++ asText rest  -- `%u`
  | c :: rest => c :: asText rest
  | [] => []

example : asText (bytes "HSCAN %s %lld COUNT %lld") = bytes "HSCAN %s %s COUNT %s" := rfl

/-- `strtoll`. -/
def Str2Int (sInt : Bytes) : Int := atoll sInt

inductive Reading where
  | list
  | array
  | set
  | map
  | intMap
  | descMap
  | scan
  | less (now : Int)
  | bigger (now : Int)

/-- What a call returns, or puts into the container that it is given. -/
inductive Result where
  | text (s : Bytes)
  | integer (n : Int)
  | bool (ok : Bool)
  | list (l : List Bytes)
  | array (ok : Bool) (l : List Bytes)
  | set (ok : Bool) (l : redis_set_t)
  | map (ok : Bool) (m : StdMap Bytes)
  | intMap (ok : Bool) (m : redis_map_int_str_t)
  | descMap (ok : Bool) (m : redis_desc_map_int_str_t)
  | scan (cursor : Int) (m : StdMap Bytes)
  | times (l : List Int)

instance transCmp_descending : Std.TransCmp fun a b : Int => compare b a := inferInstance

def Result.texts : Result → List Bytes
  | .text s => [s]
  | .list l | .array _ l => l
  | .set _ l => l.toList
  | .map _ m | .scan _ m => m.toList.flatMap fun it => [it.1, it.2]
  | .intMap _ m => m.toList.map Prod.snd
  | .descMap _ m => m.toList.map Prod.snd
  | .integer _ | .bool _ | .times _ => []

def Reading.result (reply : Option redisReply) : Reading → Except CommandError Result
  | .list => do return .list (← strings reply)
  | .array => do return .array true (← strings reply)
  | .set => do
    let (ok, l) ← smembersSet reply
    return .set ok l
  | .map => do
    let (ok, m) ← hgetallMap reply
    return .map ok m
  | .intMap => do
    let (ok, m) ← hgetallIntMap reply
    return .intMap ok m
  | .descMap => do
    let (ok, m) ← hgetallDescMap reply
    return .descMap ok m
  | .scan => do
    let (cursor, m) ← hscan reply
    return .scan cursor m
  | .less now => do return .times (((← strings reply).map Str2Int).filter fun time => ¬now < time)
  | .bigger now => do return .times (((← strings reply).map Str2Int).filter fun time => ¬now > time)

/-- One query and what is made of the reply. -/
inductive Call where
  | text (fmt : Bytes) (args : List Bytes)
  | integer (fmt : Bytes) (args : List Bytes)
  | status (fmt : Bytes) (args : List Bytes)
  | pong (fmt : Bytes) (args : List Bytes)
  | array (fmt : Bytes) (args : List Bytes) (reading : Reading)
  | integerArgv (argv : List Bytes)
  | statusArgv (argv : List Bytes)
  | arrayArgv (argv : List Bytes)

/-- `m_reply->str && strncmp(m_reply->str, "PONG", 4) == 0`. -/
def replyPong (reply : Option redisReply) : Bool :=
  (reply.bind redisReply.str).any fun s => (bytes "PONG").isPrefixOf s

def Call.run (server : Server σ) (s : σ) : Call → Except CommandError (σ × Result)
  | .text fmt args => do
    let (s, reply) ← query server s .STRING fmt args
    return (s, .text (← replyText reply))
  | .integer fmt args => do
    let (s, reply) ← query server s .INTEGER fmt args
    return (s, .integer (replyInteger reply))
  | .status fmt args => do
    let (s, reply) ← query server s .STATUS fmt args
    return (s, .bool (replyOk reply))
  | .pong fmt args => do
    let (s, reply) ← query server s .STATUS fmt args
    return (s, .bool (replyPong reply))
  | .array fmt args reading => do
    let (s, reply) ← query server s .ARRAY fmt args
    return (s, ← reading.result reply)
  | .integerArgv argv => do
    let (s, reply) ← queryArgv server s .INTEGER argv
    return (s, .integer (replyInteger reply))
  | .statusArgv argv => do
    let (s, reply) ← queryArgv server s .STATUS argv
    return (s, .bool (replyOk reply))
  | .arrayArgv argv => do
    let (s, reply) ← queryArgv server s .ARRAY argv
    return (s, .list (← hmget reply))

/-- A call of the client that makes one query. -/
inductive Method where
  | ping
  -- key
  | ttl (key : Bytes)
  | pttl (key : Bytes)
  | del (key : Bytes)
  | exists_ (key : Bytes)
  | expire (key : Bytes) (seconds : UInt32)
  | pexpire (key : Bytes) (ms : UInt32)
  | keys (key : Bytes)
  | rename (key newkey : Bytes)
  -- string
  | get (key : Bytes)
  | incr (key : Bytes)
  | incrby (key : Bytes) (nIncr : Int)
  | decr (key : Bytes)
  | decrby (key : Bytes) (nIncr : Int)
  | set (key val : Bytes)
  | setex (key val : Bytes) (expire : Int)
  | setnx (key val : Bytes)
  | getset (key val : Bytes)
  -- set
  | sadd (key member : Bytes)
  | srem (key member : Bytes)
  | sismember (key member : Bytes)
  | smembers (key : Bytes)
  | smembersArray (key : Bytes)
  | smembersSet (key : Bytes)
  | scard (key : Bytes)
  | srandmember (key : Bytes) (nCnt : UInt32)
  | sinterstore (des key1 key2 : Bytes)
  | sdiffstore (sDstSet sSet1 sSet2 : Bytes)
  | sdiffstore3 (sDstSet sSet1 sSet2 sSet3 : Bytes)
  | spop (key : Bytes)
  -- hash
  | hset (key field value : Bytes)
  | hget (key field : Bytes)
  | hdel (key field : Bytes)
  | hlen (key : Bytes)
  | hexists (key field : Bytes)
  | hkeys (key : Bytes)
  | hkeysSet (key : Bytes)
  | hkeysLess (key : Bytes) (now : Int)
  | hkeysBigger (key : Bytes) (now : Int)
  | hvals (key : Bytes)
  | hvalsArray (key : Bytes)
  | hgetall (key : Bytes)
  | hgetallMap (key : Bytes)
  | hgetallIntMap (key : Bytes)
  | hgetallDescMap (key : Bytes)
  | hincrby (key field : Bytes) (nIncr : Int)
  | hscan (key : Bytes) (cursor count : Int)
  | hmset (key : Bytes) (fields : StdMap Bytes)
  | hmget (key : Bytes) (fields : List Bytes)
  | hdelFields (key : Bytes) (fields : List Bytes)
  -- list
  | lrange (key : Bytes) (iBeg iEnd : Int)
  | rpush (key val : Bytes)
  | lpush (key val : Bytes)
  | lpop (key : Bytes)
  | lrem (key val : Bytes)
  | llen (key : Bytes)
  -- transaction
  | multi
  | discard
  | exec
  -- sorted set
  | zcard (key : Bytes)
  | zadd (key score member : Bytes)
  | zrevrange (key : Bytes) (iBeg iEnd : Int)
  | zrange (key : Bytes) (iBeg iEnd : Int)
  | zrangebyscore (key : Bytes) (iBeg iEnd : Int)
  | zrem (key member : Bytes)
  | zscore (key member : Bytes)
  -- bitmap
  | bitCount (key : Bytes)
  | setBit (key sOffset sValue : Bytes)
  | getBit (key sOffset : Bytes)

namespace Method

def range (name : Bytes) (key : Bytes) (iBeg iEnd : Int) : Call :=
  .array (asText (name ++ bytes " %s %d %d")) [C_STR key, decimal iBeg, decimal iEnd] .list

def call : Method → Call
  | ping => .pong (bytes "%s") [bytes "PING"]
  | ttl key => .integer (bytes "TTL %s") [C_STR key]
  | pttl key => .integer (bytes "PTTL %s") [C_STR key]
  | del key => .integer (bytes "DEL %s") [C_STR key]
  | exists_ key => .integer (bytes "EXISTS %s") [C_STR key]
  | expire key seconds =>
    .integer (asText (bytes "EXPIRE %s %u")) [C_STR key, decimal seconds.toNat]
  | pexpire key ms => .integer (asText (bytes "PEXPIRE %s %u")) [C_STR key, decimal ms.toNat]
  | keys key => .array (bytes "KEYS %s") [C_STR key] .list
  | rename key newkey => .status (bytes "RENAME %s %s") [C_STR key, C_STR newkey]
  | get key => .text (bytes "GET %s") [C_STR key]
  | incr key => .integer (bytes "INCR %s") [C_STR key]
  | incrby key nIncr => .integer (asText (bytes "INCRBY %s %lld")) [C_STR key, decimal nIncr]
  | decr key => .integer (bytes "DECR %s") [C_STR key]
  | decrby key nIncr => .integer (asText (bytes "DECRBY %s %lld")) [C_STR key, decimal nIncr]
  | set key val => .status (bytes "SET %s %s") [C_STR key, C_STR val]
  | setex key val nExpire =>  -- a `long long` for a `%d`
    .status (asText (bytes "SET %s %s EX %d")) [C_STR key, C_STR val, decimal (cInt nExpire)]
  | setnx key val => .integer (bytes "SETNX %s %s") [C_STR key, C_STR val]
  | getset key val => .text (bytes "GETSET %s %s") [C_STR key, C_STR val]
  | sadd key member => .integer (bytes "SADD %s %s") [C_STR key, C_STR member]
  | srem key member => .integer (bytes "SREM %s %s") [C_STR key, C_STR member]
  | sismember key member => .integer (bytes "SISMEMBER %s %s") [C_STR key, C_STR member]
  | smembers key => .array (bytes "SMEMBERS %s") [C_STR key] .list
  | smembersArray key => .array (bytes "SMEMBERS %s") [C_STR key] .array
  | smembersSet key => .array (bytes "SMEMBERS %s") [C_STR key] .set
  | scard key => .integer (bytes "SCARD %s") [C_STR key]
  | srandmember key nCnt =>
    .array (asText (bytes "SRANDMEMBER %s %u")) [C_STR key, decimal nCnt.toNat] .list
  | sinterstore des key1 key2 =>
    .integer (bytes "SINTERSTORE %s %s %s") [C_STR des, C_STR key1, C_STR key2]
  | sdiffstore sDstSet sSet1 sSet2 =>
    .integer (bytes "SDIFFSTORE %s %s %s") [C_STR sDstSet, C_STR sSet1, C_STR sSet2]
  | sdiffstore3 sDstSet sSet1 sSet2 sSet3 => .integer (bytes "SDIFFSTORE %s %s %s %s")
    [C_STR sDstSet, C_STR sSet1, C_STR sSet2, C_STR sSet3]
  | spop key => .text (bytes "SPOP %s") [C_STR key]
  | hset key field value =>
    .integer (bytes "HSET %s %s %s") [C_STR key, C_STR field, C_STR value]
  | hget key field => .text (bytes "HGET %s %s") [C_STR key, C_STR field]
  | hdel key field => .integer (bytes "HDEL %s %s") [C_STR key, C_STR field]
  | hlen key => .integer (bytes "HLEN %s") [C_STR key]
  | hexists key field => .integer (bytes "HEXISTS %s %s") [C_STR key, C_STR field]
  | hkeys key => .array (bytes "HKEYS %s") [C_STR key] .list
  | hkeysSet key => .array (bytes "HKEYS %s") [C_STR key] .list  -- inserted into the set
  | hkeysLess key now => .array (bytes "HKEYS %s") [C_STR key] (.less now)
  | hkeysBigger key now => .array (bytes "HKEYS %s") [C_STR key] (.bigger now)
  | hvals key => .array (bytes "HVAlS %s") [C_STR key] .list
  | hvalsArray key => .array (bytes "HVAlS %s") [C_STR key] .list
  | hgetall key => .array (bytes "HGetALL %s") [C_STR key] .list
  | hgetallMap key => .array (bytes "HGetALL %s") [C_STR key] .map
  | hgetallIntMap key => .array (bytes "HGetALL %s") [C_STR key] .intMap
  | hgetallDescMap key => .array (bytes "HGetALL %s") [C_STR key] .descMap
  | hincrby key field nIncr =>
    .integer (asText (bytes "HINCRBY %s %s %lld")) [C_STR key, C_STR field, decimal nIncr]
  | hscan key cursor count => .array (asText (bytes "HSCAN %s %lld COUNT %lld"))
    [C_STR key, decimal cursor, decimal count] .scan
  | hmset key fields =>
    .statusArgv ([bytes "HMSET", key] ++ fields.toList.flatMap fun it => [it.1, it.2])
  | hmget key fields => .arrayArgv ([bytes "HMGET", key] ++ fields)
  | hdelFields key fields => .integerArgv ([bytes "HDEL", key] ++ fields)
  | lrange key iBeg iEnd => range (bytes "LRANGE") key iBeg iEnd
  | rpush key val => .integer (bytes "RPUSH %s %s") [C_STR key, C_STR val]
  | lpush key val => .integer (bytes "LPUSH %s %s") [C_STR key, C_STR val]
  | lpop key => .text (bytes "LPOP %s") [C_STR key]
  | lrem key val => .integer (bytes "LREM %s 1 %s") [C_STR key, C_STR val]
  | llen key => .integer (bytes "LLEN %s") [C_STR key]
  | multi => .status (bytes "MULTI") []
  | discard => .status (bytes "DISCARD") []
  | exec => .status (bytes "EXEC") []
  | zcard key => .integer (bytes "ZCARD %s") [C_STR key]
  | zadd key score member =>
    .integer (bytes "ZADD %s %s %s") [C_STR key, C_STR score, C_STR member]
  | zrevrange key iBeg iEnd => range (bytes "ZREVRANGE") key iBeg iEnd
  | zrange key iBeg iEnd => range (bytes "ZRANGE") key iBeg iEnd
  | zrangebyscore key iBeg iEnd => range (bytes "ZRANGEBYSCORE") key iBeg iEnd
  | zrem key member => .integer (bytes "ZREM %s %s") [C_STR key, C_STR member]
  | zscore key member => .text (bytes "ZSCORE %s %s") [C_STR key, C_STR member]
  | bitCount key => .integer (bytes "BITCOUNT %s") [C_STR key]
  | setBit key sOffset sValue =>
    .integer (bytes "SETBIT %s %s %s") [C_STR key, C_STR sOffset, C_STR sValue]
  | getBit key sOffset => .integer (bytes "GETBIT %s %s") [C_STR key, C_STR sOffset]

end Method

inductive Command where
  | method (m : Method)
  | setnx_ex (key val : Bytes) (expire : Int)
  | del_match_keys (match_key : Bytes)

/-- Every key that is found expires after a second. -/
def del_match_keys (server : Server σ) (s : σ) (match_key : Bytes) :
    Except CommandError (σ × Bool) := do
  let (s, reply) ← query server s .ARRAY (bytes "KEYS %s") [C_STR match_key]
  let keys_arry ← keys reply
  let s ← keys_arry.foldlM (fun s key => do
    let (s, _) ← (Method.expire key 1).call.run server s
    return s) s
  return (s, true)

def Command.run (server : Server σ) (s : σ) : Command → Except CommandError (σ × Result)
  | .method m => m.call.run server s
  | .setnx_ex key val expire => do
    let (s, ok) ← Redis.setnx_ex server s key val expire
    return (s, .bool ok)
  | .del_match_keys match_key => do
    let (s, ok) ← Redis.del_match_keys server s match_key
    return (s, .bool ok)

section Values
variable (server : Server σ) (s : σ) (key field value : Bytes)

/-- The calls on strings and on single fields that have been defined by themselves. -/
theorem run_text :
    (Method.get key).call.run server s = (Prod.map id .text) <$> get server s key ∧
    (Method.hget key field).call.run server s = (Prod.map id .text) <$> hget server s key field := by
  simp [Method.call, Call.run, get, hget]

theorem run_written (fields : StdMap Bytes) :
    (Method.set key value).call.run server s = (Prod.map id .bool) <$> set server s key value ∧
    (Method.hset key field value).call.run server s =
      (Prod.map id .integer) <$> hset server s key field value ∧
    (Method.hmset key fields).call.run server s =
      (Prod.map id .bool) <$> hmset server s key fields := by
  simp [Method.call, Call.run, set, hset, hmset]

end Values

end CppPrivate.Redis
