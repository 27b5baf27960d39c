import CppPrivate.Cluster.Command
import CppPrivate.Redis.Reply

/-! How a command with keys of several slots is split into one command for each slot, and how their
replies are put together again. -/
namespace CppPrivate.Cluster
open Redis

/-- The loop of `_uint_len`, for a number below `10 ^ fuel`. -/
def uintLenLoop : Nat → Nat → Nat → Nat
  | 0, _, n => n
  | fuel + 1, num, n => if num ≠ 0 then uintLenLoop fuel (num / 10) (n + 1) else n

def uint_len (num : Nat) : Nat := if num = 0 then 1 else uintLenLoop num num 0

/-- The loop of `_hi_itoa`: the digits, the last one first. -/
def itoaLoop : Nat → Bytes → Nat → Nat → Bytes × Nat
  | 0, s, len, _ => (s, len)
  | fuel + 1, s, len, num =>
    if num % 10 ≠ 0 ∨ num / 10 ≠ 0 then
      let s := s.set (len + 1) (s.getD len 0)
      itoaLoop fuel (s.set len (UInt8.ofNat (num % 10 + 48))) (len + 1) (num / 10)
    else (s, len)

/-- Prints a number into a buffer. Nothing is put behind a zero. -/
def hi_itoa (s : Bytes) (num : Int) : Bytes :=
  if num = 0 then s.set 0 48
  else
    let (s, len) := itoaLoop num.natAbs s 0 num.natAbs
    let (s, len) := if num < 0 then (s.set len 45, len + 1) else (s, len)
    let s := s.set len 0
    (s.take len).reverse ++ s.drop len

structure command where
  type : cmd_type := .UNKNOWN
  cmd : Bytes := []
  clen : Nat := 0
  keys : List keypos := []
  narg : Nat := 0
  slot_num : Int := -1
  reply : Option redisReply := none

/-- What goes with a key of `MSET`: from its end to the end of its value. Nothing where the text ends
before a length. -/
def valueLen (end_ : Bytes) : Option Nat :=
  match end_.tail.dropWhile fun c => ¬ isDigit c with
  | [] => none
  | p =>
    let len := (p.takeWhile isDigit).foldl digitU32 0
    let p := p.dropWhile isDigit
    some ((len + 2 * 2 + (end_.length - p.length)) % 2 ^ 32)

def pushFragment (type : cmd_type) (kp : keypos) (slot_num : Nat) (sub_command : command) : Option command :=
  let key_len := kp.start.length - kp.end_.length
  let sub_command := { sub_command with
    narg := sub_command.narg + 1
    clen := sub_command.clen + (key_len + uint_len key_len)
    slot_num := slot_num }
  if type = .MSET then do
    let len ← valueLen kp.end_
    return { sub_command with
      keys := sub_command.keys ++ [{ kp with remain_len := len }], clen := sub_command.clen + len }
  else some { sub_command with keys := sub_command.keys ++ [kp] }

/-- The fragments by their slots, and `frag_seq`, a fragment being told by its slot. -/
def fillFragments (type : cmd_type) :
    List keypos → (Nat → Option command) → List Nat → Option ((Nat → Option command) × List Nat)
  | [], sub_commands, frag_seq => some (sub_commands, frag_seq)
  | kp :: keys, sub_commands, frag_seq => do
    let slot_num := keyHashSlot kp.key
    let sub_command ← pushFragment type kp slot_num ((sub_commands slot_num).getD {})
    fillFragments type keys
      (fun k => if k = slot_num then some sub_command else sub_commands k) (frag_seq ++ [slot_num])

/-- How a fragment starts behind its count: the text, its length with the `*`, and what is counted for
each key. -/
structure Head where
  text : Bytes
  size : Nat
  perKey : Nat
deriving DecidableEq

def headOf : cmd_type → Option Head
  | .MGET => some ⟨bytes "\r\n$4\r\nmget\r\n", 13, 5⟩
  | .DEL => some ⟨bytes "\r\n$3\r\ndel\r\n", 12, 5⟩
  | .EXISTS => some ⟨bytes "\r\n$6\r\nexists\r\n", 15, 5⟩
  | .MSET => some ⟨bytes "\r\n$4\r\nmset\r\n", 13, 3⟩
  | _ => none

/-- The keys of a fragment, each behind its length; what `num_str` holds comes with them. -/
def writeKeys (type : cmd_type) : Bytes → List keypos → Bytes × Bytes
  | num_str, [] => (num_str, [])
  | num_str, kp :: keys =>
    let key_len := kp.start.length - kp.end_.length
    let num_str := hi_itoa num_str key_len
    let text := 36 :: C_STR num_str ++ bytes "\r\n" ++
      if type = .MSET then kp.start.take (key_len + kp.remain_len)
      else kp.start.take key_len ++ bytes "\r\n"
    let (num_str, rest) := writeKeys type num_str keys
    (num_str, text ++ rest)

/-- The text of a fragment, in a buffer of `clen` bytes. Nothing where more is written. -/
def writeFragment (type : cmd_type) (num_str : Bytes) (sub_command : command) : Option (Bytes × command) := do
  let head ← headOf type
  let clen := sub_command.clen + head.perKey * sub_command.narg
  let narg := (if type = .MSET then sub_command.narg * 2 else sub_command.narg) + 1
  let num_str := hi_itoa num_str narg
  let clen := clen + (head.size + (C_STR num_str).length)
  let (last, keys) := writeKeys type num_str sub_command.keys
  let text := 42 :: C_STR num_str ++ head.text ++ keys
  if text.length ≤ clen then
    return (last, { sub_command with
      type := type, narg := narg, clen := clen, cmd := text ++ List.replicate (clen - text.length) 0 })
  else none

def writeFragments (type : cmd_type) (sub_commands : Nat → Option command) :
    Bytes → List Nat → Option (List command)
  | _, [] => some []
  | num_str, i :: slots =>
    match sub_commands i with
    | none => writeFragments type sub_commands num_str slots
    | some sub_command => do
      let (num_str, sub_command) ← writeFragment type num_str sub_command
      let commands ← writeFragments type sub_commands num_str slots
      return sub_command :: commands

/-- What `command_pre_fragment` leaves: the fragments, `frag_seq` and the slot of the last key. -/
structure Fragments where
  commands : List command
  frag_seq : List Nat
  slot_num : Int

/-- `num_str` is the buffer as it is found. A fragment that is alone goes away: the command itself is
sent. -/
def command_pre_fragment (num_str : Bytes) (type : cmd_type) (keys : List keypos) :
    Option Fragments := do
  let (sub_commands, frag_seq) ← fillFragments type keys (fun _ => none) []
  let commands ← writeFragments type sub_commands num_str (List.range REDIS_CLUSTER_SLOTS)
  let slot_num := (frag_seq.getLast?.map Nat.cast).getD (-1)
  if commands.length = 1 then return ⟨[], [], slot_num⟩ else return ⟨commands, frag_seq, slot_num⟩

def REDIS_ERR_OTHER : Int := 2

def REDIS_ERR_PROTOCOL : Int := 4

def REDIS_ERR_OOM : Int := 5

structure Error where
  err : Int
  errstr : Bytes
deriving DecidableEq

def other (errstr : String) : Error := ⟨REDIS_ERR_OTHER, bytes errstr⟩

/-- How a call ends: with a reply, or with `NULL`, where an error may have been set. -/
inductive Returned where
  | reply (r : redisReply)
  | null (err : Option Error)

/-- The first loop of `command_post_fragment`: what ends the call, or the sum of the integers. -/
def checkReplies (type : cmd_type) : List command → Int → Except Returned Int
  | [], count => .ok count
  | sub_command :: commands, count =>
    match sub_command.reply with
    | none => .error (.null none)
    | some (.error str) => .error (.reply (.error str))
    | some reply =>
      let typeError : Except Returned Int := .error (.null (some (other "reply type error")))
      match type with
      | .MGET =>
        match reply with
        | .array _ => checkReplies type commands count
        | _ => typeError
      | .DEL | .EXISTS =>
        match reply with
        | .integer n => checkReplies type commands (count + n)
        | _ => typeError
      | _ =>
        match reply with
        | .status str =>
          if str.length = 2 ∧ C_STR str = bytes "OK" then checkReplies type commands count
          else typeError
        | _ => typeError

/-- The loop that takes from the last key to the first one the last element left of the reply to its
fragment. -/
def takeElements : List Nat → (Nat → Option redisReply) → List redisReply → Returned
  | [], _, element => .reply (.array element)
  | i :: frag_seq, reply, element =>
    match reply i with
    | some (.array elements) =>
      match elements.getLast? with
      | none => .null (some (other "sub reply elements error"))
      | some r =>
        takeElements frag_seq (fun k => if k = i then some (.array elements.dropLast) else reply k)
          (r :: element)
    | some r => takeElements frag_seq reply (r :: element)  -- only a `STRING` would come to this
    | none => .null (some (other "sub reply is null"))

def replyOf (commands : List command) (slot_num : Nat) : Option redisReply :=
  match commands.find? fun sub_command => sub_command.slot_num = (slot_num : Int) with
  | some sub_command => sub_command.reply
  | none => none

def command_post_fragment (type : cmd_type) (frag_seq : List Nat) (commands : List command) : Returned :=
  match checkReplies type commands 0 with
  | .error r => r
  | .ok count =>
    match type with
    | .MGET => takeElements frag_seq.reverse (replyOf commands) []
    | .DEL | .EXISTS => .reply (.integer count)
    | _ => .reply (.status (bytes "OK"))

end CppPrivate.Cluster
