import CppPrivate.Hiredis.Reader

/-! A blocking connection: commands are put into its buffer, the buffer goes to the socket in
pieces, and what comes from the socket goes to the reader until there is a reply. -/
namespace CppPrivate.Hiredis
open Redis

/-- The errors of a connection; `protocol` has the `errstr` of the reader. -/
inductive REDIS_ERR where
  | io
  | eof
  | timeout
  | protocol (errstr : Bytes)
deriving DecidableEq

structure redisContext where
  err : Option REDIS_ERR
  obuf : Bytes
  reader : redisReader

/-- How `send` ends; it is interrupted, or it fails. -/
inductive SendResult where
  | some (n : Nat)
  | again
  | failed

inductive RecvResult where
  | some (buf : Bytes)
  | again
  | timeout
  | closed
  | failed

def SendResult.moves : SendResult → Bool
  | .some _ => true
  | _ => false

def RecvResult.moves : RecvResult → Bool
  | .some _ => true
  | _ => false

namespace redisContext

def connected : redisContext := ⟨none, [], .create⟩

def appendCommand (c : redisContext) (cmd : Bytes) : redisContext :=
  { c with obuf := c.obuf ++ cmd }

/-- `redisNetWrite`; there is nothing where the result is negative. -/
def netWrite (c : redisContext) : SendResult → redisContext × Option Nat
  | .some n => (c, some n)
  | .again => (c, none)
  | .failed => ({ c with err := some .io }, none)

/-- `redisNetRead`; there is nothing where the result is negative. -/
def netRead (c : redisContext) : RecvResult → redisContext × Option Bytes
  | .some buf => (c, some buf)
  | .again => (c, some [])
  | .timeout => ({ c with err := some .timeout }, none)
  | .closed => ({ c with err := some .eof }, none)
  | .failed => ({ c with err := some .io }, none)

/-- `redisBufferWrite` of a buffer that is not empty; whether it is `REDIS_OK`. -/
def bufferWrite (c : redisContext) (s : SendResult) : redisContext × Bool :=
  if c.err.isSome then (c, false)
  else match c.netWrite s with
    | (c, none) => (c, false)
    | (c, some n) => ({ c with obuf := c.obuf.drop n }, true)

/-- `redisBufferRead`; whether it is `REDIS_OK`. -/
def bufferRead (c : redisContext) (s : RecvResult) : redisContext × Bool :=
  if c.err.isSome then (c, false)
  else match c.netRead s with
    | (c, none) => (c, false)
    | (c, some []) => (c, true)
    | (c, some buf) =>
      let reader := redisReaderFeed c.reader buf
      match reader.err with
      | some errstr => ({ c with reader, err := some (.protocol errstr) }, false)
      | none => ({ c with reader }, true)

/-- `redisGetReplyFromReader`; there is nothing where it is `REDIS_ERR`, else what it sets `reply`
to. -/
def getReplyFromReader (c : redisContext) :
    Except Fault (redisContext × Option (Option Object)) := do
  let (reader, o) ← redisReaderGetReply c.reader
  match reader.err with
  | some errstr => return ({ c with reader, err := some (.protocol errstr) }, none)
  | none => return ({ c with reader }, some o)

end redisContext

def redisIsPushReply : Object → Bool
  | .aggregate .PUSH _ => true
  | _ => false

/-- The loop around `redisHandledPushReply`: push messages are freed. A message has a byte at
least. -/
def inBandReply : Nat → redisContext → Except Fault (redisContext × Option (Option Object))
  | 0, c => .ok (c, some none)
  | fuel + 1, c => do
    match ← c.getReplyFromReader with
    | (c, some (some o)) => if redisIsPushReply o then inBandReply fuel c else return (c, some (some o))
    | result => return result

/-- Where a call of `redisGetReply` waits: for the socket to take bytes, or to give some. -/
inductive Phase where
  | idle
  | writing
  | reading
  | stopped (f : Fault)

/-- What a part of `redisGetReply` comes to: the call waits, or it ends with a reply or without. -/
abbrev Part := redisContext × Phase × Option Object

namespace redisContext

/-- `redisGetReply` to where it waits first. -/
def getReply (c : redisContext) : Part :=
  match c.getReplyFromReader with
  | .error f => (c, .stopped f, none)
  | .ok (c, none) => (c, .idle, none)
  | .ok (c, some (some o)) => (c, .idle, some o)
  | .ok (c, some none) =>
    if c.err.isSome then (c, .idle, none)
    else (c, if c.obuf = [] then .reading else .writing, none)

def written (c : redisContext) (s : SendResult) : Part :=
  match c.bufferWrite s with
  | (c, false) => (c, .idle, none)
  | (c, true) => (c, if c.obuf = [] then .reading else .writing, none)

def read (c : redisContext) (s : RecvResult) : Part :=
  match c.bufferRead s with
  | (c, false) => (c, .idle, none)
  | (c, true) =>
    match inBandReply (c.reader.unread.length + 1) c with
    | .error f => (c, .stopped f, none)
    | .ok (c, none) => (c, .idle, none)
    | .ok (c, some (some o)) => (c, .idle, some o)
    | .ok (c, some none) => (c, .reading, none)

end redisContext
end CppPrivate.Hiredis
