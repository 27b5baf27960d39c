import CppPrivate.Hiredis.Resp

/-! The reader of replies as it is: a buffer that is fed piece by piece, a stack of tasks, and an
object that grows while its elements are read. -/
namespace CppPrivate.Hiredis
open Redis
open Incremental

/-- A reply as it stands while elements of it are missing. -/
inductive Object where
  | leaf (r : redisReply)
  | aggregate (type : REDIS_REPLY) (element : List (Option Object))

/-- `obj` is the place of an object in the reply: the indices on the way to it from the root. The
parent of a task is the one below it on the stack. -/
structure redisReadTask where
  type : Option REDIS_REPLY
  elements : Int
  idx : Int
  obj : Option (List Nat)

/-- `err` holds `errstr` of a `REDIS_ERR_PROTOCOL`, `task` the tasks from `ridx` down to 0, for
`tasks` of which there is memory. -/
structure redisReader where
  err : Option Bytes
  buf : Bytes
  pos : Nat
  task : List redisReadTask
  tasks : Nat
  reply : Option Object

def REDIS_READER_STACK_SIZE : Nat := 9

namespace Object

def update : Object → List Nat → (Object → Except Fault Object) → Except Fault Object
  | o, [], f => f o
  | aggregate type element, i :: place, f =>
    match element[i]? with
    | some (some o) => (update o place f).map fun o => aggregate type (element.set i (some o))
    | _ => .error .memory
  | leaf _, _ :: _, _ => .error .memory

/-- `parent->element[task->idx] = r`, with the assertion on the type of the parent. -/
def setElement (parents : List REDIS_REPLY) (idx : Int) (r : Object) : Object → Except Fault Object
  | aggregate type element =>
    if type ∉ parents then .error .assertion
    else if 0 ≤ idx ∧ idx < element.length then
      .ok (aggregate type (element.set idx.toNat (some r)))
    else .error .memory
  | leaf _ => .error .assertion

end Object

namespace redisReader

def create : redisReader := ⟨none, [], 0, [], REDIS_READER_STACK_SIZE, none⟩

def unread (r : redisReader) : Bytes := r.buf.drop r.pos

/-- What of a text goes into `errstr`. -/
def errstr (str : Bytes) : Bytes := (C_STR str).take 127

def setError (r : redisReader) (str : Bytes) : redisReader :=
  { r with reply := none, buf := [], pos := 0, task := [], err := some (errstr str) }

/-- `readBytes(r, 1)`. -/
def readByte (r : redisReader) : Option (UInt8 × redisReader) :=
  r.unread.head?.map fun c => (c, { r with pos := r.pos + 1 })

def readLine (r : redisReader) : Except Fault (Option (Bytes × redisReader)) :=
  match seekNewline r.unread with
  | none => .ok none
  | some len =>
    if 2 ^ 31 ≤ len + 2 then .error .overflow
    else .ok (some (r.unread.take len, { r with pos := r.pos + (len + 2) }))

end redisReader

/-- The end of each function that creates an object, and that the object is the reply if there is
no parent. -/
def createObject (parents : List REDIS_REPLY) (obj : Object) (r : redisReader) :
    Except Fault redisReader :=
  match r.task with
  | cur :: parent :: _ =>
    match r.reply, parent.obj with
    | some root, some place =>
      (root.update place (Object.setElement parents cur.idx obj)).map fun root =>
        { r with reply := some root }
    | _, _ => .error .memory
  | _ => .ok { r with reply := some obj }

/-- The text of a verbatim string is without its type. -/
def createStringObject (str : redisReply) : redisReader → Except Fault redisReader :=
  createObject [.ARRAY, .MAP, .SET, .PUSH] (.leaf str)

def createArrayObject (type : REDIS_REPLY) (elements : Nat) :
    redisReader → Except Fault redisReader :=
  createObject [.ARRAY, .MAP, .SET, .PUSH] (.aggregate type (List.replicate elements none))

def createIntegerObject (value : Int) : redisReader → Except Fault redisReader :=
  createObject [.ARRAY, .MAP, .SET, .PUSH] (.leaf (.integer value))

def createDoubleObject (str : Bytes) : redisReader → Except Fault redisReader :=
  createObject [.ARRAY, .MAP, .SET] (.leaf (.double str))

def createNilObject : redisReader → Except Fault redisReader :=
  createObject [.ARRAY, .MAP, .SET] (.leaf .nil)

def createBoolObject (bval : Bool) : redisReader → Except Fault redisReader :=
  createObject [.ARRAY, .MAP, .SET] (.leaf (.bool bval))

def createValue : redisReply → redisReader → Except Fault redisReader
  | .integer value => createIntegerObject value
  | .double str => createDoubleObject str
  | .nil => createNilObject
  | .bool bval => createBoolObject bval
  | str => createStringObject str

/-- The loop of `moveToNextTask`. -/
def nextTask : List redisReadTask → Except Fault (List redisReadTask)
  | cur :: prv :: below =>
    if prv.type ∉ [some .ARRAY, some .MAP, some .SET, some .PUSH] then .error .assertion
    else if cur.idx = prv.elements - 1 then nextTask (prv :: below)
    else if prv.elements ≤ cur.idx then .error .assertion
    else if 2 ^ 31 ≤ cur.idx + 1 then .error .overflow
    else .ok ({ cur with type := none, elements := -1, idx := cur.idx + 1 } :: prv :: below)
  | _ => .ok []

def moveToNextTask (r : redisReader) : Except Fault redisReader := do
  let task ← nextTask r.task
  return { r with task }

/-- Where there is a line; the result says whether it is `REDIS_OK`. -/
def processLineItem (type : REDIS_REPLY) (r : redisReader) : Except Fault (redisReader × Bool) :=
  match r.readLine with
  | .error f => .error f
  | .ok none => .ok (r, false)
  | .ok (some (p, r)) =>
    match lineValue type p with
    | .error str => .ok (r.setError str, false)
    | .ok value => do
      let r ← createValue value r
      let r ← moveToNextTask r
      return (r, true)

def processBulkItem (type : REDIS_REPLY) (r : redisReader) : Except Fault (redisReader × Bool) :=
  match seekNewline r.unread with
  | none => .ok (r, false)
  | some n =>
    match string2ll (r.unread.take n) with
    | none => .ok (r.setError (bytes "Bad bulk string length"), false)
    | some len =>
      if len < -1 then .ok (r.setError (bytes "Bulk string length out of range"), false)
      else if len = -1 then do
        let r ← createNilObject r
        let r ← moveToNextTask { r with pos := r.pos + (n + 2) }
        return (r, true)
      else if 2 ^ 63 ≤ len + 2 then .error .overflow
      else if r.pos + (n + 2 + (len.toNat + 2)) ≤ r.buf.length then
        if type = .VERB ∧ len < 4 ∨ type = .VERB ∧ r.unread[n + 5]? ≠ some 58 then
          .ok (r.setError (bytes "Verbatim string 4 bytes of content type are missing or incorrectly encoded."), false)
        else do
          let str := (r.unread.drop (n + 2)).take len.toNat
          let obj := if type = .VERB then .verb (str.drop 4) else .string str
          let r ← createStringObject obj r
          let r ← moveToNextTask { r with pos := r.pos + (n + 2 + (len.toNat + 2)) }
          return (r, true)
      else .ok (r, false)

/-- `redisReaderGrow`, when the task is the last for which there is memory. -/
def redisReader.grow (r : redisReader) : Except Fault redisReader :=
  if r.task.length = r.tasks then
    if 2 ^ 31 ≤ r.tasks + REDIS_READER_STACK_SIZE then .error .overflow
    else .ok { r with tasks := r.tasks + REDIS_READER_STACK_SIZE }
  else .ok r

def placeOf (cur : redisReadTask) : List redisReadTask → Option (List Nat)
  | parent :: _ => parent.obj.map (· ++ [cur.idx.toNat])
  | [] => some []

def enterTask (type : REDIS_REPLY) (elements : Nat) (r : redisReader) : Except Fault redisReader :=
  match r.task with
  | cur :: below =>
    if r.task.length < r.tasks then
      let cur := { cur with type := some type, elements, obj := placeOf cur below }
      .ok { r with task := ⟨none, -1, 0, none⟩ :: cur :: below }
    else .error .memory
  | [] => .error .memory

def processAggregateItem (type : REDIS_REPLY) (r : redisReader) :
    Except Fault (redisReader × Bool) :=
  match r.grow with
  | .error f => .error f
  | .ok r =>
    match r.readLine with
    | .error f => .error f
    | .ok none => .ok (r, false)
    | .ok (some (p, r)) =>
      match string2ll p with
      | none => .ok (r.setError (bytes "Bad multi-bulk length"), false)
      | some elements =>
        if elements < -1 ∨ REDIS_READER_MAX_ARRAY_ELEMENTS < elements then
          .ok (r.setError (bytes "Multi-bulk length out of range"), false)
        else if elements = -1 then do
          let r ← createNilObject r
          let r ← moveToNextTask r
          return (r, true)
        else do
          let elements := if type = .MAP then 2 * elements.toNat else elements.toNat
          let r ← createArrayObject type elements r
          let r ← (if 0 < elements then enterTask type elements r else moveToNextTask r)
          return (r, true)

/-- The `switch` on the type of the task. -/
def processTyped (type : REDIS_REPLY) (r : redisReader) : Except Fault (redisReader × Bool) :=
  match type with
  | .STRING | .VERB => processBulkItem type r
  | .ARRAY | .MAP | .SET | .PUSH => processAggregateItem type r
  | _ => processLineItem type r

def processItem (r : redisReader) : Except Fault (redisReader × Bool) :=
  match r.task with
  | [] => .error .memory
  | cur :: below =>
    match cur.type with
    | some type => processTyped type r
    | none =>
      match r.readByte with
      | none => .ok (r, false)
      | some (c, r) =>
        match typeOf c with
        | some type => processTyped type { r with task := { cur with type := some type } :: below }
        | none => .ok (r.setError (protocolByte c), false)

/-- The loop of `redisReaderGetReply`; an item has a byte at least. -/
def processItems : Nat → redisReader → Except Fault redisReader
  | 0, r => .ok r
  | fuel + 1, r =>
    if r.task = [] then .ok r
    else do
      let (r, ok) ← processItem r
      if ok then processItems fuel r else return r

def redisReaderFeed (r : redisReader) (buf : Bytes) : redisReader :=
  if r.err.isSome then r else { r with buf := r.buf ++ buf }

/-- Part of the buffer is discarded when at least 1024 bytes of it have been read. -/
def redisReader.discard (r : redisReader) : redisReader :=
  if 1024 ≤ r.pos then { r with buf := r.buf.drop r.pos, pos := 0 } else r

def redisReader.begun (r : redisReader) : redisReader :=
  if r.task = [] then { r with task := [⟨none, -1, -1, none⟩] } else r

def redisReader.emit (r : redisReader) : redisReader × Option Object :=
  if r.err.isSome then (r, none)
  else if r.task = [] then ({ r.discard with reply := none }, r.reply)
  else (r.discard, none)

def redisReaderGetReply (r : redisReader) : Except Fault (redisReader × Option Object) :=
  if r.err.isSome then .ok (r, none)
  else if r.buf.length = 0 then .ok (r, none)
  else (processItems (r.begun.unread.length + 1) r.begun).map redisReader.emit

end CppPrivate.Hiredis
