import CppPrivate.Lib.Machine
import CppPrivate.Url.Escape

/-! The routes of an engine. A route is found by scanning its pattern and the path of the request
side by side, as C strings. -/
namespace CppPrivate.Http
open Url (cStr)

structure Param where
  key : Bytes
  value : Bytes
deriving DecidableEq

abbrev Params := List Param

structure RouterNode (H : Type*) where
  fullPath : Bytes
  handler : H
deriving DecidableEq

abbrev HTTPHandlerFuncVec (H : Type*) := List (RouterNode H)

abbrev HTTPMethodHandlerFuncMap (H : Type*) := StdMap (HTTPHandlerFuncVec H)

section Routes
variable {H : Type*}

def AddRoute (methodHandlerFuncMap : HTTPMethodHandlerFuncMap H) (httpMethod path : Bytes)
    (handler : H) : HTTPMethodHandlerFuncMap H :=
  match methodHandlerFuncMap[httpMethod]? with
  | none => methodHandlerFuncMap.insert httpMethod [⟨path, handler⟩]
  | some vec => methodHandlerFuncMap.insert httpMethod (vec ++ [⟨path, handler⟩])

/-- The loop that compares the last `len2` bytes, from the end. -/
def endsAlike : Nat → Bytes → Bytes → Bool
  | 0, _, _ => true
  | len2 + 1, a :: str, b :: ending => if a ≠ b then false else endsAlike len2 str ending
  | _ + 1, _, _ => false

/-- The lengths are counted in `int`. -/
def Strendswith (str ending : Bytes) : Bool :=
  let len1 := cInt str.length
  let len2 := cInt ending.length
  if len1 < len2 then false else endsAlike len2.toNat str.reverse ending.reverse

/-- The key of a parameter, from the character that opens it and the text up to the next slash.
Its length is an `int`; a negative one makes the constructor of the string throw. -/
def paramKey (opening : UInt8) (ks : Bytes) : Option Bytes :=
  let klen := cInt ks.length
  let klen := if opening = 123 ∧ (opening :: ks).getLast? = some 125 then cInt (klen - 1) else klen
  if klen < 0 then none else some (ks.take klen.toNat)

/-- Where the scan of a route stops. -/
structure Scan where
  found : Bool
  kp : Bytes
  vp : Bytes
  vecParams : Params
deriving DecidableEq

/-- The scan of a pattern, at `kp`, against a path, at `vp`. -/
def scan (kp vp : Bytes) (vecParams : Params) : Option Scan :=
  match kp, vp with
  | k :: kp, v :: vp =>
    if k = 42 then
      some ⟨Strendswith (v :: vp) kp, k :: kp, v :: vp, vecParams⟩
    else if k ≠ v then
      some ⟨false, k :: kp, v :: vp, vecParams⟩
    else if k = 47 ∧ (kp.head? = some 58 ∨ kp.head? = some 123) then
      let ks := kp.tail
      match paramKey (kp.headD 0) (ks.takeWhile (· ≠ 47)) with
      | none => none
      | some key =>
        scan (ks.dropWhile (· ≠ 47)) (vp.dropWhile (· ≠ 47))
          (vecParams ++ [⟨key, vp.takeWhile (· ≠ 47)⟩])
    else scan kp vp vecParams
  | kp, vp => some ⟨false, kp, vp, vecParams⟩
termination_by kp.length
decreasing_by
  · have := (List.dropWhile_sublist (l := kp.tail) (· ≠ 47)).length_le
    simp only [List.length_tail] at this
    simp only [List.length_cons]
    omega
  · exact Nat.lt_succ_self _

def Scan.matched (r : Scan) : Bool := if r.found then r.found else r.kp.isEmpty && r.vp.isEmpty

/-- The loop over the routes of a method. -/
def findNode (pathTmp : Bytes) (params : Params) :
    HTTPHandlerFuncVec H → Option (Option (RouterNode H) × Params)
  | [] => some (none, params)
  | node :: rest =>
    match scan (cStr node.fullPath) pathTmp [] with
    | none => none
    | some r =>
      if r.matched then
        some (some node, if r.vecParams.length > 0 then r.vecParams else params)
      else findNode pathTmp params rest

/-- The rest of a path behind the base URL. -/
def stripBase : Bytes → Bytes → Option Bytes
  | s, [] => some s
  | [], _ :: _ => none
  | c :: s, d :: b => if c = d then stripBase s b else none

/-- The node for a path, with the parameters it leaves behind. There is no result when an
exception ends the search. -/
def GetRouterNode (baseUrl path : Bytes) (handlers : HTTPHandlerFuncVec H) (params : Params) :
    Option (Option (RouterNode H) × Params) :=
  match stripBase (cStr path) (cStr baseUrl) with
  | none => some (none, params)
  | some s => findNode (s.takeWhile (· ≠ 63)) params handlers

end Routes

end CppPrivate.Http
