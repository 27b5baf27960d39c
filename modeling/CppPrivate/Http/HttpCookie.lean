import CppPrivate.Http.StringUtils
import CppPrivate.Lib.Machine

/-! Cookies. The guard of the encoder is turned around: it returns nothing for the cookies that
it could write. -/
namespace CppPrivate.Http

inductive SameSite where
  | Default
  | Strict
  | Lax
  | None
deriving DecidableEq

inductive Priority where
  | NotSet
  | Low
  | Medium
  | High
deriving DecidableEq

structure HttpCookie where
  name : Bytes
  value : Bytes
  domain : Bytes
  path : Bytes
  expires : Bytes
  maxAge : Int
  secure : Bool
  httponly : Bool
  samesite : SameSite
  priority : Priority
  kv : StdMap Bytes

/-- `atoi` by way of `strtol`, which stays within the range of a `long`. -/
def atoi32 (s : Bytes) : Int := cInt (max (-2 ^ 63) (min (2 ^ 63 - 1) (atoi s)))

def parseSameSite (val : Bytes) : SameSite :=
  if stricmpEq val (bytes "Strict") then .Strict
  else if stricmpEq val (bytes "Lax") then .Lax
  else if stricmpEq val (bytes "None") then .None
  else .Default

def parsePriority (val : Bytes) : Priority :=
  if stricmpEq val (bytes "Low") then .Low
  else if stricmpEq val (bytes "Medium") then .Medium
  else if stricmpEq val (bytes "High") then .High
  else .NotSet

namespace HttpCookie

/-- The state after `Reset`. -/
def new : HttpCookie := ⟨[], [], [], [], [], 0, false, false, .Default, .NotSet, ∅⟩

def parsePair (c : HttpCookie) (key val : Bytes) : HttpCookie :=
  if stricmpEq key (bytes "Domain") then { c with domain := val }
  else if stricmpEq key (bytes "Path") then { c with path := val }
  else if stricmpEq key (bytes "Expires") then { c with expires := val }
  else if stricmpEq key (bytes "Max-Age") then { c with maxAge := atoi32 (Url.cStr val) }
  else if stricmpEq key (bytes "SameSite") then { c with samesite := parseSameSite val }
  else if stricmpEq key (bytes "Priority") then { c with priority := parsePriority val }
  else
    let c := if c.name.isEmpty then { c with name := key, value := val } else c
    { c with kv := c.kv.insert key val }

def parseFlag (c : HttpCookie) (key : Bytes) : HttpCookie :=
  if stricmpEq key (bytes "Secure") then { c with secure := true }
  else if stricmpEq key (bytes "HttpOnly") then { c with httponly := true }
  else c

def parseLine (c : HttpCookie) (line : Bytes) : HttpCookie :=
  if line.contains 61 then
    c.parsePair (trim (line.takeWhile (· ≠ 61)) SPACE_CHARS)
      (trim ((line.dropWhile (· ≠ 61)).drop 1) SPACE_CHARS)
  else c.parseFlag (trim line SPACE_CHARS)

def Parse (str : Bytes) : HttpCookie × Bool :=
  let c := (getlines str 59).foldl parseLine new
  (c, !c.name.isEmpty)

def sameSiteText : SameSite → Bytes
  | .Strict => bytes "Strict"
  | .Lax => bytes "Lax"
  | _ => bytes "None"

def priorityText : Priority → Bytes
  | .Low => bytes "Low"
  | .Medium => bytes "Medium"
  | _ => bytes "High"

/-- The pairs other than the first one, in the order of their keys. -/
def pairs (c : HttpCookie) (res : Bytes) : Bytes :=
  c.kv.toList.foldl (fun res pair =>
    if pair.1 = c.name then res
    else (if res.isEmpty then res else res ++ bytes "; ") ++ pair.1 ++ bytes "=" ++ pair.2) res

def String (c : HttpCookie) : Bytes :=
  if !c.name.isEmpty || !c.kv.isEmpty then []
  else
    let res := if !c.name.isEmpty then c.name ++ bytes "=" ++ c.value else []
    let res := c.pairs res
    let res := if !c.domain.isEmpty then res ++ bytes "; Domain=" ++ c.domain else res
    let res := if !c.path.isEmpty then res ++ bytes "; Path=" ++ c.path else res
    let res :=
      if c.maxAge > 0 then res ++ bytes "; Max-Age=" ++ decimal c.maxAge
      else if !c.expires.isEmpty then res ++ bytes "; Expires=" ++ c.expires
      else res
    let res :=
      if c.samesite ≠ .Default then res ++ bytes "; SameSite=" ++ sameSiteText c.samesite else res
    let res :=
      if c.priority ≠ .NotSet then res ++ bytes "; Priority=" ++ priorityText c.priority else res
    let res := if c.secure then res ++ bytes "; Secure" else res
    if c.httponly then res ++ bytes "; HttpOnly" else res

end HttpCookie

/-- `Context::SetCookie`, on the headers of the response. -/
def SetCookie (headers : List (Bytes × Bytes)) (cookie : HttpCookie) : List (Bytes × Bytes) :=
  let val := cookie.String
  if val ≠ [] then headers ++ [(bytes "Set-Cookie", val)] else headers

structure ReadsBack (c : HttpCookie) : Prop where
  nonempty : c.String ≠ []
  accepted : (HttpCookie.Parse c.String).2 = true
  name : (HttpCookie.Parse c.String).1.name = c.name
  value : (HttpCookie.Parse c.String).1.value = c.value
  kv : (HttpCookie.Parse c.String).1.kv = c.kv
  domain : (HttpCookie.Parse c.String).1.domain = c.domain
  path : (HttpCookie.Parse c.String).1.path = c.path
  secure : (HttpCookie.Parse c.String).1.secure = c.secure
  httponly : (HttpCookie.Parse c.String).1.httponly = c.httponly
  samesite : (HttpCookie.Parse c.String).1.samesite = c.samesite
  priority : (HttpCookie.Parse c.String).1.priority = c.priority
  maxAge : 0 < c.maxAge → (HttpCookie.Parse c.String).1.maxAge = c.maxAge
  expires : c.maxAge ≤ 0 → (HttpCookie.Parse c.String).1.expires = c.expires

/-- A cookie with a name has no text. -/
theorem string_of_name {c : HttpCookie} (h : c.name ≠ []) : c.String = [] := by
  have hname : c.name.isEmpty = false := by simpa using h
  simp [HttpCookie.String, hname]

/-- No cookie that is accepted is read back from its text, and none is sent to the client. -/
theorem no_cookie_reads_back (s : Bytes) (h : (HttpCookie.Parse s).2 = true) :
    ¬ ReadsBack (HttpCookie.Parse s).1 ∧
    ∀ headers, SetCookie headers (HttpCookie.Parse s).1 = headers := by
  have hname : (HttpCookie.Parse s).1.name ≠ [] := by simpa [HttpCookie.Parse] using h
  have htext := string_of_name hname
  constructor
  · intro hback
    exact hback.nonempty htext
  · intro headers
    simp [SetCookie, htext]

/-- A cookie of the documentation of the class. -/
theorem no_cookie_reads_back_test :
    ¬ ReadsBack (HttpCookie.Parse (bytes "sessionid=1; domain=.example.com; path=/")).1 ∧
    ∀ headers, SetCookie headers
      (HttpCookie.Parse (bytes "sessionid=1; domain=.example.com; path=/")).1 = headers :=
  no_cookie_reads_back _ (by decide +kernel)

/-- The shortest of cookies. -/
theorem cookie_without_text : (HttpCookie.Parse (bytes "a=b")).2 = true ∧
    (HttpCookie.Parse (bytes "a=b")).1.String = [] ∧
    ¬ ReadsBack (HttpCookie.Parse (bytes "a=b")).1 := by
  have htext : (HttpCookie.Parse (bytes "a=b")).1.String = [] := by decide +kernel
  exact ⟨by decide +kernel, htext, fun h => h.nonempty htext⟩

end CppPrivate.Http
