import CppPrivate.Http.UrlParser
import CppPrivate.Lib.Inet

/-! The context of a request. Its path and query come from a URL that is put together from the
peer's address, the port of the server and the request URI. -/
namespace CppPrivate.Http
open Inet

/-- What the server library hands over of a request. -/
structure HttpRequest where
  method : Bytes
  request_uri : Bytes

structure Context where
  request : HttpRequest
  method : Bytes
  requestURI : Bytes
  host : Bytes
  remoteAddr : Bytes
  clientIP : Bytes
  URL : URLParser
  fullPath : Bytes

namespace Context

/-- The constructor; the port of the URL is left as it is found. -/
def new (req : HttpRequest) (urlPort : Int) : Context :=
  ⟨req, [], [], [], [], [], URLParser.new urlPort, []⟩

def Init (ctx : Context) (remoteHost : Bytes) (port : Nat) (host : Bytes) : Context :=
  let requestURI := ctx.request.request_uri
  let allPath := bytes "http://" ++ host ++ requestURI
  let URL := ctx.URL.Parse allPath
  { ctx with
    method := ctx.request.method
    requestURI
    host
    clientIP := remoteHost
    remoteAddr := remoteHost ++ bytes ":" ++ decimal port
    URL
    fullPath := URL.path }

def Path (ctx : Context) : Bytes := ctx.URL.path

end Context

/-- The context that `Engine::WFHandleHTTPRequest` passes on to `HandleHTTPRequest`, for a
server on `port`. -/
def WFHandleHTTPRequest (port : Int) (req : HttpRequest) (peer : Addr) (remotePort : UInt16)
    (urlPort : Int) : Context :=
  let remoteHost := inet_ntop peer
  let host := remoteHost ++ bytes ":" ++ decimal port
  (Context.new req urlPort).Init remoteHost remotePort.toNat host

/-- The part of a URI before its first question mark or number sign. -/
def uriPath (uri : Bytes) : Bytes := (find_if is_question_or_sharp uri).1

/-- The text after the question mark that ends the path. -/
def uriQuery (uri : Bytes) : Bytes :=
  match (find_if is_question_or_sharp uri).2 with
  | 63 :: q => q
  | _ => []

theorem equal_key_false {v : UInt8} (h58 : v ≠ 58) (h47 : v ≠ 47) (h63 : v ≠ 63) (h35 : v ≠ 35) :
    equal_key v = false := by
  simp [equal_key, h58, h47, h63, h35]

theorem decimal_free (n : Int) : ∀ v ∈ decimal n, equal_key v = false := by
  intro v hv
  have h := mem_decimal hv
  refine equal_key_false ?_ ?_ ?_ ?_ <;> (intro he; subst he; revert h; decide)

/-- Text up to a colon, none in it and no other delimiter. -/
theorem free_of_plain {s : Bytes} (h : Plain s) (h58 : 58 ∉ s) : ∀ v ∈ s, equal_key v = false := by
  intro v hv
  refine equal_key_false ?_ ?_ ?_ ?_
  · intro heq
    subst heq
    exact h58 hv
  · intro heq
    subst heq
    exact h.1 hv
  · intro heq
    subst heq
    exact h.2.1 hv
  · intro heq
    subst heq
    exact h.2.2 hv

/-- The scan of a URL up to the second delimiter of its authority. -/
theorem parse_authority (urlPort : Int) {host port : Bytes} (hh : ∀ v ∈ host, equal_key v = false)
    (hp : ∀ v ∈ port, equal_key v = false) {c : UInt8} (hc : equal_key c = true) (t : Bytes) :
    ∃ u : URLParser, u.path = [] ∧ u.query = [] ∧
      (URLParser.new urlPort).Parse (bytes "http://" ++ (host ++ 58 :: (port ++ c :: t))) =
        (u.takePath (c :: t)).1.takeQuery (u.takePath (c :: t)).2 := by
  have hschema : bytes "http://" ++ (host ++ 58 :: (port ++ c :: t)) =
      bytes "http" ++ URLParser.prot_end ++ (host ++ 58 :: (port ++ c :: t)) := rfl
  refine ⟨⟨(bytes "http").map tolower, host.map tolower, atoi (port ++ c :: t), [], []⟩, rfl, rfl, ?_⟩
  rw [URLParser.Parse]
  rw [hschema, URLParser.takeSchema_of (by decide)]
  simp only
  rw [URLParser.takeHost_of hh (by decide)]
  simp only
  rw [if_neg (by simp), URLParser.takePort_of hp hc]
  rfl

/-- The host of the context's URL, with the colon that the server's port follows. -/
theorem allPath_eq (peer : Addr) (port : Int) (uri : Bytes) :
    bytes "http://" ++ (inet_ntop peer ++ bytes ":" ++ decimal port) ++ uri =
      bytes "http://" ++ (inet_ntop peer ++ 58 :: (decimal port ++ uri)) := by
  simp only [List.append_assoc]
  rfl

theorem url_of_in4 (port urlPort : Int) (a b c d : UInt8) (s : Bytes) :
    let URL := (URLParser.new urlPort).Parse
      (bytes "http://" ++ (inet_ntop (.in4 a b c d) ++ 58 :: (decimal port ++ 47 :: s)))
    URL.path = uriPath (47 :: s) ∧ URL.query = uriQuery (47 :: s) := by
  have hhost : ∀ v ∈ inet_ntop (.in4 a b c d), equal_key v = false :=
    free_of_plain (plain_inet_ntop _) (colon_not_mem_dotted _ _ _ _)
  obtain ⟨u, -, hq, hu⟩ := parse_authority urlPort hhost (decimal_free port) (by decide : equal_key 47 = true) s
  rw [hu, URLParser.take_uri hq]
  exact ⟨rfl, rfl⟩

/-- A text with two colons, cut at both. -/
theorem cut_colons {s : Bytes} (h : 2 ≤ s.count 58) :
    ∃ a b t, s = a ++ 58 :: (b ++ 58 :: t) ∧ 58 ∉ a ∧ 58 ∉ b := by
  have hcut : ∀ s : Bytes, 1 ≤ s.count 58 →
      ∃ a t, s = a ++ 58 :: t ∧ 58 ∉ a ∧ t.count 58 + 1 = s.count 58 := by
    intro s hs
    obtain ⟨a, t, he, ha⟩ := List.eq_append_cons_of_mem (List.count_pos_iff.mp hs)
    refine ⟨a, t, he, ha, ?_⟩
    rw [he, List.count_append, List.count_cons_self, List.count_eq_zero.mpr ha]
    omega
  obtain ⟨a, t, rfl, ha, ht⟩ := hcut s (by omega)
  obtain ⟨b, t, rfl, hb, -⟩ := hcut t (by omega)
  exact ⟨a, b, t, rfl, ha, hb⟩

/-- The second colon of the address stops the scan. -/
theorem url_of_in6 (port urlPort : Int) (w : Fin 8 → UInt16) (s : Bytes) :
    let URL := (URLParser.new urlPort).Parse
      (bytes "http://" ++ (inet_ntop (.in6 w) ++ 58 :: (decimal port ++ s)))
    URL.path = [] ∧ URL.query = [] := by
  obtain ⟨a, b, t, he, ha, hb⟩ := cut_colons (colons_inet_ntop w)
  have hplain := plain_inet_ntop (.in6 w)
  rw [he] at hplain ⊢
  simp only [Plain, List.mem_append, List.mem_cons, not_or] at hplain
  have ha : ∀ v ∈ a, equal_key v = false :=
    free_of_plain ⟨hplain.1.1, hplain.2.1.1, hplain.2.2.1⟩ ha
  have hb : ∀ v ∈ b, equal_key v = false :=
    free_of_plain ⟨hplain.1.2.2.1, hplain.2.1.2.2.1, hplain.2.2.2.2.1⟩ hb
  obtain ⟨u, hp, hq, hu⟩ := parse_authority urlPort ha hb (by decide : equal_key 58 = true)
    (t ++ 58 :: (decimal port ++ s))
  simp only [List.append_assoc, List.cons_append] at hu ⊢
  rw [hu, URLParser.take_none]
  exact ⟨hp, hq⟩

/-- What the family of the peer's address makes of the request URI. -/
theorem url_of_request (port urlPort : Int) {req : HttpRequest} (peer : Addr) (remotePort : UInt16)
    (hs : req.request_uri.head? = some 47) :
    let ctx := WFHandleHTTPRequest port req peer remotePort urlPort
    ctx.Path = (if peer.isIn4 then uriPath req.request_uri else []) ∧
      ctx.URL.query = if peer.isIn4 then uriQuery req.request_uri else [] := by
  obtain ⟨s, he⟩ := List.head?_eq_some_iff.mp hs
  simp only [WFHandleHTTPRequest, Context.Init, Context.Path, Context.new, allPath_eq]
  rw [he]
  cases peer with
  | in4 a b c d => exact url_of_in4 port urlPort a b c d s
  | in6 w => exact url_of_in6 port urlPort w (47 :: s)

/-- The path of an origin-form URI has at least its slash. -/
theorem uriPath_ne_nil {uri : Bytes} (hs : uri.head? = some 47) : uriPath uri ≠ [] := by
  obtain ⟨s, rfl⟩ := List.head?_eq_some_iff.mp hs
  simp [uriPath, find_if, is_question_or_sharp]

/-- Path and query are those of the request URI exactly if the peer has an IPv4 address. -/
theorem path_query_of_request {port urlPort : Int} {req : HttpRequest} {peer : Addr}
    {remotePort : UInt16} (hs : req.request_uri.head? = some 47) :
    let ctx := WFHandleHTTPRequest port req peer remotePort urlPort
    (ctx.Path = uriPath req.request_uri ∧ ctx.fullPath = ctx.Path ∧
      ctx.URL.query = uriQuery req.request_uri) ↔ peer.isIn4 = true := by
  obtain ⟨hpath, hquery⟩ := url_of_request port urlPort peer remotePort hs
  constructor
  · intro h
    by_contra h6
    rw [if_neg h6] at hpath
    exact uriPath_ne_nil hs (h.1.symm.trans hpath)
  · intro h4
    rw [if_pos h4] at hpath hquery
    exact ⟨hpath, rfl, hquery⟩

theorem path_query_of_request_in4 :
    let ctx := WFHandleHTTPRequest 80 ⟨bytes "GET", bytes "/a/b?x=1#y"⟩ (.in4 10 0 0 1) 40000 0
    ctx.Path = bytes "/a/b" ∧ ctx.fullPath = ctx.Path ∧ ctx.URL.query = bytes "x=1#y" :=
  (path_query_of_request (by decide)).mpr rfl

/-- For the peer `::1` every path is empty. -/
theorem loopback_path_empty :
    let peer := Addr.in6 ![0, 0, 0, 0, 0, 0, 0, 1]
    let ctx := WFHandleHTTPRequest 80 ⟨bytes "GET", bytes "/a/b?x=1"⟩ peer 40000 0
    ctx.clientIP = bytes "::1" ∧ ctx.Path = [] ∧ ctx.Path ≠ uriPath (bytes "/a/b?x=1") := by
  decide +kernel

/-- Two peers see the same path and query of a URI exactly if their addresses are of one family. -/
theorem same_path_iff {port urlPort : Int} {req : HttpRequest} {p q : Addr} {pp qp : UInt16}
    (hs : req.request_uri.head? = some 47) :
    let ctx := WFHandleHTTPRequest port req p pp urlPort
    let ctx' := WFHandleHTTPRequest port req q qp urlPort
    (ctx.Path = ctx'.Path ∧ ctx.URL.query = ctx'.URL.query) ↔ p.isIn4 = q.isIn4 := by
  have hne := uriPath_ne_nil hs
  obtain ⟨h1, h2⟩ := url_of_request port urlPort p pp hs
  obtain ⟨h3, h4⟩ := url_of_request port urlPort q qp hs
  simp only [h1, h2, h3, h4]
  cases p.isIn4 <;> cases q.isIn4 <;> simp [hne, Ne.symm hne]

end CppPrivate.Http
