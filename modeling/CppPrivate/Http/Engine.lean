import CppPrivate.Http.Context
import CppPrivate.Http.Router
import CppPrivate.Lib.Run

/-! The engine, from the calls that configure and start it to the chain of handlers that it puts
together for a request. Whether the server library gets to listen is decided outside. -/
namespace CppPrivate.Http
open CppPrivate.Run

/-- An engine with handlers of type `H`; the handler of a route can be empty. -/
structure Engine (H : Type*) where
  handlers : List H
  methodHandlerFuncMap : HTTPMethodHandlerFuncMap (Option H)
  baseUrl : Bytes
  /-- The server object, once there is one. -/
  wfHttpServer : Option Unit
  allNoRoute : List H
  allNoMethod : List H
  noRoute : List H
  noMethod : List H

inductive Found (H : Type*) where
  | noMethod
  | noRoute (params : Params)
  | handler (params : Params) (f : H)
deriving DecidableEq

/-- A request that is being served: its chain, its parameters, and the status and text of an
error response. -/
structure Served (H : Type*) where
  handlers : List H
  params : Params
  error : Option (Nat × Bytes)
deriving DecidableEq

namespace Engine
variable {H : Type*}

def new : Engine H := ⟨[], ∅, [], none, [], [], [], []⟩

def CombineHandlers (e : Engine H) (handlers mergedHandlers : List H) : List H :=
  mergedHandlers ++ e.handlers ++ handlers

def Rebuild404Handlers (e : Engine H) : Engine H :=
  { e with allNoRoute := e.CombineHandlers e.noRoute e.allNoRoute }

def Rebuild405Handlers (e : Engine H) : Engine H :=
  { e with allNoMethod := e.CombineHandlers e.noMethod e.allNoMethod }

def RebuildHandlers (e : Engine H) : Engine H := e.Rebuild404Handlers.Rebuild405Handlers

def Use (e : Engine H) (handler : H) : Engine H := { e with handlers := e.handlers ++ [handler] }

def Handle (e : Engine H) (httpMethod relativePath : Bytes) (handler : Option H) : Engine H :=
  { e with
    methodHandlerFuncMap := AddRoute e.methodHandlerFuncMap httpMethod relativePath handler }

/-- A new server is made, and starts to listen or not. -/
def serve (e : Engine H) (listening : Bool) : Engine H :=
  let e := { e with wfHttpServer := some () }
  if listening then e.RebuildHandlers else e

def Run (e : Engine H) (listening : Bool) : Engine H := e.serve listening

def Start (e : Engine H) (listening : Bool) : Engine H := e.serve listening

def StartTLS (e : Engine H) (listening : Bool) : Engine H := e.serve listening

/-- Without a server the call goes through a null pointer. -/
def Stop (e : Engine H) : Option (Engine H) := e.wfHttpServer.map fun _ => e

/-- The search of `HandleHTTPRequest`. There is no result when it ends in an exception. -/
def find (e : Engine H) (ctx : Context) : Option (Found H) :=
  match e.methodHandlerFuncMap[ctx.method]? with
  | none => some .noMethod
  | some nodes =>
    match GetRouterNode e.baseUrl ctx.Path nodes [] with
    | none => none
    | some (none, params) => some (.noRoute params)
    | some (some node, params) =>
      match node.handler with
      | none => some (.noRoute params)
      | some f => some (.handler params f)

/-- The chain for what is found; the context has no handlers of its own. -/
def respond (e : Engine H) : Found H → Served H
  | .noMethod => ⟨e.allNoMethod, [], some (405, bytes "405 method not allowed")⟩
  | .noRoute params => ⟨e.allNoRoute, params, some (404, bytes "404 page not found")⟩
  | .handler params f => ⟨e.handlers ++ [f], params, none⟩

def HandleHTTPRequest (e : Engine H) (ctx : Context) : Option (Served H) :=
  (e.find ctx).map e.respond

end Engine

inductive Op (H : Type*) where
  | Use (handler : H)
  | Handle (httpMethod relativePath : Bytes) (handler : Option H)
  | Run (listening : Bool)
  | Start (listening : Bool)
  | StartTLS (listening : Bool)
  | Stop

variable {H : Type*}

def Engine.step (e : Engine H) : Op H → Option (Engine H)
  | .Use handler => some (e.Use handler)
  | .Handle httpMethod relativePath handler => some (e.Handle httpMethod relativePath handler)
  | .Run listening => some (e.Run listening)
  | .Start listening => some (e.Start listening)
  | .StartTLS listening => some (e.StartTLS listening)
  | .Stop => e.Stop

def Op.starts : Op H → Bool
  | .Run listening | .Start listening | .StartTLS listening => listening
  | _ => false

def attached (ops : List (Op H)) : List H :=
  ops.filterMap fun
    | .Use handler => some handler
    | _ => none

/-- The middleware attached at each successful start. -/
def snapshots (ops : List (Op H)) : List (List H) :=
  (ops.inits.filter fun before => (before.getLast?.map Op.starts).getD false).map attached

/-- The middleware is complete in the chain of the request: a route with a handler is found, or
nothing has been attached, or there has been exactly one successful start since the first call of
`Use`, and no call of `Use` since. -/
def Covered (ops : List (Op H)) : Found H → Prop
  | .handler _ _ => True
  | _ => attached ops = [] ∨ (snapshots ops).filter (!·.isEmpty) = [attached ops]

def Found.handler? : Found H → Option H
  | .handler _ f => some f
  | _ => none

theorem attached_append (ops ops' : List (Op H)) :
    attached (ops ++ ops') = attached ops ++ attached ops' :=
  List.filterMap_append

theorem snapshots_snoc (ops : List (Op H)) (op : Op H) :
    snapshots (ops ++ [op]) =
      snapshots ops ++ if op.starts then [attached (ops ++ [op])] else [] := by
  have hlast : (ops ++ [op]).getLast? = some op := List.getLast?_concat
  have hinits : (ops ++ [op]).inits = ops.inits ++ [ops ++ [op]] := by
    rw [List.inits_append]
    rfl
  unfold snapshots
  rw [hinits, List.filter_append, List.map_append, List.filter_singleton, hlast]
  cases hop : op.starts <;> simp [hop]

/-- A snapshot holds the middleware attached first. -/
theorem prefix_of_mem_snapshots {ops : List (Op H)} {s : List H} (h : s ∈ snapshots ops) :
    s <+: attached ops := by
  obtain ⟨before, hbefore, rfl⟩ := List.mem_map.mp h
  obtain ⟨after, rfl⟩ := (List.mem_inits _ _).mp (List.mem_of_mem_filter hbefore)
  rw [attached_append]
  exact List.prefix_append _ _

structure Configured (ops : List (Op H)) (e : Engine H) : Prop where
  handlers : e.handlers = attached ops
  allNoRoute : e.allNoRoute = (snapshots ops).flatten
  allNoMethod : e.allNoMethod = (snapshots ops).flatten
  noRoute : e.noRoute = []
  noMethod : e.noMethod = []

variable {ops : List (Op H)} {op : Op H} {e e' : Engine H}

theorem configured_new : Configured [] (Engine.new : Engine H) := ⟨rfl, rfl, rfl, rfl, rfl⟩

/-- A start that fails, a stop and a registration change none of it. -/
theorem configured_same (h : Configured ops e) (hop : op.starts = false) (huse : attached [op] = [])
    (hhandlers : e'.handlers = e.handlers) (hroute : e'.allNoRoute = e.allNoRoute)
    (hmethod : e'.allNoMethod = e.allNoMethod) (hno : e'.noRoute = e.noRoute)
    (hno' : e'.noMethod = e.noMethod) : Configured (ops ++ [op]) e' := by
  have hattached : attached (ops ++ [op]) = attached ops := by
    rw [attached_append, huse, List.append_nil]
  have hsnap : snapshots (ops ++ [op]) = snapshots ops := by
    rw [snapshots_snoc, hop]
    exact List.append_nil _
  refine ⟨?_, ?_, ?_, ?_, ?_⟩
  · rw [hattached, hhandlers, h.handlers]
  · rw [hsnap, hroute, h.allNoRoute]
  · rw [hsnap, hmethod, h.allNoMethod]
  · rw [hno, h.noRoute]
  · rw [hno', h.noMethod]

/-- A start appends a snapshot to both chains if the server gets to listen. -/
theorem configured_serve (h : Configured ops e) {listening : Bool} (hop : op.starts = listening)
    (huse : attached [op] = []) : Configured (ops ++ [op]) (e.serve listening) := by
  cases listening with
  | false => exact configured_same h hop huse rfl rfl rfl rfl rfl
  | true =>
    have hattached : attached (ops ++ [op]) = attached ops := by
      rw [attached_append, huse, List.append_nil]
    have hsnap : (snapshots (ops ++ [op])).flatten = (snapshots ops).flatten ++ attached ops := by
      rw [snapshots_snoc, hop, hattached]
      simp
    refine ⟨?_, ?_, ?_, h.noRoute, h.noMethod⟩
    · rw [hattached]
      exact h.handlers
    · change e.allNoRoute ++ e.handlers ++ e.noRoute = _
      rw [hsnap, h.allNoRoute, h.handlers, h.noRoute, List.append_nil]
    · change e.allNoMethod ++ e.handlers ++ e.noMethod = _
      rw [hsnap, h.allNoMethod, h.handlers, h.noMethod, List.append_nil]

theorem configured_step (h : Configured ops e) (hstep : e.step op = some e') :
    Configured (ops ++ [op]) e' := by
  cases op with
  | Use handler =>
    obtain rfl := Option.some.inj hstep
    have hsnap : snapshots (ops ++ [.Use handler]) = snapshots ops := by
      rw [snapshots_snoc]
      exact List.append_nil _
    refine ⟨?_, ?_, ?_, h.noRoute, h.noMethod⟩
    · rw [attached_append, ← h.handlers]
      rfl
    · rw [hsnap]
      exact h.allNoRoute
    · rw [hsnap]
      exact h.allNoMethod
  | Handle httpMethod relativePath handler =>
    obtain rfl := Option.some.inj hstep
    exact configured_same h rfl rfl rfl rfl rfl rfl rfl
  | Run listening =>
    obtain rfl := Option.some.inj hstep
    exact configured_serve h rfl rfl
  | Start listening =>
    obtain rfl := Option.some.inj hstep
    exact configured_serve h rfl rfl
  | StartTLS listening =>
    obtain rfl := Option.some.inj hstep
    exact configured_serve h rfl rfl
  | Stop =>
    obtain ⟨-, -, rfl⟩ := Option.map_eq_some_iff.mp hstep
    exact configured_same h rfl rfl rfl rfl rfl rfl rfl

theorem configured_of_runs (h : Runs Engine.step (fun _ _ => True) .new ops e) :
    Configured ops e :=
  h.history Configured configured_new fun _ _ _ _ hc _ hstep => configured_step hc hstep

/-- Prefixes of a list without repetitions make up the list, put one after the other, only if one
of them is the list and the others are empty. -/
theorem covered_of_flatten {l : List H} (hl : l.Nodup) {ss : List (List H)}
    (hpre : ∀ s ∈ ss, s <+: l) (h : ss.flatten = l) :
    l = [] ∨ ss.filter (!·.isEmpty) = [l] := by
  have hflat : (ss.filter (!·.isEmpty)).flatten = l := by
    rw [List.flatten_filter_not_isEmpty, h]
  have hfirst : ∀ s ∈ ss.filter (!·.isEmpty), ∃ a, s.head? = some a ∧ l.head? = some a := by
    intro s hs
    obtain ⟨hmem, hne⟩ := List.mem_filter.mp hs
    obtain ⟨t, rfl⟩ := hpre s hmem
    cases s with
    | nil => cases hne
    | cons a s => exact ⟨a, rfl, rfl⟩
  cases hss : ss.filter (!·.isEmpty) with
  | nil =>
    rw [hss] at hflat
    exact Or.inl hflat.symm
  | cons s rest =>
    rw [hss] at hflat hfirst
    cases rest with
    | nil =>
      right
      simpa using hflat
    | cons t rest =>
      obtain ⟨a, ha, hla⟩ := hfirst s List.mem_cons_self
      obtain ⟨b, hb, hlb⟩ := hfirst t (List.mem_cons_of_mem _ List.mem_cons_self)
      obtain rfl := Option.some.inj (hla.symm.trans hlb)
      rw [← hflat, List.flatten_cons, List.flatten_cons] at hl
      have hdisjoint := (List.nodup_append.mp hl).2.2 a (List.mem_of_head? ha) a
        (List.mem_append_left _ (List.mem_of_head? hb))
      exact absurd rfl hdisjoint

theorem flatten_of_covered {l : List H} {ss : List (List H)} (hpre : ∀ s ∈ ss, s <+: l)
    (h : l = [] ∨ ss.filter (!·.isEmpty) = [l]) : ss.flatten = l := by
  cases h with
  | inl h =>
    subst h
    exact List.flatten_eq_nil_iff.mpr fun s hs => List.prefix_nil.mp (hpre s hs)
  | inr h =>
    have hflat : (ss.filter (!·.isEmpty)).flatten = ss.flatten := List.flatten_filter_not_isEmpty
    rw [← hflat, h]
    simp

/-- The chain of the request holds the middleware once, in order, and the handler of the matched
route. -/
def Complete (ops : List (Op H)) (e : Engine H) (ctx : Context) (found : Found H) : Prop :=
  ∃ served, e.HandleHTTPRequest ctx = some served ∧
    served.handlers = attached ops ++ found.handler?.toList

theorem complete_iff {ctx : Context} {found : Found H} (h : Configured ops e)
    (hfind : e.find ctx = some found) : Complete ops e ctx found ↔
      found.handler?.isSome ∨ (snapshots ops).flatten = attached ops := by
  have hserved : Complete ops e ctx found ↔
      (e.respond found).handlers = attached ops ++ found.handler?.toList := by
    simp [Complete, Engine.HandleHTTPRequest, hfind]
  rw [hserved]
  cases found with
  | noMethod => simp [Engine.respond, Found.handler?, h.allNoMethod]
  | noRoute params => simp [Engine.respond, Found.handler?, h.allNoRoute]
  | handler params f => simp [Engine.respond, Found.handler?, h.handlers]

theorem covered_iff (found : Found H) : Covered ops found ↔ found.handler?.isSome ∨
    attached ops = [] ∨ (snapshots ops).filter (!·.isEmpty) = [attached ops] := by
  cases found <;> simp [Covered, Found.handler?]

/-- After any sequence of calls the chain of a request is complete where the calls cover the
request, and, if no middleware has been attached twice, nowhere else. -/
theorem middleware_complete {ctx : Context} {found : Found H}
    (h : Runs Engine.step (fun _ _ => True) .new ops e) (hfind : e.find ctx = some found) :
    (Covered ops found → Complete ops e ctx found) ∧
    ((attached ops).Nodup → Complete ops e ctx found → Covered ops found) := by
  have hconf := configured_of_runs h
  rw [complete_iff hconf hfind, covered_iff]
  constructor
  · intro hcov
    cases hcov with
    | inl hsome => exact Or.inl hsome
    | inr hcov => exact Or.inr (flatten_of_covered (fun s => prefix_of_mem_snapshots) hcov)
  · intro hnodup hcomplete
    cases hcomplete with
    | inl hsome => exact Or.inl hsome
    | inr hflat => exact Or.inr (covered_of_flatten hnodup (fun s => prefix_of_mem_snapshots) hflat)

def testContext (method path : Bytes) : Context :=
  let ctx := Context.new ⟨method, path⟩ 80
  { ctx with method, URL := { ctx.URL with path } }

/-- The calls of the test program, with numbers for the handlers. -/
def testOps : List (Op Nat) :=
  [.Use 1, .Use 2, .Handle (bytes "GET") (bytes "/gettest") (some 3), .StartTLS true]

/-- The calls of the test program, and a path that has no route. -/
theorem middleware_complete_test : ∃ e,
    Runs Engine.step (fun _ _ => True) .new testOps e ∧
    Complete testOps e (testContext (bytes "GET") (bytes "/none")) (.noRoute []) := by
  have hrun : Runs Engine.step (fun _ _ => True) (.new : Engine Nat) testOps _ := runs_of_exec rfl
  refine ⟨_, hrun, (middleware_complete hrun ?_).1 ?_⟩
  · decide +kernel
  · exact Or.inr (by decide)

/-- Middleware attached after the start is missing from the chain of an unmatched request, and
after a second start the chain holds it twice. -/
theorem late_middleware_missing :
    (∃ e : Engine Nat, Runs Engine.step (fun _ _ => True) .new (testOps ++ [.Use 4]) e ∧
      ¬ Complete (testOps ++ [.Use 4]) e (testContext (bytes "GET") (bytes "/none"))
        (.noRoute [])) ∧
    ∃ e : Engine Nat, Runs Engine.step (fun _ _ => True) .new (testOps ++ [.Stop, .Start true]) e ∧
      ¬ Complete (testOps ++ [.Stop, .Start true]) e (testContext (bytes "POST") (bytes "/"))
        .noMethod := by
  have hlate : Runs Engine.step (fun _ _ => True) (.new : Engine Nat) (testOps ++ [.Use 4]) _ :=
    runs_of_exec rfl
  have htwice : Runs Engine.step (fun _ _ => True) (.new : Engine Nat)
      (testOps ++ [.Stop, .Start true]) _ := runs_of_exec rfl
  refine ⟨⟨_, hlate, ?_⟩, _, htwice, ?_⟩
  · intro h
    obtain ⟨served, hserved, hchain⟩ := h
    have hmap := congrArg (Option.map (·.handlers)) hserved
    rw [Option.map_some, hchain] at hmap
    revert hmap
    decide +kernel
  · intro h
    obtain ⟨served, hserved, hchain⟩ := h
    have hmap := congrArg (Option.map (·.handlers)) hserved
    rw [Option.map_some, hchain] at hmap
    revert hmap
    decide +kernel

end CppPrivate.Http
