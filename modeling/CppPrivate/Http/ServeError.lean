import CppPrivate.Http.Engine
import CppPrivate.Http.Steps

/-! The response of a request for which nothing is found. The status is set before the chain runs,
the default body is written after it. -/
namespace CppPrivate.Http
open CppPrivate.Run

def MIMEPlain : Bytes := bytes "text/plain"

structure HttpResponse where
  status_code : Bytes
  headers : List (Bytes × Bytes)
  output_body : Bytes

/-- What the handlers of a request read and write: the method, the status, the response, and all
that is theirs. -/
structure World (ω : Type*) where
  method : Bytes
  statusCode : Int
  response : HttpResponse
  rest : ω

variable {ω : Type*}

namespace World

def SetStatus (w : World ω) (code : Int) : World ω :=
  { w with
    statusCode := code
    response := { w.response with status_code := decimal code } }

def SetHeader (w : World ω) (key value : Bytes) : World ω :=
  { w with response := { w.response with headers := w.response.headers ++ [(key, value)] } }

def Write (w : World ω) (buf : Bytes) : World ω :=
  { w with response := { w.response with output_body := w.response.output_body ++ buf } }

end World

/-- The middleware `HttpMiddleware::CORS`; `AbortWithStatus` sets the status and aborts. -/
def CORS : HandlerFunc (World ω) := fun w =>
  let w := w.SetHeader (bytes "Access-Control-Allow-Origin") (bytes "*")
  let w := w.SetHeader (bytes "Access-Control-Allow-Headers")
    (bytes "Content-Type, AccessToken, X-CSRF-Token, Authorization, Token, x-token")
  let w := w.SetHeader (bytes "Access-Control-Allow-Methods")
    (bytes "OPTIONS, HEAD, GET, POST, PUT, DELETE, PATCH")
  if w.method = bytes "OPTIONS" then .Abort (w.SetStatus 204) (.finish (w.SetStatus 204))
  else .finish w

namespace Engine

def ServeError (handlers : HandlersChain (World ω)) (fuel : Nat) (code : Int)
    (defaultMessage : Bytes) (w : World ω) : Option (World ω) :=
  (Next handlers fuel (.new (w.SetStatus code))).map fun s =>
    (s.world.SetHeader (bytes "Content-Type") MIMEPlain).Write defaultMessage

def AllowCORS (e : Engine (HandlerFunc (World ω))) : Engine (HandlerFunc (World ω)) := e.Use CORS

/-- The end of `HandleHTTPRequest`: the chain that it has put together is run. -/
def answer (e : Engine (HandlerFunc (World ω))) (fuel : Nat) (ctx : Context) (w : World ω) :
    Option (World ω) :=
  (e.HandleHTTPRequest ctx).bind fun served =>
    match served.error with
    | some (code, defaultMessage) => ServeError served.handlers fuel code defaultMessage w
    | none => (Next served.handlers fuel (.new w)).map (·.world)

end Engine

/-- The response `u` of the chain, with the default body and its content type appended. -/
def World.extended (u : World ω) (defaultMessage : Bytes) : World ω :=
  { u with
    response := { u.response with
      headers := u.response.headers ++ [(bytes "Content-Type", MIMEPlain)]
      output_body := u.response.output_body ++ defaultMessage } }

/-- The chain of a request for which nothing is found comes to its end with the world `u`. -/
def Leaves (handlers : HandlersChain (World ω)) (code : Int) (w u : World ω) : Prop :=
  ∃ calls s, Config.Reaches handlers (.new (w.SetStatus code)) calls ⟨s, .done, []⟩ ∧ s.world = u

def NeverOther (handlers : HandlersChain (World ω)) (code : Int) (w : World ω) : Prop :=
  ∀ calls c d, Config.Reaches handlers (.new (w.SetStatus code)) calls c →
    Config.step handlers c .Abort = some d → d.state.world.statusCode = code

variable {e : Engine (HandlerFunc (World ω))} {ctx : Context} {w t u : World ω}
  {served : Served (HandlerFunc (World ω))} {code : Nat} {defaultMessage : Bytes}

/-- Only the two errors are served, each with its text. -/
theorem error_cases (hs : e.HandleHTTPRequest ctx = some served)
    (herr : served.error = some (code, defaultMessage)) :
    (code = 405 ∧ defaultMessage = bytes "405 method not allowed") ∨
      (code = 404 ∧ defaultMessage = bytes "404 page not found") := by
  obtain ⟨found, -, rfl⟩ := Option.map_eq_some_iff.mp hs
  cases found with
  | noMethod =>
    cases herr
    exact Or.inl ⟨rfl, rfl⟩
  | noRoute params =>
    cases herr
    exact Or.inr ⟨rfl, rfl⟩
  | handler params f => cases herr

/-- The request is answered exactly if its chain comes to its end, with the default body. -/
theorem answer_iff (hs : e.HandleHTTPRequest ctx = some served)
    (herr : served.error = some (code, defaultMessage)) :
    (∃ fuel, e.answer fuel ctx w = some t) ↔
      ∃ u, Leaves served.handlers code w u ∧ t = u.extended defaultMessage := by
  have hanswer : ∀ fuel, e.answer fuel ctx w =
      Engine.ServeError served.handlers fuel code defaultMessage w := by
    intro fuel
    simp only [Engine.answer, hs, Option.bind_some, herr]
  simp only [hanswer, Engine.ServeError, Option.map_eq_some_iff]
  constructor
  · intro h
    obtain ⟨fuel, s, hnext, rfl⟩ := h
    obtain ⟨calls, hcalls⟩ := Config.next_returns_iff.mp ⟨fuel, hnext⟩
    exact ⟨s.world, ⟨calls, s, hcalls, rfl⟩, rfl⟩
  · intro h
    obtain ⟨u, hleaves, rfl⟩ := h
    obtain ⟨calls, s, hcalls, rfl⟩ := hleaves
    obtain ⟨fuel, hnext⟩ := Config.next_returns_iff.mpr ⟨calls, hcalls⟩
    exact ⟨fuel, s, hnext, rfl⟩

/-- A chain leaves one world at most. -/
theorem Leaves.unique {handlers : HandlersChain (World ω)} {code : Int} {u u' : World ω}
    (h : Leaves handlers code w u) (h' : Leaves handlers code w u') : u = u' := by
  obtain ⟨calls, s, hs, rfl⟩ := h
  obtain ⟨calls', s', hs', rfl⟩ := h'
  have hstuck : ∀ (s : ChainState (World ω)) op,
      Config.step handlers ⟨s, .done, []⟩ op = none := fun _ op => by cases op <;> rfl
  cases hs.linear Config.step_deterministic hs' with
  | inl hmore =>
    obtain ⟨l, -, hl⟩ := hmore
    obtain ⟨rfl, -⟩ := Config.mk.inj (hl.of_stuck (hstuck s))
    rfl
  | inr hmore =>
    obtain ⟨l, -, hl⟩ := hmore
    obtain ⟨rfl, -⟩ := Config.mk.inj (hl.of_stuck (hstuck s'))
    rfl

/-- Whatever the handlers do, with whatever status they leave or abort: as soon as the chain of a
request for which nothing is found comes to its end, the request is answered, and the answer is
what the chain has left with the default body of the code and its content type appended. -/
theorem error_body_always (hs : e.HandleHTTPRequest ctx = some served)
    (herr : served.error = some (code, defaultMessage)) (hu : Leaves served.handlers code w u) :
    ((code = 405 ∧ defaultMessage = bytes "405 method not allowed") ∨
      (code = 404 ∧ defaultMessage = bytes "404 page not found")) ∧
    (∃ fuel, e.answer fuel ctx w = some (u.extended defaultMessage)) ∧
      ∀ fuel t, e.answer fuel ctx w = some t → t = u.extended defaultMessage := by
  refine ⟨error_cases hs herr, ?_, ?_⟩
  · exact (answer_iff hs herr).mpr ⟨u, hu, rfl⟩
  · intro fuel t ht
    obtain ⟨u', hu', rfl⟩ := (answer_iff hs herr).mp ⟨fuel, ht⟩
    rw [hu.unique hu']

/-- An engine with no routes that allows requests from other origins, running. -/
def corsEngine : Engine (HandlerFunc (World Unit)) := Engine.new.AllowCORS.Run true

def World.fresh (method : Bytes) : World Unit := ⟨method, 0, ⟨[], [], []⟩, ()⟩

theorem corsEngine_serves (method path : Bytes) :
    corsEngine.HandleHTTPRequest (testContext method path) =
      some ⟨[CORS], [], some (405, bytes "405 method not allowed")⟩ := by
  have hfind : corsEngine.find (testContext method path) = some .noMethod := by
    have hnone : corsEngine.methodHandlerFuncMap[(testContext method path).method]? = none := by
      simp [corsEngine, Engine.Run, Engine.serve, Engine.AllowCORS, Engine.Use, Engine.new,
        Engine.RebuildHandlers, Engine.Rebuild404Handlers, Engine.Rebuild405Handlers]
    rw [Engine.find, hnone]
  rw [Engine.HandleHTTPRequest, hfind]
  rfl

theorem next_leaves {handlers : HandlersChain (World ω)} {code : Int} {fuel : Nat}
    (h : (Next handlers fuel (.new (w.SetStatus code))).map (·.world) = some u) :
    Leaves handlers code w u := by
  obtain ⟨s, hs, rfl⟩ := Option.map_eq_some_iff.mp h
  obtain ⟨calls, hcalls⟩ := Config.next_returns_iff.mp ⟨fuel, hs⟩
  exact ⟨calls, s, hcalls, rfl⟩

theorem cors_leaves : ∃ u, Leaves [CORS] 405 (.fresh (bytes "OPTIONS")) u ∧ u.statusCode = 204 := by
  have hnext : (Next [CORS] 2 (.new ((World.fresh (bytes "OPTIONS")).SetStatus 405))).map (·.world) =
      some _ := rfl
  exact ⟨_, next_leaves hnext, rfl⟩

theorem error_body_options : ∃ u, Leaves [CORS] 405 (.fresh (bytes "OPTIONS")) u ∧
    u.statusCode = 204 ∧ ∃ fuel, corsEngine.answer fuel
      (testContext (bytes "OPTIONS") (bytes "/")) (.fresh (bytes "OPTIONS")) =
        some (u.extended (bytes "405 method not allowed")) := by
  obtain ⟨u, hleaves, hcode⟩ := cors_leaves
  obtain ⟨-, hanswer, -⟩ := error_body_always (corsEngine_serves (bytes "OPTIONS") (bytes "/")) rfl
    hleaves
  exact ⟨u, hleaves, hcode, hanswer⟩

/-- The answer to a preflight request has the status of the middleware that aborted it, and the
default body. -/
theorem not_error_body_iff : ¬ ∀ (e : Engine (HandlerFunc (World Unit))) (ctx : Context)
    (w u t : World Unit) (served : Served (HandlerFunc (World Unit))) (code fuel : Nat)
    (defaultMessage : Bytes), e.HandleHTTPRequest ctx = some served →
    served.error = some (code, defaultMessage) → Leaves served.handlers code w u →
    e.answer fuel ctx w = some t →
    (t = u.extended defaultMessage ↔ u.statusCode = code ∧ NeverOther served.handlers code w) := by
  intro h
  obtain ⟨u, hleaves, hcode⟩ := cors_leaves
  have hserved := corsEngine_serves (bytes "OPTIONS") (bytes "/")
  obtain ⟨fuel, hanswer⟩ := (answer_iff hserved rfl).mpr ⟨u, hleaves, rfl⟩
  have hstatus := ((h _ _ _ _ _ _ _ _ _ hserved rfl hleaves hanswer).mp rfl).1
  rw [hcode] at hstatus
  exact absurd hstatus (by decide)

end CppPrivate.Http
