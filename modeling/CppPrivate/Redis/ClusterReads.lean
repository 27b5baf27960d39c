import CppPrivate.Redis.ClusterClient

/-! Through which member the union `m_ctx` is read. -/
namespace CppPrivate.Redis
open Traced

section Through
variable {κ : Type} {lib : Member → Hiredis κ} {member : Member}

/-- The context, if there is one, is of the type of the member. -/
def ClientObject.Holds (member : Member) (s : ClientObject κ) : Prop :=
  ∀ c ∈ s.m_ctx, c.type = member

/-- The read is through the member, and what it points to is of its type. -/
def CtxRead.Through (member : Member) (r : CtxRead) : Prop :=
  r.member = member ∧ ∀ type ∈ r.type, type = member

/-- The program reads `m_ctx` through the member, and leaves nothing else in it. -/
abbrev ReadsThrough {α : Type} (member : Member) (p : Exec κ α) : Prop :=
  Within (ClientObject.Holds member) (CtxRead.Through member) p

theorem CtxRead.Through.not_misread {r : CtxRead} (h : r.Through member) : ¬ r.Misread := by
  intro hr
  obtain ⟨type, htype, hne⟩ := hr
  exact hne ((h.2 type htype).trans h.1.symm)

theorem readCtx_through : ReadsThrough member (readCtx member : Exec κ _) := by
  intro s hs
  constructor
  · intro r hr
    obtain rfl := List.mem_singleton.mp hr
    refine ⟨rfl, fun type htype => ?_⟩
    obtain ⟨c, hc, rfl⟩ := Option.map_eq_some_iff.mp htype
    exact hs c hc
  · intro c t h
    cases h
    exact hs

theorem deref_through : ReadsThrough member (deref member : Exec κ κ) :=
  readCtx_through.bind fun _ => within_ofOption _

theorem updateCtx_through (ctx : κ) : ReadsThrough member (updateCtx member ctx) := by
  apply within_modify
  intro s _ c hc
  cases hc
  rfl

theorem setReply_through (reply : Option redisReply) :
    ReadsThrough member (setReply reply : Exec κ Unit) :=
  within_modify fun _ hs => hs

theorem freeReply_through : ReadsThrough member (freeReply : Exec κ Unit) := setReply_through none

theorem connect_through (c : Option κ) : ReadsThrough member (connectThrough lib member c) := by
  cases c with
  | none => exact within_pure _
  | some c => exact within_ite (within_pure _) ((updateCtx_through c).bind fun _ => within_pure _)

theorem close_through : ReadsThrough member (closeThrough member : Exec κ Unit) := by
  have hfree : ReadsThrough member
      (modify fun s => { s with m_ctx := none } : Exec κ Unit) :=
    within_modify fun _ _ c hc => by cases hc
  refine readCtx_through.bind fun c => within_ite ?_ freeReply_through
  exact deref_through.bind fun _ => hfree.bind fun _ => freeReply_through

theorem query_through (type : REDIS_REPLY) (fmt : Bytes) (args : List Bytes) :
    ReadsThrough member (queryThrough lib member type fmt args) := by
  refine readCtx_through.bind fun c => within_ite ?_ (within_pure _)
  refine freeReply_through.bind fun _ => deref_through.bind fun ctx => ?_
  refine (within_ofOption _).bind fun r => (updateCtx_through r.1).bind fun _ => ?_
  exact (setReply_through r.2).bind fun _ => within_pure _

theorem queryArgv_through (type : REDIS_REPLY) (argv : List Bytes) :
    ReadsThrough member (queryArgvThrough lib member type argv) := by
  refine readCtx_through.bind fun c => within_ite ?_ (within_pure _)
  refine freeReply_through.bind fun _ => deref_through.bind fun ctx => ?_
  refine (within_ofOption _).bind fun r => (updateCtx_through r.1).bind fun _ => ?_
  exact (setReply_through r.2).bind fun _ => within_pure _

theorem getReply_through : ReadsThrough member (getReplyThrough lib member) := by
  refine deref_through.bind fun ctx => (updateCtx_through _).bind fun _ => ?_
  cases ((lib member).getReply ctx).2 with
  | none => exact within_pure _
  | some reply => exact (setReply_through reply).bind fun _ => within_pure _

theorem formatQuery_through (cmd : Bytes) :
    ReadsThrough member (formatQueryThrough lib member cmd) := by
  refine readCtx_through.bind fun c => within_ite ?_ (within_pure _)
  refine deref_through.bind fun ctx => (updateCtx_through _).bind fun _ => ?_
  refine within_ite ?_ (within_pure _)
  exact deref_through.bind fun ctx => within_ite getReply_through (within_pure _)

theorem err_through : ReadsThrough member (errThrough lib member) :=
  readCtx_through.bind fun _ => within_ite (deref_through.bind fun _ => within_pure _) (within_pure _)

theorem strerror_through : ReadsThrough member (strerrorThrough lib member) := by
  refine within_get.bind fun s => within_ite (within_pure _) (err_through.bind fun err => ?_)
  exact within_ite (deref_through.bind fun _ => within_pure _) (within_pure _)

theorem HasError_through : ReadsThrough member (HasErrorThrough lib member) := by
  refine within_get.bind fun s => within_ite (within_pure _) (err_through.bind fun err => ?_)
  exact within_ite (within_pure _) (readCtx_through.bind fun _ => within_pure _)

theorem formatCommand_through (fmt : Bytes) (args : List Bytes) :
    ReadsThrough member (CRedisClient.formatCommand fmt args : Exec κ Bytes) := by
  have hset : ∀ cmd, ReadsThrough member
      (modify fun s => { s with m_sFmtCmd := cmd } : Exec κ Unit) := fun _ =>
    within_modify fun _ hs => hs
  rw [CRedisClient.formatCommand]
  cases redisvFormatCommand fmt args with
  | ok cmd => exact (hset _).bind fun _ => within_pure _
  | error e =>
    cases e with
    | invalid => exact (hset _).bind fun _ => within_pure _
    | undefined => exact within_stop

/-- The functions `query` read `m_ctx` through the member. -/
structure Querying.Through (member : Member) (q : Querying (Exec κ)) : Prop where
  query : ∀ type fmt args, ReadsThrough member (q.query type fmt args)
  queryArgv : ∀ type argv, ReadsThrough member (q.queryArgv type argv)
  take : ∀ {α : Type} (x : Except CommandError α), ReadsThrough member (q.take x)

theorem takeResult_through {α : Type} (x : Except CommandError α) :
    ReadsThrough member (takeResult x : Exec κ α) := by
  cases x with
  | ok a => exact within_pure a
  | error e => exact within_stop

variable {q : Querying (Exec κ)}

theorem Call.on_through (hq : q.Through member) (c : Call) : ReadsThrough member (c.on q) := by
  cases c with
  | text fmt args =>
    exact (hq.query _ _ _).bind fun reply => (hq.take _).bind fun _ => within_pure _
  | integer fmt args => exact (hq.query _ _ _).bind fun _ => within_pure _
  | status fmt args => exact (hq.query _ _ _).bind fun _ => within_pure _
  | pong fmt args => exact (hq.query _ _ _).bind fun _ => within_pure _
  | array fmt args reading => exact (hq.query _ _ _).bind fun _ => hq.take _
  | integerArgv argv => exact (hq.queryArgv _ _).bind fun _ => within_pure _
  | statusArgv argv => exact (hq.queryArgv _ _).bind fun _ => within_pure _
  | arrayArgv argv =>
    exact (hq.queryArgv _ _).bind fun reply => (hq.take _).bind fun _ => within_pure _

theorem Command.on_through (hq : q.Through member) (c : Command) :
    ReadsThrough member (c.on q) := by
  cases c with
  | method c => exact Call.on_through hq c.call
  | setnx_ex key val expire =>
    refine (hq.take _).bind fun sQuery => ?_
    exact (hq.query _ _ _).bind fun _ => within_pure _
  | del_match_keys match_key =>
    refine (hq.query _ _ _).bind fun reply => (hq.take _).bind fun keys_arry => ?_
    refine Within.bind ?_ fun _ => within_pure _
    refine within_foldlM (fun _ key => ?_) () keys_arry
    exact (Call.on_through hq _).bind fun _ => within_pure _

/-- The functions that each class has for itself read `m_ctx` through its member. -/
structure Virtual.Through (member : Member) (v : Virtual κ) : Prop where
  connect : ∀ c, ReadsThrough member (v.connect c)
  close : ReadsThrough member v.close
  ping : ReadsThrough member v.ping
  strerror : ReadsThrough member v.strerror
  formatCommand : ∀ fmt args, ReadsThrough member (v.formatCommand fmt args)
  formatQuery : ∀ cmd, ReadsThrough member (v.formatQuery cmd)
  querying : v.querying.Through member

/-- The calls that come to nothing but these functions. -/
def ClientCall.Overridden : ClientCall κ → Prop
  | .setTimeout _ | .setKeepAlive | .query _ _ | .HasError | .delete => False
  | .connect _ | .close | .command _ | .strerror | .formatCommand _ _ | .formatQuery _ => True

variable {v : Virtual κ}

theorem Virtual.Through.call (hv : v.Through member) {op : ClientCall κ} (h : op.Overridden) :
    ReadsThrough member (v.call lib op) := by
  cases op with
  | connect c => exact (hv.connect c).bind fun _ => within_pure _
  | close => exact hv.close.bind fun _ => within_pure _
  | command c =>
    cases c with
    | method m =>
      cases m
      case ping => exact hv.ping.map _
      all_goals exact (Command.on_through hv.querying (.method _)).map _
    | setnx_ex key val expire => exact (Command.on_through hv.querying _).map _
    | del_match_keys match_key => exact (Command.on_through hv.querying _).map _
  | strerror => exact hv.strerror.bind fun _ => within_pure _
  | formatCommand fmt args => exact (hv.formatCommand fmt args).bind fun _ => within_pure _
  | formatQuery cmd => exact (hv.formatQuery cmd).bind fun _ => within_pure _
  | setTimeout | setKeepAlive | query | HasError | delete => cases h

end Through

section Classes
variable {κ : Type} {lib : Member → Hiredis κ} {s t : ClientObject κ}

theorem CRedisClient.virtual_through : (CRedisClient.virtual lib).Through .pSingle := by
  have hq : (CRedisClient.virtual lib).querying.Through .pSingle :=
    ⟨query_through, queryArgv_through, takeResult_through⟩
  constructor
  case connect => exact connect_through
  case close => exact close_through
  case ping => exact Call.on_through hq _
  case strerror => exact strerror_through
  case formatCommand => exact formatCommand_through
  case formatQuery => exact formatQuery_through
  case querying => exact hq

theorem CRedisClusterClient.virtual_through :
    (CRedisClusterClient.virtual lib).Through .pCluster := by
  constructor
  case connect => exact connect_through
  case close => exact close_through
  case ping => exact within_pure _
  case strerror => exact strerror_through
  case formatCommand => exact formatCommand_through
  case formatQuery => exact formatQuery_through
  case querying => exact ⟨query_through, queryArgv_through, takeResult_through⟩

theorem queryAny_through (fmt : Bytes) (args : List Bytes) :
    ReadsThrough .pSingle (CRedisClient.queryAny lib fmt args) := by
  refine readCtx_through.bind fun c => within_ite ?_ (within_pure _)
  refine freeReply_through.bind fun _ => deref_through.bind fun ctx => ?_
  refine (within_ofOption _).bind fun r => (updateCtx_through r.1).bind fun _ => ?_
  exact (setReply_through r.2).bind fun _ => within_pure _

/-- On an object of the base class all calls read `m_ctx` through `pSingle`. -/
theorem CRedisClient.call_through (op : ClientCall κ) :
    ReadsThrough .pSingle ((CRedisClient.virtual lib).call lib op) := by
  cases op with
  | setTimeout timeout =>
    refine Within.bind ?_ fun _ => within_pure _
    exact deref_through.bind fun _ => (updateCtx_through _).bind fun _ => within_pure _
  | setKeepAlive =>
    refine Within.bind ?_ fun _ => within_pure _
    exact deref_through.bind fun _ => (updateCtx_through _).bind fun _ => within_pure _
  | query fmt args => exact (queryAny_through fmt args).bind fun _ => within_pure _
  | HasError => exact HasError_through.bind fun _ => within_pure _
  | delete => exact close_through.bind fun _ => within_stop
  | connect | close | command | strerror | formatCommand | formatQuery =>
    exact virtual_through.call trivial

/-- The calls that read a cluster's `m_ctx` through `pCluster` only: those that each class has for
itself, and `HasError`, which is the same in both, while the last reply is an error. -/
def ThroughCluster (s : ClientObject κ) : ClientCall κ → Prop
  | .HasError => s.errorReply = true
  | op => op.Overridden

theorem HasError_of_errorReply (h : s.errorReply = true) :
    CRedisClusterClient.HasError lib s = ([], some (true, s)) := by
  rw [CRedisClusterClient.HasError, HasErrorThrough, get_bind, if_pos h]
  rfl

theorem cluster_call_through {op : ClientCall κ} (hs : s.Holds .pCluster) (hop : ThroughCluster s op) :
    (∀ r ∈ ((CRedisClusterClient.virtual lib).call lib op s).1, r.Through .pCluster) ∧
      ∀ a t, ((CRedisClusterClient.virtual lib).call lib op s).2 = some (a, t) →
        t.Holds .pCluster := by
  cases op with
  | HasError =>
    have hcall : (CRedisClusterClient.virtual lib).call lib .HasError s =
        ([], some (some (.bool true), s)) := by
      change (CRedisClusterClient.HasError lib >>= _) s = _
      rw [bind_apply, HasError_of_errorReply hop]
      rfl
    rw [hcall]
    constructor
    · intro r hr
      cases hr
    · intro a t h
      cases h
      exact hs
  | _ =>
    refine CRedisClusterClient.virtual_through.call ?_ s hs
    exact hop

theorem read_readCtx (member : Member) : ∃ r ∈ (readCtx member s).1, r.member = member :=
  ⟨_, List.mem_singleton.mpr rfl, rfl⟩

/-- What a program has read stays read. -/
theorem read_bind {α β : Type} {member : Member} {p : Exec κ α} {f : α → Exec κ β}
    (h : ∃ r ∈ (p s).1, r.member = member) : ∃ r ∈ ((p >>= f) s).1, r.member = member := by
  obtain ⟨r, hr, hmember⟩ := h
  exact ⟨r, mem_bind hr, hmember⟩

/-- A cluster's context can be freed. -/
theorem close_ends (hs : s.Holds .pCluster) :
    ∃ t, (CRedisClusterClient.close s).2 = some ((), t) := by
  cases hc : s.m_ctx with
  | none =>
    simp [CRedisClusterClient.close, closeThrough, bind_apply, readCtx_apply, hc, freeReply, setReply,
      Traced.modify]
  | some c =>
    have htype : c.type = .pCluster := hs c hc
    simp [CRedisClusterClient.close, closeThrough, bind_apply, readCtx_apply, hc, deref, ofOption,
      htype, freeReply, setReply, Traced.modify]

/-- Any other call reads it through `pSingle`. -/
theorem cluster_call_single {op : ClientCall κ} (hs : s.Holds .pCluster)
    (hop : ¬ ThroughCluster s op) :
    ∃ r ∈ ((CRedisClusterClient.virtual lib).call lib op s).1, r.member = .pSingle := by
  cases op with
  | setTimeout timeout => exact read_bind (read_bind (read_bind (read_readCtx .pSingle)))
  | setKeepAlive => exact read_bind (read_bind (read_bind (read_readCtx .pSingle)))
  | query fmt args => exact read_bind (read_bind (read_readCtx .pSingle))
  | HasError =>
    have hread : ∃ r ∈ (CRedisClusterClient.HasError lib s).1, r.member = .pSingle := by
      have herr : ¬ s.errorReply = true := hop
      rw [CRedisClusterClient.HasError, HasErrorThrough, get_bind, if_neg herr]
      exact read_bind (read_bind (read_readCtx .pSingle))
    exact read_bind hread
  | delete =>
    -- the destructor of the base class closes what the other one has closed
    obtain ⟨t, ht⟩ := close_ends hs
    have hread : ∃ r ∈ (CRedisClusterClient.destroy s).1, r.member = .pSingle := by
      obtain ⟨r, hr, hmember⟩ : ∃ r ∈ (CRedisClient.destroy t).1, r.member = .pSingle :=
        read_bind (read_readCtx .pSingle)
      refine ⟨r, ?_, hmember⟩
      rw [CRedisClusterClient.destroy, trace_bind ht]
      exact List.mem_append_right _ hr
    exact read_bind hread
  | connect | close | command | strerror | formatCommand | formatQuery => exact absurd trivial hop

/-- On an object of the base class every sequence of calls reads `m_ctx` through `pSingle`. -/
theorem CRedisClient.reads_through (hs : s.Holds .pSingle) (ops : List (ClientCall κ)) :
    ∀ r ∈ (CRedisClient.virtual lib).reads lib s ops, r.Through .pSingle :=
  (within_calls (fun op => call_through op) ops s hs).1

/-- On a cluster's client, read through a pointer to the base class, a sequence of calls keeps to
`pCluster` exactly if each of its calls does; then no context is taken for one of the other type. -/
theorem cluster_reads_iff (hs : s.Holds .pCluster) (ops : List (ClientCall κ)) :
    (∀ r ∈ (CRedisClusterClient.virtual lib).reads lib s ops, r.member = .pCluster ∧ ¬ r.Misread) ↔
      Meets ((CRedisClusterClient.virtual lib).call lib) ThroughCluster ops s := by
  constructor
  · intro h
    refine meets_of_trace (I := ClientObject.Holds .pCluster) (fun t op ht hop => ?_)
      (fun t op ht htrace => ?_) hs h
    · exact (cluster_call_through ht hop).2
    · by_contra hop
      obtain ⟨r, hr, hmember⟩ := cluster_call_single ht hop
      rw [(htrace r hr).1] at hmember
      cases hmember
  · intro h r hr
    have hthrough := h.within (I := ClientObject.Holds .pCluster)
      (fun t op => cluster_call_through) hs r hr
    exact ⟨hthrough.1, hthrough.not_misread⟩

/-- The object `getClusterClient` hands out for the first time. -/
def handedOut (c : κ) : ClientObject κ := ⟨some ⟨.pCluster, c⟩, none, []⟩

end Classes

def idleLibrary : Hiredis Unit where
  err _ := false
  errstr _ := []
  block _ := true
  vCommand c _ _ := some (c, none)
  commandArgv c _ := some (c, none)
  appendFormattedCommand c _ := (c, true)
  getReply c := (c, none)
  setTimeout c _ := (c, true)
  enableKeepAlive c := (c, true)

theorem handedOut_holds : (handedOut ()).Holds .pCluster := by
  intro c hc
  cases hc
  rfl

theorem cluster_reads_get : (handedOut ()).Holds .pCluster ∧
    ∀ r ∈ (CRedisClusterClient.virtual fun _ => idleLibrary).reads (fun _ => idleLibrary)
      (handedOut ()) [.command (.method (.get (bytes "k"))), .strerror, .close],
    r.member = .pCluster ∧ ¬ r.Misread :=
  ⟨handedOut_holds, (cluster_reads_iff handedOut_holds _).mpr
    ⟨trivial, fun _ _ _ => ⟨trivial, fun _ _ _ => ⟨trivial, fun _ _ _ => trivial⟩⟩⟩⟩

/-- `HasError` on a client that has just been handed out. -/
theorem not_cluster_reads : ¬ ∀ (κ : Type) (lib : Member → Hiredis κ) (s : ClientObject κ)
    (ops : List (ClientCall κ)), s.Holds .pCluster →
    ∀ r ∈ (CRedisClusterClient.virtual lib).reads lib s ops,
      r.member = .pCluster ∧ ¬ r.Misread := by
  intro h
  have hread := h Unit (fun _ => idleLibrary) (handedOut ()) [.HasError] handedOut_holds
    ⟨.pSingle, some .pCluster⟩ (by decide)
  exact absurd hread.1 (by decide)

end CppPrivate.Redis
