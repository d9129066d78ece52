import Mathlib.Logic.Function.Basic
import PingoraProxy.Foundation.TransitionSystem
import PingoraProxy.Proxy.Router

/-!
# The gateway

The proxy picks a backend for each request and keeps its address in the context of
the request; the outcome of the connection is recorded under that address.  The
gateway is a transition system over the route store, the load balancer with the
health tracker, and the requests in flight.  Each hook of a request and each update of
the routes is one atomic step here: the steps of different requests may come in any
order, but one hook does not overlap with another.  {lit}`OverlappingHooks` takes the hooks
apart.

Parsing a socket address belongs to the standard library and is a parameter: a
function from text to an address or an error text.

Main results:

- Theorems {lit}`upstreamPeer_of_none` and {lit}`upstreamPeer_of_some`: what asking for
  a peer does to the context and the load balancer.
- Theorem {lit}`isHealthy_of_step`: an unhealthy address becomes healthy only when a
  connection of a request that holds it succeeds.
-/

namespace PingoraProxy

open Foundation

/-! ## Hooks of the proxy -/

/-- Per-request context: the backend address selected for the request. -/
structure GatewayCtx where
  backendAddress : Option Str

/-- The context of a new request. -/
def GatewayCtx.default : GatewayCtx where
  backendAddress := none

/-- The peer to connect to. -/
structure HttpPeer (Addr : Type) where
  address : Addr
  useTls : Bool
  sni : Str

/-- The errors a request may end with when no peer is returned. -/
inductive PeerError where
  | httpStatus (code : Nat) (context : Str)
  | internalError (context : Str)
deriving DecidableEq

/-- Extract the host for routing from the host header or the authority. -/
def extractHostForRouting (hostHeader authority : Option Str) : Str :=
  let rawHost := (hostHeader.orElse fun _ => authority).getD []
  let regular := ((Str.rsplitOnce ':' rawHost).map Prod.fst).getD rawHost
  -- an IPv6 literal keeps its brackets
  if Str.startsWith rawHost ['['] then (Str.upToFirst ']' rawHost).getD regular
  else regular

/-- Whether a backend protocol requires TLS. -/
def requiresTls : BackendProtocol → Bool
  | .https | .h2 => true
  | .unspecified | .http | .h2c => false

/-- Extract the server name from a backend address. -/
def extractSni (address : Str) : Str :=
  if Str.startsWith address ['['] && decide (']' ∈ address) then
    (Str.beforeFirst ']' address).drop 1
  else ((Str.rsplitOnce ':' address).map Prod.fst).getD address

section Hooks

variable (lc : Lowercasing) {Addr : Type} (parse : Str → Except Str Addr)

/-- Parse a backend address. -/
def parseBackendAddress (address : Str) : Except Str Addr :=
  (parse address).mapError fun e =>
    "invalid backend address '".toList ++ address ++ "': ".toList ++ e

/-- Create a peer from a backend. -/
def backendToPeer (backend : Backend) : Except PeerError (HttpPeer Addr) :=
  match parseBackendAddress parse backend.address with
  | .error e => .error (.internalError e)
  | .ok address =>
      let protocol := (BackendProtocol.tryFrom backend.protocol).getD .http
      .ok ⟨address, requiresTls protocol, extractSni backend.address⟩

/-- Find the peer of a request: the result, the context and the load balancer. -/
def upstreamPeer (lb : LoadBalancer) (routes : List HttpRoute)
    (hostHeader authority : Option Str) (path : Str) (ctx : GatewayCtx) :
    Except PeerError (HttpPeer Addr) × GatewayCtx × LoadBalancer :=
  let host := extractHostForRouting hostHeader authority
  let found := Router.findBackend lc lb routes host path
  match found.1 with
  | none =>
      (.error (.httpStatus 404 ("no route for host=".toList ++ host ++ " path=".toList ++ path)),
        ctx, found.2)
  | some backend =>
      -- the address is stored before the peer is created
      (backendToPeer parse backend, { ctx with backendAddress := some backend.address }, found.2)

/-- Record a successful connection. -/
def connectedToUpstream (tracker : HealthTracker) (ctx : GatewayCtx) : HealthTracker :=
  match ctx.backendAddress with
  | some address => tracker.recordSuccess address
  | none => tracker

/-- Record a failed connection. -/
def failToConnect (tracker : HealthTracker) (ctx : GatewayCtx) : HealthTracker :=
  match ctx.backendAddress with
  | some address => tracker.recordFailure address
  | none => tracker

/-- Without a backend the request ends with a 404 that names host and path. -/
theorem upstreamPeer_of_none {lb : LoadBalancer} {routes : List HttpRoute}
    {hostHeader authority : Option Str} {path : Str}
    (h : (Router.findBackend lc lb routes (extractHostForRouting hostHeader authority) path).1 =
      none) (ctx : GatewayCtx) :
    upstreamPeer lc parse lb routes hostHeader authority path ctx =
      (.error (.httpStatus 404 ("no route for host=".toList ++
          extractHostForRouting hostHeader authority ++ " path=".toList ++ path)), ctx,
        (Router.findBackend lc lb routes (extractHostForRouting hostHeader authority) path).2) := by
  unfold upstreamPeer
  dsimp only
  rw [h]

/-- With a backend its address is kept in the context, whether or not it is valid. -/
theorem upstreamPeer_of_some {lb : LoadBalancer} {routes : List HttpRoute}
    {hostHeader authority : Option Str} {path : Str} {backend : Backend}
    (h : (Router.findBackend lc lb routes (extractHostForRouting hostHeader authority) path).1 =
      some backend) (ctx : GatewayCtx) :
    upstreamPeer lc parse lb routes hostHeader authority path ctx =
      (backendToPeer parse backend, { ctx with backendAddress := some backend.address },
        (Router.findBackend lc lb routes (extractHostForRouting hostHeader authority) path).2) := by
  unfold upstreamPeer
  dsimp only
  rw [h]

/-- Asking for a peer leaves the load balancer as the call for a backend does. -/
theorem loadBalancer_upstreamPeer (lb : LoadBalancer) (routes : List HttpRoute)
    (hostHeader authority : Option Str) (path : Str) (ctx : GatewayCtx) :
    (upstreamPeer lc parse lb routes hostHeader authority path ctx).2.2 =
      (Router.findBackend lc lb routes (extractHostForRouting hostHeader authority) path).2 := by
  cases hfound : (Router.findBackend lc lb routes
      (extractHostForRouting hostHeader authority) path).1 with
  | none => rw [upstreamPeer_of_none lc parse hfound]
  | some backend => rw [upstreamPeer_of_some lc parse hfound]

/-- Asking for a peer leaves the tracker; it returns a peer only with the address of
a healthy backend in the context. -/
theorem upstreamPeer_cases (lb : LoadBalancer) (routes : List HttpRoute)
    (hostHeader authority : Option Str) (path : Str) (ctx : GatewayCtx) :
    let result := upstreamPeer lc parse lb routes hostHeader authority path ctx
    result.2.2.healthTracker = lb.healthTracker ∧
      (result.1.isOk = true → ∃ address, result.2.1.backendAddress = some address ∧
        lb.healthTracker.isHealthy address = true) := by
  intro result
  have htracker : result.2.2.healthTracker = lb.healthTracker := by
    unfold result
    rw [loadBalancer_upstreamPeer, Router.healthTracker_findBackend]
  refine ⟨htracker, fun hok => ?_⟩
  cases hfound : (Router.findBackend lc lb routes
      (extractHostForRouting hostHeader authority) path).1 with
  | none =>
      unfold result at hok
      rw [upstreamPeer_of_none lc parse hfound] at hok
      cases hok
  | some backend =>
      rcases Router.mem_of_findBackend lc hfound with ⟨-, -, -, -, hhealthy⟩
      unfold result
      rw [upstreamPeer_of_some lc parse hfound]
      exact ⟨backend.address, rfl, hhealthy⟩

/-- A success recorded for a context restores the address it holds and no other. -/
theorem isHealthy_connectedToUpstream (tracker : HealthTracker) (ctx : GatewayCtx)
    (address : Str) :
    (connectedToUpstream tracker ctx).isHealthy address =
      if ctx.backendAddress = some address then true else tracker.isHealthy address := by
  unfold connectedToUpstream
  cases hctx : ctx.backendAddress with
  | none => rfl
  | some held =>
      dsimp only
      rw [HealthTracker.isHealthy_recordSuccess]
      simp only [Option.some.injEq]

/-- A failure never makes an address healthy. -/
theorem isHealthy_failToConnect {tracker : HealthTracker} {address : Str}
    (h : tracker.isHealthy address = false) (ctx : GatewayCtx) :
    (failToConnect tracker ctx).isHealthy address = false := by
  unfold failToConnect
  cases ctx.backendAddress with
  | none => exact h
  | some held =>
      dsimp only
      rw [HealthTracker.isHealthy_recordFailure, h, ite_self]

end Hooks

/-! ## The gateway as a transition system -/

/-- A request in flight: its context, and whether the outcome of its last connection
attempt is still to come. -/
structure GatewayRequest where
  ctx : GatewayCtx
  awaiting : Bool

/-- The gateway: its router and the requests in flight. -/
structure GatewayProxy where
  router : Router
  requests : Nat → Option GatewayRequest

/-- What the gateway does, one hook at a time: a request starts or retries, its attempt
connects or fails to connect, it ends, or the routes are replaced. -/
inductive GatewayStep where
  | upstreamPeer (id : Nat) (routes : List HttpRoute) (hostHeader authority : Option Str)
      (path : Str)
  | connectedToUpstream (id : Nat)
  | failToConnect (id : Nat)
  | finish (id : Nat)
  | updateRoutes (req : UpdateRoutesRequest)

namespace GatewayProxy

variable (lc : Lowercasing) {Addr : Type} (parse : Str → Except Str Addr)

/-- A gateway without routes and requests, with a new tracker. -/
def new (failureThreshold : UInt32) : GatewayProxy where
  router := .new .new (.new failureThreshold)
  requests := fun _ => none

/-- Whether the outcome of an attempt of a request is still to come. -/
def awaits (s : GatewayProxy) (id : Nat) : Bool :=
  ((s.requests id).map GatewayRequest.awaiting).getD false

/-- The context of a request; a request not in flight gets a new one. -/
def ctxOf (s : GatewayProxy) (id : Nat) : GatewayCtx :=
  ((s.requests id).map GatewayRequest.ctx).getD .default

/-- Record the outcome of an attempt in the tracker. -/
def settle (s : GatewayProxy) (id : Nat)
    (outcome : HealthTracker → GatewayCtx → HealthTracker) : GatewayProxy where
  router := { s.router with loadBalancer := { s.router.loadBalancer with
    healthTracker := outcome s.router.healthTracker (s.ctxOf id) } }
  requests := Function.update s.requests id (some ⟨s.ctxOf id, false⟩)

/-- The state a step leads to. -/
def next (s : GatewayProxy) : GatewayStep → GatewayProxy
  | .upstreamPeer id routes hostHeader authority path =>
      let result := upstreamPeer lc parse s.router.loadBalancer routes hostHeader authority path
        (s.ctxOf id)
      { router := { s.router with loadBalancer := result.2.2 }
        requests := Function.update s.requests id (some ⟨result.2.1, result.1.isOk⟩) }
  | .connectedToUpstream id => s.settle id connectedToUpstream
  | .failToConnect id => s.settle id failToConnect
  | .finish id => { s with requests := Function.update s.requests id none }
  | .updateRoutes req =>
      { s with router := { s.router with store :=
        (s.router.store.updateRoutes req.httpRoutes req.grpcRoutes req.version).2 } }

/-- The steps a state allows: a peer is asked for with a listing of the table and
only when no attempt of the request is under way, and only such an attempt has an
outcome. -/
def enabled (s : GatewayProxy) : GatewayStep → Prop
  | .upstreamPeer id routes _ _ _ =>
      s.router.store.httpRoutes.Lists routes ∧ s.awaits id = false
  | .connectedToUpstream id | .failToConnect id => s.awaits id = true
  | .finish id => (s.requests id).isSome = true
  | .updateRoutes _ => True

instance : ∀ s e, Decidable (enabled s e)
  | _, .upstreamPeer .. => inferInstanceAs (Decidable (_ ∧ _))
  | _, .connectedToUpstream _ => inferInstanceAs (Decidable (_ = _))
  | _, .failToConnect _ => inferInstanceAs (Decidable (_ = _))
  | _, .finish _ => inferInstanceAs (Decidable (_ = _))
  | _, .updateRoutes _ => inferInstanceAs (Decidable True)

/-- The gateway, started with the given failure threshold. -/
def system (failureThreshold : UInt32) : TransitionSystem GatewayProxy GatewayStep where
  init := new failureThreshold
  enabled := enabled
  next := next lc parse

instance (failureThreshold : UInt32) (s : GatewayProxy) (e : GatewayStep) :
    Decidable ((system lc parse failureThreshold).enabled s e) :=
  inferInstanceAs (Decidable (enabled s e))

/-- Whether the tracker has an address as healthy. -/
def isHealthy (s : GatewayProxy) (address : Str) : Bool :=
  s.router.healthTracker.isHealthy address

/-- Some attempt under way goes to the address. -/
def Attempted (s : GatewayProxy) (address : Str) : Prop :=
  ∃ id, s.awaits id = true ∧ (s.ctxOf id).backendAddress = some address

/-- Some HTTP route of the table has a backend with the address. -/
def InTable (s : GatewayProxy) (address : Str) : Prop :=
  ∃ id route, s.router.store.httpRoutes.lookup id = some route ∧
    ∃ rule ∈ route.rules, ∃ b ∈ rule.backends, b.address = address

/-! ## Single steps -/

theorem awaits_update (s : GatewayProxy) (router : Router) (id other : Nat)
    (request : Option GatewayRequest) :
    awaits ⟨router, Function.update s.requests id request⟩ other =
      if other = id then (request.map GatewayRequest.awaiting).getD false
      else s.awaits other := by
  unfold awaits
  dsimp only
  by_cases h : other = id
  · rw [if_pos h, h, Function.update_self]
  · rw [if_neg h, Function.update_of_ne h]

theorem ctxOf_update (s : GatewayProxy) (router : Router) (id other : Nat)
    (request : Option GatewayRequest) :
    ctxOf ⟨router, Function.update s.requests id request⟩ other =
      if other = id then (request.map GatewayRequest.ctx).getD .default
      else s.ctxOf other := by
  unfold ctxOf
  dsimp only
  by_cases h : other = id
  · rw [if_pos h, h, Function.update_self]
  · rw [if_neg h, Function.update_of_ne h]

/-- An unhealthy address becomes healthy only when a connection of a request that
holds it succeeds. -/
theorem isHealthy_of_step {s : GatewayProxy} {e : GatewayStep} {address : Str}
    (henabled : enabled s e) (hbefore : s.isHealthy address = false)
    (hafter : (next lc parse s e).isHealthy address = true) : s.Attempted address := by
  cases e with
  | upstreamPeer id routes hostHeader authority path =>
      have htracker := (upstreamPeer_cases lc parse s.router.loadBalancer routes hostHeader
        authority path (s.ctxOf id)).1
      have hsame : (next lc parse s (.upstreamPeer id routes hostHeader authority path)).isHealthy
          address = s.isHealthy address :=
        congrArg (fun tracker => tracker.isHealthy address) htracker
      rw [hsame, hbefore] at hafter
      cases hafter
  | connectedToUpstream id =>
      change (connectedToUpstream s.router.healthTracker (s.ctxOf id)).isHealthy address =
        true at hafter
      rw [isHealthy_connectedToUpstream] at hafter
      by_cases hctx : (s.ctxOf id).backendAddress = some address
      · exact ⟨id, henabled, hctx⟩
      · rw [if_neg hctx] at hafter
        exact absurd (hbefore.symm.trans hafter) (by decide)
  | failToConnect id =>
      have hstill := isHealthy_failToConnect hbefore (s.ctxOf id)
      exact absurd (hstill.symm.trans hafter) (by decide)
  | finish id => exact absurd (hbefore.symm.trans hafter) (by decide)
  | updateRoutes req => exact absurd (hbefore.symm.trans hafter) (by decide)

/-- A request whose attempt goes to an unhealthy address was at it before. -/
theorem held_of_step {s : GatewayProxy} {e : GatewayStep} {address : Str} {other : Nat}
    (hbefore : s.isHealthy address = false) (hawaits : (next lc parse s e).awaits other = true)
    (hctx : ((next lc parse s e).ctxOf other).backendAddress = some address) :
    s.awaits other = true ∧ (s.ctxOf other).backendAddress = some address := by
  cases e with
  | upstreamPeer id routes hostHeader authority path =>
      have hpeer := (upstreamPeer_cases lc parse s.router.loadBalancer routes hostHeader
        authority path (s.ctxOf id)).2
      simp only [next, awaits_update, ctxOf_update] at hawaits hctx
      by_cases hother : other = id
      · rw [if_pos hother] at hawaits hctx
        rcases hpeer hawaits with ⟨held, hheld, hhealthy⟩
        have hsame : held = address := Option.some.inj (hheld.symm.trans hctx)
        rw [hsame] at hhealthy
        exact absurd (hbefore.symm.trans hhealthy) (by decide)
      · rw [if_neg hother] at hawaits hctx
        exact ⟨hawaits, hctx⟩
  | connectedToUpstream id | failToConnect id =>
      simp only [next, settle, awaits_update, ctxOf_update] at hawaits hctx
      by_cases hother : other = id
      · rw [if_pos hother] at hawaits
        cases hawaits
      · rw [if_neg hother] at hawaits hctx
        exact ⟨hawaits, hctx⟩
  | finish id =>
      simp only [next, awaits_update, ctxOf_update] at hawaits hctx
      by_cases hother : other = id
      · rw [if_pos hother] at hawaits
        cases hawaits
      · rw [if_neg hother] at hawaits hctx
        exact ⟨hawaits, hctx⟩
  | updateRoutes req => exact ⟨hawaits, hctx⟩

/-- No attempt to an unhealthy address begins. -/
theorem attempted_of_step {s : GatewayProxy} {e : GatewayStep} {address : Str}
    (hbefore : s.isHealthy address = false)
    (hafter : (next lc parse s e).Attempted address) : s.Attempted address := by
  rcases hafter with ⟨other, hawaits, hctx⟩
  exact ⟨other, held_of_step lc parse hbefore hawaits hctx⟩

end GatewayProxy

end PingoraProxy
