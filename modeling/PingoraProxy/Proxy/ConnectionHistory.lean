import PingoraProxy.Proxy.HealthHistory
import PingoraProxy.Proxy.Recovery

/-!
# The gateway and the history of connections

The hooks of a request call the tracker under the address its context holds.  While each
hook runs as one step, the tracker is at any time the replay of the connection outcomes,
whatever requests and route updates came between them, and the answers of the gateway
depend on the outcomes since the last success of an address only.  What is left of this
when hooks overlap is in {lit}`OverlappingOutcomes`.

Main results:

- Theorem {lit}`healthTracker_of_path`: the tracker is the replay of the outcomes.
- Theorem {lit}`isHealthy_of_path`: an address is unhealthy exactly when threshold
  attempts to it have failed since the last one that connected.
- Theorem {lit}`upstreamPeer_not_found_iff`: which requests end without a backend.
-/

namespace PingoraProxy

open Foundation

namespace GatewayProxy

variable (lc : Lowercasing) {Addr : Type} (parse : Str → Except Str Addr)

/-! ## Outcomes -/

/-- The call to the tracker that a step makes, if it makes one. -/
def outcome (s : GatewayProxy) : GatewayStep → Option HealthOp
  | .connectedToUpstream id =>
      (s.ctxOf id).backendAddress.map fun address => ⟨address, .recordSuccess⟩
  | .failToConnect id =>
      (s.ctxOf id).backendAddress.map fun address => ⟨address, .recordFailure⟩
  | .upstreamPeer .. | .finish _ | .updateRoutes _ => none

/-- The connection outcomes of a run, in order. -/
def outcomes (failureThreshold : UInt32) (s : GatewayProxy) (es : List GatewayStep) :
    List HealthOp :=
  (system lc parse failureThreshold).emitted outcome s es

/-- A step calls the tracker for its outcome and not otherwise. -/
theorem healthTracker_next (s : GatewayProxy) (e : GatewayStep) :
    (next lc parse s e).router.healthTracker =
      (outcome s e).toList.foldl HealthOp.apply s.router.healthTracker := by
  cases e with
  | upstreamPeer id routes hostHeader authority path =>
      exact (upstreamPeer_cases lc parse s.router.loadBalancer routes hostHeader authority path
        (s.ctxOf id)).1
  | connectedToUpstream id =>
      change connectedToUpstream s.router.healthTracker (s.ctxOf id) = _
      simp only [connectedToUpstream, outcome]
      cases (s.ctxOf id).backendAddress with
      | none => rfl
      | some address => rfl
  | failToConnect id =>
      change failToConnect s.router.healthTracker (s.ctxOf id) = _
      simp only [failToConnect, outcome]
      cases (s.ctxOf id).backendAddress with
      | none => rfl
      | some address => rfl
  | finish id => rfl
  | updateRoutes req => rfl

variable {failureThreshold : UInt32} {t : GatewayProxy} {es : List GatewayStep}

/-- The tracker is the replay of the connection outcomes. -/
theorem healthTracker_of_path
    (h : (system lc parse failureThreshold).Path (new failureThreshold) es t) :
    t.router.healthTracker =
      HealthTracker.run failureThreshold
        (outcomes lc parse failureThreshold (new failureThreshold) es) :=
  h.component_eq (fun s => s.router.healthTracker) HealthOp.apply outcome fun s e _ =>
    healthTracker_next lc parse s e

/-- An address is unhealthy exactly when threshold attempts to it have failed since the
last one that connected. -/
theorem isHealthy_of_path (hpos : 0 < failureThreshold)
    (h : (system lc parse failureThreshold).Path (new failureThreshold) es t) (address : Str) :
    t.isHealthy address = false ↔
      failureThreshold.toNat ≤ HealthTracker.failuresSince address
        (outcomes lc parse failureThreshold (new failureThreshold) es) := by
  unfold isHealthy
  rw [healthTracker_of_path lc parse h]
  exact HealthTracker.isHealthy_run hpos _ address

/-! ## Requests without a backend -/

/-- A backend whose address is rejected ends the request with another error. -/
theorem backendToPeer_ne_httpStatus (backend : Backend) (code : Nat) (context : Str) :
    backendToPeer parse backend ≠ .error (.httpStatus code context) := by
  unfold backendToPeer
  cases parseBackendAddress parse backend.address with
  | error e => simp
  | ok address => simp

/-- In every state the gateway reaches by whole hooks a request ends with a 404 exactly
when no rule qualifies for it, or every backend of the rule that serves it has failed
threshold times since it last connected. -/
theorem upstreamPeer_not_found_iff (hpos : 0 < failureThreshold)
    (h : (system lc parse failureThreshold).Path (new failureThreshold) es t)
    (routes : List HttpRoute) (hostHeader authority : Option Str) (path : Str)
    (ctx : GatewayCtx) :
    (∃ context, (upstreamPeer lc parse t.router.loadBalancer routes hostHeader authority path
        ctx).1 = .error (.httpStatus 404 context)) ↔
      ∀ slot score, Router.winner lc routes (extractHostForRouting hostHeader authority) path =
          some (slot, score) →
        ∀ b ∈ slot.2.backends, failureThreshold.toNat ≤ HealthTracker.failuresSince b.address
          (outcomes lc parse failureThreshold (new failureThreshold) es) := by
  have hstatus := isHealthy_of_path lc parse hpos h
  have hnone : (∃ context, (upstreamPeer lc parse t.router.loadBalancer routes hostHeader
      authority path ctx).1 = .error (.httpStatus 404 context)) ↔
      (Router.findBackend lc t.router.loadBalancer routes
        (extractHostForRouting hostHeader authority) path).1 = none := by
    cases hfound : (Router.findBackend lc t.router.loadBalancer routes
        (extractHostForRouting hostHeader authority) path).1 with
    | none =>
        rw [upstreamPeer_of_none lc parse hfound]
        exact iff_of_true ⟨_, rfl⟩ rfl
    | some backend =>
        rw [upstreamPeer_of_some lc parse hfound]
        refine iff_of_false ?_ (by simp)
        rintro ⟨context, hcontext⟩
        exact backendToPeer_ne_httpStatus parse backend 404 context hcontext
  rw [hnone]
  cases hwinner : Router.winner lc routes (extractHostForRouting hostHeader authority) path with
  | none =>
      rw [Router.findBackend_eq_none lc hwinner]
      simp
  | some best =>
      rcases best with ⟨slot, score⟩
      rw [Router.findBackend_eq_of_winner lc hwinner, Option.map_eq_none_iff,
        LoadBalancer.next_eq_none_iff]
      constructor
      · rintro hall other score' hother b hb
        cases hother
        exact (hstatus b.address).mp (hall b hb)
      · intro hall b hb
        exact (hstatus b.address).mpr (hall slot score rfl b hb)

/-- After three failures the only backend is not found any more. -/
theorem upstreamPeer_not_found_after_three_failures :
    (0 : UInt32) < 3 ∧ (system .ascii (fun _ => .ok ()) 3).Path (new 3) threeFailures
        (threeFailures.foldl (next .ascii fun _ => .ok ()) (new 3)) ∧
      ∃ context, (upstreamPeer .ascii (fun _ => .ok ())
        (threeFailures.foldl (next .ascii fun _ => .ok ()) (new 3)).router.loadBalancer
        singleBackendUpdate.httpRoutes (some "example.com".toList) none ['/']
        .default).1 = .error (.httpStatus 404 context) := by
  have hpath : (system .ascii (fun _ => .ok ()) 3).Path (new 3) threeFailures _ :=
    TransitionSystem.Path.of_allEnabled (by decide)
  refine ⟨by decide, hpath,
    (upstreamPeer_not_found_iff .ascii _ (by decide) hpath _ _ _ _ _).mpr ?_⟩
  intro slot score hwinner b hb
  have hslot : Router.winner .ascii singleBackendUpdate.httpRoutes
      (extractHostForRouting (some "example.com".toList) none) ['/'] =
      some ((makeRoute "r" [] [makeRule [] [makeBackend "10.0.0.1:80" 1]],
        makeRule [] [makeBackend "10.0.0.1:80" 1]), toLex (0, 0)) := by decide
  cases hslot.symm.trans hwinner
  cases List.mem_singleton.mp hb
  decide

end GatewayProxy

end PingoraProxy
