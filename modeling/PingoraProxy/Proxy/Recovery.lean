import PingoraProxy.Proxy.Gateway

/-!
# Recovery of unhealthy backends

A success is recorded only for a backend that a request has been sent to, and an
unhealthy backend is never selected.  So once an address is unhealthy and no attempt
to it is still under way, no step of the gateway makes it healthy again.

Main results:

- Theorem {lit}`path_keeps_abandoned`: an abandoned address stays so on every run.
- Theorem {lit}`unrecoverable_after_three_failures`: three failed attempts, one after
  the other, take a backend out of service for good.
- Theorem {lit}`recoverable_iff_attempted`: an unhealthy address can recover exactly
  when some attempt to it is still under way.
-/

namespace PingoraProxy

open Foundation

namespace GatewayProxy

variable (lc : Lowercasing) {Addr : Type} (parse : Str → Except Str Addr)

/-- Some run of the gateway makes the address healthy. -/
def Recoverable (failureThreshold : UInt32) (s : GatewayProxy) (address : Str) : Prop :=
  ∃ t, (system lc parse failureThreshold).Reaches s t ∧ t.isHealthy address = true

/-- An address is unhealthy and no attempt to it is under way. -/
def Abandoned (address : Str) (s : GatewayProxy) : Prop :=
  s.isHealthy address = false ∧ ¬s.Attempted address

/-- No step ends the abandonment of an address. -/
theorem abandoned_step {s : GatewayProxy} {e : GatewayStep} {address : Str}
    (h : Abandoned address s) (henabled : enabled s e) :
    Abandoned address (next lc parse s e) := by
  constructor
  · cases hafter : (next lc parse s e).isHealthy address with
    | false => rfl
    | true => exact absurd (isHealthy_of_step lc parse henabled h.1 hafter) h.2
  · intro hafter
    exact h.2 (attempted_of_step lc parse h.1 hafter)

/-- An abandoned address stays so on every run. -/
theorem path_keeps_abandoned {failureThreshold : UInt32} {s t : GatewayProxy}
    {es : List GatewayStep} {address : Str}
    (hpath : (system lc parse failureThreshold).Path s es t) (h : Abandoned address s) :
    Abandoned address t := by
  apply hpath.preserves (P := Abandoned address) ?_ h
  intro u e hu henabled
  exact abandoned_step lc parse hu henabled

/-- An attempt under way may still succeed. -/
theorem recoverable_of_attempted {failureThreshold : UInt32} {s : GatewayProxy} {address : Str}
    (h : s.Attempted address) : Recoverable lc parse failureThreshold s address := by
  rcases h with ⟨id, hawaits, hctx⟩
  have hstep : (system lc parse failureThreshold).enabled s (.connectedToUpstream id) := hawaits
  refine ⟨_, TransitionSystem.reaches_step hstep, ?_⟩
  change (connectedToUpstream s.router.healthTracker (s.ctxOf id)).isHealthy address = true
  rw [isHealthy_connectedToUpstream, if_pos hctx]

/-- A table with a single backend. -/
def singleBackendUpdate : UpdateRoutesRequest where
  httpRoutes := [oneBackendRoute "10.0.0.1:80"]
  grpcRoutes := []
  version := 1

/-- A request whose only attempt fails to connect. -/
def failingRequest (id : Nat) : List GatewayStep :=
  [.upstreamPeer id singleBackendUpdate.httpRoutes (some "example.com".toList) none ['/'],
    .failToConnect id, .finish id]

/-- A request that has failed is no longer in flight. -/
theorem requests_failingRequest (s : GatewayProxy) (id other : Nat) :
    ((failingRequest id).foldl (next lc parse) s).requests other =
      if other = id then none else s.requests other := by
  by_cases h : other = id
  · subst h
    simp [failingRequest, next]
  · simp [failingRequest, next, settle, h]

/-- The table is installed and three requests fail, one after the other. -/
def threeFailures : List GatewayStep :=
  [.updateRoutes singleBackendUpdate] ++ failingRequest 0 ++ failingRequest 1 ++ failingRequest 2

/-- Three failed attempts, one after the other, take the backend out of service for
good: the state is reachable, the address is in its table and unhealthy, and no run
from there makes it healthy. -/
theorem unrecoverable_after_three_failures :
    ∃ s, (system .ascii (fun _ => .ok ()) 3).Reachable s ∧
      s.InTable "10.0.0.1:80".toList ∧ s.isHealthy "10.0.0.1:80".toList = false ∧
      ¬Recoverable .ascii (fun _ => .ok ()) 3 s "10.0.0.1:80".toList := by
  have hpath : (system .ascii (fun _ => .ok ()) 3).Path (new 3) threeFailures _ :=
    TransitionSystem.Path.of_allEnabled (by decide)
  refine ⟨_, ⟨_, hpath⟩, ?_, rfl, ?_⟩
  · exact ⟨['r'], _, rfl, _, List.mem_singleton_self _, _, List.mem_singleton_self _, rfl⟩
  · have hnone : ∀ id, (threeFailures.foldl (next .ascii fun _ => .ok ()) (new 3)).awaits id =
        false := by
      intro id
      have hrequests : (threeFailures.foldl (next .ascii fun _ => .ok ()) (new 3)).requests id =
          none := by
        simp only [threeFailures, List.foldl_append, requests_failingRequest]
        split_ifs <;> rfl
      unfold awaits
      rw [hrequests]
      rfl
    rintro ⟨t, ⟨es, ht⟩, hhealthy⟩
    have habandoned : Abandoned "10.0.0.1:80".toList t := by
      refine path_keeps_abandoned .ascii _ ht ⟨rfl, ?_⟩
      rintro ⟨id, hawaits, -⟩
      exact absurd ((hnone id).symm.trans hawaits) (by decide)
    exact absurd (habandoned.1.symm.trans hhealthy) (by decide)

/-- An unhealthy address can recover exactly when some attempt to it, begun while it
was healthy, is still under way. -/
theorem recoverable_iff_attempted (failureThreshold : UInt32) (s : GatewayProxy) (address : Str)
    (h : s.isHealthy address = false) :
    Recoverable lc parse failureThreshold s address ↔ s.Attempted address := by
  constructor
  · rintro ⟨t, ⟨es, hpath⟩, hhealthy⟩
    by_contra hnone
    have habandoned := path_keeps_abandoned lc parse hpath ⟨h, hnone⟩
    exact absurd (habandoned.1.symm.trans hhealthy) (by decide)
  · exact recoverable_of_attempted lc parse

/-- Four attempts are under way at once and three of them fail. -/
def threeOfFourFail : List GatewayStep :=
  [.updateRoutes singleBackendUpdate] ++
    ([0, 1, 2, 3].map fun id => .upstreamPeer id singleBackendUpdate.httpRoutes
      (some "example.com".toList) none ['/']) ++
    [0, 1, 2].map .failToConnect

/-- The fourth of the attempts is still under way and may restore the backend. -/
theorem recoverable_during_fourth_attempt :
    (threeOfFourFail.foldl (next .ascii fun _ => .ok ()) (new 3)).isHealthy
        "10.0.0.1:80".toList = false ∧
      Recoverable .ascii (fun _ => .ok ()) 3
        (threeOfFourFail.foldl (next .ascii fun _ => .ok ()) (new 3)) "10.0.0.1:80".toList :=
  ⟨by decide, (recoverable_iff_attempted .ascii (fun _ => .ok ()) 3 _ _ (by decide)).mpr
    ⟨3, by decide, by decide⟩⟩

end GatewayProxy

end PingoraProxy
