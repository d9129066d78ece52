import PingoraProxy.Proxy.CounterWindows
import PingoraProxy.Proxy.Gateway

/-!
# Backends whose address cannot be used

The gateway stores the address of a selected backend for health tracking and then turns
it into a peer.  When the address does not parse, the request ends with an internal
error before any connection is tried, and no failure is recorded.  A healthy backend
with such an address is selected again and again.

Main results:

- Theorem {lit}`countP_peerResults`: the failing requests of a run are the selections of
  rejected addresses.
- Theorem {lit}`unusable_backend_stays_in_rotation`: a backend with a host name as address
  fails more requests than the threshold allows.
- Theorem {lit}`retiresUnusable_iff`: unusable backends are taken out of rotation exactly
  when none of them is in rotation.
-/

namespace PingoraProxy

open Foundation

/-- A request that asks for a peer, with the listing of the table it iterates over. -/
structure PeerRequest where
  routes : List HttpRoute
  hostHeader : Option Str
  authority : Option Str
  path : Str

/-- The call for a backend a request makes. -/
def PeerRequest.query (r : PeerRequest) : Router.Query where
  routes := r.routes
  host := extractHostForRouting r.hostHeader r.authority
  path := r.path

namespace GatewayProxy

variable (lc : Lowercasing) {Addr : Type} (parse : Str → Except Str Addr)

/-! ## Runs of requests -/

/-- A new request asks for a peer. -/
def askPeer (lb : LoadBalancer) (r : PeerRequest) :
    Except PeerError (HttpPeer Addr) × GatewayCtx × LoadBalancer :=
  upstreamPeer lc parse lb r.routes r.hostHeader r.authority r.path .default

/-- The results of requests that ask one after the other, without any other event. -/
def peerResults : LoadBalancer → List PeerRequest → List (Except PeerError (HttpPeer Addr))
  | _, [] => []
  | lb, r :: rs => (askPeer lc parse lb r).1 :: peerResults (askPeer lc parse lb r).2.2 rs

/-- The load balancer after these requests. -/
def afterPeers (lb : LoadBalancer) (rs : List PeerRequest) : LoadBalancer :=
  rs.foldl (fun lb r => (askPeer lc parse lb r).2.2) lb

/-- A request ends with an internal error. -/
def isInternalError : Except PeerError (HttpPeer Addr) → Bool
  | .error (.internalError _) => true
  | .error (.httpStatus ..) | .ok _ => false

/-- An address is accepted as a backend address. -/
def usable (address : Str) : Bool :=
  (parseBackendAddress parse address).isOk

/-- A request that iterates over the table of a store is resolved to a rule. -/
def ResolvesTo (store : RouteStore) (slot : Router.Slot) (r : PeerRequest) : Prop :=
  store.httpRoutes.Lists r.routes ∧ Router.resolvedTo lc slot r.query = true

/-- Unusable backends of a rule are taken out of rotation: in every run of requests
resolved to the rule at most as many end with an internal error as the failure threshold
allows for each unusable backend, and then only usable backends are selected. -/
def RetiresUnusable (router : Router) (slot : Router.Slot) : Prop :=
  ∀ rs, (∀ r ∈ rs, ResolvesTo lc router.store slot r) →
    (peerResults lc parse router.loadBalancer rs).countP isInternalError ≤
        router.healthTracker.failureThreshold.toNat *
          slot.2.backends.countP (fun b => !usable parse b.address) ∧
      ((peerResults lc parse router.loadBalancer rs).countP isInternalError =
        router.healthTracker.failureThreshold.toNat *
          slot.2.backends.countP (fun b => !usable parse b.address) →
        ∀ r, ResolvesTo lc router.store slot r → ∀ address,
          (askPeer lc parse (afterPeers lc parse router.loadBalancer rs) r).2.1.backendAddress =
            some address → usable parse address = true)

/-! ## One request -/

/-- A peer is refused with an internal error exactly when the address is rejected. -/
theorem isInternalError_backendToPeer (b : Backend) :
    isInternalError (backendToPeer parse b) = !usable parse b.address := by
  unfold backendToPeer usable
  cases parseBackendAddress parse b.address with
  | error e => rfl
  | ok address => rfl

variable {slot : Router.Slot}

/-- A request resolved to a rule makes one call for a backend of the rule. -/
theorem loadBalancer_askPeer {lb : LoadBalancer} {r : PeerRequest}
    (h : Router.resolvedTo lc slot r.query = true) :
    (askPeer lc parse lb r).2.2 = (lb.next slot.2.backends).2 := by
  have hfound := Router.findBackend_of_resolved lc lb h
  unfold askPeer
  rw [loadBalancer_upstreamPeer]
  exact congrArg Prod.snd hfound

/-- When the rule has no healthy backend, the request ends with a status, and no address
is kept. -/
theorem askPeer_of_none {lb : LoadBalancer} {r : PeerRequest}
    (h : Router.resolvedTo lc slot r.query = true)
    (hnext : (lb.next slot.2.backends).1 = none) :
    isInternalError (askPeer lc parse lb r).1 = false ∧
      (askPeer lc parse lb r).2.1.backendAddress = none := by
  have hnone : (Router.findBackend lc lb r.routes
      (extractHostForRouting r.hostHeader r.authority) r.path).1 = none := by
    have hfound := congrArg Prod.fst (Router.findBackend_of_resolved lc lb h)
    rw [hnext] at hfound
    exact hfound
  unfold askPeer
  rw [upstreamPeer_of_none lc parse hnone]
  exact ⟨rfl, rfl⟩

/-- Otherwise it gets the peer of the backend that is next, whose address is kept whether
or not it is usable. -/
theorem askPeer_of_some {lb : LoadBalancer} {r : PeerRequest} {i : Fin slot.2.backends.length}
    (h : Router.resolvedTo lc slot r.query = true)
    (hnext : (lb.next slot.2.backends).1 = some i) :
    (askPeer lc parse lb r).1 = backendToPeer parse (slot.2.backends.get i) ∧
      (askPeer lc parse lb r).2.1.backendAddress = some (slot.2.backends.get i).address := by
  have hsome : (Router.findBackend lc lb r.routes
      (extractHostForRouting r.hostHeader r.authority) r.path).1 =
      some (slot.2.backends.get i) := by
    have hfound := congrArg Prod.fst (Router.findBackend_of_resolved lc lb h)
    rw [hnext] at hfound
    exact hfound
  unfold askPeer
  rw [upstreamPeer_of_some lc parse hsome]
  exact ⟨rfl, rfl⟩

/-- A selection is one of a backend whose address is rejected. -/
def selectsRejected (backends : List Backend) (selected : Option (Fin backends.length)) : Bool :=
  (selected.map fun i => !usable parse (backends.get i).address).getD false

/-- A request resolved to a rule fails exactly when a rejected address is selected. -/
theorem isInternalError_askPeer {lb : LoadBalancer} {r : PeerRequest}
    (h : Router.resolvedTo lc slot r.query = true) :
    isInternalError (askPeer lc parse lb r).1 =
      selectsRejected parse slot.2.backends (lb.next slot.2.backends).1 := by
  cases hnext : (lb.next slot.2.backends).1 with
  | none =>
      rw [(askPeer_of_none lc parse h hnext).1]
      rfl
  | some i =>
      rw [(askPeer_of_some lc parse h hnext).1, isInternalError_backendToPeer]
      rfl

/-! ## Runs of requests for one rule -/

/-- The failing requests of a run for one rule are the selections of rejected
addresses. -/
theorem countP_peerResults {lb : LoadBalancer} {rs : List PeerRequest}
    (h : ∀ r ∈ rs, Router.resolvedTo lc slot r.query = true) :
    (peerResults lc parse lb rs).countP isInternalError =
      (LoadBalancer.nextCalls slot.2.backends lb rs.length).countP
        (selectsRejected parse slot.2.backends) := by
  induction rs generalizing lb with
  | nil => rfl
  | cons r rs ih =>
      have hr := h r (by simp)
      have hrs : ∀ r' ∈ rs, Router.resolvedTo lc slot r'.query = true :=
        fun r' hr' => h r' (by simp [hr'])
      rw [peerResults, List.length_cons, LoadBalancer.nextCalls, List.countP_cons,
        List.countP_cons, isInternalError_askPeer lc parse hr,
        loadBalancer_askPeer lc parse hr, ih hrs]

/-- Requests for one rule leave the tracker: no failure is recorded. -/
theorem healthTracker_afterPeers {lb : LoadBalancer} {rs : List PeerRequest} :
    (afterPeers lc parse lb rs).healthTracker = lb.healthTracker := by
  unfold afterPeers
  induction rs generalizing lb with
  | nil => rfl
  | cons r rs ih =>
      rw [List.foldl_cons, ih]
      exact (upstreamPeer_cases lc parse lb r.routes r.hostHeader r.authority r.path .default).1

/-- When every healthy backend of a rule is usable, no request fails. -/
theorem countP_peerResults_eq_zero {lb : LoadBalancer} {rs : List PeerRequest}
    (hresolved : ∀ r ∈ rs, Router.resolvedTo lc slot r.query = true)
    (husable : ∀ b ∈ slot.2.backends, lb.healthTracker.isHealthy b.address = true →
      usable parse b.address = true) :
    (peerResults lc parse lb rs).countP isInternalError = 0 := by
  rw [countP_peerResults lc parse hresolved, List.countP_eq_zero]
  intro selected hmem
  cases selected with
  | none => exact Bool.false_ne_true
  | some i =>
      have hhealthy := LoadBalancer.isHealthy_of_mem_nextCalls hmem
      have husable' := husable _ (List.get_mem _ i) hhealthy
      unfold selectsRejected
      rw [Option.map_some, Option.getD_some, husable']
      decide

/-- A healthy backend that is not usable fails any number of requests. -/
theorem exists_peerResults_ge {router : Router} {r : PeerRequest} {b : Backend}
    (hresolves : ResolvesTo lc router.store slot r) (hb : b ∈ slot.2.backends)
    (hhealthy : router.healthTracker.isHealthy b.address = true)
    (hunusable : usable parse b.address = false)
    (hweight : Router.totalWeight router.healthTracker slot.2.backends < 2 ^ 63) (k : Nat) :
    ∃ rs, (∀ r ∈ rs, ResolvesTo lc router.store slot r) ∧
      k ≤ (peerResults lc parse router.loadBalancer rs).countP isInternalError := by
  rcases List.get_of_mem hb with ⟨i, rfl⟩
  rcases LoadBalancer.exists_count_nextCalls_ge hhealthy hweight k with ⟨n, hn⟩
  have hall : ∀ r' ∈ List.replicate n r, ResolvesTo lc router.store slot r' := by
    intro r' hr'
    rw [List.eq_of_mem_replicate hr']
    exact hresolves
  refine ⟨List.replicate n r, hall, ?_⟩
  rw [countP_peerResults lc parse fun r' hr' => (hall r' hr').2, List.length_replicate]
  refine hn.trans ?_
  rw [List.count_eq_countP]
  apply List.countP_mono_left
  intro selected _ heq
  unfold selectsRejected
  rw [beq_iff_eq.mp heq, Option.map_some, Option.getD_some, hunusable]
  rfl

/-! ## Unusable backends and rotation -/

/-- A stand-in for parsing a socket address: an address made of digits, dots and colons
is accepted and a host name is not. -/
def parseNumeric (address : Str) : Except Str Str :=
  if address.all fun c => c.isDigit || c == '.' || c == ':' then .ok address
  else .error "invalid socket address syntax".toList

/-- A new router over a table of a route with one backend, with failure threshold three. -/
def oneBackendRouter (address : String) : Router :=
  .new (RouteStore.new.updateRoutes [oneBackendRoute address] [] 1).2 (.new 3)

/-- A request for this table. -/
def oneBackendRequest (address : String) : PeerRequest where
  routes := [oneBackendRoute address]
  hostHeader := some "example.com".toList
  authority := none
  path := ['/']

/-- A backend with a host name as address is selected by four requests in a row, which all
fail although the threshold is three: it stays in rotation. -/
theorem unusable_backend_stays_in_rotation :
    ¬RetiresUnusable .ascii parseNumeric (oneBackendRouter "backend.svc:8080")
      (oneBackendRoute "backend.svc:8080", oneBackendRule "backend.svc:8080") := by
  intro h
  have hresolves : ∀ r ∈ List.replicate 4 (oneBackendRequest "backend.svc:8080"),
      ResolvesTo .ascii (oneBackendRouter "backend.svc:8080").store
        (oneBackendRoute "backend.svc:8080", oneBackendRule "backend.svc:8080") r := by
    intro r hr
    rw [List.eq_of_mem_replicate hr]
    exact ⟨rfl, by decide⟩
  have hfour := (h _ hresolves).1
  revert hfour
  decide

/-- Unusable backends of a rule are taken out of rotation exactly when none of them is in
rotation: when every healthy backend of the rule is usable, or no request is resolved to
the rule. -/
theorem retiresUnusable_iff (router : Router) (slot : Router.Slot)
    (hweight : Router.totalWeight router.healthTracker slot.2.backends < 2 ^ 63) :
    RetiresUnusable lc parse router slot ↔
      ((∃ r, ResolvesTo lc router.store slot r) →
        ∀ b ∈ slot.2.backends, router.healthTracker.isHealthy b.address = true →
          usable parse b.address = true) := by
  constructor
  · rintro h ⟨r, hr⟩ b hb hhealthy
    by_contra hunusable
    rcases exists_peerResults_ge lc parse hr hb hhealthy (Bool.not_eq_true _ ▸ hunusable) hweight
      (router.healthTracker.failureThreshold.toNat *
        slot.2.backends.countP (fun b => !usable parse b.address) + 1) with ⟨rs, hrs, hcount⟩
    have hbound := (h rs hrs).1
    omega
  · intro h rs hrs
    refine ⟨?_, ?_⟩
    · cases rs with
      | nil => exact Nat.zero_le _
      | cons r rs =>
          have husable := h ⟨r, hrs r (by simp)⟩
          rw [countP_peerResults_eq_zero lc parse (fun r' hr' => (hrs r' hr').2) husable]
          exact Nat.zero_le _
    · intro _ r hr address haddress
      cases hnext : ((afterPeers lc parse router.loadBalancer rs).next slot.2.backends).1 with
      | none =>
          rw [(askPeer_of_none lc parse hr.2 hnext).2] at haddress
          cases haddress
      | some i =>
          have hhealthy := LoadBalancer.isHealthy_of_next hnext
          rw [healthTracker_afterPeers] at hhealthy
          rw [(askPeer_of_some lc parse hr.2 hnext).2, Option.some.injEq] at haddress
          exact haddress ▸ h ⟨r, hr⟩ _ (List.get_mem _ i) hhealthy

/-- A rule whose only backend is usable has nothing to retire. -/
theorem retiresUnusable_of_usable_backend :
    RetiresUnusable .ascii parseNumeric (oneBackendRouter "10.0.0.1:80")
      (oneBackendRoute "10.0.0.1:80", oneBackendRule "10.0.0.1:80") :=
  (retiresUnusable_iff .ascii parseNumeric (oneBackendRouter "10.0.0.1:80")
    (oneBackendRoute "10.0.0.1:80", oneBackendRule "10.0.0.1:80") (by decide)).mpr
      fun _ => by decide

end GatewayProxy

end PingoraProxy
