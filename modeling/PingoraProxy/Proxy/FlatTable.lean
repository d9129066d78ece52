import PingoraProxy.Proxy.Gateway

/-!
# The flat table behind the routes

A route is a bundle of alternatives: any of its host names with any match of any of its
rules.  Taken apart, a configuration is one list of entries, each with at most one host
name, at most one path and the peers it may be served by; a backend of weight n stands
for n peers.  This module gives such a list a meaning of its own and shows that it is
the one the proxy gives to the routes.

So identifiers, header, query and method conditions, timeouts and retries of a route
play no part in which peer a request is sent to.

Main results:

- Theorem {lit}`blockScore_entries`: a rule competes with the best of its entries.
- Theorem {lit}`target_next`: a weighted selection is a rotation among the peers of an
  entry.
- Theorem {lit}`upstreamPeer_eq_flat`: the proxy answers every request as its flat table
  does.
-/

namespace PingoraProxy

open Foundation

/-- What a peer is made from: address and protocol of a backend. -/
structure FlatTarget where
  address : Str
  protocol : Int32
deriving DecidableEq

/-- An entry of a flat table. -/
structure FlatEntry where
  hostname : Option Str
  path : Option PathMatch
  targets : List FlatTarget

namespace FlatTable

variable (lc : Lowercasing) {Addr : Type} (parse : Str → Except Str Addr)

/-! ## The meaning of a flat table -/

/-- The score of a host name; an entry without one serves every host. -/
def hostScore (host : Str) (hostname : Option Str) : Option Nat :=
  hostname.elim (some 0) fun pattern => Router.hostnameScore lc pattern host

/-- The score of a path condition; an entry without one serves every path. -/
def pathScore (path : Str) (pathMatch : Option PathMatch) : Option Nat :=
  pathMatch.elim (some 0) fun pm => Router.pathScore (Router.matchTypeOf pm) pm.value path

/-- The pair of scores an entry competes with, if it qualifies. -/
def score (host path : Str) (entry : FlatEntry) : Option (Nat ×ₗ Nat) :=
  if entry.targets.isEmpty then none
  else
    (hostScore lc host entry.hostname).bind fun hs =>
      (pathScore path entry.path).map fun ps => toLex (hs, ps)

/-- The targets of a list a tracker has as healthy. -/
def healthyTargets (tracker : HealthTracker) (targets : List FlatTarget) : List FlatTarget :=
  targets.filter fun target => tracker.isHealthy target.address

/-- The target the counter points at among the healthy ones, and the counter moved on. -/
def rotate (lb : LoadBalancer) (targets : List FlatTarget) : Option FlatTarget × LoadBalancer :=
  if (healthyTargets lb.healthTracker targets).isEmpty then (none, lb)
  else
    ((healthyTargets lb.healthTracker targets)[
        lb.current.toNat % (healthyTargets lb.healthTracker targets).length]?,
      { lb with current := lb.current + 1 })

/-- The target of a request: the first entry of greatest score, in rotation. -/
def findTarget (lb : LoadBalancer) (entries : List FlatEntry) (host path : Str) :
    Option FlatTarget × LoadBalancer :=
  match FirstBest.firstBest (score lc host path) entries with
  | none => (none, lb)
  | some best => rotate lb best.1.targets

/-- The peer made from a target. -/
def targetToPeer (target : FlatTarget) : Except PeerError (HttpPeer Addr) :=
  match parseBackendAddress parse target.address with
  | .error e => .error (.internalError e)
  | .ok address =>
      .ok ⟨address, requiresTls ((BackendProtocol.tryFrom target.protocol).getD .http),
        extractSni target.address⟩

/-- The answer of a flat table to a request. -/
def askPeer (lb : LoadBalancer) (entries : List FlatEntry) (hostHeader authority : Option Str)
    (path : Str) (ctx : GatewayCtx) :
    Except PeerError (HttpPeer Addr) × GatewayCtx × LoadBalancer :=
  let host := extractHostForRouting hostHeader authority
  let found := findTarget lc lb entries host path
  match found.1 with
  | none =>
      (.error (.httpStatus 404 ("no route for host=".toList ++ host ++ " path=".toList ++ path)),
        ctx, found.2)
  | some target =>
      (targetToPeer parse target, { ctx with backendAddress := some target.address }, found.2)

/-! ## Taking routes apart -/

/-- The host names of a route, one at a time; without any it serves every host. -/
def hostAlternatives (hostnames : List Str) : List (Option Str) :=
  if hostnames.isEmpty then [none] else hostnames.map some

/-- The path conditions of a rule, one at a time; without a match it serves every path. -/
def pathAlternatives (routeMatches : List HttpRouteMatch) : List (Option PathMatch) :=
  if routeMatches.isEmpty then [none] else routeMatches.map HttpRouteMatch.path

/-- The target of a backend. -/
def target (b : Backend) : FlatTarget where
  address := b.address
  protocol := b.protocol

/-- The targets of some backends, each repeated by its weight. -/
def targets (backends : List Backend) : List FlatTarget :=
  backends.flatMap fun b => List.replicate (LoadBalancer.repetitions b) (target b)

/-- The entries a rule of a route stands for. -/
def entries (slot : Router.Slot) : List FlatEntry :=
  (hostAlternatives slot.1.hostnames).flatMap fun hostname =>
    (pathAlternatives slot.2.routeMatches).map fun path =>
      ⟨hostname, path, targets slot.2.backends⟩

/-- The flat table of a listing. -/
def ofRoutes (routes : List HttpRoute) : List FlatEntry :=
  (Router.slots routes).flatMap entries

/-! ## One rule and its entries -/

/-- The best host name of a route decides its score. -/
theorem max?_hostAlternatives (hostnames : List Str) (host : Str) :
    ((hostAlternatives hostnames).filterMap (hostScore lc host)).max? =
      Router.bestHostnameScore lc hostnames host := by
  unfold hostAlternatives Router.bestHostnameScore
  by_cases hempty : hostnames.isEmpty = true
  · rw [if_pos hempty, if_pos hempty]
    rfl
  · rw [if_neg hempty, if_neg hempty, List.filterMap_map]
    rfl

/-- The best match of a rule decides its score. -/
theorem max?_pathAlternatives (routeMatches : List HttpRouteMatch) (path : Str) :
    ((pathAlternatives routeMatches).filterMap (pathScore path)).max? =
      Router.bestPathScore routeMatches path := by
  unfold pathAlternatives Router.bestPathScore
  by_cases hempty : routeMatches.isEmpty = true
  · rw [if_pos hempty, if_pos hempty]
    rfl
  · have hscore : (fun m : HttpRouteMatch => pathScore path m.path) =
        fun m => Router.pathMatchScore m path := by
      funext m
      unfold pathScore Router.pathMatchScore
      cases m.path <;> rfl
    rw [if_neg hempty, if_neg hempty, List.filterMap_map]
    exact congrArg (fun f => (routeMatches.filterMap f).max?) hscore

theorem targets_eq_nil_iff {backends : List Backend} : targets backends = [] ↔ backends = [] := by
  cases backends with
  | nil => simp [targets]
  | cons b backends =>
      have hpos := LoadBalancer.repetitions_pos b
      simp [targets]
      omega

/-- A rule competes with the best of its entries. -/
theorem blockScore_entries (host path : Str) (slot : Router.Slot) :
    FirstBest.blockScore (score lc host path) entries slot =
      Router.slotScore lc host path slot := by
  unfold FirstBest.blockScore Router.slotScore
  rw [FirstBest.map_snd_firstBest]
  by_cases hempty : slot.2.backends.isEmpty = true
  · have hnone : (entries slot).filterMap (score lc host path) = [] := by
      rw [List.filterMap_eq_nil_iff]
      intro entry hentry
      rcases List.mem_flatMap.mp hentry with ⟨hostname, -, hentry⟩
      rcases List.mem_map.mp hentry with ⟨pathMatch, -, rfl⟩
      unfold score
      rw [if_pos (by simpa [targets_eq_nil_iff] using hempty)]
    rw [if_pos hempty, hnone]
    rfl
  · have hproduct : (entries slot).filterMap (score lc host path) =
        (hostAlternatives slot.1.hostnames).flatMap fun hostname =>
          (pathAlternatives slot.2.routeMatches).filterMap fun pathMatch =>
            (hostScore lc host hostname).bind fun hs =>
              (pathScore path pathMatch).map fun ps => toLex (hs, ps) := by
      unfold entries
      rw [List.filterMap_flatMap]
      refine congrArg (List.flatMap · _) (funext fun hostname => ?_)
      rw [List.filterMap_map]
      refine List.filterMap_congr fun pathMatch _ => ?_
      simp only [Function.comp_apply, score]
      rw [if_neg (by simpa [targets_eq_nil_iff] using hempty)]
    rw [if_neg hempty, hproduct, FirstBest.max?_lex_product, max?_hostAlternatives,
      max?_pathAlternatives]
    cases Router.bestHostnameScore lc slot.1.hostnames host with
    | none => rfl
    | some hs =>
        cases Router.bestPathScore slot.2.routeMatches path with
        | none => rfl
        | some ps => rfl

/-- The first entry of greatest score has the targets of the winning rule. -/
theorem firstBest_ofRoutes (routes : List HttpRoute) (host path : Str) :
    (FirstBest.firstBest (score lc host path) (ofRoutes routes)).map
        (fun best => (best.1.targets, best.2)) =
      (Router.winner lc routes host path).map fun best => (targets best.1.2.backends, best.2) := by
  refine FirstBest.firstBest_replace FlatEntry.targets (fun slot => targets slot.2.backends)
    (fun slot _ => blockScore_entries lc host path slot) ?_
  intro slot _ entry hentry
  rcases List.mem_flatMap.mp hentry with ⟨hostname, -, hentry⟩
  rcases List.mem_map.mp hentry with ⟨pathMatch, -, rfl⟩
  rfl

/-! ## One selection and its targets -/

/-- The targets of the healthy backends are the healthy targets. -/
theorem targets_healthyBackends (lb : LoadBalancer) (backends : List Backend) :
    targets (lb.healthyBackends backends) =
      healthyTargets lb.healthTracker (targets backends) := by
  unfold targets healthyTargets LoadBalancer.healthyBackends
  induction backends with
  | nil => rfl
  | cons b backends ih =>
      rw [List.flatMap_cons, List.filter_append, ← ih]
      by_cases hb : lb.healthTracker.isHealthy b.address = true
      · simp [target, hb]
      · simp [target, hb]

/-- Seen as targets, the weighted expansion is the list of the healthy targets. -/
theorem map_expanded (lb : LoadBalancer) (backends : List Backend) :
    (LoadBalancer.expanded lb.healthTracker backends).map (fun i => target (backends.get i)) =
      healthyTargets lb.healthTracker (targets backends) := by
  unfold LoadBalancer.expanded
  rw [RoundRobin.map_expand, ← targets_healthyBackends, ← LoadBalancer.map_get_healthy, targets,
    List.flatMap_map]

/-- A weighted selection is a rotation among the targets. -/
theorem target_next (lb : LoadBalancer) (backends : List Backend) :
    ((lb.next backends).1.map fun i => target (backends.get i), (lb.next backends).2) =
      rotate lb (targets backends) := by
  unfold rotate
  rw [LoadBalancer.next_eq, ← map_expanded]
  by_cases hnil : LoadBalancer.expanded lb.healthTracker backends = []
  · rw [if_pos hnil, hnil]
    rfl
  · have hempty : ((LoadBalancer.expanded lb.healthTracker backends).map fun i =>
        target (backends.get i)).isEmpty = false := by
      simpa [List.isEmpty_iff] using hnil
    rw [if_neg hnil, hempty, List.length_map, List.getElem?_map]
    rfl

/-! ## Requests -/

/-- The backend found for a request, seen as a target, is the target its flat table
finds, and the load balancer moves on alike. -/
theorem findTarget_ofRoutes (lb : LoadBalancer) (routes : List HttpRoute) (host path : Str) :
    findTarget lc lb (ofRoutes routes) host path =
      ((Router.findBackend lc lb routes host path).1.map target,
        (Router.findBackend lc lb routes host path).2) := by
  have hbest := firstBest_ofRoutes lc routes host path
  unfold findTarget
  cases hwinner : Router.winner lc routes host path with
  | none =>
      rw [hwinner, Option.map_none, Option.map_eq_none_iff] at hbest
      rw [hbest, Router.findBackend_eq_none lc hwinner]
      rfl
  | some best =>
      rcases best with ⟨slot, score⟩
      rw [hwinner, Option.map_some, Option.map_eq_some_iff] at hbest
      rcases hbest with ⟨⟨entry, score'⟩, hentry, hsame⟩
      have htargets : entry.targets = targets slot.2.backends := (Prod.mk.inj hsame).1
      rw [hentry, Router.findBackend_eq_of_winner lc hwinner, Option.map_map]
      dsimp only
      rw [htargets, ← target_next]
      rfl

/-- Only address and protocol of a backend matter for its peer. -/
theorem targetToPeer_target (b : Backend) :
    targetToPeer parse (target b) = backendToPeer parse b := by
  unfold targetToPeer backendToPeer target
  rfl

/-- The proxy answers every request as its flat table does: with the same peer or error,
the same context and the same load balancer after it. -/
theorem upstreamPeer_eq_flat (lb : LoadBalancer) (routes : List HttpRoute)
    (hostHeader authority : Option Str) (path : Str) (ctx : GatewayCtx) :
    upstreamPeer lc parse lb routes hostHeader authority path ctx =
      askPeer lc parse lb (ofRoutes routes) hostHeader authority path ctx := by
  unfold askPeer
  dsimp only
  rw [findTarget_ofRoutes]
  cases hfound : (Router.findBackend lc lb routes (extractHostForRouting hostHeader authority)
      path).1 with
  | none => rw [upstreamPeer_of_none lc parse hfound, Option.map_none]
  | some backend =>
      rw [upstreamPeer_of_some lc parse hfound, Option.map_some]
      dsimp only
      rw [targetToPeer_target]
      rfl

end FlatTable

end PingoraProxy
