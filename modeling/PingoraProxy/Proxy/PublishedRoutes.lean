import PingoraProxy.Grpc.Publication
import PingoraProxy.Proxy.SearchAnswers

/-!
# Calls for a backend and published versions

A controller learns from a reported version that its routes are in place.  A call for a
backend that begins afterwards never returns a backend of an older configuration, although
it reads the table in parts and the next full sync may rewrite it meanwhile.

Main results:

- Theorem {lit}`findBackend_never_withdrawn`: a call never returns an address that was
  withdrawn before it began.
- Theorem {lit}`findBackend_after_published_version`: after a version has been reported, a
  call returns backends only of that configuration or later ones.
-/

namespace PingoraProxy

open Foundation

namespace RouterCalls

open RouteStore

variable {lc : Lowercasing} {shardOf : Str → Nat} {shards : Nat}

/-- A returned backend belongs to a route that was in the table at some moment of the
call. -/
theorem exists_held_of_returned {router : Router} {s t : RouterCalls} {id : Nat}
    {host path : Str} {es : List RouterStep} {b : Backend}
    (h : (system lc shardOf shards router).Path s (.findBackend id host path :: es) t)
    (hreturned : t.searches id = some ⟨host, path, .returned (some b)⟩) :
    ∃ u ∈ moments lc shardOf shards router s (.findBackend id host path :: es),
      ∃ route, u.Holds route ∧ ∃ rule ∈ route.rules, b ∈ rule.backends := by
  rcases exists_collected_of_returned h hreturned with
    ⟨routes, hcollected, slot, score, hwinner, hb, -⟩
  have hslot := (FirstBest.isFirstBest_of_firstBest hwinner).mem.1
  rcases Router.mem_slots.mp hslot with ⟨hroute, hrule⟩
  rcases hcollected.held slot.1 hroute with ⟨u, hu, hholds⟩
  exact ⟨u, hu, slot.1, hholds, slot.2, hrule, hb⟩

/-- What holds of all states of a path holds of the moments in which its steps are taken. -/
theorem forall_moments {router : Router} {s : RouterCalls} {es : List RouterStep}
    {P : RouterCalls → Prop} (h : (system lc shardOf shards router).Along P s es) :
    ∀ u ∈ moments lc shardOf shards router s es, P u := by
  induction es generalizing s with
  | nil =>
      intro u hu
      cases hu
  | cons e es ih =>
      intro u hu
      rcases List.mem_cons.mp hu with rfl | hu
      · exact h.1
      · exact ih h.2 u hu

/-- A call returns backends only of routes from a set to which every route of the table
belonged when the call began, and every route inserted during it belongs. -/
theorem returned_from_configured {router : Router} {s t : RouterCalls} {id : Nat}
    {host path : Str} {es : List RouterStep} {b : Backend} (configured : Set HttpRoute)
    (h : (system lc shardOf shards router).Path s (.findBackend id host path :: es) t)
    (hreturned : t.searches id = some ⟨host, path, .returned (some b)⟩)
    (htable : ∀ route, s.Holds route → route ∈ configured)
    (hinserted : ∀ route, .insertRoute route ∈ es → route ∈ configured) :
    ∃ route ∈ configured, ∃ rule ∈ route.rules, b ∈ rule.backends := by
  have hstep : ∀ u, ∀ e ∈ RouterStep.findBackend id host path :: es,
      (∀ route, u.Holds route → route ∈ configured) → enabled shardOf shards u e →
        ∀ route, (next lc u e).Holds route → route ∈ configured := by
    intro u e he hu _ route hroute
    rcases holds_of_step hroute with hbefore | rfl
    · exact hu route hbefore
    · exact hinserted route (by simpa using he)
  have halong := h.along hstep htable
  rcases exists_held_of_returned h hreturned with ⟨u, hu, route, hholds, hrule⟩
  exact ⟨route, forall_moments halong u hu route hholds, hrule⟩

/-- An address that no route of the table has when a call begins, and no route inserted
during the call, is not returned by it, whatever else runs. -/
theorem findBackend_never_withdrawn {router : Router} {s t : RouterCalls} {id : Nat}
    {host path : Str} {es : List RouterStep} {result : Option Backend} {address : Str}
    (h : (system lc shardOf shards router).Path s (.findBackend id host path :: es) t)
    (hreturned : t.searches id = some ⟨host, path, .returned result⟩)
    (htable : ∀ route, s.Holds route → ∀ rule ∈ route.rules, ∀ b ∈ rule.backends,
      b.address ≠ address)
    (hinserted : ∀ route, .insertRoute route ∈ es → ∀ rule ∈ route.rules, ∀ b ∈ rule.backends,
      b.address ≠ address) :
    result.map Backend.address ≠ some address := by
  intro haddress
  rcases Option.map_eq_some_iff.mp haddress with ⟨b, rfl, hb⟩
  have hfrom := returned_from_configured
    {route | ∀ rule ∈ route.rules, ∀ b ∈ rule.backends, b.address ≠ address}
    h hreturned htable hinserted
  rcases hfrom with ⟨route, hroute, rule, hrule, hmem⟩
  exact hroute rule hrule b hmem hb

/-- A configuration that replaces the only route by one for another host. -/
def otherHostUpdate : UpdateRoutesRequest where
  httpRoutes := [otherHostRoute]
  grpcRoutes := []
  version := 2

/-- A call that lists the route of one configuration just before the next one is written. -/
def calledDuringUpdate : List RouterStep :=
  [.readShard 0 GatewayProxy.singleBackendUpdate.httpRoutes, .removeRoute ['r'],
    .insertRoute otherHostRoute, .bestMatch 0, .isHealthy 0, .fetchAdd 0]

/-- The call is a run that returns the backend of the first configuration. -/
theorem path_calledDuringUpdate :
    ∃ t, (system .ascii (fun _ => 0) 1 singleBackendRouter).Path
        ⟨singleBackendRouter, fun _ => none⟩
        (.findBackend 0 "example.com".toList ['/'] :: calledDuringUpdate) t ∧
      t.searches 0 = some ⟨"example.com".toList, ['/'],
        .returned (some (makeBackend "10.0.0.1:80" 1))⟩ :=
  ⟨_, TransitionSystem.Path.of_allEnabled ⟨rfl, ⟨_, _, _, _, rfl, by decide, rfl⟩, trivial,
    trivial, ⟨_, _, _, rfl⟩, ⟨_, _, _, _, _, rfl, by decide⟩, ⟨_, _, _, _, _, rfl, by decide⟩,
    trivial⟩, rfl⟩

/-- Only the route for another host is inserted during the call. -/
theorem eq_of_insertRoute_mem {route : HttpRoute}
    (h : RouterStep.insertRoute route ∈ calledDuringUpdate) : route = otherHostRoute := by
  simpa [calledDuringUpdate] using h

/-- When the call begins the table holds only the route of the first configuration. -/
theorem mem_of_holds_singleBackendRouter {route : HttpRoute}
    (h : Holds ⟨singleBackendRouter, fun _ => none⟩ route) :
    route ∈ GatewayProxy.singleBackendUpdate.httpRoutes := by
  rcases h with ⟨key, hkey⟩
  exact (ConcurrentMap.lookup_tableOf_eq_some HttpRoute.id hkey).1

/-- An address of neither configuration is not returned. -/
theorem findBackend_never_withdrawn_update :
    (some (makeBackend "10.0.0.1:80" 1)).map Backend.address ≠ some "10.0.0.3:80".toList := by
  rcases path_calledDuringUpdate with ⟨t, hpath, hreturned⟩
  refine findBackend_never_withdrawn hpath hreturned ?_ ?_
  · intro route hroute
    rw [List.mem_singleton.mp (mem_of_holds_singleBackendRouter hroute)]
    decide
  · intro route hroute
    rw [eq_of_insertRoute_mem hroute]
    decide

/-! ## After a version has been reported -/

/-- What is written after some requests are complete is submitted by later ones. -/
theorem submitted_of_mem_drop {reqs : List UpdateRoutesRequest} {p i n : Nat}
    (h : Progress reqs p i n) {route : HttpRoute}
    (hmem : StoreStep.insertHttp route ∈ (syncSteps reqs).drop p) :
    ∃ j later, i ≤ j ∧ reqs[j]? = some later ∧ route ∈ later.httpRoutes := by
  have hsplit : syncSteps reqs = syncSteps (reqs.take i) ++ syncSteps (reqs.drop i) := by
    unfold syncSteps
    rw [← List.flatMap_append, List.take_append_drop]
  rw [h.1, hsplit, List.drop_append, List.mem_append] at hmem
  have hlater : StoreStep.insertHttp route ∈ syncSteps (reqs.drop i) := by
    rcases hmem with hbefore | hlater
    · rw [List.drop_eq_nil_of_le (Nat.le_add_right _ _)] at hbefore
      cases hbefore
    · exact List.mem_of_mem_drop hlater
  rcases List.mem_flatMap.mp hlater with ⟨later, hlater, hwrite⟩
  rcases List.mem_iff_getElem?.mp hlater with ⟨m, hm⟩
  rw [List.getElem?_drop] at hm
  refine ⟨i + m, later, Nat.le_add_right i m, hm, ?_⟩
  simpa [updateSteps] using hwrite

/-- After a version has been reported, a call that begins then or later returns backends
only of the configuration with that version or of later ones: when it begins the table
holds only routes of the store at that point of the full syncs, and later writes of them
are all that is inserted during it. -/
theorem findBackend_after_published_version {router : Router} {s t : RouterCalls} {id : Nat}
    {host path : Str} {es : List RouterStep} {b : Backend} (reqs : List UpdateRoutesRequest)
    (hdistinct : (reqs.map UpdateRoutesRequest.version).Nodup)
    (hnonzero : ∀ req ∈ reqs, req.version ≠ 0) (p q k : Nat) (hpq : p ≤ q)
    (hend : q ≤ (syncSteps reqs).length) (req : UpdateRoutesRequest) (hreq : reqs[k]? = some req)
    (hversion : (RoutingService.health (storeAfter reqs p)).configVersion = req.version)
    (h : (system lc shardOf shards router).Path s (.findBackend id host path :: es) t)
    (hreturned : t.searches id = some ⟨host, path, .returned (some b)⟩)
    (htable : ∀ route, s.Holds route →
      ∃ key, (storeAfter reqs q).httpRoutes.lookup key = some route)
    (hinserted : ∀ route, .insertRoute route ∈ es →
      .insertHttp route ∈ (syncSteps reqs).drop q) :
    ∃ j later, k ≤ j ∧ reqs[j]? = some later ∧
      ∃ route ∈ later.httpRoutes, ∃ rule ∈ route.rules, b ∈ rule.backends := by
  rcases exists_progress reqs (hpq.trans hend) with ⟨i, n, hp⟩
  rcases exists_progress reqs hend with ⟨i', n', hq⟩
  have hcomplete := RoutingService.completed_of_configVersion hdistinct hnonzero hp hreq hversion
  subst hcomplete
  have hlater : k < i' := RoutingService.progress_mono hp hq hpq
  have hfrom := returned_from_configured {route | ∃ j later, k ≤ j ∧ reqs[j]? = some later ∧
    route ∈ later.httpRoutes} h hreturned ?_ ?_
  · rcases hfrom with ⟨route, ⟨j, later, hkj, hlater, hroute⟩, hrule⟩
    exact ⟨j, later, hkj, hlater, route, hroute, hrule⟩
  · intro route hroute
    rcases htable route hroute with ⟨key, hkey⟩
    rcases ConcurrentMap.exists_lists (storeAfter reqs q).httpRoutes with ⟨routes, hlists⟩
    exact RoutingService.routes_submitted_late .http hq hlater hlists route
      (hlists.mem_iff.mpr ⟨key, hkey⟩)
  · intro route hroute
    rcases submitted_of_mem_drop hq (hinserted route hroute) with ⟨j, later, hj, hsubmitted, hmem⟩
    exact ⟨j, later, (hlater.trans_le hj).le, hsubmitted, hmem⟩

/-- The two configurations, applied one after the other. -/
def twoUpdates : List UpdateRoutesRequest :=
  [GatewayProxy.singleBackendUpdate, otherHostUpdate]

/-- A call that begins between the insertion and the version of the second configuration. -/
def calledBeforeVersion : List RouterStep :=
  [.readShard 0 [otherHostRoute], .bestMatch 0, .isHealthy 0, .fetchAdd 0]

/-- After the version of the first configuration was reported, its backend is returned by
a call that begins before the next clear, and that of the second configuration by one that
begins after the insertion. -/
theorem findBackend_after_published_version_two :
    (RoutingService.health (storeAfter twoUpdates 4)).configVersion =
        GatewayProxy.singleBackendUpdate.version ∧
      (∃ j later, 0 ≤ j ∧ twoUpdates[j]? = some later ∧
        ∃ route ∈ later.httpRoutes, ∃ rule ∈ route.rules,
          makeBackend "10.0.0.1:80" 1 ∈ rule.backends) ∧
      ∃ j later, 0 ≤ j ∧ twoUpdates[j]? = some later ∧
        ∃ route ∈ later.httpRoutes, ∃ rule ∈ route.rules,
          makeBackend "10.0.0.2:80" 1 ∈ rule.backends := by
  refine ⟨rfl, ?_, ?_⟩
  · rcases path_calledDuringUpdate with ⟨t, hpath, hreturned⟩
    refine findBackend_after_published_version twoUpdates (by decide) (by decide) 4 4 0
      (Nat.le_refl 4) (by decide) _ rfl rfl hpath hreturned ?_ ?_
    · rintro route ⟨key, hkey⟩
      exact ⟨key, hkey⟩
    · intro route hroute
      rw [eq_of_insertRoute_mem hroute]
      decide
  · have hpath : (system .ascii (fun _ => 0) 1 singleBackendRouter).Path
        ⟨.new (storeAfter twoUpdates 7) (.new 1), fun _ => none⟩
        (.findBackend 0 "other.com".toList ['/'] :: calledBeforeVersion) _ :=
      TransitionSystem.Path.of_allEnabled (by decide)
    refine findBackend_after_published_version twoUpdates (by decide) (by decide) 4 7 0
      (by decide) (by decide) _ rfl rfl hpath rfl ?_ ?_
    · rintro route ⟨key, hkey⟩
      exact ⟨key, hkey⟩
    · intro route hroute
      simp [calledBeforeVersion] at hroute

end RouterCalls

end PingoraProxy
