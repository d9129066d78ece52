import PingoraProxy.Store.RouteStore

/-!
# The routing service

The handlers of the control plane: a full sync, a read of the routes and a health
report.  The version of a request is stored and reported; no handler compares it
with the stored one.

Main results:

- Theorem {lit}`handleUpdates_concat`: after a sequence of requests the store holds
  the configuration of the last one.
- Theorem {lit}`stale_request_overwrites`: a delayed request replaces a newer
  configuration.
- Theorem {lit}`neverOverwritesNewer_iff`: newer configurations are safe exactly when
  versions arrive in order.
-/

namespace PingoraProxy

namespace RoutingService

/-! ## Handlers -/

/-- Update all routes with a full sync. -/
def updateRoutes (store : RouteStore) (req : UpdateRoutesRequest) :
    UpdateRoutesResponse × RouteStore :=
  let httpCount := UInt32.ofNat req.httpRoutes.length
  let grpcCount := UInt32.ofNat req.grpcRoutes.length
  let applied := store.updateRoutes req.httpRoutes req.grpcRoutes req.version
  ({ success := true
     error := []
     appliedVersion := applied.1
     httpRouteCount := httpCount
     grpcRouteCount := grpcCount }, applied.2)

/-- The responses a read of all routes may return. -/
def getRoutes (store : RouteStore) : Set GetRoutesResponse :=
  {response | response.httpRoutes ∈ store.getHttpRoutes ∧
    response.grpcRoutes ∈ store.getGrpcRoutes ∧ response.version = store.version}

/-- The health status of the proxy. -/
def health (store : RouteStore) : HealthResponse where
  healthy := true
  status := "ready".toList
  activeConnections := 0
  configVersion := store.version

/-- The store after handling requests one after another. -/
def handleUpdates (store : RouteStore) (reqs : List UpdateRoutesRequest) : RouteStore :=
  reqs.foldl (fun store req => (updateRoutes store req).2) store

/-- A handled request leaves its configuration. -/
theorem updateRoutes_snd (store : RouteStore) (req : UpdateRoutesRequest) :
    (updateRoutes store req).2 = req.configuration :=
  RouteStore.updateRoutes_snd store req

/-- After a sequence of requests the store holds the configuration of the last one. -/
theorem handleUpdates_concat (store : RouteStore) (reqs : List UpdateRoutesRequest)
    (req : UpdateRoutesRequest) :
    handleUpdates store (reqs ++ [req]) = req.configuration := by
  unfold handleUpdates
  rw [List.foldl_append]
  exact updateRoutes_snd _ req

/-! ## Versions -/

/-- At every request of a sequence the stored version does not decrease, and the
tables are those of a request with the highest version received so far. -/
def NeverOverwritesNewer (reqs : List UpdateRoutesRequest) : Prop :=
  ∀ before req after, reqs = before ++ req :: after →
    (handleUpdates .new before).version ≤ (handleUpdates .new (before ++ [req])).version ∧
    ∃ newest ∈ before ++ [req], (∀ r ∈ before ++ [req], r.version ≤ newest.version) ∧
      (handleUpdates .new (before ++ [req])).httpRoutes = newest.configuration.httpRoutes ∧
      (handleUpdates .new (before ++ [req])).grpcRoutes = newest.configuration.grpcRoutes

/-- What holds at every request of a sequence holds at every request of a first part
of it. -/
theorem NeverOverwritesNewer.of_append {reqs reqs' : List UpdateRoutesRequest}
    (h : NeverOverwritesNewer (reqs ++ reqs')) : NeverOverwritesNewer reqs := by
  intro before req after hsplit
  apply h before req (after ++ reqs')
  rw [hsplit, List.append_assoc, List.cons_append]

/-- A request whose version is below the previous one breaks the order. -/
theorem version_le_of_neverOverwritesNewer {reqs : List UpdateRoutesRequest}
    {earlier req : UpdateRoutesRequest} (h : NeverOverwritesNewer (reqs ++ [earlier] ++ [req])) :
    earlier.version ≤ req.version := by
  have hversion := (h (reqs ++ [earlier]) req [] rfl).1
  rw [handleUpdates_concat, handleUpdates_concat] at hversion
  exact hversion

/-- Without an overwritten newer configuration the versions arrive in order. -/
theorem NeverOverwritesNewer.pairwise {reqs : List UpdateRoutesRequest}
    (h : NeverOverwritesNewer reqs) :
    reqs.Pairwise fun earlier later => earlier.version ≤ later.version := by
  induction reqs using List.reverseRecOn with
  | nil => exact .nil
  | append_singleton reqs req ih =>
      have hreqs := ih h.of_append
      rw [List.pairwise_append]
      refine ⟨hreqs, List.pairwise_singleton _ _, ?_⟩
      intro earlier hearlier later hlater
      rw [List.mem_singleton.mp hlater]
      rcases List.eq_nil_or_concat' reqs with rfl | ⟨init, last, rfl⟩
      · cases hearlier
      · have hlast := version_le_of_neverOverwritesNewer h
        rcases List.mem_append.mp hearlier with hinit | hsame
        · exact UInt64.le_trans
            ((List.pairwise_append.mp hreqs).2.2 earlier hinit last (by simp)) hlast
        · rw [List.mem_singleton.mp hsame]
          exact hlast

/-- While the versions arrive in order no newer configuration is overwritten. -/
theorem neverOverwritesNewer_of_pairwise {reqs : List UpdateRoutesRequest}
    (h : reqs.Pairwise fun earlier later => earlier.version ≤ later.version) :
    NeverOverwritesNewer reqs := by
  intro before req after hsplit
  rw [hsplit, List.pairwise_append] at h
  have hreq : ∀ r ∈ before, r.version ≤ req.version := fun r hr =>
    h.2.2 r hr req List.mem_cons_self
  rw [handleUpdates_concat]
  constructor
  · rcases List.eq_nil_or_concat' before with rfl | ⟨init, last, rfl⟩
    · exact UInt64.zero_le
    · rw [handleUpdates_concat]
      exact hreq last (by simp)
  · refine ⟨req, by simp, ?_, rfl, rfl⟩
    intro r hr
    rcases List.mem_append.mp hr with hbefore | hsame
    · exact hreq r hbefore
    · rw [List.mem_singleton.mp hsame]
      exact UInt64.le_refl _

/-- A delayed request replaces a newer configuration: after version two, the request
with version one leaves version one in the store. -/
theorem stale_request_overwrites :
    ¬NeverOverwritesNewer [versioned 2 "new", versioned 1 "old"] := by
  intro h
  have hle : (2 : UInt64) ≤ 1 := @version_le_of_neverOverwritesNewer [] _ _ h
  exact absurd hle (by decide)

/-- Newer configurations are never overwritten exactly when the versions arrive in
order, each request's at least that of every earlier one. -/
theorem neverOverwritesNewer_iff (reqs : List UpdateRoutesRequest) :
    NeverOverwritesNewer reqs ↔
      reqs.Pairwise fun earlier later => earlier.version ≤ later.version :=
  ⟨NeverOverwritesNewer.pairwise, neverOverwritesNewer_of_pairwise⟩

end RoutingService

end PingoraProxy
