import PingoraProxy.Grpc.Snapshots

/-!
# The version is published after the routes

A full sync clears both maps first and stores its version last.  Whoever reads the
version of a request therefore finds its routes in the maps, or those of a later request,
but never routes of an earlier one.

Main results:

- Theorem {lit}`completed_of_configVersion`: the version of a request is read only once
  the request is complete.
- Theorem {lit}`routes_submitted_late`: from then on a map lists only routes of this or
  later requests.
- Theorem {lit}`version_published_after_routes`: what reads after the read of a version
  return.
-/

namespace PingoraProxy

open Foundation

namespace RoutingService

open RouteStore

variable {reqs : List UpdateRoutesRequest}

/-! ## Completed requests -/

/-- A sequence that ends with a request leaves its configuration. -/
theorem configured_take_succ {k : Nat} {req : UpdateRoutesRequest} (hreq : reqs[k]? = some req) :
    configured (reqs.take (k + 1)) = req.configuration := by
  rw [List.take_add_one, hreq]
  exact configured_concat _ req

/-- Between two requests the store is as the last one left it. -/
theorem storeAfter_between {p k : Nat} (h : Progress reqs p k 0) :
    storeAfter reqs p = configured (reqs.take k) := by
  cases hreq : reqs[k]? with
  | none => exact (storeAfter_of_end h hreq).2
  | some req =>
      rw [storeAfter_eq h, hreq]
      rfl

/-- No more requests are complete than there are. -/
theorem progress_le_length {p i n : Nat} (h : Progress reqs p i n) : i ≤ reqs.length := by
  rcases h.2 with ⟨hend, -⟩ | ⟨req, hnext, -⟩
  · exact hend.le
  · exact (List.getElem?_eq_some_iff.mp hnext).1.le

/-- With distinct versions other than zero the version of a request is read only once
this request is the last complete one: the initial version is zero, and every other
request stores another version. -/
theorem completed_of_configVersion (hdistinct : (reqs.map UpdateRoutesRequest.version).Nodup)
    (hnonzero : ∀ req ∈ reqs, req.version ≠ 0) {p i n k : Nat} (h : Progress reqs p i n)
    {req : UpdateRoutesRequest} (hreq : reqs[k]? = some req)
    (hversion : (health (storeAfter reqs p)).configVersion = req.version) : i = k + 1 := by
  have hread : (configured (reqs.take i)).version = req.version :=
    (version_storeAfter h).symm.trans hversion
  cases i with
  | zero => exact absurd hread.symm (hnonzero req (List.mem_of_getElem? hreq))
  | succ j =>
      have hj : j < reqs.length := progress_le_length h
      rw [configured_take_succ (List.getElem?_eq_getElem hj)] at hread
      have hj' : j < (reqs.map UpdateRoutesRequest.version).length := by
        rwa [List.length_map]
      have hsame : (reqs.map UpdateRoutesRequest.version)[j]? =
          (reqs.map UpdateRoutesRequest.version)[k]? := by
        rw [List.getElem?_map, List.getElem?_map, hreq, List.getElem?_eq_getElem hj]
        exact congrArg some hread
      rw [(List.getElem?_inj hj' hdistinct).mp hsame]

/-! ## Routes of late requests -/

/-- The last complete request, when more requests are complete than a number says. -/
theorem exists_last_complete {p i n k : Nat} (h : Progress reqs p i n) (hk : k < i) :
    ∃ j req, k ≤ j ∧ reqs[j]? = some req ∧ configured (reqs.take i) = req.configuration := by
  cases i with
  | zero => exact absurd hk (Nat.not_lt_zero k)
  | succ j =>
      have hlast := List.getElem?_eq_getElem (Nat.lt_of_succ_le (progress_le_length h))
      exact ⟨j, _, Nat.le_of_lt_succ hk, hlast, configured_take_succ hlast⟩

/-- Once some requests are complete, each map lists only routes of the last of them or of
later ones. -/
theorem routes_submitted_late (kind : RouteKind) {p i n k : Nat} (h : Progress reqs p i n)
    (hk : k < i) {routes : List kind.Route}
    (hlists : (kind.table (storeAfter reqs p)).Lists routes) :
    ∀ route ∈ routes, ∃ j req, k ≤ j ∧ reqs[j]? = some req ∧ route ∈ kind.submitted req := by
  intro route hroute
  have hreports := reports_of_lists kind h hlists
  unfold Reports at hreports
  by_cases hn : n < kind.clearedAfter
  · rw [if_pos hn] at hreports
    rcases exists_last_complete h hk with ⟨j, req, hkj, hreq, hconfigured⟩
    rw [hconfigured, kind.table_configuration] at hreports
    exact ⟨j, req, hkj, hreq, ConcurrentMap.mem_of_lists_tableOf kind.id hreports hroute⟩
  · rw [if_neg hn] at hreports
    rcases hreports with ⟨req, hreq, htable⟩
    have hmem := ConcurrentMap.mem_of_lists_tableOf kind.id htable hroute
    exact ⟨i, req, hk.le, hreq, List.mem_of_mem_take hmem⟩

/-! ## Reads after the version -/

/-- The version is published after the routes: once the version of a request has been
read, every later read of a map lists only routes of this or later requests, and as long
as no later request has written, exactly the last route of every identifier it
submitted. -/
theorem version_published_after_routes (reqs : List UpdateRoutesRequest)
    (hdistinct : (reqs.map UpdateRoutesRequest.version).Nodup)
    (hnonzero : ∀ req ∈ reqs, req.version ≠ 0) (p q k : Nat) (hpq : p ≤ q)
    (hend : q ≤ (syncSteps reqs).length) (req : UpdateRoutesRequest) (hreq : reqs[k]? = some req)
    (hversion : (health (storeAfter reqs p)).configVersion = req.version) :
    (∀ routes ∈ (storeAfter reqs q).getHttpRoutes, ∀ route ∈ routes,
      ∃ j later, k ≤ j ∧ reqs[j]? = some later ∧ route ∈ later.httpRoutes) ∧
    (∀ routes ∈ (storeAfter reqs q).getGrpcRoutes, ∀ route ∈ routes,
      ∃ j later, k ≤ j ∧ reqs[j]? = some later ∧ route ∈ later.grpcRoutes) ∧
    (q ≤ (syncSteps (reqs.take (k + 1))).length →
      (∀ routes, routes ∈ (storeAfter reqs q).getHttpRoutes ↔
        ConcurrentMap.KeepsLast HttpRoute.id req.httpRoutes routes) ∧
      ∀ routes, routes ∈ (storeAfter reqs q).getGrpcRoutes ↔
        ConcurrentMap.KeepsLast GrpcRoute.id req.grpcRoutes routes) := by
  rcases exists_progress reqs (hpq.trans hend) with ⟨i, n, hp⟩
  rcases exists_progress reqs hend with ⟨i', n', hq⟩
  have hcomplete := completed_of_configVersion hdistinct hnonzero hp hreq hversion
  subst hcomplete
  have hlater : k < i' := progress_mono hp hq hpq
  refine ⟨fun routes => routes_submitted_late .http hq hlater,
    fun routes => routes_submitted_late .grpc hq hlater, ?_⟩
  intro hquiet
  -- both reads fall between this request and the next one
  have hbetween : Progress reqs q (k + 1) 0 := by
    have hn : n = 0 := by
      have hpk := hp.1
      omega
    have hsame : q = p := by
      have hpk := hp.1
      omega
    rw [hsame, ← hn]
    exact hp
  rw [storeAfter_between hbetween, configured_take_succ hreq]
  exact ⟨fun routes => ConcurrentMap.lists_tableOf_iff_keepsLast HttpRoute.id,
    fun routes => ConcurrentMap.lists_tableOf_iff_keepsLast GrpcRoute.id⟩

/-- Two requests with one HTTP route each, read before and after the clear of the second. -/
theorem version_published_after_routes_two :
    (health (storeAfter [versioned 1 "a", versioned 2 "b"] 4)).configVersion = 1 ∧
      ∀ routes ∈ (storeAfter [versioned 1 "a", versioned 2 "b"] 7).getHttpRoutes,
        ∀ route ∈ routes, ∃ j later, 0 ≤ j ∧
          [versioned 1 "a", versioned 2 "b"][j]? = some later ∧ route ∈ later.httpRoutes :=
  ⟨rfl, (version_published_after_routes [versioned 1 "a", versioned 2 "b"] (by decide) (by decide)
    4 7 0 (by decide) (by decide) (versioned 1 "a") rfl rfl).1⟩

end RoutingService

end PingoraProxy
