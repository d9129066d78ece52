import PingoraProxy.Grpc.RoutingService

/-!
# A full sync and what it reports

A full sync replaces both tables: whatever was there before, the store holds the last
submitted route of every identifier and nothing else.  The response counts the submitted
routes, so it reports the tables only when no identifier is submitted twice.

Main results:

- Theorem {lit}`lists_updateRoutes`: each table lists the last route of every submitted
  identifier.
- Theorem {lit}`updateRoutes_is_full_sync`: the state, the reads and the version after a
  full sync.
- Theorem {lit}`duplicate_id_is_counted`: a response counts a route that is not in the
  table.
- Theorem {lit}`reportsConfigured_iff`: the response reports the tables exactly when all
  identifiers are distinct.
-/

namespace PingoraProxy

open Foundation

namespace RoutingService

/-! ## The tables after a full sync -/

/-- Each table lists the last route of every submitted identifier. -/
theorem lists_updateRoutes (kind : RouteKind) (store : RouteStore) (req : UpdateRoutesRequest)
    (routes : List kind.Route) :
    (kind.table (updateRoutes store req).2).Lists routes ↔
      ConcurrentMap.KeepsLast kind.id (kind.submitted req) routes := by
  rw [updateRoutes_snd, kind.table_configuration]
  exact ConcurrentMap.lists_tableOf_iff_keepsLast kind.id

/-- With distinct identifiers a read of all routes returns what was submitted, in some
order. -/
theorem getRoutes_updateRoutes {req : UpdateRoutesRequest}
    (hhttp : (req.httpRoutes.map HttpRoute.id).Nodup)
    (hgrpc : (req.grpcRoutes.map GrpcRoute.id).Nodup) (store : RouteStore)
    (response : GetRoutesResponse) :
    response ∈ getRoutes (updateRoutes store req).2 ↔
      response.httpRoutes.Perm req.httpRoutes ∧ response.grpcRoutes.Perm req.grpcRoutes ∧
        response.version = req.version := by
  have hhttpTable := @ConcurrentMap.lists_tableOf _ _ _ HttpRoute.id _ response.httpRoutes hhttp
  have hgrpcTable := @ConcurrentMap.lists_tableOf _ _ _ GrpcRoute.id _ response.grpcRoutes hgrpc
  rw [updateRoutes_snd, ← hhttpTable, ← hgrpcTable]
  rfl

/-- A full sync leaves exactly the submitted configuration, whatever the store held: the
tables list the last route of every submitted identifier, and both versions are the
submitted one.  Neither the earlier state nor a repetition makes a difference, and with
distinct identifiers a read of all routes returns what was submitted. -/
theorem updateRoutes_is_full_sync (store : RouteStore) (req : UpdateRoutesRequest) :
    (updateRoutes store req).2.getHttpRoutes.Nonempty ∧
    (∀ routes, routes ∈ (updateRoutes store req).2.getHttpRoutes ↔
      ConcurrentMap.KeepsLast HttpRoute.id req.httpRoutes routes) ∧
    (updateRoutes store req).2.getGrpcRoutes.Nonempty ∧
    (∀ routes, routes ∈ (updateRoutes store req).2.getGrpcRoutes ↔
      ConcurrentMap.KeepsLast GrpcRoute.id req.grpcRoutes routes) ∧
    (updateRoutes store req).2.version = req.version ∧
    (store.updateRoutes req.httpRoutes req.grpcRoutes req.version).1 = req.version ∧
    (updateRoutes store req).1.appliedVersion = req.version ∧
    (∀ other, (updateRoutes other req).2 = (updateRoutes store req).2) ∧
    (updateRoutes (updateRoutes store req).2 req).2 = (updateRoutes store req).2 ∧
    ((req.httpRoutes.map HttpRoute.id).Nodup → (req.grpcRoutes.map GrpcRoute.id).Nodup →
      ∀ response, response ∈ getRoutes (updateRoutes store req).2 ↔
        response.httpRoutes.Perm req.httpRoutes ∧ response.grpcRoutes.Perm req.grpcRoutes ∧
          response.version = req.version) := by
  have hsame : ∀ other, (updateRoutes other req).2 = (updateRoutes store req).2 := by
    intro other
    rw [updateRoutes_snd, updateRoutes_snd]
  refine ⟨ConcurrentMap.exists_lists _, lists_updateRoutes .http store req,
    ConcurrentMap.exists_lists _, lists_updateRoutes .grpc store req, rfl, rfl, rfl, hsame,
    hsame _, ?_⟩
  intro hhttp hgrpc
  exact getRoutes_updateRoutes hhttp hgrpc store

/-! ## The response -/

/-- The response to a request reports what is configured: its counts are those of the
store and of every read of all routes, and every submitted route is in its table. -/
def ReportsConfigured (store : RouteStore) (req : UpdateRoutesRequest) : Prop :=
  ((updateRoutes store req).1.httpRouteCount, (updateRoutes store req).1.grpcRouteCount) =
      (updateRoutes store req).2.routeCount ∧
    ∀ response ∈ getRoutes (updateRoutes store req).2,
      response.httpRoutes.length = (updateRoutes store req).1.httpRouteCount.toNat ∧
      response.grpcRoutes.length = (updateRoutes store req).1.grpcRouteCount.toNat ∧
      (∀ route ∈ req.httpRoutes, route ∈ response.httpRoutes) ∧
      ∀ route ∈ req.grpcRoutes, route ∈ response.grpcRoutes

/-- Two HTTP routes with one identifier. -/
def duplicateIdRequest : UpdateRoutesRequest where
  httpRoutes := [makeRoute "a" ["one.com"] [], makeRoute "a" ["two.com"] []]
  grpcRoutes := []
  version := 1

/-- Of two routes with one identifier the second replaces the first, but the response
counts both. -/
theorem duplicate_id_is_counted : ¬ReportsConfigured .new duplicateIdRequest := by
  rintro ⟨hcount, -⟩
  revert hcount
  decide

/-- Numbers below two to the thirty-second are reported without loss. -/
theorem toNat_ofNat_of_lt {n : Nat} (h : n < 2 ^ 32) : (UInt32.ofNat n).toNat = n := by
  rw [UInt32.toNat_ofNat']
  exact Nat.mod_eq_of_lt h

/-- The response reports what is configured exactly when no HTTP identifier and no gRPC
identifier is submitted twice. -/
theorem reportsConfigured_iff (store : RouteStore) (req : UpdateRoutesRequest)
    (hhttpLength : req.httpRoutes.length < 2 ^ 32)
    (hgrpcLength : req.grpcRoutes.length < 2 ^ 32) :
    ReportsConfigured store req ↔
      (req.httpRoutes.map HttpRoute.id).Nodup ∧ (req.grpcRoutes.map GrpcRoute.id).Nodup := by
  constructor
  · rintro ⟨-, hreads⟩
    rcases ConcurrentMap.exists_lists (httpTable req.httpRoutes) with ⟨httpRoutes, hhttp⟩
    rcases ConcurrentMap.exists_lists (grpcTable req.grpcRoutes) with ⟨grpcRoutes, hgrpc⟩
    have hread : ⟨httpRoutes, grpcRoutes, req.version⟩ ∈ getRoutes (updateRoutes store req).2 := by
      rw [updateRoutes_snd]
      exact ⟨hhttp, hgrpc, rfl⟩
    rcases hreads _ hread with ⟨hhttpCount, hgrpcCount, -, -⟩
    constructor
    · rw [← ConcurrentMap.card_tableOf_eq_length_iff HttpRoute.id]
      exact (hhttp.length_eq.symm.trans hhttpCount).trans (toNat_ofNat_of_lt hhttpLength)
    · rw [← ConcurrentMap.card_tableOf_eq_length_iff GrpcRoute.id]
      exact (hgrpc.length_eq.symm.trans hgrpcCount).trans (toNat_ofNat_of_lt hgrpcLength)
  · rintro ⟨hhttp, hgrpc⟩
    constructor
    · have hhttpCard := (ConcurrentMap.card_tableOf_eq_length_iff HttpRoute.id).mpr hhttp
      have hgrpcCard := (ConcurrentMap.card_tableOf_eq_length_iff GrpcRoute.id).mpr hgrpc
      rw [updateRoutes_snd]
      exact Prod.ext (congrArg UInt32.ofNat hhttpCard.symm) (congrArg UInt32.ofNat hgrpcCard.symm)
    · intro response hread
      rcases (getRoutes_updateRoutes hhttp hgrpc store response).mp hread with
        ⟨hhttpPerm, hgrpcPerm, -⟩
      exact ⟨hhttpPerm.length_eq.trans (toNat_ofNat_of_lt hhttpLength).symm,
        hgrpcPerm.length_eq.trans (toNat_ofNat_of_lt hgrpcLength).symm,
        fun route hroute => hhttpPerm.mem_iff.mpr hroute,
        fun route hroute => hgrpcPerm.mem_iff.mpr hroute⟩

/-- Two routes of each kind; one identifier is that of a route of either kind. -/
def bothKindsRequest : UpdateRoutesRequest where
  httpRoutes := [makeRoute "a" ["one.com"] [], makeRoute "b" ["two.com"] []]
  grpcRoutes := [⟨"a".toList, ["one.com".toList], []⟩, ⟨"c".toList, [], []⟩]
  version := 3

/-- The response reports them as configured, in a store that held other routes: an
identifier may be shared by routes of different kinds. -/
theorem reportsConfigured_bothKinds :
    ReportsConfigured duplicateIdRequest.configuration bothKindsRequest :=
  (reportsConfigured_iff duplicateIdRequest.configuration bothKindsRequest (by decide)
    (by decide)).mpr ⟨by decide, by decide⟩

end RoutingService

end PingoraProxy
