import PingoraProxy.Grpc.RoutingService

/-!
# Restoring a store from its routes

A read of all routes loses nothing: submitted again, to the same proxy or to any other,
it restores both tables and the version.  Every store is meant that atomic writes can
leave, so the updates before it may have overlapped in any way; what matters is that a
route is always stored under its own identifier.

Main results:

- Theorem {lit}`keyed_table`: atomic writes keep every route under its own identifier.
- Theorem {lit}`updateRoutes_getRoutes`: a full sync with a read of all routes restores the
  store it was read from and reports its counts.
-/

namespace PingoraProxy

open Foundation

/-- The request that submits what a read of all routes returned. -/
def GetRoutesResponse.toRequest (response : GetRoutesResponse) : UpdateRoutesRequest where
  httpRoutes := response.httpRoutes
  grpcRoutes := response.grpcRoutes
  version := response.version

namespace RoutingService

/-- Atomic writes keep every route under its own identifier. -/
theorem keyed_table (kind : RouteKind) (steps : List StoreStep) (id : Str) (route : kind.Route)
    (h : (kind.table (steps.foldl StoreStep.apply .new)).lookup id = some route) :
    kind.id route = id := by
  rw [kind.table_foldl] at h
  refine ConcurrentMap.keyed_replay kind.id ?_ _ id route h
  intro id route hempty
  cases kind <;> cases hempty

/-- What a read of all routes returned stands for the store it was read from. -/
theorem configuration_of_getRoutes (steps : List StoreStep) {response : GetRoutesResponse}
    (h : response ∈ getRoutes (steps.foldl StoreStep.apply .new)) :
    response.toRequest.configuration = steps.foldl StoreStep.apply .new := by
  rcases h with ⟨hhttp, hgrpc, hversion⟩
  apply RouteStore.ext
  · exact ConcurrentMap.tableOf_of_lists HttpRoute.id (keyed_table .http steps) hhttp
  · exact ConcurrentMap.tableOf_of_lists GrpcRoute.id (keyed_table .grpc steps) hgrpc
  · exact hversion

/-- A full sync with a read of all routes restores the store it was read from, whatever
the store it is sent to held, and reports the version and the counts of that store. -/
theorem updateRoutes_getRoutes (steps : List StoreStep) {response : GetRoutesResponse}
    (h : response ∈ getRoutes (steps.foldl StoreStep.apply .new)) (replica : RouteStore) :
    (updateRoutes replica response.toRequest).2 = steps.foldl StoreStep.apply .new ∧
      (updateRoutes replica response.toRequest).1.appliedVersion =
        (steps.foldl StoreStep.apply .new).version ∧
      ((updateRoutes replica response.toRequest).1.httpRouteCount,
          (updateRoutes replica response.toRequest).1.grpcRouteCount) =
        (steps.foldl StoreStep.apply .new).routeCount := by
  refine ⟨?_, h.2.2, ?_⟩
  · rw [updateRoutes_snd, configuration_of_getRoutes steps h]
  · have hhttp : response.httpRoutes.length = _ := ConcurrentMap.Lists.length_eq h.1
    have hgrpc : response.grpcRoutes.length = _ := ConcurrentMap.Lists.length_eq h.2.1
    exact Prod.ext (congrArg UInt32.ofNat hhttp) (congrArg UInt32.ofNat hgrpc)

/-- Two full syncs that overlap and submit the same identifier. -/
def overlappingSyncs : List StoreStep :=
  [.clearHttp, .clearHttp, .clearGrpc, .insertHttp (makeRoute "a" ["one.com"] []), .clearGrpc,
    .insertHttp (makeRoute "a" ["two.com"] []), .storeVersion 2, .storeVersion 1]

/-- What they leave is restored in a store with another route. -/
theorem updateRoutes_getRoutes_overlapping :
    (updateRoutes (versioned 7 "b").configuration
      (GetRoutesResponse.toRequest ⟨[makeRoute "a" ["two.com"] []], [], 1⟩)).2 =
      overlappingSyncs.foldl StoreStep.apply .new := by
  have hread : (⟨[makeRoute "a" ["two.com"] []], [], 1⟩ : GetRoutesResponse) ∈
      getRoutes (overlappingSyncs.foldl StoreStep.apply .new) :=
    ⟨RouteStore.mem_getHttpRoutes.mpr rfl, RouteStore.mem_getGrpcRoutes.mpr rfl, rfl⟩
  exact (updateRoutes_getRoutes overlappingSyncs hread _).1

end RoutingService

end PingoraProxy
