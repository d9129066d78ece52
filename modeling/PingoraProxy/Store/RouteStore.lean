import PingoraProxy.Foundation.ConcurrentMap
import PingoraProxy.RoutingApi

/-!
# The route store

Two concurrent maps, keyed by route identifier, and a version.  A full sync
clears both maps, inserts the submitted routes one by one and stores the version.

The store is modelled twice: {lit}`updateRoutes` runs a full sync without
interruption, and {lit}`updateSteps` lists the atomic writes it consists of, for
the modules that interleave them with other calls.

Main results:

- Theorems {lit}`RouteKind.table_foldl` and {lit}`version_foldl`: each component of the
  store depends only on the writes to it.
- Theorem {lit}`foldl_updateSteps`: the atomic writes, run in order, are the full
  sync.
- Theorem {lit}`updateRoutes_snd`: a full sync leaves exactly the submitted
  configuration, whatever the store held.
-/

namespace PingoraProxy

open Foundation

/-- A concurrent map keyed by strings. -/
abbrev DashMap (V : Type) := ConcurrentMap Str V

/-- Storage for HTTP and gRPC routes. -/
@[ext]
structure RouteStore where
  httpRoutes : DashMap HttpRoute
  grpcRoutes : DashMap GrpcRoute
  version : UInt64

namespace RouteStore

/-! ## Operations -/

/-- An empty store at version zero. -/
def new : RouteStore where
  httpRoutes := ∅
  grpcRoutes := ∅
  version := 0

/-- Insert one HTTP route under its identifier. -/
def insertHttp (store : RouteStore) (route : HttpRoute) : RouteStore :=
  { store with httpRoutes := store.httpRoutes.insert route.id route }

/-- Insert one gRPC route under its identifier. -/
def insertGrpc (store : RouteStore) (route : GrpcRoute) : RouteStore :=
  { store with grpcRoutes := store.grpcRoutes.insert route.id route }

/-- Update all routes with a full sync and return the applied version. -/
def updateRoutes (store : RouteStore) (httpRoutes : List HttpRoute)
    (grpcRoutes : List GrpcRoute) (version : UInt64) : UInt64 × RouteStore :=
  let store := { store with httpRoutes := ∅ }
  let store := { store with grpcRoutes := ∅ }
  let store := httpRoutes.foldl insertHttp store
  let store := grpcRoutes.foldl insertGrpc store
  let store := { store with version := version }
  (version, store)

/-- The lists an iteration over the HTTP routes may return. -/
def getHttpRoutes (store : RouteStore) : Set (List HttpRoute) :=
  {routes | store.httpRoutes.Lists routes}

/-- The lists an iteration over the gRPC routes may return. -/
def getGrpcRoutes (store : RouteStore) : Set (List GrpcRoute) :=
  {routes | store.grpcRoutes.Lists routes}

/-- The numbers of HTTP and gRPC routes. -/
def routeCount (store : RouteStore) : UInt32 × UInt32 :=
  (UInt32.ofNat store.httpRoutes.entries.card, UInt32.ofNat store.grpcRoutes.entries.card)

@[simp]
theorem mem_getHttpRoutes {store : RouteStore} {routes : List HttpRoute} :
    routes ∈ store.getHttpRoutes ↔ store.httpRoutes.Lists routes :=
  Iff.rfl

@[simp]
theorem mem_getGrpcRoutes {store : RouteStore} {routes : List GrpcRoute} :
    routes ∈ store.getGrpcRoutes ↔ store.grpcRoutes.Lists routes :=
  Iff.rfl

end RouteStore

/-! ## The configuration a request stands for -/

/-- The table an HTTP route list stands for: the last route of each identifier. -/
def httpTable (routes : List HttpRoute) : DashMap HttpRoute :=
  ConcurrentMap.tableOf HttpRoute.id routes

/-- The table a gRPC route list stands for: the last route of each identifier. -/
def grpcTable (routes : List GrpcRoute) : DashMap GrpcRoute :=
  ConcurrentMap.tableOf GrpcRoute.id routes

/-- The configuration a request asks for: both its tables and its version. -/
def UpdateRoutesRequest.configuration (req : UpdateRoutesRequest) : RouteStore where
  httpRoutes := httpTable req.httpRoutes
  grpcRoutes := grpcTable req.grpcRoutes
  version := req.version

/-! ## The atomic writes of a full sync -/

/-- One atomic write to the store. -/
inductive StoreStep where
  | clearHttp
  | clearGrpc
  | insertHttp (route : HttpRoute)
  | insertGrpc (route : GrpcRoute)
  | storeVersion (version : UInt64)
deriving DecidableEq

namespace StoreStep

/-- The effect of one atomic write. -/
def apply (store : RouteStore) : StoreStep → RouteStore
  | clearHttp => { store with httpRoutes := ∅ }
  | clearGrpc => { store with grpcRoutes := ∅ }
  | insertHttp route => store.insertHttp route
  | insertGrpc route => store.insertGrpc route
  | storeVersion version => { store with version := version }

/-- The write to the HTTP map, if it is one. -/
def httpOp : StoreStep → Option (ConcurrentMap.MapOp HttpRoute)
  | clearHttp => some .clear
  | insertHttp route => some (.insert route)
  | _ => none

/-- The write to the gRPC map, if it is one. -/
def grpcOp : StoreStep → Option (ConcurrentMap.MapOp GrpcRoute)
  | clearGrpc => some .clear
  | insertGrpc route => some (.insert route)
  | _ => none

/-- The version stored, if one is. -/
def versionOp : StoreStep → Option UInt64
  | storeVersion version => some version
  | _ => none

end StoreStep

/-- The atomic writes of a full sync, in program order. -/
def updateSteps (req : UpdateRoutesRequest) : List StoreStep :=
  [.clearHttp, .clearGrpc] ++ req.httpRoutes.map .insertHttp ++
    req.grpcRoutes.map .insertGrpc ++ [.storeVersion req.version]

/-! ## The two kinds of routes -/

/-- The kinds of routes; the store has a map for each. -/
inductive RouteKind where
  | http
  | grpc

namespace RouteKind

/-- The routes of a kind. -/
abbrev Route : RouteKind → Type
  | http => HttpRoute
  | grpc => GrpcRoute

/-- The identifier of a route. -/
def id : (kind : RouteKind) → kind.Route → Str
  | http => HttpRoute.id
  | grpc => GrpcRoute.id

/-- The routes of a kind that a request submits. -/
def submitted : (kind : RouteKind) → UpdateRoutesRequest → List kind.Route
  | http => UpdateRoutesRequest.httpRoutes
  | grpc => UpdateRoutesRequest.grpcRoutes

/-- The map of a kind. -/
def table : (kind : RouteKind) → RouteStore → DashMap kind.Route
  | http => RouteStore.httpRoutes
  | grpc => RouteStore.grpcRoutes

/-- The write to the map of a kind, if a step is one. -/
def op : (kind : RouteKind) → StoreStep → Option (ConcurrentMap.MapOp kind.Route)
  | http => StoreStep.httpOp
  | grpc => StoreStep.grpcOp

/-- A configuration holds the last submitted route of each identifier. -/
theorem table_configuration (kind : RouteKind) (req : UpdateRoutesRequest) :
    kind.table req.configuration = ConcurrentMap.tableOf kind.id (kind.submitted req) := by
  cases kind <;> rfl

/-- A step changes the map of a kind by its write to it. -/
theorem table_apply (kind : RouteKind) (store : RouteStore) (step : StoreStep) :
    kind.table (step.apply store) =
      ConcurrentMap.replay kind.id (kind.table store) (kind.op step).toList := by
  cases kind <;> cases step <;> rfl

/-- The map of a kind depends only on the writes to it. -/
theorem table_foldl (kind : RouteKind) (store : RouteStore) (steps : List StoreStep) :
    kind.table (steps.foldl StoreStep.apply store) =
      ConcurrentMap.replay kind.id (kind.table store) (steps.filterMap kind.op) := by
  induction steps generalizing store with
  | nil => rfl
  | cons step steps ih =>
      have hsplit : (step :: steps).filterMap kind.op =
          (kind.op step).toList ++ steps.filterMap kind.op := by
        cases h : kind.op step <;> simp [h]
      rw [List.foldl_cons, ih, hsplit, ConcurrentMap.replay_append]
      exact congrArg (ConcurrentMap.replay kind.id · _) (kind.table_apply store step)

end RouteKind

/-- A store is its two maps and its version. -/
theorem RouteStore.ext_table {store store' : RouteStore}
    (htables : ∀ kind : RouteKind, kind.table store = kind.table store')
    (hversion : store.version = store'.version) : store = store' :=
  RouteStore.ext (htables .http) (htables .grpc) hversion

/-! ## The configuration a full sync leaves -/

/-- The version is the last one stored. -/
theorem version_foldl (store : RouteStore) (steps : List StoreStep) :
    (steps.foldl StoreStep.apply store).version =
      (steps.filterMap StoreStep.versionOp).getLast?.getD store.version := by
  induction steps using List.reverseRecOn with
  | nil => rfl
  | append_singleton steps step ih =>
      rw [List.foldl_append, List.filterMap_append]
      cases step <;> simp [StoreStep.apply, StoreStep.versionOp, RouteStore.insertHttp,
        RouteStore.insertGrpc, ih]

/-- The part of a full sync that acts on one component, write by write. -/
theorem filterMap_updateSteps {β : Type} (f : StoreStep → Option β)
    (req : UpdateRoutesRequest) :
    (updateSteps req).filterMap f =
      (f .clearHttp).toList ++ (f .clearGrpc).toList ++
        req.httpRoutes.filterMap (fun route => f (.insertHttp route)) ++
        req.grpcRoutes.filterMap (fun route => f (.insertGrpc route)) ++
        (f (.storeVersion req.version)).toList := by
  have hsingle : ∀ step, [step].filterMap f = (f step).toList := by
    intro step
    cases h : f step <;> simp [h]
  have hclears : [StoreStep.clearHttp, .clearGrpc].filterMap f =
      (f .clearHttp).toList ++ (f .clearGrpc).toList := by
    rw [← hsingle, ← hsingle, ← List.filterMap_append]
    rfl
  simp only [updateSteps, List.filterMap_append, List.filterMap_map, Function.comp_def,
    hclears, hsingle]

/-- A full sync clears each map and then fills it. -/
@[simp]
theorem RouteKind.filterMap_op_updateSteps (kind : RouteKind) (req : UpdateRoutesRequest) :
    (updateSteps req).filterMap kind.op = .clear :: (kind.submitted req).map .insert := by
  cases kind <;>
    simp [filterMap_updateSteps, RouteKind.op, RouteKind.submitted, StoreStep.httpOp,
      StoreStep.grpcOp]

/-- A full sync stores one version. -/
@[simp]
theorem filterMap_versionOp_updateSteps (req : UpdateRoutesRequest) :
    (updateSteps req).filterMap StoreStep.versionOp = [req.version] := by
  simp [filterMap_updateSteps, StoreStep.versionOp]

/-- The atomic writes, run in order, are the full sync. -/
theorem foldl_updateSteps (store : RouteStore) (req : UpdateRoutesRequest) :
    (updateSteps req).foldl StoreStep.apply store =
      (store.updateRoutes req.httpRoutes req.grpcRoutes req.version).2 := by
  simp only [updateSteps, List.foldl_append, List.foldl_map]
  rfl

/-- A full sync leaves exactly the submitted configuration. -/
theorem RouteStore.updateRoutes_snd (store : RouteStore) (req : UpdateRoutesRequest) :
    (store.updateRoutes req.httpRoutes req.grpcRoutes req.version).2 = req.configuration := by
  rw [← foldl_updateSteps]
  apply RouteStore.ext_table
  · intro kind
    rw [kind.table_foldl, kind.filterMap_op_updateSteps, ConcurrentMap.replay_clear,
      ConcurrentMap.replay_map_insert, kind.table_configuration]
    rfl
  · rw [version_foldl, filterMap_versionOp_updateSteps]
    rfl

end PingoraProxy
