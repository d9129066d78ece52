import PingoraProxy.Grpc.RoutingService
import PingoraProxy.Store.PartialSync

/-!
# Reading all routes during full syncs

A read of all routes takes three separate reads: the HTTP map, the gRPC map and the
version.  While full syncs run one after another, each of the reads sees one of them,
but not necessarily the same one.

Main results:

- Theorem {lit}`reports_of_lists`: each read of a map reports the routes of a single full
  sync.
- Theorem {lit}`getRoutes_torn`: a response may pair old routes with a new version.
- Theorem {lit}`getRoutes_reports`: what the three reads report, and when they belong
  together.
-/

namespace PingoraProxy

open Foundation

namespace RoutingService

open RouteStore

/-! ## The three reads -/

/-- A response whose three reads fall after the given numbers of writes. -/
def ReadsAt (reqs : List UpdateRoutesRequest) (p q r : Nat) (response : GetRoutesResponse) :
    Prop :=
  response.httpRoutes ∈ (storeAfter reqs p).getHttpRoutes ∧
    response.grpcRoutes ∈ (storeAfter reqs q).getGrpcRoutes ∧
    response.version = (storeAfter reqs r).version

/-- A response that reports one completed full sync, or the initial store. -/
def ReportsOneSync (reqs : List UpdateRoutesRequest) (response : GetRoutesResponse) : Prop :=
  ∃ k ≤ reqs.length, response ∈ getRoutes (configured (reqs.take k))

/-- HTTP routes as listed when some full syncs are complete and some writes of the next
are done: the last complete table, or the part of the next one inserted so far. -/
def ReportsHttp (reqs : List UpdateRoutesRequest) (k n : Nat) (routes : List HttpRoute) : Prop :=
  if n = 0 then routes ∈ (configured (reqs.take k)).getHttpRoutes
  else ∃ req, reqs[k]? = some req ∧ (httpTable (req.httpRoutes.take (n - 2))).Lists routes

/-- gRPC routes as listed when some full syncs are complete and some writes of the next
are done. -/
def ReportsGrpc (reqs : List UpdateRoutesRequest) (k n : Nat) (routes : List GrpcRoute) : Prop :=
  if n ≤ 1 then routes ∈ (configured (reqs.take k)).getGrpcRoutes
  else ∃ req, reqs[k]? = some req ∧
    (grpcTable (req.grpcRoutes.take (n - 2 - req.httpRoutes.length))).Lists routes

/-- Routes of a kind as listed when some full syncs are complete and some writes of the
next are done: the last complete table, or the part of the next one inserted so far. -/
def Reports (kind : RouteKind) (reqs : List UpdateRoutesRequest) (k n : Nat)
    (routes : List kind.Route) : Prop :=
  if n < kind.clearedAfter then (kind.table (configured (reqs.take k))).Lists routes
  else ∃ req, reqs[k]? = some req ∧ (ConcurrentMap.tableOf kind.id
    ((kind.submitted req).take (n - kind.insertsAfter req))).Lists routes

theorem reportsHttp_iff {reqs : List UpdateRoutesRequest} {k n : Nat} {routes : List HttpRoute} :
    ReportsHttp reqs k n routes ↔ Reports .http reqs k n routes := by
  simp only [Reports, RouteKind.clearedAfter, Nat.lt_one_iff]
  rfl

theorem reportsGrpc_iff {reqs : List UpdateRoutesRequest} {k n : Nat} {routes : List GrpcRoute} :
    ReportsGrpc reqs k n routes ↔ Reports .grpc reqs k n routes := by
  simp only [Reports, RouteKind.clearedAfter, Nat.lt_succ_iff, RouteKind.insertsAfter,
    ← Nat.sub_sub]
  rfl

/-- After all full syncs the store is as configured. -/
theorem storeAfter_of_end {reqs : List UpdateRoutesRequest} {p k n : Nat}
    (h : Progress reqs p k n) (hend : reqs[k]? = none) :
    n = 0 ∧ storeAfter reqs p = configured (reqs.take k) := by
  have hstore := storeAfter_eq h
  rw [hend] at hstore
  rcases h.2 with ⟨rfl, rfl⟩ | ⟨req, hreq, -⟩
  · rw [List.take_length]
    exact ⟨rfl, hstore⟩
  · rw [hend] at hreq
    cases hreq

/-- Each read of a map reports the routes of a single full sync. -/
theorem reports_of_lists (kind : RouteKind) {reqs : List UpdateRoutesRequest} {p k n : Nat}
    {routes : List kind.Route} (h : Progress reqs p k n)
    (hlists : (kind.table (storeAfter reqs p)).Lists routes) : Reports kind reqs k n routes := by
  unfold Reports
  cases hreq : reqs[k]? with
  | none =>
      rcases storeAfter_of_end h hreq with ⟨hn, hstore⟩
      have hcleared : n < kind.clearedAfter := by
        rw [hn]
        cases kind <;> decide
      rw [if_pos hcleared, ← hstore]
      exact hlists
  | some req =>
      rw [storeAfter_eq h, hreq] at hlists
      dsimp only at hlists
      rw [table_partialSync] at hlists
      by_cases hn : n < kind.clearedAfter
      · rw [if_pos hn] at hlists ⊢
        exact hlists
      · rw [if_neg hn] at hlists ⊢
        exact ⟨req, rfl, hlists⟩

/-- The version is that of the last completed full sync. -/
theorem version_storeAfter {reqs : List UpdateRoutesRequest} {p k n : Nat}
    (h : Progress reqs p k n) :
    (storeAfter reqs p).version = (configured (reqs.take k)).version := by
  cases hreq : reqs[k]? with
  | none => rw [(storeAfter_of_end h hreq).2]
  | some req =>
      rw [storeAfter_eq h, hreq]
      rcases h.2 with ⟨hk, -⟩ | ⟨req', hreq', hn⟩
      · rw [hk, List.getElem?_eq_none (Nat.le_refl _)] at hreq
        cases hreq
      · rw [hreq, Option.some.injEq] at hreq'
        subst hreq'
        rw [length_updateSteps] at hn
        exact if_pos (by omega)

/-- Later moments lie in the same or in later full syncs. -/
theorem progress_mono {reqs : List UpdateRoutesRequest} {p k n p' k' n' : Nat}
    (h : Progress reqs p k n) (h' : Progress reqs p' k' n') (hle : p ≤ p') : k ≤ k' := by
  by_contra hlt
  rcases h'.2 with ⟨hk', -⟩ | ⟨req, hreq, hn'⟩
  · rcases h.2 with ⟨hk, -⟩ | ⟨req, hreq, -⟩
    · omega
    · have := (List.getElem?_eq_some_iff.mp hreq).1
      omega
  · have hsucc : syncSteps (reqs.take (k' + 1)) = syncSteps (reqs.take k') ++ updateSteps req := by
      rw [List.take_add_one, hreq]
      exact syncSteps_concat _ req
    have hfirst : (syncSteps (reqs.take (k' + 1))).length ≤ (syncSteps (reqs.take k)).length := by
      have hprefix : reqs.take (k' + 1) <+: reqs.take k := List.take_prefix_take_left (by omega)
      rcases hprefix with ⟨rest, hrest⟩
      rw [← hrest]
      simp [syncSteps]
    rw [hsucc, List.length_append] at hfirst
    have hp := h.1
    have hp' := h'.1
    omega

/-! ## Torn and whole responses -/

/-- A response may pair old routes with a new version: the HTTP map is read before the
only full sync, the version after it. -/
theorem getRoutes_torn :
    ReadsAt [versioned 1 "a"] 0 0 4 ⟨[], [], 1⟩ ∧
      ¬ReportsOneSync [versioned 1 "a"] ⟨[], [], 1⟩ := by
  refine ⟨⟨rfl, rfl, rfl⟩, ?_⟩
  rintro ⟨k, hk, hhttp, -, hversion⟩
  have hcases : k = 0 ∨ k = 1 := by
    simp only [List.length_singleton] at hk
    omega
  rcases hcases with rfl | rfl
  · revert hversion
    decide
  · rw [mem_getHttpRoutes] at hhttp
    revert hhttp
    decide

/-- Each of the three reads reports one full sync: the version is that of the last one
completed, and a map lists the last completed table or the part of the next one
inserted so far.  The reads belong together when they fall between the same two full
syncs' completions and neither map was read after the next one's clear. -/
theorem getRoutes_reports (reqs : List UpdateRoutesRequest) (p q r : Nat) (hpq : p ≤ q)
    (hqr : q ≤ r) (hend : r ≤ (syncSteps reqs).length) (response : GetRoutesResponse)
    (h : ReadsAt reqs p q r response) :
    ∃ k₁ n₁ k₂ n₂ k₃ n₃, Progress reqs p k₁ n₁ ∧ Progress reqs q k₂ n₂ ∧
      Progress reqs r k₃ n₃ ∧ k₁ ≤ k₂ ∧ k₂ ≤ k₃ ∧
      ReportsHttp reqs k₁ n₁ response.httpRoutes ∧
      ReportsGrpc reqs k₂ n₂ response.grpcRoutes ∧
      response.version = (configured (reqs.take k₃)).version ∧
      (k₁ = k₃ → n₁ = 0 → n₂ ≤ 1 → response ∈ getRoutes (configured (reqs.take k₃))) := by
  rcases h with ⟨hhttp, hgrpc, hversion⟩
  rcases exists_progress reqs (hpq.trans (hqr.trans hend)) with ⟨k₁, n₁, hp⟩
  rcases exists_progress reqs (hqr.trans hend) with ⟨k₂, n₂, hq⟩
  rcases exists_progress reqs hend with ⟨k₃, n₃, hr⟩
  have hreportsHttp := reportsHttp_iff.mpr (reports_of_lists .http hp hhttp)
  have hreportsGrpc := reportsGrpc_iff.mpr (reports_of_lists .grpc hq hgrpc)
  have hk₁₂ := progress_mono hp hq hpq
  have hk₂₃ := progress_mono hq hr hqr
  rw [version_storeAfter hr] at hversion
  refine ⟨k₁, n₁, k₂, n₂, k₃, n₃, hp, hq, hr, hk₁₂, hk₂₃, hreportsHttp, hreportsGrpc,
    hversion, ?_⟩
  intro hsame hn₁ hn₂
  unfold ReportsHttp at hreportsHttp
  unfold ReportsGrpc at hreportsGrpc
  rw [if_pos hn₁, hsame] at hreportsHttp
  rw [if_pos hn₂, Nat.le_antisymm hk₂₃ (hsame ▸ hk₁₂)] at hreportsGrpc
  exact ⟨hreportsHttp, hreportsGrpc, hversion⟩

/-- Three reads during the second of two full syncs: each map is read just before its
clear, the version between the insertion and the write of the version.  The response
belongs to the first full sync. -/
theorem getRoutes_reports_during_second_sync :
    ReadsAt [versioned 1 "a", versioned 2 "b"] 4 5 7 ⟨[makeRoute "a" [] []], [], 1⟩ ∧
      ∃ k₁ n₁ k₂ n₂ k₃ n₃, Progress [versioned 1 "a", versioned 2 "b"] 4 k₁ n₁ ∧
        Progress [versioned 1 "a", versioned 2 "b"] 5 k₂ n₂ ∧
        Progress [versioned 1 "a", versioned 2 "b"] 7 k₃ n₃ ∧ k₁ ≤ k₂ ∧ k₂ ≤ k₃ ∧
        ReportsHttp [versioned 1 "a", versioned 2 "b"] k₁ n₁ [makeRoute "a" [] []] ∧
        ReportsGrpc [versioned 1 "a", versioned 2 "b"] k₂ n₂ [] ∧
        1 = (configured ([versioned 1 "a", versioned 2 "b"].take k₃)).version ∧
        (k₁ = k₃ → n₁ = 0 → n₂ ≤ 1 → ⟨[makeRoute "a" [] []], [], 1⟩ ∈
          getRoutes (configured ([versioned 1 "a", versioned 2 "b"].take k₃))) :=
  have hreads : ReadsAt [versioned 1 "a", versioned 2 "b"] 4 5 7
      ⟨[makeRoute "a" [] []], [], 1⟩ := ⟨rfl, rfl, rfl⟩
  ⟨hreads, getRoutes_reports [versioned 1 "a", versioned 2 "b"] 4 5 7 (by decide) (by decide)
    (by decide) _ hreads⟩

end RoutingService

end PingoraProxy
