import PingoraProxy.Store.ConcurrentSync

/-!
# What racing full syncs leave behind

Any number of full syncs may race, and the store need not end as one call's
configuration.  The HTTP table is nevertheless never without a complete writer: the call
that clears it last inserts all its routes afterwards, and nothing that was there before
survives.

Main results:

- Theorem {lit}`httpRoutes_exec_of_cleared`: once some call has cleared the HTTP map, it
  holds at any moment the routes inserted since the last clear.
- Theorem {lit}`racing_syncs_keep_complete_writer`: after all calls the HTTP table has
  every identifier of the call that cleared it last and only submitted routes.
-/

namespace PingoraProxy

open Foundation Foundation.Interleaving

namespace RouteStore

variable {ι : Type}

/-! ## The HTTP map at any moment -/

/-- The HTTP routes inserted since the last clear of the HTTP map. -/
def httpSinceClear (tr : List (ι × StoreStep)) : List HttpRoute :=
  RefillRace.insertedSince ((restrict StoreStep.httpOp tr).map Prod.snd)

/-- The call whose clear of the HTTP map comes last. -/
def lastHttpClearer (tr : List (ι × StoreStep)) : Option ι :=
  (lastStep (fun step => step == .clearHttp) tr).map Prod.fst

/-- The HTTP table depends only on the interleaving of the writes to it. -/
theorem httpRoutes_exec (store : RouteStore) (tr : List (ι × StoreStep)) :
    (exec StoreStep.apply store tr).httpRoutes =
      ConcurrentMap.replay HttpRoute.id store.httpRoutes
        ((restrict StoreStep.httpOp tr).map Prod.snd) :=
  table_exec .http store tr

/-- Once some call has cleared the HTTP map, it holds the routes inserted since the last
clear, whatever the store held at first. -/
theorem httpRoutes_exec_of_cleared (store : RouteStore) {tr : List (ι × StoreStep)} {x : ι}
    (hclear : (x, StoreStep.clearHttp) ∈ tr) :
    (exec StoreStep.apply store tr).httpRoutes = httpTable (httpSinceClear tr) := by
  have hmem : ConcurrentMap.MapOp.clear ∈ (restrict StoreStep.httpOp tr).map Prod.snd := by
    rw [map_snd_restrict]
    exact List.mem_filterMap.mpr ⟨_, List.mem_map_of_mem hclear, rfl⟩
  rw [httpRoutes_exec]
  exact RefillRace.replay_eq_tableOf_insertedSince HttpRoute.id _ hmem

/-- The last clear of the HTTP map is the last clear among the writes to it. -/
theorem lastHttpClearer_eq (tr : List (ι × StoreStep)) :
    lastHttpClearer tr = RefillRace.lastClearer (restrict StoreStep.httpOp tr) := by
  have hkind : (fun step : StoreStep => step == .clearHttp) =
      fun step => (StoreStep.httpOp step).any ConcurrentMap.MapOp.isClear := by
    funext step
    cases step <;> rfl
  unfold lastHttpClearer RefillRace.lastClearer
  rw [lastStep_restrict, hkind]

/-! ## After all calls -/

variable [DecidableEq ι] {reqs : ι → UpdateRoutesRequest} {tr : List (ι × StoreStep)}

/-- Every call clears the HTTP map. -/
theorem clearHttp_mem (h : SyncsInterleave reqs tr) (x : ι) : (x, StoreStep.clearHttp) ∈ tr := by
  rw [← mem_proj, h x]
  exact List.mem_cons_self

/-- Some call clears the HTTP map last. -/
theorem exists_lastHttpClearer (h : SyncsInterleave reqs tr) (x : ι) :
    ∃ y, lastHttpClearer tr = some y := by
  rw [lastHttpClearer_eq]
  exact RefillRace.exists_lastClearer (h.ofKind .http) x

/-- The call that clears the HTTP map last leaves all its identifiers there. -/
theorem mem_httpRoutes_of_lastHttpClearer (h : SyncsInterleave reqs tr) (store : RouteStore)
    {x : ι} (hlast : lastHttpClearer tr = some x) {route : HttpRoute}
    (hroute : route ∈ (reqs x).httpRoutes) :
    route.id ∈ (exec StoreStep.apply store tr).httpRoutes := by
  rw [lastHttpClearer_eq] at hlast
  rw [httpRoutes_exec]
  exact RefillRace.mem_replay_of_lastClearer HttpRoute.id (h.ofKind .http) _ hlast hroute

/-- Every route of the HTTP table was submitted under its identifier. -/
theorem submitted_of_lookup_httpRoutes (h : SyncsInterleave reqs tr) (store : RouteStore)
    (x : ι) {id : Str} {route : HttpRoute}
    (hlookup : (exec StoreStep.apply store tr).httpRoutes.lookup id = some route) :
    ∃ i, route ∈ (reqs i).httpRoutes ∧ route.id = id := by
  rw [httpRoutes_exec] at hlookup
  exact RefillRace.exists_mem_of_lookup_replay HttpRoute.id (h.ofKind .http) _ x hlookup

/-- Racing full syncs never leave the HTTP table without a complete writer: it has every
identifier submitted by the call that cleared it last, every route in it was submitted
under its identifier by one of the calls, and nothing in it depends on the initial
store.  The version is that of one of the calls. -/
theorem racing_syncs_keep_complete_writer [Nonempty ι] (reqs : ι → UpdateRoutesRequest)
    (store : RouteStore) (tr : List (ι × StoreStep)) (h : SyncsInterleave reqs tr) :
    (∃ x, lastHttpClearer tr = some x ∧
      ∀ route ∈ (reqs x).httpRoutes,
        route.id ∈ (exec StoreStep.apply store tr).httpRoutes) ∧
    (∀ id route, (exec StoreStep.apply store tr).httpRoutes.lookup id = some route →
      ∃ i, route ∈ (reqs i).httpRoutes ∧ route.id = id) ∧
    (∀ store', (exec StoreStep.apply store' tr).httpRoutes =
      (exec StoreStep.apply store tr).httpRoutes) ∧
    (∃ i, (exec StoreStep.apply store tr).version = (reqs i).version) ∧
    ((∀ i, (reqs i).httpRoutes ≠ []) → (exec StoreStep.apply store tr).httpRoutes ≠ ∅) := by
  rcases ‹Nonempty ι› with ⟨i⟩
  rcases exists_lastHttpClearer h i with ⟨x, hx⟩
  rcases exists_lastVersionWriter h i with ⟨y, hy⟩
  refine ⟨⟨x, hx, ?_⟩, ?_, ?_, ⟨y, version_exec h store hy⟩, ?_⟩
  · intro route hroute
    exact mem_httpRoutes_of_lastHttpClearer h store hx hroute
  · intro id route hlookup
    exact submitted_of_lookup_httpRoutes h store i hlookup
  · intro store'
    rw [httpRoutes_exec_of_cleared store' (clearHttp_mem h i),
      httpRoutes_exec_of_cleared store (clearHttp_mem h i)]
  · intro hne hempty
    rcases List.exists_mem_of_ne_nil _ (hne x) with ⟨route, hroute⟩
    have hmem := mem_httpRoutes_of_lastHttpClearer h store hx hroute
    rw [hempty] at hmem
    exact Finmap.notMem_empty hmem

/-- A store that already holds a route. -/
def storeWithOldRoute : RouteStore :=
  (new.updateRoutes [makeRoute "old" [] []] [] 7).2

/-- The first call inserts its route before the second clears the map, and stores its
version after the second has returned. -/
def clearsBetween : List (Bool × StoreStep) :=
  [(true, .clearHttp), (true, .clearGrpc), (true, .insertHttp (makeRoute "a" [] [])),
    (false, .clearHttp), (false, .clearGrpc), (false, .insertHttp (makeRoute "b" [] [])),
    (false, .storeVersion 2), (true, .storeVersion 1)]

/-- The second call, which clears last, is complete, although the version is that of the
first. -/
theorem racing_syncs_keep_complete_writer_clearsBetween :
    SyncsInterleave (pairOf (versioned 1 "a") (versioned 2 "b")) clearsBetween ∧
      lastHttpClearer clearsBetween = some false ∧
      ['b'] ∈ (exec StoreStep.apply storeWithOldRoute clearsBetween).httpRoutes ∧
      (exec StoreStep.apply storeWithOldRoute clearsBetween).version = 1 ∧
      (exec StoreStep.apply storeWithOldRoute clearsBetween).httpRoutes ≠ ∅ := by
  have h : SyncsInterleave (pairOf (versioned 1 "a") (versioned 2 "b")) clearsBetween := by
    intro i
    revert i
    decide
  rcases racing_syncs_keep_complete_writer _ storeWithOldRoute clearsBetween h with
    ⟨⟨x, hlast, hcomplete⟩, -, -, -, hnonempty⟩
  have hx : x = false := Option.some.inj (hlast.symm.trans rfl)
  subst hx
  refine ⟨h, hlast, ?_, rfl, ?_⟩
  · exact hcomplete (makeRoute "b" [] []) (by decide)
  · apply hnonempty
    decide

end RouteStore

end PingoraProxy
