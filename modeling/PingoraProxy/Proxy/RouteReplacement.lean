import PingoraProxy.Proxy.EnumerationOrder
import PingoraProxy.Proxy.RoutePriority
import PingoraProxy.Store.PartialSync

/-!
# Routing while the table is replaced

A search for a backend reads the HTTP table once, and that read may fall between any
two writes of a full sync.  Before the first write it sees the old table, from then on
only the routes inserted so far.

Main results:

- Theorem {lit}`servedFrom_of_hasEligible`: with an eligible rule in the table and all
  backends healthy some backend of the chosen rule is returned.
- Theorem {lit}`findBackend_gap_during_update`: in the middle of a replacement a request
  that both tables serve may find no backend.
- Theorem {lit}`findBackend_during_update`: what a search returns at any moment of a
  replacement.
-/

namespace PingoraProxy

open Foundation

namespace Router

variable (lc : Lowercasing)

/-! ## Serving from a table -/

/-- Some rule of the table is eligible for the request. -/
def HasEligible (table : DashMap HttpRoute) (host path : Str) : Prop :=
  ∃ id route, table.lookup id = some route ∧
    ∃ rule ∈ route.rules, Eligible lc host path (route, rule)

/-- The result is a backend of the rule chosen under the whole table, in one of the
orders in which it may be listed. -/
def ServedFrom (table : DashMap HttpRoute) (host path : Str) (result : Option Backend) : Prop :=
  ∃ l slot score b, table.Lists l ∧ winner lc l host path = some (slot, score) ∧
    b ∈ slot.2.backends ∧ result = some b

/-- Every backend of a route is healthy. -/
def RouteHealthy (tracker : HealthTracker) (route : HttpRoute) : Prop :=
  ∀ rule ∈ route.rules, ∀ b ∈ rule.backends, tracker.isHealthy b.address = true

/-- The store at some moment of a full sync: after its first writes. -/
def storeDuring (store : RouteStore) (req : UpdateRoutesRequest) (n : Nat) : RouteStore :=
  ((updateSteps req).take n).foldl StoreStep.apply store

/-- Replacing the table is invisible to a request: at every moment of the full sync it
is served from the old or from the new table. -/
def ReplacementInvisible (store : RouteStore) (req : UpdateRoutesRequest) (host path : Str) :
    Prop :=
  ∀ lb : LoadBalancer,
    (∀ id route, store.httpRoutes.lookup id = some route → RouteHealthy lb.healthTracker route) →
    (∀ route ∈ req.httpRoutes, RouteHealthy lb.healthTracker route) →
    ∀ n ≤ (updateSteps req).length, ∀ l ∈ (storeDuring store req n).getHttpRoutes,
      ServedFrom lc store.httpRoutes host path (findBackend lc lb l host path).1 ∨
        ServedFrom lc (httpTable req.httpRoutes) host path (findBackend lc lb l host path).1

/-- A listing of a table with an eligible rule has a winner. -/
theorem exists_winner {table : DashMap HttpRoute} {l : List HttpRoute} {host path : Str}
    (hl : table.Lists l) (h : HasEligible lc table host path) :
    ∃ slot score, winner lc l host path = some (slot, score) := by
  rcases h with ⟨id, route, hlookup, rule, hrule, heligible⟩
  have hmem : (route, rule) ∈ slots l :=
    mem_slots.mpr ⟨hl.mem_iff.mpr ⟨id, hlookup⟩, hrule⟩
  rcases Option.isSome_iff_exists.mp ((isSome_slotScore_iff lc).mpr heligible) with ⟨s, hs⟩
  rcases FirstBest.exists_firstBest_of_mem hmem hs with ⟨slot, score, hbest, -⟩
  exact ⟨slot, score, hbest⟩

/-- The winner of a listing is an eligible rule of one of its routes. -/
theorem winner_mem {l : List HttpRoute} {host path : Str} {slot : Slot} {score : Nat ×ₗ Nat}
    (h : winner lc l host path = some (slot, score)) :
    slot ∈ slots l ∧ Eligible lc host path slot := by
  have hbest := (FirstBest.isFirstBest_of_firstBest h).mem
  exact ⟨hbest.1, (isSome_slotScore_iff lc).mp (by rw [hbest.2]; rfl)⟩

/-- A healthy winner yields one of its backends. -/
theorem findBackend_of_healthy_winner {l : List HttpRoute} {host path : Str} {slot : Slot}
    {score : Nat ×ₗ Nat} (h : winner lc l host path = some (slot, score)) {lb : LoadBalancer}
    (hhealthy : ∀ route ∈ l, RouteHealthy lb.healthTracker route) :
    ∃ b ∈ slot.2.backends, (findBackend lc lb l host path).1 = some b := by
  rcases winner_mem lc h with ⟨hslot, heligible⟩
  rcases mem_slots.mp hslot with ⟨hroute, hrule⟩
  have hsome : (lb.next slot.2.backends).1 ≠ none := by
    intro hnone
    rcases List.exists_mem_of_ne_nil _ heligible.2.1 with ⟨b, hb⟩
    have hunhealthy := LoadBalancer.next_eq_none_iff.mp hnone b hb
    rw [hhealthy slot.1 hroute slot.2 hrule b hb] at hunhealthy
    cases hunhealthy
  rcases Option.ne_none_iff_exists'.mp hsome with ⟨i, hi⟩
  refine ⟨slot.2.backends.get i, List.getElem_mem i.isLt, ?_⟩
  rw [findBackend_eq_of_winner lc h, hi]
  rfl

/-- With an eligible rule in the table and all its backends healthy, some backend of the
chosen rule is returned. -/
theorem servedFrom_of_hasEligible {table : DashMap HttpRoute} {l : List HttpRoute}
    {host path : Str} (hl : table.Lists l) (h : HasEligible lc table host path)
    {lb : LoadBalancer}
    (hhealthy : ∀ id route, table.lookup id = some route → RouteHealthy lb.healthTracker route) :
    ServedFrom lc table host path (findBackend lc lb l host path).1 := by
  rcases exists_winner lc hl h with ⟨slot, score, hwinner⟩
  have hhealthy' : ∀ route ∈ l, RouteHealthy lb.healthTracker route := by
    intro route hroute
    rcases hl.mem_iff.mp hroute with ⟨id, hid⟩
    exact hhealthy id route hid
  rcases findBackend_of_healthy_winner lc hwinner hhealthy' with ⟨b, hb, hresult⟩
  exact ⟨l, slot, score, b, hl, hwinner, hb, hresult⟩

/-- Without an eligible rule in the table nothing is returned. -/
theorem findBackend_of_not_hasEligible {table : DashMap HttpRoute} {l : List HttpRoute}
    {host path : Str} (hl : table.Lists l) (h : ¬HasEligible lc table host path)
    (lb : LoadBalancer) : (findBackend lc lb l host path).1 = none := by
  cases hwinner : winner lc l host path with
  | none => rw [findBackend_eq_none lc hwinner]
  | some best =>
      rcases winner_mem lc hwinner with ⟨hslot, heligible⟩
      rcases mem_slots.mp hslot with ⟨hroute, hrule⟩
      rcases hl.mem_iff.mp hroute with ⟨id, hid⟩
      exact absurd ⟨id, best.1.1, hid, best.1.2, hrule, heligible⟩ h

/-! ## Tables of the first routes -/

/-- The routes of a table were submitted. -/
theorem mem_of_lookup_httpTable {routes : List HttpRoute} {id : Str} {route : HttpRoute}
    (h : (httpTable routes).lookup id = some route) : route ∈ routes :=
  (ConcurrentMap.lookup_tableOf_eq_some HttpRoute.id h).1

/-- The HTTP table after some writes of a full sync. -/
theorem httpRoutes_storeDuring (store : RouteStore) (req : UpdateRoutesRequest) (n : Nat) :
    (storeDuring store req n).httpRoutes =
      if n = 0 then store.httpRoutes else httpTable (req.httpRoutes.take (n - 2)) := by
  unfold storeDuring
  rw [RouteStore.foldl_take_updateSteps]
  rfl

/-- Once a route of greatest score is among the first ones, the later ones do not change
which rule wins. -/
theorem winner_append_of_top {routes : List HttpRoute} {m : Nat} {host path : Str}
    {route : HttpRoute} (htop : IsTopRoute lc host path routes route) {l : List HttpRoute}
    (hl : route ∈ l) {slot : Slot} {score : Nat ×ₗ Nat}
    (hwinner : winner lc l host path = some (slot, score)) :
    winner lc (l ++ routes.drop m) host path = some (slot, score) := by
  rcases htop with ⟨-, s, hs, hmax⟩
  have hbest := FirstBest.isFirstBest_of_firstBest hwinner
  -- the winner scores at least as much as the route of greatest score
  have hle : s ≤ score := by
    rcases exists_rule_of_routeScore lc hs with ⟨rule, hrule, ht⟩
    exact hbest.le (mem_slots.mpr ⟨hl, hrule⟩) ht
  have hslots : slots (l ++ routes.drop m) = slots l ++ slots (routes.drop m) :=
    List.flatMap_append
  unfold winner at hwinner ⊢
  rw [hslots]
  apply FirstBest.firstBest_append_of_le hwinner
  intro other hother t ht
  rcases mem_slots.mp hother with ⟨hroute, hrule⟩
  rcases exists_routeScore_of_rule lc hrule ht with ⟨u, hu, htu⟩
  exact htu.trans ((hmax other.1 (List.mem_of_mem_drop hroute) u hu).trans hle)

/-- A listing that holds a route of greatest score has a winner. -/
theorem exists_winner_of_top {routes l : List HttpRoute} {host path : Str} {route : HttpRoute}
    (htop : IsTopRoute lc host path routes route) (hl : route ∈ l) :
    ∃ slot score, winner lc l host path = some (slot, score) := by
  rcases htop with ⟨-, s, hs, -⟩
  rcases exists_rule_of_routeScore lc hs with ⟨rule, hrule, ht⟩
  rcases FirstBest.exists_firstBest_of_mem (mem_slots.mpr ⟨hl, hrule⟩) ht with
    ⟨slot, score, hfirst, -⟩
  exact ⟨slot, score, hfirst⟩

/-- With distinct identifiers, the first routes of a table serve a request as the whole
table does once a route of greatest score is among them. -/
theorem servedFrom_of_top {routes l : List HttpRoute} {m : Nat} {host path : Str}
    {route : HttpRoute} (hids : (routes.map HttpRoute.id).Nodup)
    (hl : (httpTable (routes.take m)).Lists l) (hroute : route ∈ routes.take m)
    (htop : IsTopRoute lc host path routes route) {lb : LoadBalancer}
    (hhealthy : ∀ r ∈ routes, RouteHealthy lb.healthTracker r) :
    ServedFrom lc (httpTable routes) host path (findBackend lc lb l host path).1 := by
  have hidsTake : ((routes.take m).map HttpRoute.id).Nodup :=
    hids.sublist ((List.take_sublist _ _).map _)
  have hperm : l.Perm (routes.take m) :=
    (ConcurrentMap.lists_tableOf HttpRoute.id hidsTake).mp hl
  have hmem : route ∈ l := hperm.mem_iff.mpr hroute
  rcases exists_winner_of_top lc htop hmem with ⟨slot, score, hwinner⟩
  have hhealthyTake : ∀ r ∈ l, RouteHealthy lb.healthTracker r := fun r hr =>
    hhealthy r (List.mem_of_mem_take (hperm.mem_iff.mp hr))
  rcases findBackend_of_healthy_winner lc hwinner hhealthyTake with ⟨b, hb, hresult⟩
  -- the inserted routes first, then the missing ones, is a listing of the new table
  refine ⟨l ++ routes.drop m, slot, score, b, ?_,
    winner_append_of_top lc htop hmem hwinner, hb, hresult⟩
  rw [httpTable, ConcurrentMap.lists_tableOf HttpRoute.id hids]
  exact (hperm.append_right _).trans (List.take_append_drop _ _ ▸ .refl _)

/-! ## Moments of a replacement -/

/-- A configuration with one catch-all route. -/
def catchAll (id address : String) (version : UInt64) : UpdateRoutesRequest where
  httpRoutes := [makeRoute id [] [oneBackendRule address]]
  grpcRoutes := []
  version := version

/-- In the middle of a replacement a request that both tables serve may find no backend:
right after the clear the table is empty. -/
theorem findBackend_gap_during_update :
    HasEligible .ascii (catchAll "old" "old:80" 1).configuration.httpRoutes ['h'] ['/'] ∧
      HasEligible .ascii (httpTable (catchAll "new" "new:80" 2).httpRoutes) ['h'] ['/'] ∧
      ¬ReplacementInvisible .ascii (catchAll "old" "old:80" 1).configuration
        (catchAll "new" "new:80" 2) ['h'] ['/'] := by
  refine ⟨⟨"old".toList, _, rfl, _, List.mem_singleton_self _, by decide⟩,
    ⟨"new".toList, _, rfl, _, List.mem_singleton_self _, by decide⟩, ?_⟩
  intro h
  rcases h (.new (.new 3)) (fun _ _ _ _ _ _ _ => rfl) (fun _ _ _ _ _ _ => rfl) 1 (by decide) []
    rfl with ⟨_, _, _, _, _, _, _, hnone⟩ | ⟨_, _, _, _, _, _, _, hnone⟩
  · cases hnone
  · cases hnone

/-- What a search returns when its read falls after some writes of a full sync, with a
rule for the request in both tables and all backends healthy.  Before the first write it
is served from the old table.  After it the routes inserted so far decide alone.  Once
all routes are inserted it is served from the new table, and with distinct identifiers
already once a route of greatest score is. -/
theorem findBackend_during_update (store : RouteStore) (req : UpdateRoutesRequest)
    (host path : Str) (hold : HasEligible lc store.httpRoutes host path)
    (hnew : HasEligible lc (httpTable req.httpRoutes) host path) (lb : LoadBalancer)
    (hhealthyOld : ∀ id route, store.httpRoutes.lookup id = some route →
      RouteHealthy lb.healthTracker route)
    (hhealthyNew : ∀ route ∈ req.httpRoutes, RouteHealthy lb.healthTracker route)
    (n : Nat) (l : List HttpRoute) (hl : l ∈ (storeDuring store req n).getHttpRoutes) :
    (n = 0 → ServedFrom lc store.httpRoutes host path (findBackend lc lb l host path).1) ∧
    (0 < n → HasEligible lc (httpTable (req.httpRoutes.take (n - 2))) host path →
      ServedFrom lc (httpTable (req.httpRoutes.take (n - 2))) host path
        (findBackend lc lb l host path).1) ∧
    (0 < n → ¬HasEligible lc (httpTable (req.httpRoutes.take (n - 2))) host path →
      (findBackend lc lb l host path).1 = none) ∧
    (2 + req.httpRoutes.length ≤ n →
      ServedFrom lc (httpTable req.httpRoutes) host path (findBackend lc lb l host path).1) ∧
    ((req.httpRoutes.map HttpRoute.id).Nodup →
      (∃ route ∈ req.httpRoutes.take (n - 2), IsTopRoute lc host path req.httpRoutes route) →
      ServedFrom lc (httpTable req.httpRoutes) host path (findBackend lc lb l host path).1) := by
  rw [RouteStore.mem_getHttpRoutes, httpRoutes_storeDuring] at hl
  have htable : 0 < n → (httpTable (req.httpRoutes.take (n - 2))).Lists l := by
    intro hpos
    rwa [if_neg hpos.ne'] at hl
  have hhealthyTake : ∀ id route,
      (httpTable (req.httpRoutes.take (n - 2))).lookup id = some route →
      RouteHealthy lb.healthTracker route := fun id route hid =>
    hhealthyNew route (List.mem_of_mem_take (mem_of_lookup_httpTable hid))
  refine ⟨?_, ?_, ?_, ?_, ?_⟩
  · intro hzero
    rw [if_pos hzero] at hl
    exact servedFrom_of_hasEligible lc hl hold hhealthyOld
  · intro hpos heligible
    exact servedFrom_of_hasEligible lc (htable hpos) heligible hhealthyTake
  · intro hpos heligible
    exact findBackend_of_not_hasEligible lc (htable hpos) heligible lb
  · intro hall
    have hlists := htable (by omega)
    rw [List.take_of_length_le (by omega)] at hlists
    exact servedFrom_of_hasEligible lc hlists hnew fun id route hid =>
      hhealthyNew route (mem_of_lookup_httpTable hid)
  · rintro hids ⟨route, hroute, htop⟩
    have hpos : 0 < n := by
      by_contra hzero
      have hnil : n - 2 = 0 := by omega
      rw [hnil] at hroute
      cases hroute
    exact servedFrom_of_top lc hids (htable hpos) hroute htop hhealthyNew

/-- Before the first write the request is served from the old table, between the clear and
the insertion from none, and after the insertion from the new one. -/
theorem findBackend_through_update :
    ServedFrom .ascii (catchAll "old" "old:80" 1).configuration.httpRoutes ['h'] ['/']
        (findBackend .ascii (.new (.new 3)) (catchAll "old" "old:80" 1).httpRoutes ['h'] ['/']).1 ∧
      (findBackend .ascii (.new (.new 3)) [] ['h'] ['/']).1 = none ∧
      ServedFrom .ascii (httpTable (catchAll "new" "new:80" 2).httpRoutes) ['h'] ['/']
        (findBackend .ascii (.new (.new 3)) (catchAll "new" "new:80" 2).httpRoutes
          ['h'] ['/']).1 := by
  have h := findBackend_during_update .ascii (catchAll "old" "old:80" 1).configuration
    (catchAll "new" "new:80" 2) ['h'] ['/']
    ⟨"old".toList, _, rfl, _, List.mem_singleton_self _, by decide⟩
    ⟨"new".toList, _, rfl, _, List.mem_singleton_self _, by decide⟩ (.new (.new 3))
    (fun _ _ _ _ _ _ _ => rfl) (fun _ _ _ _ _ _ => rfl)
  refine ⟨(h 0 _ rfl).1 rfl, (h 1 [] rfl).2.2.1 (by decide) ?_, ?_⟩
  · rintro ⟨id, route, hid, -⟩
    cases hid
  · exact (h 3 (catchAll "new" "new:80" 2).httpRoutes rfl).2.2.2.1 (by decide)

end Router

end PingoraProxy
