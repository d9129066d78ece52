import PingoraProxy.Foundation.TransitionSystem
import PingoraProxy.Proxy.EnumerationOrder
import PingoraProxy.Proxy.Fairness

/-!
# Isolation between hosts

The routes of all hosts share one table, and every request scans all of them.  Still a
route whose host names do not match the host of a request has no influence on which
backend serves it: two tables that hold the same routes for a host serve its requests
alike, whatever they hold for others and in whatever order they are listed.

Main results:

- Theorem {lit}`findBackend_filter`: the routes that do not qualify may be left out.
- Theorem {lit}`exists_listing_of_same`: tables that hold the same qualifying routes serve
  a request alike.
- Theorem {lit}`host_isolation`: the same for any run of requests for one host.
-/

namespace PingoraProxy

open Foundation

namespace Router

variable (lc : Lowercasing)

/-- Some rule of a route qualifies for a request. -/
def qualifies (host path : Str) (route : HttpRoute) : Bool :=
  (routeScore lc host path route).isSome

/-- Some host name of a route matches, or it has none. -/
def servesHost (host : Str) (route : HttpRoute) : Bool :=
  (bestHostnameScore lc route.hostnames host).isSome

/-- Two tables hold the same routes of a kind under the same identifiers. -/
def AgreeOn (kind : HttpRoute → Bool) (table table' : DashMap HttpRoute) : Prop :=
  ∀ id route, kind route = true → (table.lookup id = some route ↔ table'.lookup id = some route)

/-- A route with a qualifying rule serves the host of the request. -/
theorem servesHost_of_qualifies {host path : Str} {route : HttpRoute}
    (h : qualifies lc host path route = true) : servesHost lc host route = true := by
  rcases Option.isSome_iff_exists.mp h with ⟨s, hs⟩
  rcases exists_rule_of_routeScore lc hs with ⟨rule, -, hscore⟩
  unfold slotScore at hscore
  unfold servesHost
  cases hhost : bestHostnameScore lc route.hostnames host with
  | none => simp [hhost] at hscore
  | some hs => rfl

/-- The routes that do not qualify may be left out. -/
theorem findBackend_filter (lb : LoadBalancer) (routes : List HttpRoute) (host path : Str) :
    findBackend lc lb (routes.filter (qualifies lc host path)) host path =
      findBackend lc lb routes host path := by
  apply findBackend_congr
  have hfilter := FirstBest.firstBest_filter (routeScore lc host path) routes
  rw [winner_eq_bind, winner_eq_bind lc routes, ← hfilter]
  rfl

/-- The routes of a kind are the same in tables that agree on it. -/
theorem AgreeOn.values_filter {kind : HttpRoute → Bool} {table table' : DashMap HttpRoute}
    (h : AgreeOn kind table table') :
    (ConcurrentMap.values table).filter (kind · = true) =
      (ConcurrentMap.values table').filter (kind · = true) := by
  have hentries : (table.entries.filter fun e => kind e.2 = true) =
      table'.entries.filter fun e => kind e.2 = true := by
    have hnodup : ∀ m : DashMap HttpRoute, (m.entries.filter fun e => kind e.2 = true).Nodup :=
      fun m => m.nodupKeys.nodup.filter _
    refine (Multiset.Nodup.ext (hnodup table) (hnodup table')).mpr fun e => ?_
    simp only [Multiset.mem_filter]
    refine and_congr_left fun hkind => ?_
    rw [← Finmap.lookup_eq_some_iff, ← Finmap.lookup_eq_some_iff]
    exact h e.1 e.2 hkind
  unfold ConcurrentMap.values
  rw [Multiset.filter_map, Multiset.filter_map]
  exact congrArg (Multiset.map Sigma.snd) hentries

/-- For every listing of one table there is one of the other with the routes of the kind
in the same order. -/
theorem AgreeOn.exists_lists {kind : HttpRoute → Bool} {table table' : DashMap HttpRoute}
    (h : AgreeOn kind table table') {routes : List HttpRoute} (hroutes : table.Lists routes) :
    ∃ routes', table'.Lists routes' ∧ routes'.filter kind = routes.filter kind := by
  rcases ConcurrentMap.exists_lists table' with ⟨others, hothers⟩
  refine ⟨routes.filter kind ++ others.filter fun route => !kind route, ?_, ?_⟩
  · have hkind : ((routes.filter kind : List HttpRoute) : Multiset HttpRoute) =
        (ConcurrentMap.values table').filter (kind · = true) := by
      rw [← h.values_filter, ← hroutes]
      simp
    have hrest : ((others.filter fun route => !kind route : List HttpRoute) :
        Multiset HttpRoute) = (ConcurrentMap.values table').filter (¬kind · = true) := by
      rw [← hothers]
      simp
    unfold ConcurrentMap.Lists
    rw [← Multiset.coe_add, hkind, hrest, Multiset.filter_add_not]
  · rw [List.filter_append, List.filter_filter, List.filter_filter]
    simp

/-- Tables that hold the same qualifying routes serve a request alike: for every listing
of one there is a listing of the other with the same answer. -/
theorem exists_listing_of_same {table table' : DashMap HttpRoute} {host path : Str}
    (h : AgreeOn (qualifies lc host path) table table') {routes : List HttpRoute}
    (hroutes : table.Lists routes) :
    ∃ routes', table'.Lists routes' ∧ ∀ lb,
      findBackend lc lb routes' host path = findBackend lc lb routes host path := by
  rcases h.exists_lists hroutes with ⟨routes', hroutes', hsame⟩
  refine ⟨routes', hroutes', fun lb => ?_⟩
  rw [← findBackend_filter, hsame, findBackend_filter]

/-- Any run of requests for one host that a table may serve is served alike by every table
with the same routes for this host: answer by answer, and with the same load balancer left
behind, under some listing for each request. -/
theorem host_isolation {table table' : DashMap HttpRoute} {host : Str}
    (h : AgreeOn (servesHost lc host) table table') (lb : LoadBalancer) (qs : List Query)
    (hqs : ∀ q ∈ qs, table.Lists q.routes ∧ q.host = host) :
    ∃ qs' : List Query, (∀ q ∈ qs', table'.Lists q.routes) ∧
      qs'.map (fun q => (q.host, q.path)) = qs.map (fun q => (q.host, q.path)) ∧
      TransitionSystem.inTurn (fun lb q => findBackend lc lb q.routes q.host q.path) lb qs' =
        TransitionSystem.inTurn (fun lb q => findBackend lc lb q.routes q.host q.path) lb qs := by
  induction qs generalizing lb with
  | nil => exact ⟨[], by simp, rfl, rfl⟩
  | cons q qs ih =>
      rcases hqs q (by simp) with ⟨hlists, rfl⟩
      have hqualifies : AgreeOn (qualifies lc q.host q.path) table table' :=
        fun id route hroute => h id route (servesHost_of_qualifies lc hroute)
      rcases exists_listing_of_same lc hqualifies hlists with ⟨routes', hroutes', hanswer⟩
      rcases ih (findBackend lc lb q.routes q.host q.path).2 fun r hr => hqs r (by simp [hr]) with
        ⟨qs', hqs', hsame, hrest⟩
      refine ⟨⟨routes', q.host, q.path⟩ :: qs', ?_, ?_, ?_⟩
      · intro r hr
        rcases List.mem_cons.mp hr with rfl | hr
        · exact hroutes'
        · exact hqs' r hr
      · rw [List.map_cons, List.map_cons, hsame]
      · simp only [TransitionSystem.inTurn, hanswer lb, hrest]

/-- A route for one host that is its own identifier. -/
def routeFor (host address : String) : HttpRoute :=
  makeRoute host [host] [oneBackendRule address]

/-- Tables with one route for a host and one for another host agree on the first host. -/
theorem agreeOn_of_other_host :
    AgreeOn (servesHost .ascii "a.com".toList)
      (httpTable [routeFor "a.com" "10.0.0.1:80", routeFor "b.com" "10.0.0.2:80"])
      (httpTable [routeFor "a.com" "10.0.0.1:80", routeFor "c.com" "10.0.0.3:80"]) := by
  intro id route hserves
  constructor
  · intro hlookup
    rcases ConcurrentMap.lookup_tableOf_eq_some HttpRoute.id hlookup with ⟨hmem, rfl⟩
    rcases List.mem_cons.mp hmem with rfl | hother
    · decide
    · rw [List.mem_singleton.mp hother] at hserves
      exact absurd hserves (by decide)
  · intro hlookup
    rcases ConcurrentMap.lookup_tableOf_eq_some HttpRoute.id hlookup with ⟨hmem, rfl⟩
    rcases List.mem_cons.mp hmem with rfl | hother
    · decide
    · rw [List.mem_singleton.mp hother] at hserves
      exact absurd hserves (by decide)

/-- Requests for the first host get its backend under the other table as well. -/
theorem host_isolation_two :
    ∃ qs' : List Query,
      (∀ q ∈ qs', (httpTable [routeFor "a.com" "10.0.0.1:80",
        routeFor "c.com" "10.0.0.3:80"]).Lists q.routes) ∧
      qs'.map (fun q => (q.host, q.path)) =
        [("a.com".toList, ['/']), ("a.com".toList, "/x".toList)] ∧
      (TransitionSystem.inTurn (fun lb q => findBackend .ascii lb q.routes q.host q.path)
        (.new (.new 1)) qs').1 =
          [some (makeBackend "10.0.0.1:80" 1), some (makeBackend "10.0.0.1:80" 1)] := by
  rcases host_isolation .ascii agreeOn_of_other_host (.new (.new 1))
    [⟨[routeFor "a.com" "10.0.0.1:80", routeFor "b.com" "10.0.0.2:80"], "a.com".toList, ['/']⟩,
      ⟨[routeFor "b.com" "10.0.0.2:80", routeFor "a.com" "10.0.0.1:80"], "a.com".toList,
        "/x".toList⟩]
    (by decide) with ⟨qs', hlists, hsame, hanswers⟩
  refine ⟨qs', hlists, hsame, ?_⟩
  rw [hanswers]
  decide

end Router

end PingoraProxy
