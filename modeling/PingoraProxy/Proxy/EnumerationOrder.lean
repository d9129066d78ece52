import PingoraProxy.Proxy.Router

/-!
# Routing and the order of the route table

The route table is a hash map, so an iteration may list the routes in any order.
The score of the serving rule is the same under every order; the rule itself is
not when several routes attain that score.

Main results:

- Theorem {lit}`findBackend_eq_alone`: a request is served as if the first route
  of greatest score were alone in the table.
- Theorem {lit}`findBackend_differs_between_orders`: two routes with one score are
  served in the order of the listing.
- Theorem {lit}`sameUnderEveryOrder_iff`: the order does not matter exactly when
  all routes of greatest score yield the same backend on their own.
-/

namespace PingoraProxy

open Foundation

namespace Router

variable (lc : Lowercasing)

/-! ## Routes that compete as a whole -/

/-- The score a route reaches by its best rule, if one qualifies. -/
def routeScore (host path : Str) (route : HttpRoute) : Option (Nat ×ₗ Nat) :=
  FirstBest.blockScore (slotScore lc host path) routeSlots route

/-- A route of greatest score for a request. -/
def IsTopRoute (host path : Str) (routes : List HttpRoute) (route : HttpRoute) : Prop :=
  route ∈ routes ∧ ∃ s, routeScore lc host path route = some s ∧
    ∀ other ∈ routes, ∀ t, routeScore lc host path other = some t → t ≤ s

/-- Every listing of the table of some routes yields the same backend. -/
def SameUnderEveryOrder (lb : LoadBalancer) (routes : List HttpRoute) (host path : Str) : Prop :=
  ∀ l l', (httpTable routes).Lists l → (httpTable routes).Lists l' →
    (findBackend lc lb l host path).1 = (findBackend lc lb l' host path).1

/-- The score of a route is that of one of its rules. -/
theorem exists_rule_of_routeScore {host path : Str} {route : HttpRoute} {s : Nat ×ₗ Nat}
    (h : routeScore lc host path route = some s) :
    ∃ rule ∈ route.rules, slotScore lc host path (route, rule) = some s := by
  rcases Option.map_eq_some_iff.mp h with ⟨⟨best, t⟩, hblock, rfl⟩
  rcases (FirstBest.isFirstBest_of_firstBest hblock).mem with ⟨hmem, ht⟩
  rcases List.mem_map.mp hmem with ⟨rule, hrule, rfl⟩
  exact ⟨rule, hrule, ht⟩

/-- A route scores at least as much as each of its rules. -/
theorem exists_routeScore_of_rule {host path : Str} {slot : Slot} {s : Nat ×ₗ Nat}
    (hrule : slot.2 ∈ slot.1.rules) (h : slotScore lc host path slot = some s) :
    ∃ t, routeScore lc host path slot.1 = some t ∧ s ≤ t := by
  have hmem : slot ∈ routeSlots slot.1 := List.mem_map_of_mem hrule
  rcases FirstBest.exists_firstBest_of_mem hmem h with ⟨best, t, hblock, hle⟩
  refine ⟨t, ?_, hle⟩
  unfold routeScore FirstBest.blockScore
  rw [hblock]
  rfl

/-- Only the winning rule matters. -/
theorem findBackend_congr {routes routes' : List HttpRoute} {host path : Str}
    (h : winner lc routes host path = winner lc routes' host path) (lb : LoadBalancer) :
    findBackend lc lb routes host path = findBackend lc lb routes' host path := by
  cases hwinner : winner lc routes' host path with
  | none => rw [findBackend_eq_none lc (h.trans hwinner), findBackend_eq_none lc hwinner]
  | some best =>
      rw [findBackend_eq_of_winner lc (h.trans hwinner), findBackend_eq_of_winner lc hwinner]

/-- The rules of a route alone in the table. -/
theorem winner_singleton (route : HttpRoute) (host path : Str) :
    winner lc [route] host path =
      FirstBest.firstBest (slotScore lc host path) (routeSlots route) := by
  unfold winner slots
  rw [List.flatMap_singleton]

/-- The first route of greatest score decides which rule wins. -/
theorem winner_eq_bind (routes : List HttpRoute) (host path : Str) :
    winner lc routes host path =
      (FirstBest.firstBest (routeScore lc host path) routes).bind
        fun best => winner lc [best.1] host path := by
  simp only [winner_singleton]
  exact FirstBest.firstBest_flatMap (slotScore lc host path) routeSlots routes

/-- The score of the winning rule is the one of the first route of greatest score. -/
theorem map_snd_winner (routes : List HttpRoute) (host path : Str) :
    (winner lc routes host path).map Prod.snd =
      (FirstBest.firstBest (routeScore lc host path) routes).map Prod.snd := by
  rw [winner_eq_bind]
  cases h : FirstBest.firstBest (routeScore lc host path) routes with
  | none => rfl
  | some best =>
      have hscore : routeScore lc host path best.1 = some best.2 :=
        (FirstBest.isFirstBest_of_firstBest h).mem.2
      rw [Option.bind_some, winner_singleton]
      exact hscore

/-- A request is served as if the first route of greatest score were alone. -/
theorem findBackend_eq_alone {routes : List HttpRoute} {host path : Str} {route : HttpRoute}
    {s : Nat ×ₗ Nat}
    (h : FirstBest.firstBest (routeScore lc host path) routes = some (route, s))
    (lb : LoadBalancer) :
    findBackend lc lb routes host path = findBackend lc lb [route] host path := by
  apply findBackend_congr
  rw [winner_eq_bind, h]
  rfl

/-- The first best route is a route of greatest score. -/
theorem isTopRoute_of_firstBest {routes : List HttpRoute} {host path : Str} {route : HttpRoute}
    {s : Nat ×ₗ Nat}
    (h : FirstBest.firstBest (routeScore lc host path) routes = some (route, s)) :
    IsTopRoute lc host path routes route := by
  have hbest := FirstBest.isFirstBest_of_firstBest h
  exact ⟨hbest.mem.1, s, hbest.mem.2, fun other hother t ht => hbest.le hother ht⟩

/-- The routes of greatest score do not depend on the order. -/
theorem IsTopRoute.of_perm {routes routes' : List HttpRoute} {host path : Str}
    {route : HttpRoute} (h : IsTopRoute lc host path routes route)
    (hperm : routes.Perm routes') : IsTopRoute lc host path routes' route := by
  rcases h with ⟨hmem, s, hs, hmax⟩
  exact ⟨hperm.mem_iff.mp hmem, s, hs,
    fun other hother => hmax other (hperm.mem_iff.mpr hother)⟩

/-- A request is served as if some route of greatest score were alone, or there is no
such route and nothing is selected. -/
theorem findBackend_alone_or_none (lb : LoadBalancer) (routes : List HttpRoute)
    (host path : Str) :
    (∃ route, IsTopRoute lc host path routes route ∧
      findBackend lc lb routes host path = findBackend lc lb [route] host path) ∨
    ((∀ route, ¬IsTopRoute lc host path routes route) ∧
      findBackend lc lb routes host path = (none, lb)) := by
  cases hbest : FirstBest.firstBest (routeScore lc host path) routes with
  | none =>
      have hwinner : winner lc routes host path = none := by
        rw [winner_eq_bind, hbest]
        rfl
      refine Or.inr ⟨?_, findBackend_eq_none lc hwinner⟩
      rintro route ⟨hmem, s, hs, -⟩
      rw [FirstBest.firstBest_eq_none_iff.mp hbest route hmem] at hs
      cases hs
  | some best =>
      exact Or.inl ⟨best.1, isTopRoute_of_firstBest lc hbest, findBackend_eq_alone lc hbest lb⟩

/-- Every route of greatest score is the one that counts in some order. -/
theorem IsTopRoute.exists_perm {routes : List HttpRoute} {host path : Str} {route : HttpRoute}
    (h : IsTopRoute lc host path routes route) (lb : LoadBalancer) :
    ∃ l : List HttpRoute, l.Perm routes ∧
      findBackend lc lb l host path = findBackend lc lb [route] host path := by
  rcases h with ⟨hmem, s, hs, hmax⟩
  rcases FirstBest.exists_perm_firstBest hmem hs hmax with ⟨l, hperm, hbest⟩
  exact ⟨l, hperm, findBackend_eq_alone lc hbest lb⟩

/-! ## Dependence on the order -/

/-- Two routes with the same host name and path and different backends. -/
def tiedRoutes : List HttpRoute :=
  [makeRoute "a" ["example.com"] [makeRule [] [makeBackend "a:80" 1]],
    makeRoute "b" ["example.com"] [makeRule [] [makeBackend "b:80" 1]]]

/-- Two routes with one score are served in the order of the listing. -/
theorem findBackend_differs_between_orders :
    (tiedRoutes.map HttpRoute.id).Nodup ∧
      ¬SameUnderEveryOrder .ascii (.new (.new 3)) tiedRoutes "example.com".toList
        "/".toList := by
  refine ⟨by decide, ?_⟩
  intro h
  have hl : (httpTable tiedRoutes).Lists tiedRoutes :=
    (ConcurrentMap.lists_tableOf HttpRoute.id (by decide)).mpr (.refl _)
  have hl' : (httpTable tiedRoutes).Lists tiedRoutes.reverse :=
    (ConcurrentMap.lists_tableOf HttpRoute.id (by decide)).mpr (List.reverse_perm _)
  have hsame := h _ _ hl hl'
  revert hsame
  decide

/-- The score of the serving rule never depends on the order, and the backend does
not exactly when all routes of greatest score yield the same one on their own. -/
theorem sameUnderEveryOrder_iff (lb : LoadBalancer) (routes : List HttpRoute) (host path : Str)
    (hids : (routes.map HttpRoute.id).Nodup) :
    (∀ l l', (httpTable routes).Lists l → (httpTable routes).Lists l' →
      (winner lc l host path).map Prod.snd = (winner lc l' host path).map Prod.snd) ∧
    (SameUnderEveryOrder lc lb routes host path ↔
      ∀ route route', IsTopRoute lc host path routes route →
        IsTopRoute lc host path routes route' →
        (findBackend lc lb [route] host path).1 = (findBackend lc lb [route'] host path).1) := by
  have hlists : ∀ l, (httpTable routes).Lists l ↔ l.Perm routes := fun l =>
    ConcurrentMap.lists_tableOf HttpRoute.id hids
  refine ⟨?_, ?_, ?_⟩
  · intro l l' hl hl'
    have hperm : l.Perm l' := hl.perm hl'
    rw [map_snd_winner, map_snd_winner, FirstBest.firstBest_map_snd_perm hperm]
  · -- each route of greatest score is listed first in some order
    intro hsame route route' htop htop'
    rcases htop.exists_perm lc lb with ⟨l, hperm, hroute⟩
    rcases htop'.exists_perm lc lb with ⟨l', hperm', hroute'⟩
    rw [← hroute, ← hroute']
    exact hsame l l' ((hlists l).mpr hperm) ((hlists l').mpr hperm')
  · intro hagree l l' hl hl'
    have hperm : l.Perm routes := (hlists l).mp hl
    have hperm' : l'.Perm routes := (hlists l').mp hl'
    rcases findBackend_alone_or_none lc lb l host path with ⟨route, htop, hroute⟩ | ⟨hnone, hl⟩
    · rcases findBackend_alone_or_none lc lb l' host path with
        ⟨route', htop', hroute'⟩ | ⟨hnone', -⟩
      · rw [hroute, hroute']
        exact hagree route route' (htop.of_perm lc hperm) (htop'.of_perm lc hperm')
      · exact absurd (htop.of_perm lc (hperm.trans hperm'.symm)) (hnone' route)
    · rcases findBackend_alone_or_none lc lb l' host path with
        ⟨route', htop', -⟩ | ⟨-, hl'⟩
      · exact absurd (htop'.of_perm lc (hperm'.trans hperm.symm)) (hnone route')
      · rw [hl, hl']

/-- Two routes with the same host name and path and the same backend. -/
def agreeingRoutes : List HttpRoute :=
  [makeRoute "a" ["example.com"] [makeRule [] [makeBackend "a:80" 1]],
    makeRoute "b" ["example.com"] [makeRule [] [makeBackend "a:80" 1]]]

/-- Two routes of one score that share their backend are served alike in both orders. -/
theorem sameUnderEveryOrder_iff_agreeingRoutes :
    (agreeingRoutes.map HttpRoute.id).Nodup ∧
      SameUnderEveryOrder .ascii (.new (.new 3)) agreeingRoutes "example.com".toList
        "/".toList := by
  refine ⟨by decide, (sameUnderEveryOrder_iff _ _ _ _ _ (by decide)).2.mpr ?_⟩
  have halone : ∀ route ∈ agreeingRoutes,
      (findBackend .ascii (.new (.new 3)) [route] "example.com".toList "/".toList).1 =
        some (makeBackend "a:80" 1) := by decide
  rintro route route' ⟨hroute, -⟩ ⟨hroute', -⟩
  rw [halone route hroute, halone route' hroute']

end Router

end PingoraProxy
