import Mathlib.Data.Prod.Lex
import PingoraProxy.Foundation.FirstBest
import PingoraProxy.Proxy.Upstream

/-!
# Route matching

A request is matched against every rule of every route.  A route qualifies by
its host names, a rule by its path matches; both give a score, and the rule with
the greatest pair of scores serves the request, the first one when several tie.

The listing that an iteration over the route table returned is an argument, since
its order is unspecified.  The nested loops of the source are folds; they are
related to one scan over the rules of all routes.

Main results:

- Theorem {lit}`bestMatch_eq`: the nested loops keep the first rule of greatest
  score.
- Theorem {lit}`findBackend_eq_of_winner`: a backend is selected from the winning
  rule and from no other.
-/

namespace PingoraProxy

open Foundation

/-- Routes requests: the shared route store and one load balancer for all routes. -/
structure Router where
  store : RouteStore
  loadBalancer : LoadBalancer

namespace Router

/-- A router over a store and a health tracker. -/
def new (store : RouteStore) (healthTracker : HealthTracker) : Router where
  store := store
  loadBalancer := .new healthTracker

/-- The health tracker, held by the load balancer. -/
def healthTracker (router : Router) : HealthTracker :=
  router.loadBalancer.healthTracker

variable (lc : Lowercasing)

/-! ## Host names -/

/-- Lowercase a host name and strip its port. -/
def normalizeHostname (host : Str) : Str :=
  lc.toLowercase (Str.beforeFirst ':' host)

/-- The first two characters of a wildcard host name. -/
def wildcardStart : Str :=
  ['*', '.']

/-- Whether a host name matches a pattern, exactly or by a wildcard. -/
def hostnameMatches (pattern host : Str) : Bool :=
  let host := normalizeHostname lc host
  let pattern := lc.toLowercase pattern
  if Str.startsWith pattern wildcardStart then
    let suffix := pattern.drop 1
    if !Str.endsWith host suffix then false
    else
      -- the part of the host before the suffix
      let first := host.take (host.length - suffix.length)
      !first.isEmpty && !first.contains '.'
  else host == pattern

/-- A wildcard matches exactly the hosts with one label before its own. -/
theorem hostnameMatches_wildcard_iff {pattern host rest : Str}
    (hpattern : lc.toLowercase pattern = '*' :: '.' :: rest) :
    hostnameMatches lc pattern host = true ↔
      ∃ first, normalizeHostname lc host = first ++ '.' :: rest ∧ first ≠ [] ∧ '.' ∉ first := by
  have hwild : Str.startsWith ('*' :: '.' :: rest) wildcardStart = true := by
    simp [Str.startsWith, wildcardStart]
  unfold hostnameMatches
  simp only [hpattern, if_pos hwild, List.drop_succ_cons, List.drop_zero]
  by_cases hends : Str.endsWith (normalizeHostname lc host) ('.' :: rest) = true
  · rcases Str.endsWith_iff.mp hends with ⟨first, hfirst⟩
    have htake : (normalizeHostname lc host).take
        ((normalizeHostname lc host).length - ('.' :: rest).length) = first := by
      rw [← hfirst, List.length_append, Nat.add_sub_cancel]
      exact List.take_left
    rw [hends, htake]
    constructor
    · intro h
      exact ⟨first, hfirst.symm, by simpa [List.isEmpty_iff] using h⟩
    · rintro ⟨other, hother, hne, hdot⟩
      have hsame : other = first := List.append_cancel_right (hother.symm.trans hfirst.symm)
      rw [hsame] at hne hdot
      simpa [List.isEmpty_iff] using And.intro hne hdot
  · have hnot : ¬∃ first, normalizeHostname lc host = first ++ '.' :: rest := by
      rintro ⟨first, hfirst⟩
      exact hends (Str.endsWith_iff.mpr ⟨first, hfirst.symm⟩)
    constructor
    · intro h
      simp [Bool.not_eq_true _ ▸ hends] at h
    · rintro ⟨first, hfirst, -⟩
      exact absurd ⟨first, hfirst⟩ hnot

/-- A pattern that is no wildcard matches exactly the host of its own name. -/
theorem hostnameMatches_exact_iff {pattern host : Str}
    (hpattern : Str.startsWith (lc.toLowercase pattern) wildcardStart = false) :
    hostnameMatches lc pattern host = true ↔
      normalizeHostname lc host = lc.toLowercase pattern := by
  unfold hostnameMatches
  simp only [hpattern, Bool.false_eq_true, if_false, beq_iff_eq]

/-- The score of a host name match. -/
def hostnameScore (pattern host : Str) : Option Nat :=
  if !hostnameMatches lc pattern host then none
  else if Str.startsWith pattern wildcardStart then some (Str.len pattern)
  else some (Str.len pattern + 1000)

/-- The best host name score of a list of patterns. -/
def bestHostnameScore (hostnames : List Str) (host : Str) : Option Nat :=
  if hostnames.isEmpty then some 0
  else (hostnames.filterMap fun h => hostnameScore lc h host).max?

/-! ## Paths -/

/-- Prefix matching that respects segment boundaries. -/
def prefixMatches (pattern path : Str) : Bool :=
  if path == pattern then true
  else if Str.startsWith path pattern then
    if pattern.getLast? == some '/' then true
    -- a byte length used as a character index
    else path[Str.len pattern]? == some '/'
  else false

/-- Whether a path matches a pattern of the given type. -/
def pathMatches : PathMatchType → Str → Str → Bool
  | .exact, pattern, path => path == pattern
  | .pathPrefix, pattern, path => prefixMatches pattern path
  | .regex, pattern, path => prefixMatches pattern path
  | .unspecified, _, _ => true

/-- The score of a path match. -/
def pathScore (matchType : PathMatchType) (pattern path : Str) : Option Nat :=
  if !pathMatches matchType pattern path then none
  else
    match matchType with
    | .exact => some (10000 + Str.len pattern)
    | .pathPrefix => some (1000 + Str.len pattern)
    | .regex => some 500
    | .unspecified => some 0

/-- The declared type of a path match; an unknown one counts as unspecified. -/
def matchTypeOf (pm : PathMatch) : PathMatchType :=
  (PathMatchType.tryFrom pm.matchType).getD .unspecified

/-- The score of the path condition of a match. -/
def pathMatchScore (routeMatch : HttpRouteMatch) (path : Str) : Option Nat :=
  match routeMatch.path with
  | some pm => pathScore (matchTypeOf pm) pm.value path
  | none => some 0

/-- The best path score of a list of matches. -/
def bestPathScore (routeMatches : List HttpRouteMatch) (path : Str) : Option Nat :=
  if routeMatches.isEmpty then some 0
  else (routeMatches.filterMap fun m => pathMatchScore m path).max?

/-! ## The search for a backend -/

/-- Whether one pair of scores is greater than another, as tuples compare. -/
def isBetter (totalScore : Nat × Nat) (best : Nat × Nat) : Bool :=
  decide (best.1 < totalScore.1) ||
    (decide (best.1 = totalScore.1) && decide (best.2 < totalScore.2))

/-- The best match so far: its host name and path scores and its backends. -/
abbrev BestMatch := Option (Nat × Nat × List Backend)

/-- The body of the loop over the rules of a route. -/
def considerRule (hostnameScore : Nat) (path : Str) (bestMatch : BestMatch)
    (rule : HttpRouteRule) : BestMatch :=
  if rule.backends.isEmpty then bestMatch
  else
    match bestPathScore rule.routeMatches path with
    | none => bestMatch
    | some pathScore =>
        match bestMatch with
        | none => some (hostnameScore, pathScore, rule.backends)
        | some (hs, ps, _) =>
            if isBetter (hostnameScore, pathScore) (hs, ps) then
              some (hostnameScore, pathScore, rule.backends)
            else bestMatch

/-- The body of the loop over the routes. -/
def considerRoute (host path : Str) (bestMatch : BestMatch) (route : HttpRoute) : BestMatch :=
  match bestHostnameScore lc route.hostnames host with
  | none => bestMatch
  | some hostnameScore => route.rules.foldl (considerRule hostnameScore path) bestMatch

/-- The best match the loops leave. -/
def bestMatch (routes : List HttpRoute) (host path : Str) : BestMatch :=
  routes.foldl (considerRoute lc host path) none

/-- Find a backend for a host and a path, given the listing of the HTTP routes. -/
def findBackend (lb : LoadBalancer) (routes : List HttpRoute) (host path : Str) :
    Option Backend × LoadBalancer :=
  match bestMatch lc routes host path with
  | none => (none, lb)
  | some (_, _, backends) =>
      let selected := lb.next backends
      (selected.1.map backends.get, selected.2)

/-! ## One scan over all rules -/

/-- A rule together with the route it belongs to. -/
abbrev Slot := HttpRoute × HttpRouteRule

/-- The rules of a route, in order. -/
def routeSlots (route : HttpRoute) : List Slot :=
  route.rules.map fun rule => (route, rule)

/-- All rules of a listing, in the order the loops visit them. -/
def slots (routes : List HttpRoute) : List Slot :=
  routes.flatMap routeSlots

/-- The rules of a listing are the rules of its routes. -/
theorem mem_slots {routes : List HttpRoute} {slot : Slot} :
    slot ∈ slots routes ↔ slot.1 ∈ routes ∧ slot.2 ∈ slot.1.rules := by
  unfold slots routeSlots
  rw [List.mem_flatMap]
  constructor
  · rintro ⟨route, hroute, hslot⟩
    rcases List.mem_map.mp hslot with ⟨rule, hrule, rfl⟩
    exact ⟨hroute, hrule⟩
  · rintro ⟨hroute, hrule⟩
    exact ⟨slot.1, hroute, List.mem_map_of_mem hrule⟩

/-- The pair of scores a rule competes with, if it qualifies. -/
def slotScore (host path : Str) (slot : Slot) : Option (Nat ×ₗ Nat) :=
  if slot.2.backends.isEmpty then none
  else
    match bestHostnameScore lc slot.1.hostnames host, bestPathScore slot.2.routeMatches path with
    | some hs, some ps => some (toLex (hs, ps))
    | _, _ => none

/-- The part of a scan result the source keeps. -/
def keep : Option (Slot × (Nat ×ₗ Nat)) → BestMatch :=
  Option.map fun best => ((ofLex best.2).1, (ofLex best.2).2, best.1.2.backends)

/-- The comparison of score pairs is the lexicographic one. -/
theorem isBetter_iff {totalScore best : Nat × Nat} :
    isBetter totalScore best = true ↔ toLex best < toLex totalScore := by
  simp [isBetter, Prod.Lex.toLex_lt_toLex]

/-- The body of the rule loop is one step of the scan. -/
theorem considerRule_keep {host path : Str} {route : HttpRoute} {hs : Nat}
    (hhost : bestHostnameScore lc route.hostnames host = some hs)
    (best : Option (Slot × (Nat ×ₗ Nat))) (rule : HttpRouteRule) :
    considerRule hs path (keep best) rule =
      keep (FirstBest.consider (slotScore lc host path) best (route, rule)) := by
  unfold considerRule FirstBest.consider slotScore
  dsimp only
  rw [hhost]
  by_cases hempty : rule.backends.isEmpty = true
  · rw [if_pos hempty, if_pos hempty]
  · rw [if_neg hempty, if_neg hempty]
    cases hpath : bestPathScore rule.routeMatches path with
    | none => rfl
    | some ps =>
        cases best with
        | none => rfl
        | some best =>
            rcases best with ⟨slot, score⟩
            simp only [keep, Option.map_some, isBetter_iff]
            by_cases hlt : score < toLex (hs, ps)
            · rw [if_pos hlt, if_pos (by simpa using hlt)]
              rfl
            · rw [if_neg hlt, if_neg (by simpa using hlt)]
              rfl

/-- The body of the route loop scans the rules of the route. -/
theorem considerRoute_keep (host path : Str) (best : Option (Slot × (Nat ×ₗ Nat)))
    (route : HttpRoute) :
    considerRoute lc host path (keep best) route =
      keep ((routeSlots route).foldl (FirstBest.consider (slotScore lc host path)) best) := by
  unfold considerRoute routeSlots
  rw [List.foldl_map]
  cases hhost : bestHostnameScore lc route.hostnames host with
  | none =>
      have hskip : ∀ rule : HttpRouteRule, slotScore lc host path (route, rule) = none := by
        intro rule
        unfold slotScore
        dsimp only
        rw [hhost, ite_self]
      induction route.rules with
      | nil => rfl
      | cons rule rules ih => rw [List.foldl_cons, FirstBest.consider_unscored (hskip rule), ← ih]
  | some hs =>
      dsimp only
      induction route.rules generalizing best with
      | nil => rfl
      | cons rule rules ih => rw [List.foldl_cons, List.foldl_cons, considerRule_keep lc hhost, ih]

/-- The nested loops keep the first rule of greatest score. -/
theorem bestMatch_eq (routes : List HttpRoute) (host path : Str) :
    bestMatch lc routes host path =
      keep (FirstBest.firstBest (slotScore lc host path) (slots routes)) := by
  have hloop : ∀ best, routes.foldl (considerRoute lc host path) (keep best) =
      keep ((slots routes).foldl (FirstBest.consider (slotScore lc host path)) best) := by
    induction routes with
    | nil => intro best; rfl
    | cons route routes ih =>
        intro best
        have hslots : slots (route :: routes) = routeSlots route ++ slots routes := rfl
        rw [List.foldl_cons, considerRoute_keep, ih, hslots, List.foldl_append]
  exact hloop none

/-- The rule that serves a request, with its score. -/
def winner (routes : List HttpRoute) (host path : Str) : Option (Slot × (Nat ×ₗ Nat)) :=
  FirstBest.firstBest (slotScore lc host path) (slots routes)

/-- Without a qualifying rule nothing is selected and nothing changes. -/
theorem findBackend_eq_none {lb : LoadBalancer} {routes : List HttpRoute} {host path : Str}
    (h : winner lc routes host path = none) :
    findBackend lc lb routes host path = (none, lb) := by
  unfold winner at h
  unfold findBackend
  rw [bestMatch_eq, h]
  rfl

/-- A backend is selected from the winning rule and from no other. -/
theorem findBackend_eq_of_winner {lb : LoadBalancer} {routes : List HttpRoute}
    {host path : Str} {slot : Slot} {score : Nat ×ₗ Nat}
    (h : winner lc routes host path = some (slot, score)) :
    findBackend lc lb routes host path =
      ((lb.next slot.2.backends).1.map slot.2.backends.get,
        (lb.next slot.2.backends).2) := by
  unfold winner at h
  unfold findBackend
  rw [bestMatch_eq, h]
  rfl

/-- A backend is selected from the winning rule and is healthy. -/
theorem mem_of_findBackend {lb : LoadBalancer} {routes : List HttpRoute} {host path : Str}
    {b : Backend} (h : (findBackend lc lb routes host path).1 = some b) :
    ∃ slot score, winner lc routes host path = some (slot, score) ∧ b ∈ slot.2.backends ∧
      lb.healthTracker.isHealthy b.address = true := by
  cases hwinner : winner lc routes host path with
  | none =>
      rw [findBackend_eq_none lc hwinner] at h
      simp at h
  | some best =>
      rcases best with ⟨slot, score⟩
      rw [findBackend_eq_of_winner lc hwinner, Option.map_eq_some_iff] at h
      rcases h with ⟨i, hi, rfl⟩
      exact ⟨slot, score, rfl, List.getElem_mem i.isLt, LoadBalancer.isHealthy_of_next hi⟩

/-- The search never touches the tracker. -/
@[simp]
theorem healthTracker_findBackend (lb : LoadBalancer) (routes : List HttpRoute)
    (host path : Str) :
    (findBackend lc lb routes host path).2.healthTracker = lb.healthTracker := by
  cases hwinner : winner lc routes host path with
  | none => rw [findBackend_eq_none lc hwinner]
  | some best =>
      rw [findBackend_eq_of_winner lc hwinner]
      exact LoadBalancer.healthTracker_next _ _

end Router

end PingoraProxy
