import PingoraProxy.Proxy.ConcurrentSearch
import PingoraProxy.Proxy.EnumerationOrder
import PingoraProxy.Proxy.Recovery

/-!
# Answers under concurrent writes

Routes may be written and statuses may change while a call for a backend is under way,
so its answer need not fit the table or the tracker of any one moment.  What it does say
is about moments between its begin and its end.

Main results:

- Theorem {lit}`findBackend_answer_justified`: what the answer of a call says about the
  table and the statuses at moments between its begin and its end.
- Theorem {lit}`findBackend_of_steady_rule`: a rule that stays in the table and scores
  more than all that comes and goes serves the call.
-/

namespace PingoraProxy

open Foundation

namespace RouterCalls

variable (lc : Lowercasing) (shardOf : Str → Nat) (shards : Nat)

/-! ## What an answer says -/

/-- A list of routes is what the first shards held, each shard at some moment: nothing
is listed that was never held, and what was always held is not missing. -/
structure Collected (moments : List RouterCalls) (shard : Nat) (routes : List HttpRoute) :
    Prop where
  held : ∀ route ∈ routes, ∃ u ∈ moments, u.Holds route
  complete : ∀ id route, shardOf id < shard →
    (∀ u ∈ moments, u.router.store.httpRoutes.lookup id = some route) → route ∈ routes

/-- An answer fits the routes listed and the statuses at some moments: a backend comes
from the winning rule and was healthy, and without one there is no winning rule or each
of its backends was unhealthy. -/
def Answers (moments : List RouterCalls) (routes : List HttpRoute) (host path : Str) :
    Option Backend → Prop
  | some b => ∃ slot score, Router.winner lc routes host path = some (slot, score) ∧
      b ∈ slot.2.backends ∧ ∃ u ∈ moments, u.isHealthy b.address = true
  | none => ∀ slot score, Router.winner lc routes host path = some (slot, score) →
      ∀ b ∈ slot.2.backends, ∃ u ∈ moments, u.isHealthy b.address = false

/-- What is known of a call in progress from the moments since it began. -/
def Justified (moments : List RouterCalls) : Search → Prop
  | ⟨_, _, .getHttpRoutes shard routes⟩ => Collected shardOf moments shard routes
  | ⟨host, path, .next routes backends statuses⟩ => Collected shardOf moments shards routes ∧
      (∃ slot score, Router.winner lc routes host path = some (slot, score) ∧
        slot.2.backends = backends) ∧
      ∀ (i : Nat) (b : Backend) (status : Bool), backends[i]? = some b →
        statuses[i]? = some status → ∃ u ∈ moments, u.isHealthy b.address = status
  | ⟨host, path, .returned result⟩ => ∃ routes, Collected shardOf moments shards routes ∧
      Answers lc moments routes host path result

variable {lc shardOf shards}

/-- More moments justify no less. -/
theorem Collected.mono {moments moments' : List RouterCalls} {shard : Nat}
    {routes : List HttpRoute} (hsubset : moments ⊆ moments')
    (h : Collected shardOf moments shard routes) : Collected shardOf moments' shard routes := by
  refine ⟨fun route hroute => ?_, fun id route hlt hall => ?_⟩
  · rcases h.held route hroute with ⟨u, hu, hholds⟩
    exact ⟨u, hsubset hu, hholds⟩
  · exact h.complete id route hlt fun u hu => hall u (hsubset hu)

theorem Answers.mono {moments moments' : List RouterCalls} {routes : List HttpRoute}
    {host path : Str} {result : Option Backend} (hsubset : moments ⊆ moments')
    (h : Answers lc moments routes host path result) :
    Answers lc moments' routes host path result := by
  cases result with
  | none =>
      intro slot score hwinner b hb
      rcases h slot score hwinner b hb with ⟨u, hu, hunhealthy⟩
      exact ⟨u, hsubset hu, hunhealthy⟩
  | some b =>
      rcases h with ⟨slot, score, hwinner, hb, u, hu, hhealthy⟩
      exact ⟨slot, score, hwinner, hb, u, hsubset hu, hhealthy⟩

theorem Justified.mono {moments moments' : List RouterCalls} {search : Search}
    (hsubset : moments ⊆ moments') (h : Justified lc shardOf shards moments search) :
    Justified lc shardOf shards moments' search := by
  rcases search with ⟨host, path, phase⟩
  cases phase with
  | getHttpRoutes shard routes => exact Collected.mono hsubset h
  | next routes backends statuses =>
      rcases h with ⟨hcollected, hwinner, hread⟩
      refine ⟨hcollected.mono hsubset, hwinner, fun i b status hb hstatus => ?_⟩
      rcases hread i b status hb hstatus with ⟨u, hu, hhealthy⟩
      exact ⟨u, hsubset hu, hhealthy⟩
  | returned result =>
      rcases h with ⟨routes, hcollected, hanswers⟩
      exact ⟨routes, hcollected.mono hsubset, hanswers.mono hsubset⟩

/-- One more shard is collected from the moment it is read in. -/
theorem Collected.readShard {moments : List RouterCalls} {s : RouterCalls} {shard : Nat}
    {seen routes : List HttpRoute} (h : Collected shardOf moments shard seen)
    (hs : s ∈ moments) (hroutes : s.router.store.httpRoutes.ListsShard shardOf shard routes) :
    Collected shardOf moments (shard + 1) (seen ++ routes) := by
  refine ⟨fun route hroute => ?_, fun id route hlt hall => ?_⟩
  · rcases List.mem_append.mp hroute with hseen | hnew
    · exact h.held route hseen
    · rcases hroutes.mem_iff.mp hnew with ⟨id, -, hid⟩
      exact ⟨s, hs, id, hid⟩
  · rcases Nat.lt_succ_iff_lt_or_eq.mp hlt with hbefore | hnow
    · exact List.mem_append_left _ (h.complete id route hbefore hall)
    · exact List.mem_append_right _ (hroutes.mem_iff.mpr ⟨id, hnow, hall s hs⟩)

/-- The best match of the loops, as the winning rule. -/
theorem exists_winner_of_bestMatch {routes : List HttpRoute} {host path : Str}
    {hostnameScore pathScore : Nat} {backends : List Backend}
    (h : Router.bestMatch lc routes host path = some (hostnameScore, pathScore, backends)) :
    ∃ slot score, Router.winner lc routes host path = some (slot, score) ∧
      slot.2.backends = backends := by
  rw [Router.bestMatch_eq] at h
  rcases Option.map_eq_some_iff.mp h with ⟨⟨slot, score⟩, hwinner, hkept⟩
  cases hkept
  exact ⟨slot, score, hwinner, rfl⟩

/-- A step keeps what is known of a call, with the moment it is taken in. -/
theorem Justified.step {moments : List RouterCalls} {s : RouterCalls} {search search' : Search}
    (hs : s ∈ moments) (h : Justified lc shardOf shards moments search)
    {answer : Option (Router.Query × Option Backend)}
    (hmoves : SearchMoves lc shardOf shards s.router search answer search') :
    Justified lc shardOf shards moments search' := by
  cases hmoves with
  | stay => exact h
  | readShard hroutes => exact Collected.readShard h hs hroutes
  | noMatch hnone =>
      refine ⟨_, h, fun slot score hwinner => ?_⟩
      rw [Router.bestMatch_eq] at hnone
      have hnot : Router.winner lc _ _ _ = none := Option.map_eq_none_iff.mp hnone
      exact absurd (hnot.symm.trans hwinner) (by simp)
  | bestMatch hbest =>
      refine ⟨h, exists_winner_of_bestMatch hbest, fun i b status _ hstatus => ?_⟩
      simp at hstatus
  | @isHealthy host path routes backends statuses b hget =>
      rcases h with ⟨hcollected, hwinner, hread⟩
      refine ⟨hcollected, hwinner, fun i b' status hb' hstatus => ?_⟩
      by_cases hlt : i < statuses.length
      · rw [List.getElem?_append_left hlt] at hstatus
        exact hread i b' status hb' hstatus
      · -- the status read in this step
        rw [List.getElem?_append_right (Nat.not_lt.mp hlt)] at hstatus
        have hlast : i = statuses.length := by
          have hbound := (List.getElem?_eq_some_iff.mp hstatus).1
          simp at hbound
          omega
        subst hlast
        cases hget.symm.trans hb'
        refine ⟨s, hs, ?_⟩
        simpa [RouterCalls.isHealthy] using hstatus
  | @fetchAdd host path routes backends statuses hlength =>
      rcases h with ⟨hcollected, ⟨slot, score, hwinner, hbackends⟩, hread⟩
      refine ⟨routes, hcollected, ?_⟩
      subst hbackends
      cases hselected : (LoadBalancer.selectFrom s.router.loadBalancer.current statuses
          slot.2.backends).1 with
      | none =>
          intro slot' score' hwinner' b hb
          cases hwinner.symm.trans hwinner'
          rcases List.mem_iff_getElem.mp hb with ⟨i, hi, rfl⟩
          have hi' : i < statuses.length := by omega
          have hstatus := LoadBalancer.status_of_selectFrom_none hselected ⟨i, hi⟩
          refine hread i _ false (List.getElem?_eq_getElem hi) ?_
          rw [List.getElem?_eq_getElem hi'] at hstatus ⊢
          simpa using hstatus
      | some i =>
          have hstatus := LoadBalancer.status_of_selectFrom hselected
          exact ⟨slot, score, hwinner, List.getElem_mem i.isLt,
            hread i _ true (List.getElem?_eq_getElem i.isLt) hstatus⟩

variable (lc shardOf shards)

/-- The states in which the steps of a run are taken. -/
def moments (router : Router) (s : RouterCalls) (es : List RouterStep) : List RouterCalls :=
  (system lc shardOf shards router).emitted (fun u _ => some u) s es

/-- A call that is in progress and justified stays so, with the moments that pass. -/
def JustifiedCall (id : Nat) (host path : Str) (s : RouterCalls) (passed : List RouterCalls) :
    Prop :=
  ∃ phase, s.searches id = some ⟨host, path, phase⟩ ∧
    Justified lc shardOf shards passed ⟨host, path, phase⟩

variable {lc shardOf shards}

/-- No step changes the arguments of a call. -/
theorem SearchMoves.arguments {router : Router} {host path : Str} {phase : SearchPhase}
    {answer : Option (Router.Query × Option Backend)} {search : Search}
    (h : SearchMoves lc shardOf shards router ⟨host, path, phase⟩ answer search) :
    ∃ phase', search = ⟨host, path, phase'⟩ := by
  cases h with
  | stay | readShard _ | noMatch _ | bestMatch _ | isHealthy _ | fetchAdd _ => exact ⟨_, rfl⟩

theorem justifiedCall_step {id : Nat} {host path : Str} {s : RouterCalls} {e : RouterStep}
    {passed : List RouterCalls} (h : JustifiedCall lc shardOf shards id host path s passed)
    (henabled : enabled shardOf shards s e) :
    JustifiedCall lc shardOf shards id host path (next lc s e)
      (passed ++ (some s).toList) := by
  rcases h with ⟨phase, hsearch, hjustified⟩
  rcases moves_of_step lc shardOf shards henabled hsearch with ⟨answer, search, hnext, hmoves, -⟩
  rcases hmoves.arguments with ⟨phase', rfl⟩
  have hmono := hjustified.mono (List.subset_append_left passed (some s).toList)
  exact ⟨phase', hnext, hmono.step (by simp) hmoves⟩

/-- When a call returns, its answer fits routes and statuses read since it began. -/
theorem exists_collected_of_returned {router : Router} {s t : RouterCalls} {id : Nat}
    {host path : Str} {es : List RouterStep} {result : Option Backend}
    (h : (system lc shardOf shards router).Path s (.findBackend id host path :: es) t)
    (hreturned : t.searches id = some ⟨host, path, .returned result⟩) :
    ∃ routes, Collected shardOf (moments lc shardOf shards router s
        (.findBackend id host path :: es)) shards routes ∧
      Answers lc (moments lc shardOf shards router s (.findBackend id host path :: es)) routes
        host path result := by
  rcases h with - | ⟨henabled, hrest⟩
  have hbegun : JustifiedCall lc shardOf shards id host path
      (next lc s (.findBackend id host path)) [s] := by
    refine ⟨.getHttpRoutes 0 [], Function.update_self _ _ _, fun route hroute => ?_,
      fun key route hlt => absurd hlt (Nat.not_lt_zero _)⟩
    cases hroute
  have hend := hrest.preserves_history (Q := fun _ => True)
    (JustifiedCall lc shardOf shards id host path) (fun u _ => some u)
    (fun u e passed _ hu hstep => justifiedCall_step hu hstep)
    (hrest.along (fun _ _ _ _ _ => trivial) trivial) hbegun
  rcases hend with ⟨phase, hphase, hjustified⟩
  cases hphase.symm.trans hreturned
  exact hjustified

/-- The answer of a call, whatever runs at the same time: it comes from routes that were
in the table at moments between begin and end, with none missing that was there all the
time, and the backend was healthy, or all were unhealthy, at such moments. -/
theorem findBackend_answer_justified {router : Router} {s t : RouterCalls} {id : Nat}
    {host path : Str} {es : List RouterStep} {result : Option Backend}
    (hshards : ∀ key, shardOf key < shards)
    (h : (system lc shardOf shards router).Path s (.findBackend id host path :: es) t)
    (hreturned : t.searches id = some ⟨host, path, .returned result⟩) :
    ∃ routes,
      (∀ route ∈ routes, ∃ u ∈ moments lc shardOf shards router s
        (.findBackend id host path :: es), u.Holds route) ∧
      (∀ key route, (∀ u ∈ moments lc shardOf shards router s (.findBackend id host path :: es),
        u.router.store.httpRoutes.lookup key = some route) → route ∈ routes) ∧
      Answers lc (moments lc shardOf shards router s (.findBackend id host path :: es)) routes
        host path result := by
  rcases exists_collected_of_returned h hreturned with ⟨routes, hcollected, hanswers⟩
  exact ⟨routes, hcollected.held,
    fun key route hall => hcollected.complete key route (hshards key) hall, hanswers⟩

/-- A router whose table has a single backend. -/
def singleBackendRouter : Router :=
  .new GatewayProxy.singleBackendUpdate.configuration (.new 1)

/-- The only route is removed and its backend fails while a call is under way. -/
def removedDuringCall : List RouterStep :=
  [.findBackend 0 "example.com".toList ['/'],
    .readShard 0 GatewayProxy.singleBackendUpdate.httpRoutes,
    .removeRoute ['r'], .bestMatch 0, .isHealthy 0,
    .trackerStep "10.0.0.1:80".toList .recordFailure, .fetchAdd 0]

/-- The call returns the backend it has seen in the table and healthy. -/
theorem findBackend_answer_justified_removed :
    (∀ key : Str, (fun _ => 0 : Str → Nat) key < 1) ∧
      ∃ routes, Answers .ascii (moments .ascii (fun _ => 0) 1 singleBackendRouter
        ⟨singleBackendRouter, fun _ => none⟩ removedDuringCall) routes "example.com".toList ['/']
        (some (makeBackend "10.0.0.1:80" 1)) := by
  have hpath : (system .ascii (fun _ => 0) 1 singleBackendRouter).Path
      ⟨singleBackendRouter, fun _ => none⟩ removedDuringCall _ :=
    TransitionSystem.Path.of_allEnabled ⟨rfl, ⟨_, _, _, _, rfl, by decide, rfl⟩, trivial,
      ⟨_, _, _, rfl⟩, ⟨_, _, _, _, _, rfl, by decide⟩, trivial, ⟨_, _, _, _, _, rfl, by decide⟩,
      trivial⟩
  refine ⟨fun _ => Nat.zero_lt_one, ?_⟩
  rcases findBackend_answer_justified (fun _ => Nat.zero_lt_one) hpath rfl with
    ⟨routes, -, -, hanswers⟩
  exact ⟨routes, hanswers⟩

/-- The rule of a route that scores more than all others wins. -/
theorem winner_of_greatest {routes : List HttpRoute} {host path : Str} {route : HttpRoute}
    {slot : Router.Slot} {score : Nat ×ₗ Nat} (hmem : route ∈ routes)
    (halone : Router.winner lc [route] host path = some (slot, score))
    (hless : ∀ other ∈ routes, other ≠ route → ∀ t,
      Router.routeScore lc host path other = some t → t < score) :
    Router.winner lc routes host path = some (slot, score) := by
  have hscore : Router.routeScore lc host path route = some score := by
    rw [Router.winner_singleton] at halone
    unfold Router.routeScore FirstBest.blockScore
    rw [halone]
    rfl
  rcases FirstBest.exists_firstBest_of_mem hmem hscore with ⟨best, t, hbest, hle⟩
  rcases (FirstBest.isFirstBest_of_firstBest hbest).mem with ⟨hbestMem, ht⟩
  have hsame : best = route := by
    by_contra hne
    exact absurd (hless best hbestMem hne t ht) (not_lt.mpr hle)
  rw [Router.winner_eq_bind, hbest, hsame]
  exact halone

/-- A rule whose route stays in the table during a call, and that scores more than every
other route there at any moment of it, serves the call; it does not answer without a
backend while one of the rule stays healthy. -/
theorem findBackend_of_steady_rule {router : Router} {s t : RouterCalls} {id : Nat}
    {host path : Str} {es : List RouterStep} {result : Option Backend}
    (hshards : ∀ key, shardOf key < shards)
    (h : (system lc shardOf shards router).Path s (.findBackend id host path :: es) t)
    (hreturned : t.searches id = some ⟨host, path, .returned result⟩)
    {key : Str} {route : HttpRoute} {slot : Router.Slot} {score : Nat ×ₗ Nat}
    (halone : Router.winner lc [route] host path = some (slot, score))
    (hsteady : ∀ u ∈ moments lc shardOf shards router s (.findBackend id host path :: es),
      u.router.store.httpRoutes.lookup key = some route)
    (hless : ∀ u ∈ moments lc shardOf shards router s (.findBackend id host path :: es),
      ∀ other, u.Holds other → other ≠ route → ∀ score',
        Router.routeScore lc host path other = some score' → score' < score) :
    (∀ b, result = some b → b ∈ slot.2.backends) ∧
      ((∃ b ∈ slot.2.backends, ∀ u ∈ moments lc shardOf shards router s
        (.findBackend id host path :: es), u.isHealthy b.address = true) → result ≠ none) := by
  rcases exists_collected_of_returned h hreturned with ⟨routes, hcollected, hanswers⟩
  have hwinner : Router.winner lc routes host path = some (slot, score) := by
    have hmem := hcollected.complete key route (hshards key) hsteady
    refine winner_of_greatest hmem halone fun other hother hne => ?_
    rcases hcollected.held other hother with ⟨u, hu, hholds⟩
    exact hless u hu other hholds hne
  constructor
  · rintro b rfl
    rcases hanswers with ⟨slot', score', hwinner', hb, -⟩
    cases hwinner.symm.trans hwinner'
    exact hb
  · rintro ⟨b, hb, hhealthy⟩ rfl
    rcases hanswers slot score hwinner b hb with ⟨u, hu, hunhealthy⟩
    exact absurd (hunhealthy.symm.trans (hhealthy u hu)) (by decide)

/-- A route for another host. -/
def otherHostRoute : HttpRoute :=
  makeRoute "s" ["other.com"] [makeRule [] [makeBackend "10.0.0.2:80" 1]]

/-- A route for another host is inserted while a call is under way. -/
def insertedDuringCall : List RouterStep :=
  [.findBackend 0 "example.com".toList ['/'], .insertRoute otherHostRoute,
    .readShard 0 (otherHostRoute :: GatewayProxy.singleBackendUpdate.httpRoutes),
    .bestMatch 0, .isHealthy 0, .fetchAdd 0]

/-- The call is served by the route that was there all the time. -/
theorem findBackend_of_steady_rule_inserted :
    (∀ key : Str, (fun _ => 0 : Str → Nat) key < 1) ∧
      makeBackend "10.0.0.1:80" 1 ∈ (makeRule [] [makeBackend "10.0.0.1:80" 1]).backends := by
  have hpath : (system .ascii (fun _ => 0) 1 singleBackendRouter).Path
      ⟨singleBackendRouter, fun _ => none⟩ insertedDuringCall _ :=
    TransitionSystem.Path.of_allEnabled ⟨rfl, trivial, ⟨_, _, _, _, rfl, by decide, rfl⟩,
      ⟨_, _, _, rfl⟩, ⟨_, _, _, _, _, rfl, by decide⟩, ⟨_, _, _, _, _, rfl, by decide⟩, trivial⟩
  have htables : ∀ u ∈ moments .ascii (fun _ => 0) 1 singleBackendRouter
      ⟨singleBackendRouter, fun _ => none⟩ insertedDuringCall,
      u.router.store.httpRoutes = httpTable GatewayProxy.singleBackendUpdate.httpRoutes ∨
        u.router.store.httpRoutes =
          httpTable (GatewayProxy.singleBackendUpdate.httpRoutes ++ [otherHostRoute]) := by
    decide
  have halone : Router.winner .ascii [makeRoute "r" [] [makeRule [] [makeBackend "10.0.0.1:80" 1]]]
      "example.com".toList ['/'] =
      some ((makeRoute "r" [] [makeRule [] [makeBackend "10.0.0.1:80" 1]],
        makeRule [] [makeBackend "10.0.0.1:80" 1]), toLex (0, 0)) := by decide
  have hsteady : ∀ u ∈ moments .ascii (fun _ => 0) 1 singleBackendRouter
      ⟨singleBackendRouter, fun _ => none⟩ insertedDuringCall,
      u.router.store.httpRoutes.lookup ['r'] =
        some (makeRoute "r" [] [makeRule [] [makeBackend "10.0.0.1:80" 1]]) := by
    decide
  refine ⟨fun _ => Nat.zero_lt_one, (findBackend_of_steady_rule (fun _ => Nat.zero_lt_one) hpath
    rfl halone hsteady ?_).1 _ rfl⟩
  rintro u hu other ⟨key, hkey⟩ hne score' hscore
  have hmem : other ∈ GatewayProxy.singleBackendUpdate.httpRoutes ++ [otherHostRoute] := by
    rcases htables u hu with htable | htable
    · rw [htable] at hkey
      exact List.mem_append_left _ (ConcurrentMap.lookup_tableOf_eq_some HttpRoute.id hkey).1
    · rw [htable] at hkey
      exact (ConcurrentMap.lookup_tableOf_eq_some HttpRoute.id hkey).1
  have hnone : Router.routeScore .ascii "example.com".toList ['/'] otherHostRoute = none := by
    decide
  rcases List.mem_append.mp hmem with hold | hnew
  · exact absurd (List.mem_singleton.mp hold) hne
  · rw [List.mem_singleton.mp hnew, hnone] at hscore
    cases hscore

end RouterCalls

end PingoraProxy
