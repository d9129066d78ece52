import PingoraProxy.Proxy.SearchAnswers

/-!
# Overlapping calls in turn

While neither the table nor the tracker is written, overlapping calls for a backend
cannot be told from calls made one after another: a call takes effect in the step that
gives its answer, and before it only reads.

Main results:

- Theorem {lit}`answered_eq_findBackend`: a step that gives an answer gives that of an
  atomic call made in its place.
- Theorem {lit}`findBackend_calls_in_turn`: overlapping calls answer as atomic calls made
  one after another.
-/

namespace PingoraProxy

open Foundation

namespace RouterCalls

variable {lc : Lowercasing} {shardOf : Str → Nat} {shards : Nat}

/-! ## Calls while nothing is written -/

/-- Whether a step is one of a call, and no write. -/
def isCallStep : RouterStep → Bool
  | .insertRoute _ | .removeRoute _ | .trackerStep _ _ => false
  | _ => true

variable (lc shardOf shards)

/-- The answers of a run, in the order in which they are given. -/
def answers (router : Router) (s : RouterCalls) (es : List RouterStep) :
    List (Router.Query × Option Backend) :=
  (system lc shardOf shards router).emitted (answered lc) s es

/-- What a call in progress has read is what the table and the tracker still hold. -/
def UpToDate (table : DashMap HttpRoute) (tracker : HealthTracker) : Search → Prop
  | ⟨_, _, .getHttpRoutes shard routes⟩ => table.ListsBelow shardOf shard routes
  | ⟨host, path, .next routes backends statuses⟩ => table.ListsBelow shardOf shards routes ∧
      (∃ hostnameScore pathScore,
        Router.bestMatch lc routes host path = some (hostnameScore, pathScore, backends)) ∧
      statuses = (backends.take statuses.length).map fun b => tracker.isHealthy b.address
  | ⟨_, _, .returned _⟩ => True

/-- The table and the tracker are the given ones, and no call has read anything else. -/
structure Undisturbed (table : DashMap HttpRoute) (tracker : HealthTracker) (s : RouterCalls) :
    Prop where
  table_eq : s.router.store.httpRoutes = table
  tracker_eq : s.router.healthTracker = tracker
  upToDate : ∀ id search, s.searches id = some search →
    UpToDate lc shardOf shards table tracker search

variable {lc shardOf shards}

/-- A step of a call reads what the table and the tracker hold. -/
theorem UpToDate.step {router : Router} {search search' : Search}
    (h : UpToDate lc shardOf shards router.store.httpRoutes router.healthTracker search)
    {answer : Option (Router.Query × Option Backend)}
    (hmoves : SearchMoves lc shardOf shards router search answer search') :
    UpToDate lc shardOf shards router.store.httpRoutes router.healthTracker search' := by
  cases hmoves with
  | stay => exact h
  | readShard hroutes => exact ConcurrentMap.ListsBelow.append h hroutes
  | noMatch _ | fetchAdd _ => trivial
  | bestMatch hbest => exact ⟨h, ⟨_, _, hbest⟩, rfl⟩
  | @isHealthy host path routes backends statuses b hget =>
      rcases h with ⟨hlists, hbest, hstatuses⟩
      refine ⟨hlists, hbest, ?_⟩
      rw [List.length_append, List.length_singleton, List.take_add_one, hget, List.map_append,
        ← hstatuses]
      rfl

/-- A step of a call writes neither the table nor the tracker. -/
theorem router_of_callStep {e : RouterStep} (s : RouterCalls) (h : isCallStep e = true) :
    (next lc s e).router.store = s.router.store ∧
      (next lc s e).router.healthTracker = s.router.healthTracker := by
  cases e with
  | findBackend | readShard | bestMatch | isHealthy | fetchAdd => exact ⟨rfl, rfl⟩
  | insertRoute | removeRoute | trackerStep => cases h

/-- A call in progress after a step was in progress before, or begins in it. -/
theorem searches_before {s : RouterCalls} {e : RouterStep} {id : Nat} {search : Search}
    (h : (next lc s e).searches id = some search) (hnone : s.searches id = none) :
    search.phase = .getHttpRoutes 0 [] := by
  have hadvance : ∀ (other : Nat) (f : Search → Search),
      (s.advance other f).searches id = some search → search.phase = .getHttpRoutes 0 [] := by
    intro other f hsearch
    rw [searches_advance] at hsearch
    split_ifs at hsearch with hid
    · rw [← hid, hnone] at hsearch
      cases hsearch
    · rw [hnone] at hsearch
      cases hsearch
  cases e with
  | findBackend other host path =>
      by_cases hid : id = other
      · subst hid
        simp only [next, Function.update_self] at h
        cases h
        rfl
      · simp [next, Function.update_of_ne hid, hnone] at h
  | readShard other routes => exact hadvance other _ h
  | bestMatch other => exact hadvance other _ h
  | isHealthy other => exact hadvance other _ h
  | fetchAdd other => exact hadvance other _ h
  | insertRoute | removeRoute | trackerStep => exact absurd (hnone.symm.trans h) (by simp)

theorem Undisturbed.step {table : DashMap HttpRoute} {tracker : HealthTracker}
    {s : RouterCalls} {e : RouterStep}
    (h : Undisturbed lc shardOf shards table tracker s) (hcall : isCallStep e = true)
    (henabled : enabled shardOf shards s e) :
    Undisturbed lc shardOf shards table tracker (next lc s e) := by
  rcases router_of_callStep s hcall with ⟨hstore, htracker⟩
  refine ⟨?_, htracker.trans h.tracker_eq, fun id search hsearch => ?_⟩
  · rw [hstore]
    exact h.table_eq
  · cases hbefore : s.searches id with
    | none =>
        rcases search with ⟨host, path, phase⟩
        cases searches_before hsearch hbefore
        exact ConcurrentMap.listsBelow_zero table
    | some before =>
        rcases moves_of_step lc shardOf shards henabled hbefore with
          ⟨answer, after, hafter, hmoves, -⟩
        cases hafter.symm.trans hsearch
        have hold := h.upToDate id before hbefore
        rw [← h.table_eq, ← h.tracker_eq] at hold ⊢
        exact hold.step hmoves

/-- A step that gives no answer leaves the load balancer. -/
theorem loadBalancer_of_silent {s : RouterCalls} {e : RouterStep}
    (hcall : isCallStep e = true) (henabled : enabled shardOf shards s e)
    (h : answered lc s e = none) :
    (next lc s e).router.loadBalancer = s.router.loadBalancer := by
  cases e with
  | findBackend | readShard | bestMatch | isHealthy => rfl
  | fetchAdd id =>
      rcases henabled with ⟨host, path, routes, backends, statuses, hsearch, -⟩
      simp [answered, hsearch] at h
  | insertRoute | removeRoute | trackerStep => cases hcall

/-- A step that gives an answer gives that of an atomic call made in its place. -/
theorem answered_eq_findBackend {table : DashMap HttpRoute} {tracker : HealthTracker}
    {s : RouterCalls} {e : RouterStep} {q : Router.Query} {result : Option Backend}
    (hinv : Undisturbed lc shardOf shards table tracker s) (hshards : ∀ key, shardOf key < shards)
    (henabled : enabled shardOf shards s e) (h : answered lc s e = some (q, result)) :
    table.Lists q.routes ∧ Router.findBackend lc s.router.loadBalancer q.routes q.host q.path =
      (result, (next lc s e).router.loadBalancer) := by
  cases e with
  | bestMatch id =>
      rcases henabled with ⟨host, path, routes, hsearch⟩
      have hread := hinv.upToDate id _ hsearch
      simp only [answered, hsearch] at h
      split_ifs at h with hnone
      cases h
      refine ⟨ConcurrentMap.ListsBelow.lists hread hshards, ?_⟩
      unfold Router.findBackend
      rw [Option.isNone_iff_eq_none.mp hnone]
      rfl
  | fetchAdd id =>
      rcases henabled with ⟨host, path, routes, backends, statuses, hsearch, hlength⟩
      rcases hinv.upToDate id _ hsearch with ⟨hread, ⟨hostnameScore, pathScore, hbest⟩, hstatuses⟩
      simp only [answered, hsearch, Option.some.injEq, Prod.mk.injEq] at h
      rcases h with ⟨rfl, rfl⟩
      refine ⟨ConcurrentMap.ListsBelow.lists hread hshards, ?_⟩
      have hall : statuses = backends.map fun b =>
          s.router.loadBalancer.healthTracker.isHealthy b.address := by
        rw [hlength, List.take_length, ← hinv.tracker_eq] at hstatuses
        exact hstatuses
      have hselected := LoadBalancer.selectFrom_eq_next s.router.loadBalancer backends
      rw [← hall] at hselected
      have hafter : (next lc s (.fetchAdd id)).router.loadBalancer =
          (s.router.loadBalancer.next backends).2 := by
        have htracker := LoadBalancer.healthTracker_next s.router.loadBalancer backends
        simp only [next, hsearch, Search.fetchAdd, Option.map_some, Option.getD_some, hselected]
        rw [← htracker]
      unfold Router.findBackend
      rw [hbest, hselected, hafter]
  | findBackend | readShard | isHealthy | insertRoute | removeRoute | trackerStep => cases h

/-- A call returns in the step that gives its answer. -/
theorem answered_of_returned {s : RouterCalls} {e : RouterStep} {id : Nat} {host path : Str}
    {result : Option Backend} (henabled : enabled shardOf shards s e)
    (h : (next lc s e).searches id = some ⟨host, path, .returned result⟩) :
    s.searches id = some ⟨host, path, .returned result⟩ ∨
      ∃ routes, answered lc s e = some (⟨routes, host, path⟩, result) := by
  cases hbefore : s.searches id with
  | none => exact absurd (searches_before h hbefore) (by simp)
  | some before =>
      rcases moves_of_step lc shardOf shards henabled hbefore with
        ⟨answer, after, hafter, hmoves, hanswer⟩
      cases hafter.symm.trans h
      cases hmoves with
      | stay => exact Or.inl rfl
      | noMatch _ | fetchAdd _ => exact Or.inr ⟨_, hanswer _ rfl⟩

/-- Calls made one after another answer what each selects. -/
theorem inTurn_findBackend (lb : LoadBalancer) (qs : List Router.Query) :
    TransitionSystem.inTurn (fun lb q => Router.findBackend lc lb q.routes q.host q.path) lb qs =
      ((Router.selections lc lb qs).map (Option.map Router.Selection.backend),
        Router.afterQueries lc lb qs) := by
  induction qs generalizing lb with
  | nil => rfl
  | cons q qs ih =>
      rw [TransitionSystem.inTurn, ih, Router.selections, List.map_cons,
        Router.findBackend_eq_selection]
      rfl

/-- The answers given so far list the table, and every call that has returned has
returned the answer given for it. -/
def AnswersGiven (table : DashMap HttpRoute) (s : RouterCalls)
    (given : List (Router.Query × Option Backend)) : Prop :=
  (∀ answer ∈ given, table.Lists answer.1.routes) ∧
    ∀ id host path result, s.searches id = some ⟨host, path, .returned result⟩ →
      ∃ routes, (⟨routes, host, path⟩, result) ∈ given

theorem AnswersGiven.step {table : DashMap HttpRoute} {tracker : HealthTracker}
    {s : RouterCalls} {e : RouterStep} {given : List (Router.Query × Option Backend)}
    (h : AnswersGiven table s given) (hinv : Undisturbed lc shardOf shards table tracker s)
    (hshards : ∀ key, shardOf key < shards) (henabled : enabled shardOf shards s e) :
    AnswersGiven table (next lc s e) (given ++ (answered lc s e).toList) := by
  refine ⟨fun answer hanswer => ?_, fun id host path result hreturned => ?_⟩
  · rcases List.mem_append.mp hanswer with hold | hnew
    · exact h.1 answer hold
    · exact (answered_eq_findBackend hinv hshards henabled (Option.mem_toList.mp hnew)).1
  · rcases answered_of_returned henabled hreturned with hold | ⟨routes, hnew⟩
    · rcases h.2 id host path result hold with ⟨routes, hgiven⟩
      exact ⟨routes, List.mem_append_left _ hgiven⟩
    · exact ⟨routes, List.mem_append_right _ (Option.mem_toList.mpr hnew)⟩

/-- A state without calls is undisturbed. -/
theorem undisturbed_of_quiet {s : RouterCalls} (hquiet : ∀ id, s.searches id = none) :
    Undisturbed lc shardOf shards s.router.store.httpRoutes s.router.healthTracker s :=
  ⟨rfl, rfl, fun id search hsearch => absurd ((hquiet id).symm.trans hsearch) (by simp)⟩

/-- The steps of calls answer as atomic calls made one after another. -/
theorem inTurn_answers {router : Router} {s t : RouterCalls} {es : List RouterStep}
    {table : DashMap HttpRoute} {tracker : HealthTracker}
    (hshards : ∀ key, shardOf key < shards) (hcalls : ∀ e ∈ es, isCallStep e = true)
    (h : (system lc shardOf shards router).Path s es t)
    (hs : Undisturbed lc shardOf shards table tracker s) :
    TransitionSystem.inTurn (fun lb q => Router.findBackend lc lb q.routes q.host q.path)
        s.router.loadBalancer ((answers lc shardOf shards router s es).map Prod.fst) =
      ((answers lc shardOf shards router s es).map Prod.snd, t.router.loadBalancer) := by
  refine h.inTurn_eq (I := Undisturbed lc shardOf shards table tracker)
    (fun u => u.router.loadBalancer) _ (answered lc) ?_ ?_ ?_ hs
  · intro u e he hu henabled
    exact hu.step (hcalls e he) henabled
  · intro u e he _ henabled hnone
    exact loadBalancer_of_silent (hcalls e he) henabled hnone
  · intro u e _ hu henabled q a hanswer
    exact (answered_eq_findBackend hu hshards henabled hanswer).2

/-- The answers of a run list the table, and what has returned was answered. -/
theorem answersGiven_of_path {router : Router} {s t : RouterCalls} {es : List RouterStep}
    (hshards : ∀ key, shardOf key < shards) (hquiet : ∀ id, s.searches id = none)
    (hcalls : ∀ e ∈ es, isCallStep e = true)
    (h : (system lc shardOf shards router).Path s es t) :
    AnswersGiven s.router.store.httpRoutes t (answers lc shardOf shards router s es) := by
  have hquiet' : Undisturbed lc shardOf shards s.router.store.httpRoutes s.router.healthTracker s :=
    undisturbed_of_quiet hquiet
  have hundisturbed := h.along (fun u e he hu henabled => hu.step (hcalls e he) henabled) hquiet'
  have hnone : AnswersGiven s.router.store.httpRoutes s [] := by
    refine ⟨fun answer hmem => ?_, fun id host path result hreturned => ?_⟩
    · cases hmem
    · rw [hquiet id] at hreturned
      cases hreturned
  exact h.preserves_history (AnswersGiven s.router.store.httpRoutes) (answered lc)
    (fun u e given hu hg henabled => hg.step hu hshards henabled) hundisturbed hnone

/-- While neither the table nor the tracker is written, calls that overlap in any way
answer as atomic calls made one after another, in the order in which the answers are
given; every call iterates over the whole table, and the load balancer is left as those
calls leave it. -/
theorem findBackend_calls_in_turn {router : Router} {s t : RouterCalls} {es : List RouterStep}
    (hshards : ∀ key, shardOf key < shards) (hquiet : ∀ id, s.searches id = none)
    (hcalls : ∀ e ∈ es, isCallStep e = true)
    (h : (system lc shardOf shards router).Path s es t) :
    (answers lc shardOf shards router s es).map Prod.snd =
        (Router.selections lc s.router.loadBalancer
          ((answers lc shardOf shards router s es).map Prod.fst)).map
            (Option.map Router.Selection.backend) ∧
      t.router.loadBalancer = Router.afterQueries lc s.router.loadBalancer
        ((answers lc shardOf shards router s es).map Prod.fst) ∧
      (∀ answer ∈ answers lc shardOf shards router s es,
        answer.1.routes ∈ s.router.store.getHttpRoutes) ∧
      ∀ id host path result, t.searches id = some ⟨host, path, .returned result⟩ →
        ∃ routes, (⟨routes, host, path⟩, result) ∈ answers lc shardOf shards router s es := by
  have hturns := inTurn_answers hshards hcalls h (undisturbed_of_quiet hquiet)
  rw [inTurn_findBackend, Prod.mk.injEq] at hturns
  have hgiven := answersGiven_of_path hshards hquiet hcalls h
  exact ⟨hturns.1.symm, hturns.2.symm, hgiven.1, hgiven.2⟩

/-- Two calls that read everything before either of them selects. -/
def overlappingCalls : List RouterStep :=
  [.findBackend 0 "example.com".toList ['/'], .findBackend 1 "example.com".toList ['/'],
    .readShard 0 GatewayProxy.singleBackendUpdate.httpRoutes,
    .readShard 1 GatewayProxy.singleBackendUpdate.httpRoutes, .bestMatch 1, .bestMatch 0,
    .isHealthy 0, .isHealthy 1, .fetchAdd 1, .fetchAdd 0]

/-- Two calls that overlap are answered in turn. -/
theorem findBackend_calls_in_turn_two :
    (∀ key : Str, (fun _ => 0 : Str → Nat) key < 1) ∧
      (answers .ascii (fun _ => 0) 1 singleBackendRouter ⟨singleBackendRouter, fun _ => none⟩
          overlappingCalls).length = 2 ∧
      (answers .ascii (fun _ => 0) 1 singleBackendRouter ⟨singleBackendRouter, fun _ => none⟩
          overlappingCalls).map Prod.snd =
        (Router.selections .ascii singleBackendRouter.loadBalancer
          ((answers .ascii (fun _ => 0) 1 singleBackendRouter
            ⟨singleBackendRouter, fun _ => none⟩ overlappingCalls).map Prod.fst)).map
              (Option.map Router.Selection.backend) := by
  have hpath : (system .ascii (fun _ => 0) 1 singleBackendRouter).Path
      ⟨singleBackendRouter, fun _ => none⟩ overlappingCalls _ :=
    TransitionSystem.Path.of_allEnabled ⟨rfl, rfl, ⟨_, _, _, _, rfl, by decide, rfl⟩,
      ⟨_, _, _, _, rfl, by decide, rfl⟩, ⟨_, _, _, rfl⟩, ⟨_, _, _, rfl⟩,
      ⟨_, _, _, _, _, rfl, by decide⟩, ⟨_, _, _, _, _, rfl, by decide⟩,
      ⟨_, _, _, _, _, rfl, by decide⟩, ⟨_, _, _, _, _, rfl, by decide⟩, trivial⟩
  exact ⟨fun _ => Nat.zero_lt_one, by decide, (findBackend_calls_in_turn
    (fun _ => Nat.zero_lt_one) (fun _ => rfl) (by decide) hpath).1⟩

end RouterCalls

end PingoraProxy
