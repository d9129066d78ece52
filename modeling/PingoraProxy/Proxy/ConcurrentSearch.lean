import PingoraProxy.Foundation.TransitionSystem
import PingoraProxy.Proxy.Fairness
import PingoraProxy.Proxy.HealthConcurrency

/-!
# Concurrent calls for a backend

A call for a backend is not one atomic step.  It lists the route table shard by shard,
looks up the status of every backend of the best rule, one after the other, and at last
moves the counter.  Routes may be written and statuses may change between any two of
these steps, and other calls run at the same time.

A write to the table concerns one key at a time here: a clear locks one shard after
another, so single removals in any order include all that a call can observe of it.

Main results:

- Theorem {lit}`selectFrom_eq_next`: statuses read from one tracker select as the load
  balancer does.
- Theorem {lit}`moves_of_step`: what a step can do to a call in progress.
- Theorem {lit}`holds_of_step`: what a step can bring into the table.
-/

namespace PingoraProxy

open Foundation

namespace LoadBalancer

/-! ## Selecting from statuses read before -/

/-- The positions of the backends whose status was read as healthy. -/
def readHealthy (statuses : List Bool) (backends : List Backend) :
    List (Fin backends.length) :=
  (List.finRange backends.length).filter fun i => (statuses[i.val]?).getD false

/-- The positions read as healthy, each repeated by the weight of its backend. -/
def readExpanded (statuses : List Bool) (backends : List Backend) :
    List (Fin backends.length) :=
  RoundRobin.expand (fun i => repetitions (backends.get i)) (readHealthy statuses backends)

/-- The end of a selection, when every status has been read: the position selected and
the counter left. -/
def selectFrom (current : UInt64) (statuses : List Bool) (backends : List Backend) :
    Option (Fin backends.length) × UInt64 :=
  if (readHealthy statuses backends).isEmpty then (none, current)
  else if (readExpanded statuses backends).isEmpty then (none, current)
  else
    ((readExpanded statuses backends)[
      current.toNat % (readExpanded statuses backends).length]?, current + 1)

theorem readExpanded_eq_nil_iff {statuses : List Bool} {backends : List Backend} :
    readExpanded statuses backends = [] ↔ readHealthy statuses backends = [] :=
  RoundRobin.expand_eq_nil_iff fun i _ => repetitions_pos (backends.get i)

/-- A selection picks from the expansion of what was read as healthy, and moves the
counter exactly when it picks. -/
theorem selectFrom_eq (current : UInt64) (statuses : List Bool) (backends : List Backend) :
    selectFrom current statuses backends =
      if readExpanded statuses backends = [] then (none, current)
      else
        ((readExpanded statuses backends)[
          current.toNat % (readExpanded statuses backends).length]?, current + 1) := by
  unfold selectFrom
  simp only [List.isEmpty_iff]
  by_cases h : readExpanded statuses backends = []
  · rw [if_pos (readExpanded_eq_nil_iff.mp h), if_pos h]
  · rw [if_neg (mt readExpanded_eq_nil_iff.mpr h), if_neg h]

/-- Statuses read from one tracker select as the load balancer does. -/
theorem selectFrom_eq_next (lb : LoadBalancer) (backends : List Backend) :
    selectFrom lb.current (backends.map fun b => lb.healthTracker.isHealthy b.address)
        backends =
      ((lb.next backends).1, (lb.next backends).2.current) := by
  have hhealthy : readHealthy (backends.map fun b => lb.healthTracker.isHealthy b.address)
      backends = healthy lb.healthTracker backends := by
    refine List.filter_congr fun i _ => ?_
    simp
  have hexpanded : readExpanded (backends.map fun b => lb.healthTracker.isHealthy b.address)
      backends = expanded lb.healthTracker backends := by
    unfold readExpanded expanded
    rw [hhealthy]
  rw [selectFrom_eq, next_eq, hexpanded]
  split_ifs <;> rfl

/-- What is selected was read as healthy. -/
theorem status_of_selectFrom {current : UInt64} {statuses : List Bool}
    {backends : List Backend} {i : Fin backends.length}
    (h : (selectFrom current statuses backends).1 = some i) :
    statuses[i.val]? = some true := by
  rw [selectFrom_eq] at h
  split_ifs at h with hnil
  have hmem := RoundRobin.mem_of_mem_expand (List.mem_of_getElem? h)
  have hstatus := (List.mem_filter.mp hmem).2
  cases hread : statuses[i.val]? with
  | none => simp [hread] at hstatus
  | some status => simpa [hread] using hstatus

/-- Where nothing is selected, nothing was read as healthy. -/
theorem status_of_selectFrom_none {current : UInt64} {statuses : List Bool}
    {backends : List Backend} (h : (selectFrom current statuses backends).1 = none)
    (i : Fin backends.length) : statuses[i.val]? ≠ some true := by
  intro hstatus
  rw [selectFrom_eq] at h
  by_cases hnil : readExpanded statuses backends = []
  · have hmem : i ∈ readHealthy statuses backends := by simp [readHealthy, hstatus]
    rw [readExpanded_eq_nil_iff.mp hnil] at hmem
    cases hmem
  · rw [if_neg hnil, List.getElem?_eq_none_iff] at h
    have hlt := Nat.mod_lt current.toNat (List.length_pos_iff.mpr hnil)
    omega

end LoadBalancer

/-! ## Calls in progress -/

/-- Where a call for a backend stands: it lists the routes shard by shard, reads the
status of the backends of the best rule one by one, or has returned. -/
inductive SearchPhase where
  | getHttpRoutes (shard : Nat) (routes : List HttpRoute)
  | next (routes : List HttpRoute) (backends : List Backend) (statuses : List Bool)
  | returned (result : Option Backend)

/-- A call for a backend: its arguments and where it stands. -/
structure Search where
  host : Str
  path : Str
  phase : SearchPhase

/-- A router with the calls made to it. -/
structure RouterCalls where
  router : Router
  searches : Nat → Option Search

/-- The steps of calls, and the writes that may come between them: a call begins, lists
one more shard, finds its best rule, reads one more status, and selects. -/
inductive RouterStep where
  | findBackend (id : Nat) (host path : Str)
  | readShard (id : Nat) (routes : List HttpRoute)
  | bestMatch (id : Nat)
  | isHealthy (id : Nat)
  | fetchAdd (id : Nat)
  | insertRoute (route : HttpRoute)
  | removeRoute (id : Str)
  | trackerStep (address : Str) (step : TrackerStep)

namespace Search

variable (lc : Lowercasing)

/-- List one more shard. -/
def readShard (routes : List HttpRoute) (search : Search) : Search :=
  match search.phase with
  | .getHttpRoutes shard seen =>
      { search with phase := .getHttpRoutes (shard + 1) (seen ++ routes) }
  | _ => search

/-- Find the best rule of the routes listed. -/
def bestMatch (search : Search) : Search :=
  match search.phase with
  | .getHttpRoutes _ routes =>
      match Router.bestMatch lc routes search.host search.path with
      | none => { search with phase := .returned none }
      | some (_, _, backends) => { search with phase := .next routes backends [] }
  | _ => search

/-- Read the status of one more backend. -/
def isHealthy (tracker : HealthTracker) (search : Search) : Search :=
  match search.phase with
  | .next routes backends statuses =>
      match backends[statuses.length]? with
      | some b =>
          { search with phase := .next routes backends (statuses ++ [tracker.isHealthy b.address]) }
      | none => search
  | _ => search

/-- Select from the statuses read: the call returned and the counter left. -/
def fetchAdd (current : UInt64) (search : Search) : Search × UInt64 :=
  match search.phase with
  | .next _ backends statuses =>
      let selected := LoadBalancer.selectFrom current statuses backends
      ({ search with phase := .returned (selected.1.map backends.get) }, selected.2)
  | _ => (search, current)

end Search

namespace RouterCalls

variable (lc : Lowercasing) (shardOf : Str → Nat) (shards : Nat)

/-- Move one call on. -/
def advance (s : RouterCalls) (id : Nat) (f : Search → Search) : RouterCalls :=
  { s with searches := Function.update s.searches id ((s.searches id).map f) }

/-- Write the route table. -/
def writeRoutes (s : RouterCalls) (f : DashMap HttpRoute → DashMap HttpRoute) : RouterCalls :=
  { s with router := { s.router with store := { s.router.store with
    httpRoutes := f s.router.store.httpRoutes } } }

/-- The state a step leads to. -/
def next (s : RouterCalls) : RouterStep → RouterCalls
  | .findBackend id host path =>
      { s with searches := Function.update s.searches id (some ⟨host, path, .getHttpRoutes 0 []⟩) }
  | .readShard id routes => s.advance id (.readShard routes)
  | .bestMatch id => s.advance id (.bestMatch lc)
  | .isHealthy id => s.advance id (.isHealthy s.router.healthTracker)
  | .fetchAdd id =>
      let current := (((s.searches id).map fun search =>
        (search.fetchAdd s.router.loadBalancer.current).2)).getD s.router.loadBalancer.current
      { s.advance id fun search => (search.fetchAdd s.router.loadBalancer.current).1 with
        router := { s.router with loadBalancer := { s.router.loadBalancer with
          current := current } } }
  | .insertRoute route => s.writeRoutes fun table => table.insert route.id route
  | .removeRoute id => s.writeRoutes fun table => table.erase id
  | .trackerStep address step =>
      { s with router := { s.router with loadBalancer := { s.router.loadBalancer with
        healthTracker := step.apply address s.router.healthTracker } } }

/-- The steps a state allows: a call takes its steps in program order, and the routes it
lists are those its next shard holds at that moment. -/
def enabled (s : RouterCalls) : RouterStep → Prop
  | .findBackend id _ _ => s.searches id = none
  | .readShard id routes => ∃ host path shard seen,
      s.searches id = some ⟨host, path, .getHttpRoutes shard seen⟩ ∧ shard < shards ∧
        s.router.store.httpRoutes.ListsShard shardOf shard routes
  | .bestMatch id => ∃ host path routes,
      s.searches id = some ⟨host, path, .getHttpRoutes shards routes⟩
  | .isHealthy id => ∃ host path routes backends statuses,
      s.searches id = some ⟨host, path, .next routes backends statuses⟩ ∧
        statuses.length < backends.length
  | .fetchAdd id => ∃ host path routes backends statuses,
      s.searches id = some ⟨host, path, .next routes backends statuses⟩ ∧
        statuses.length = backends.length
  | .insertRoute _ | .removeRoute _ | .trackerStep _ _ => True

instance : ∀ s e, Decidable (enabled shardOf shards s e)
  | s, .findBackend id _ _ =>
      decidable_of_iff ((s.searches id).isNone = true) Option.isNone_iff_eq_none
  | s, .readShard id routes =>
      match h : s.searches id with
      | some ⟨_, _, .getHttpRoutes shard _⟩ =>
          decidable_of_iff (shard < shards ∧
            s.router.store.httpRoutes.ListsShard shardOf shard routes) (by simp [enabled, h])
      | some ⟨_, _, .next ..⟩ | some ⟨_, _, .returned _⟩ | none =>
          isFalse (by simp [enabled, h])
  | s, .bestMatch id =>
      match h : s.searches id with
      | some ⟨_, _, .getHttpRoutes shard _⟩ =>
          decidable_of_iff (shard = shards) (by simp [enabled, h])
      | some ⟨_, _, .next ..⟩ | some ⟨_, _, .returned _⟩ | none =>
          isFalse (by simp [enabled, h])
  | s, .isHealthy id =>
      match h : s.searches id with
      | some ⟨_, _, .next _ backends statuses⟩ =>
          decidable_of_iff (statuses.length < backends.length) (by simp [enabled, h])
      | some ⟨_, _, .getHttpRoutes ..⟩ | some ⟨_, _, .returned _⟩ | none =>
          isFalse (by simp [enabled, h])
  | s, .fetchAdd id =>
      match h : s.searches id with
      | some ⟨_, _, .next _ backends statuses⟩ =>
          decidable_of_iff (statuses.length = backends.length) (by simp [enabled, h])
      | some ⟨_, _, .getHttpRoutes ..⟩ | some ⟨_, _, .returned _⟩ | none =>
          isFalse (by simp [enabled, h])
  | _, .insertRoute _ | _, .removeRoute _ | _, .trackerStep .. =>
      inferInstanceAs (Decidable True)

/-- The calls of a router, from a state without calls. -/
def system (router : Router) : TransitionSystem RouterCalls RouterStep where
  init := ⟨router, fun _ => none⟩
  enabled := enabled shardOf shards
  next := next lc

instance (router : Router) (s : RouterCalls) (e : RouterStep) :
    Decidable ((system lc shardOf shards router).enabled s e) :=
  inferInstanceAs (Decidable (enabled shardOf shards s e))

/-- The status of an address. -/
def isHealthy (s : RouterCalls) (address : Str) : Bool :=
  s.router.healthTracker.isHealthy address

/-- A route is in the table. -/
def Holds (s : RouterCalls) (route : HttpRoute) : Prop :=
  ∃ id, s.router.store.httpRoutes.lookup id = some route

/-- The answer a step gives, with the call it answers and the routes listed for it. -/
def answered (s : RouterCalls) : RouterStep → Option (Router.Query × Option Backend)
  | .bestMatch id =>
      match s.searches id with
      | some ⟨host, path, .getHttpRoutes _ routes⟩ =>
          if (Router.bestMatch lc routes host path).isNone then
            some (⟨routes, host, path⟩, none)
          else none
      | _ => none
  | .fetchAdd id =>
      match s.searches id with
      | some ⟨host, path, .next routes backends statuses⟩ =>
          some (⟨routes, host, path⟩, (LoadBalancer.selectFrom s.router.loadBalancer.current
            statuses backends).1.map backends.get)
      | _ => none
  | _ => none

/-! ## One step -/

/-- What a step can do to a call in progress, with the router it finds and the answer it
gives for the call. -/
inductive SearchMoves (router : Router) :
    Search → Option (Router.Query × Option Backend) → Search → Prop where
  | stay (search : Search) : SearchMoves router search none search
  | readShard {host path : Str} {shard : Nat} {seen routes : List HttpRoute} :
      router.store.httpRoutes.ListsShard shardOf shard routes →
      SearchMoves router ⟨host, path, .getHttpRoutes shard seen⟩ none
        ⟨host, path, .getHttpRoutes (shard + 1) (seen ++ routes)⟩
  | noMatch {host path : Str} {routes : List HttpRoute} :
      Router.bestMatch lc routes host path = none →
      SearchMoves router ⟨host, path, .getHttpRoutes shards routes⟩
        (some (⟨routes, host, path⟩, none)) ⟨host, path, .returned none⟩
  | bestMatch {host path : Str} {routes : List HttpRoute} {hostnameScore pathScore : Nat}
      {backends : List Backend} :
      Router.bestMatch lc routes host path = some (hostnameScore, pathScore, backends) →
      SearchMoves router ⟨host, path, .getHttpRoutes shards routes⟩ none
        ⟨host, path, .next routes backends []⟩
  | isHealthy {host path : Str} {routes : List HttpRoute} {backends : List Backend}
      {statuses : List Bool} {b : Backend} :
      backends[statuses.length]? = some b →
      SearchMoves router ⟨host, path, .next routes backends statuses⟩ none
        ⟨host, path, .next routes backends
          (statuses ++ [router.healthTracker.isHealthy b.address])⟩
  | fetchAdd {host path : Str} {routes : List HttpRoute} {backends : List Backend}
      {statuses : List Bool} :
      statuses.length = backends.length →
      SearchMoves router ⟨host, path, .next routes backends statuses⟩
        (some (⟨routes, host, path⟩, (LoadBalancer.selectFrom router.loadBalancer.current statuses
          backends).1.map backends.get))
        ⟨host, path, .returned ((LoadBalancer.selectFrom router.loadBalancer.current statuses
          backends).1.map backends.get)⟩

theorem searches_advance (s : RouterCalls) (id other : Nat) (f : Search → Search) :
    (s.advance id f).searches other =
      if other = id then (s.searches id).map f else s.searches other := by
  unfold advance
  dsimp only
  by_cases h : other = id
  · rw [if_pos h, h, Function.update_self]
  · rw [if_neg h, Function.update_of_ne h]

/-- A step moves a call in progress on, or leaves it. -/
theorem moves_of_step {s : RouterCalls} {e : RouterStep} {id : Nat} {search : Search}
    (henabled : enabled shardOf shards s e) (hsearch : s.searches id = some search) :
    ∃ answer search', (next lc s e).searches id = some search' ∧
      SearchMoves lc shardOf shards s.router search answer search' ∧
      ∀ a, answer = some a → answered lc s e = some a := by
  have hstay : (next lc s e).searches id = some search →
      ∃ answer search', (next lc s e).searches id = some search' ∧
        SearchMoves lc shardOf shards s.router search answer search' ∧
        ∀ a, answer = some a → answered lc s e = some a := fun hsame =>
    ⟨none, search, hsame, .stay search, by simp⟩
  cases e with
  | findBackend other host path =>
      have hne : id ≠ other := by
        rintro rfl
        exact absurd (henabled.symm.trans hsearch) (by simp)
      refine hstay ?_
      rw [← hsearch]
      exact Function.update_of_ne hne _ _
  | readShard other routes =>
      rcases henabled with ⟨host, path, shard, seen, hother, -, hroutes⟩
      by_cases hid : id = other
      · subst hid
        cases hsearch.symm.trans hother
        refine ⟨_, _, ?_, .readShard hroutes, by simp⟩
        simp only [next, searches_advance, hother]
        rfl
      · refine hstay ?_
        simp only [next, searches_advance, if_neg hid, hsearch]
  | bestMatch other =>
      rcases henabled with ⟨host, path, routes, hother⟩
      by_cases hid : id = other
      · subst hid
        cases hsearch.symm.trans hother
        cases hbest : Router.bestMatch lc routes host path with
        | none =>
            refine ⟨_, _, ?_, .noMatch hbest, ?_⟩
            · simp [next, searches_advance, hother, Search.bestMatch, hbest]
            · rintro a ⟨⟩
              simp [answered, hother, hbest]
        | some best =>
            rcases best with ⟨hs, ps, backends⟩
            refine ⟨_, _, ?_, .bestMatch hbest, by simp⟩
            simp [next, searches_advance, hother, Search.bestMatch, hbest]
      · refine hstay ?_
        simp only [next, searches_advance, if_neg hid, hsearch]
  | isHealthy other =>
      rcases henabled with ⟨host, path, routes, backends, statuses, hother, hlt⟩
      by_cases hid : id = other
      · subst hid
        cases hsearch.symm.trans hother
        have hget := List.getElem?_eq_getElem hlt
        refine ⟨_, _, ?_, .isHealthy hget, by simp⟩
        simp [next, searches_advance, hother, Search.isHealthy, hget]
      · refine hstay ?_
        simp only [next, searches_advance, if_neg hid, hsearch]
  | fetchAdd other =>
      rcases henabled with ⟨host, path, routes, backends, statuses, hother, hlength⟩
      by_cases hid : id = other
      · subst hid
        cases hsearch.symm.trans hother
        refine ⟨_, _, ?_, .fetchAdd hlength, ?_⟩
        · simp only [next, searches_advance, hother]
          rfl
        · rintro a ⟨⟩
          simp [answered, hother]
      · refine hstay ?_
        simp only [next, searches_advance, if_neg hid, hsearch]
  | insertRoute route | removeRoute other | trackerStep address step =>
      exact hstay hsearch

variable {lc}

/-- A step brings into the table only the route it inserts. -/
theorem holds_of_step {s : RouterCalls} {e : RouterStep} {route : HttpRoute}
    (h : (next lc s e).Holds route) : s.Holds route ∨ e = .insertRoute route := by
  rcases h with ⟨key, hkey⟩
  cases e with
  | findBackend | readShard | bestMatch | isHealthy | fetchAdd | trackerStep =>
      exact Or.inl ⟨key, hkey⟩
  | insertRoute new =>
      simp only [next, writeRoutes, ConcurrentMap.lookup_insert_eq] at hkey
      split_ifs at hkey with hid
      · exact Or.inr (congrArg _ (Option.some.inj hkey))
      · exact Or.inl ⟨key, hkey⟩
  | removeRoute other =>
      simp only [next, writeRoutes] at hkey
      by_cases hid : key = other
      · rw [hid, Finmap.lookup_erase] at hkey
        cases hkey
      · rw [Finmap.lookup_erase_ne hid] at hkey
        exact Or.inl ⟨key, hkey⟩

end RouterCalls

end PingoraProxy
