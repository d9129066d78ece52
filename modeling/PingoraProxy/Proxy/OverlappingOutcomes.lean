import Mathlib.Data.Set.Card
import PingoraProxy.Proxy.OverlappingHooks
import PingoraProxy.Proxy.SearchAnswers

/-!
# Outcomes of connections while hooks overlap

However the steps of the hooks are interleaved, the tracker knows only addresses that
were inserted with some route, and what it says of an address follows from the writes of
the hooks about this address.  A backend that never connects is taken out of service by
its failures, and only attempts that have read it as healthy before can fail after that.

Main results:

- Theorem {lit}`health_of_path`: which addresses are unhealthy, which the tracker knows,
  and where they come from.
- Theorem {lit}`failures_of_dead_backend_le`: how many attempts an address that never
  connects can fail.
-/

namespace PingoraProxy

open Foundation

/-- Some backend of a route has the address. -/
def HttpRoute.HasAddress (route : HttpRoute) (address : Str) : Prop :=
  ∃ rule ∈ route.rules, ∃ b ∈ rule.backends, b.address = address

/-- Some of the routes has a backend with the address. -/
def Inserted (routes : List HttpRoute) (address : Str) : Prop :=
  ∃ route ∈ routes, route.HasAddress address

theorem Inserted.append {routes : List HttpRoute} {address : Str} (h : Inserted routes address)
    (later : List HttpRoute) : Inserted (routes ++ later) address := by
  rcases h with ⟨route, hroute, haddress⟩
  exact ⟨route, List.mem_append_left _ hroute, haddress⟩

namespace Search

/-- Every address that a call has come to know has a property. -/
def Knows (P : Str → Prop) : Search → Prop
  | ⟨_, _, .getHttpRoutes _ routes⟩ =>
      ∀ route ∈ routes, ∀ address, route.HasAddress address → P address
  | ⟨_, _, .next _ backends _⟩ => ∀ b ∈ backends, P b.address
  | ⟨_, _, .returned result⟩ => ∀ b ∈ result, P b.address

/-- A call has read an address as healthy, or has returned it. -/
def Reads (address : Str) : Search → Prop
  | ⟨_, _, .next _ backends statuses⟩ => ∃ (i : Nat) (b : Backend), backends[i]? = some b ∧
      b.address = address ∧ statuses[i]? = some true
  | ⟨_, _, .returned (some b)⟩ => b.address = address
  | _ => False

theorem Knows.mono {P Q : Str → Prop} (hPQ : ∀ address, P address → Q address) {search : Search}
    (h : search.Knows P) : search.Knows Q := by
  rcases search with ⟨host, path, phase⟩
  cases phase with
  | getHttpRoutes shard routes =>
      exact fun route hroute address haddress => hPQ _ (h route hroute address haddress)
  | next routes backends statuses => exact fun b hb => hPQ _ (h b hb)
  | returned result => exact fun b hb => hPQ _ (h b hb)

/-- A call that has just begun knows no address and has read none. -/
theorem of_begun {search : Search} (h : search.phase = .getHttpRoutes 0 []) :
    (∀ P, search.Knows P) ∧ ∀ address, ¬search.Reads address := by
  rcases search with ⟨host, path, phase⟩
  cases h
  refine ⟨fun P route hroute => ?_, fun address hreads => hreads⟩
  cases hroute

end Search

namespace RouterCalls

variable {lc : Lowercasing} {shardOf : Str → Nat} {shards : Nat}

/-- What a call comes to know in a step are addresses of the table. -/
theorem SearchMoves.knows {P : Str → Prop} {router : Router} {search search' : Search}
    {answer : Option (Router.Query × Option Backend)}
    (hmoves : SearchMoves lc shardOf shards router search answer search')
    (htable : ∀ key route, router.store.httpRoutes.lookup key = some route →
      ∀ address, route.HasAddress address → P address)
    (h : search.Knows P) : search'.Knows P := by
  cases hmoves with
  | stay => exact h
  | readShard hroutes =>
      intro route hroute
      rcases List.mem_append.mp hroute with hseen | hnew
      · exact h route hseen
      · rcases hroutes.mem_iff.mp hnew with ⟨key, -, hkey⟩
        exact htable key route hkey
  | noMatch => exact fun b hb => by cases hb
  | bestMatch hbest =>
      rcases exists_winner_of_bestMatch hbest with ⟨slot, score, hwinner, rfl⟩
      have hslot := (FirstBest.isFirstBest_of_firstBest hwinner).mem.1
      rcases Router.mem_slots.mp hslot with ⟨hroute, hrule⟩
      exact fun b hb => h slot.1 hroute b.address ⟨slot.2, hrule, b, hb, rfl⟩
  | isHealthy => exact h
  | fetchAdd =>
      intro b hb
      rcases Option.map_eq_some_iff.mp hb with ⟨i, -, rfl⟩
      exact h _ (List.get_mem _ i)

/-- A call reads an address as healthy only in a moment in which it is. -/
theorem SearchMoves.reads {router : Router} {search search' : Search} {address : Str}
    {answer : Option (Router.Query × Option Backend)}
    (hmoves : SearchMoves lc shardOf shards router search answer search')
    (hunhealthy : router.healthTracker.isHealthy address = false)
    (h : search'.Reads address) : search.Reads address := by
  cases hmoves with
  | stay => exact h
  | readShard => exact h
  | noMatch => cases h
  | bestMatch =>
      rcases h with ⟨i, b, -, -, hstatus⟩
      cases hstatus
  | @isHealthy host path routes backends statuses read hread =>
      rcases h with ⟨i, b, hb, haddress, hstatus⟩
      by_cases hlt : i < statuses.length
      · rw [List.getElem?_append_left hlt] at hstatus
        exact ⟨i, b, hb, haddress, hstatus⟩
      · -- the status read in this step is that of another address
        rw [List.getElem?_append_right (Nat.not_lt.mp hlt), List.getElem?_singleton] at hstatus
        split_ifs at hstatus with hlast
        have hi : i = statuses.length := by omega
        subst hi
        cases hread.symm.trans hb
        rw [haddress, hunhealthy] at hstatus
        cases hstatus
  | @fetchAdd host path routes backends statuses hlength =>
      cases hselected : (LoadBalancer.selectFrom router.loadBalancer.current statuses
          backends).1 with
      | none =>
          rw [hselected] at h
          cases h
      | some i =>
          rw [hselected] at h
          exact ⟨i.val, backends.get i, List.getElem?_eq_getElem i.isLt, h,
            LoadBalancer.status_of_selectFrom hselected⟩

/-- What a step can do to the calls: each one after it has just begun, or was moved. -/
theorem searches_next_cases {s : RouterCalls} {e : RouterStep} {call : Nat} {search : Search}
    (henabled : s.enabled shardOf shards e) (h : (s.next lc e).searches call = some search) :
    search.phase = .getHttpRoutes 0 [] ∨
      ∃ before answer, s.searches call = some before ∧
        SearchMoves lc shardOf shards s.router before answer search := by
  cases hbefore : s.searches call with
  | none => exact Or.inl (searches_before h hbefore)
  | some before =>
      rcases moves_of_step lc shardOf shards henabled hbefore with ⟨answer, after, hafter, hmoves, -⟩
      cases hafter.symm.trans h
      exact Or.inr ⟨before, answer, rfl, hmoves⟩

end RouterCalls

namespace HealthTracker

/-- A step that removes no count keeps those there are, and adds one for its own address
when it is the first write of a success or a failure. -/
theorem mem_failures_apply {step : TrackerStep} (hkept : step ≠ .removeFailures)
    (address other : Str) (tracker : HealthTracker) :
    address ∈ (step.apply other tracker).failures ↔
      address ∈ tracker.failures ∨
        address = other ∧ (step = .insertZero ∨ step = .recordFailure) := by
  cases step with
  | insertZero =>
      simp only [true_or, and_true]
      exact Finmap.mem_insert.trans or_comm
  | recordFailure =>
      simp only [or_true, and_true]
      unfold TrackerStep.apply recordFailure
      dsimp only
      split_ifs <;> exact Finmap.mem_insert.trans or_comm
  | insertHealthy | removeHealth =>
      simp only [reduceCtorEq, or_self, and_false, or_false]
      rfl
  | removeFailures => exact absurd rfl hkept

/-- While no count is removed, counts are kept for the addresses that have connected or
failed. -/
theorem mem_failures_replayWrites {failureThreshold : UInt32} {writes : List (Str × TrackerStep)}
    (hkept : ∀ w ∈ writes, w.2 ≠ .removeFailures) (address : Str) :
    address ∈ (replayWrites failureThreshold writes).failures ↔
      (address, .insertZero) ∈ writes ∨ (address, .recordFailure) ∈ writes := by
  induction writes using List.reverseRecOn with
  | nil => simp [replayWrites, HealthTracker.new, Finmap.notMem_empty]
  | append_singleton writes w ih =>
      have hrest := ih fun other hother => hkept other (List.mem_append_left _ hother)
      rcases w with ⟨other, step⟩
      rw [replayWrites_concat, mem_failures_apply (hkept (other, step) (by simp)), hrest]
      simp only [List.mem_append, List.mem_singleton, Prod.mk.injEq]
      rw [and_or_left, eq_comm (a := step), eq_comm (a := step)]
      exact or_or_or_comm

end HealthTracker

namespace GatewayCalls

variable {lc : Lowercasing} {shardOf : Str → Nat} {shards : Nat} {Addr : Type}
  {parse : Str → Except Str Addr} {failureThreshold : UInt32}

/-! ## Addresses the tracker knows -/

/-- The route that a step inserts, if it inserts one. -/
def inserted : HookStep → Option HttpRoute
  | .routerStep (.insertRoute route) => some route
  | _ => none

/-- The addresses in the table, in the calls, in the contexts of the requests and in the
tracker belong to inserted routes. -/
structure AddressesInserted (s : GatewayCalls) (routes : List HttpRoute) : Prop where
  inTable : ∀ route, s.calls.Holds route → route ∈ routes
  inCalls : ∀ call search, s.calls.searches call = some search → search.Knows (Inserted routes)
  inContexts : ∀ id address, (s.ctxOf id).backendAddress = some address → Inserted routes address
  inTracker : ∀ address, address ∈ s.calls.router.healthTracker.failures → Inserted routes address

/-- A step keeps in a context the address it held, or one that a call has returned. -/
theorem ctxOf_next_cases {s : GatewayCalls} {e : HookStep} {id : Nat} {address : Str}
    (henabled : enabled shardOf shards s e)
    (h : ((next lc parse s e).ctxOf id).backendAddress = some address) :
    (s.ctxOf id).backendAddress = some address ∨
      ∃ call host path backend,
        s.calls.searches call = some ⟨host, path, .returned (some backend)⟩ ∧
          backend.address = address := by
  cases hafter : (next lc parse s e).requests id with
  | none =>
      rw [ctxOf, hafter] at h
      cases h
  | some after =>
      have hctx : after.ctx.backendAddress = some address := by
        rw [ctxOf, hafter] at h
        exact h
      rcases requests_next_cases hafter with hsame | ⟨call, -, -, -, -, rfl⟩ |
        ⟨before, rfl, hbefore, rfl⟩ | ⟨-, rfl⟩ | ⟨-, rfl⟩
      · left
        rw [ctxOf, hsame]
        exact hctx
      · exact Or.inl hctx
      · rcases peerOf_cases henabled hbefore with hidle |
          ⟨call, host, path, backend, -, hsearch, haddress, -⟩
        · left
          rw [hidle] at hctx
          rw [ctxOf, hbefore]
          exact hctx
        · exact Or.inr ⟨call, host, path, backend, hsearch,
            Option.some.inj (haddress.symm.trans hctx)⟩
      · exact Or.inl hctx
      · exact Or.inl hctx

/-- A count is kept for an address only if it was kept before or the step writes it. -/
theorem mem_failures_next {s : GatewayCalls} {e : HookStep} {address : Str}
    (henabled : enabled shardOf shards s e)
    (h : address ∈ (next lc parse s e).calls.router.healthTracker.failures) :
    address ∈ s.calls.router.healthTracker.failures ∨
      ∃ id, (s.ctxOf id).backendAddress = some address := by
  rw [healthTracker_next] at h
  cases hwrite : s.write e with
  | none =>
      rw [hwrite] at h
      exact Or.inl h
  | some w =>
      rcases w with ⟨other, step⟩
      rw [hwrite] at h
      rcases write_cases henabled hwrite with ⟨id, hctx, hstep⟩
      have hkept : step ≠ .removeFailures := by
        rintro rfl
        simp at hstep
      rcases (HealthTracker.mem_failures_apply hkept address other _).mp h with
        hbefore | ⟨rfl, -⟩
      · exact Or.inl hbefore
      · exact Or.inr ⟨id, hctx⟩

/-- Routes are inserted in free steps only. -/
theorem inserted_of_routerStep {s : GatewayCalls} {e : HookStep} {route : HttpRoute}
    (h : s.routerStep e = some (.insertRoute route)) : inserted e = some route := by
  cases e with
  | routerStep e =>
      cases h
      rfl
  | connectedToUpstream id | insertHealthy id | failToConnect id =>
      rcases Option.map_eq_some_iff.mp h with ⟨address, -, hstep⟩
      cases hstep
  | upstreamPeer | backendToPeer | finish => cases h

/-- A step brings no address that does not belong to an inserted route. -/
theorem addressesInserted_step {s : GatewayCalls} {e : HookStep} {routes : List HttpRoute}
    (h : AddressesInserted s routes) (henabled : enabled shardOf shards s e) :
    AddressesInserted (next lc parse s e) (routes ++ (inserted e).toList) := by
  have hlater : ∀ address, Inserted routes address →
      Inserted (routes ++ (inserted e).toList) address := fun address hin => hin.append _
  refine ⟨?_, ?_, ?_, ?_⟩
  · intro route hroute
    cases hstep : s.routerStep e with
    | none =>
        rw [calls_next_of_none hstep] at hroute
        exact List.mem_append_left _ (h.inTable route hroute)
    | some e' =>
        rw [calls_next hstep] at hroute
        rcases RouterCalls.holds_of_step hroute with hbefore | rfl
        · exact List.mem_append_left _ (h.inTable route hbefore)
        · rw [inserted_of_routerStep hstep]
          simp
  · intro call search hsearch
    cases hstep : s.routerStep e with
    | none =>
        rw [calls_next_of_none hstep] at hsearch
        exact (h.inCalls call search hsearch).mono hlater
    | some e' =>
        rw [calls_next hstep] at hsearch
        rcases RouterCalls.searches_next_cases (enabled_routerStep henabled hstep) hsearch with
          hbegun | ⟨before, answer, hbefore, hmoves⟩
        · exact (Search.of_begun hbegun).1 _
        · refine hmoves.knows (fun key route hkey address haddress => ?_)
            ((h.inCalls call before hbefore).mono hlater)
          exact hlater _ ⟨route, h.inTable route ⟨key, hkey⟩, haddress⟩
  · intro id address hctx
    rcases ctxOf_next_cases henabled hctx with hbefore |
      ⟨call, host, path, backend, hsearch, rfl⟩
    · exact hlater _ (h.inContexts id address hbefore)
    · exact hlater _ (h.inCalls call _ hsearch backend rfl)
  · intro address hmem
    rcases mem_failures_next henabled hmem with hbefore | ⟨id, hctx⟩
    · exact hlater _ (h.inTracker address hbefore)
    · exact hlater _ (h.inContexts id address hctx)

/-- The hooks remove no count. -/
theorem ne_removeFailures_of_mem_written {s t : GatewayCalls} {es : List HookStep}
    (h : (system lc shardOf shards parse failureThreshold).Path s es t) :
    ∀ w ∈ written lc shardOf shards parse failureThreshold s es, w.2 ≠ .removeFailures := by
  induction h with
  | nil =>
      intro w hw
      cases hw
  | @cons s t e es henabled _ ih =>
      intro w hw
      rcases List.mem_append.mp hw with hnow | hlater
      · rcases w with ⟨address, step⟩
        rcases write_cases henabled (Option.mem_toList.mp hnow) with ⟨id, -, hstep⟩
        rintro rfl
        simp at hstep
      · exact ih w hlater

/-- The status of an address follows from what the hooks wrote about it. -/
theorem isHealthy_of_path {t : GatewayCalls} {es : List HookStep}
    (h : (system lc shardOf shards parse failureThreshold).Path (new failureThreshold) es t)
    (address : Str) :
    t.isHealthy address = (HealthTracker.runSteps failureThreshold address
      (HealthTracker.stepsFor address
        (written lc shardOf shards parse failureThreshold (new failureThreshold) es))).isHealthy
      address := by
  rw [← (HealthTracker.agree_replayWrites failureThreshold _ address).2.2,
    ← healthTracker_of_path h]
  rfl

/-- The addresses the tracker knows belong to inserted routes. -/
theorem inserted_of_mem_failures {t : GatewayCalls} {es : List HookStep}
    (h : (system lc shardOf shards parse failureThreshold).Path (new failureThreshold) es t)
    {address : Str} (hmem : address ∈ t.calls.router.healthTracker.failures) :
    Inserted (es.filterMap inserted) address := by
  have hinit : AddressesInserted (new failureThreshold) [] := by
    refine ⟨fun route hroute => ?_, fun call search hsearch => ?_, fun id held hctx => ?_,
      fun held hheld => absurd hheld Finmap.notMem_empty⟩
    · rcases hroute with ⟨key, hkey⟩
      exact absurd hkey (by simp [new, Router.new, RouteStore.new])
    · cases hsearch
    · cases hctx
  have hend := h.preserves_history (Q := fun _ => True) AddressesInserted
    (fun _ e => inserted e) (fun s e routes _ hs henabled => addressesInserted_step hs henabled)
    (h.along (fun _ _ _ _ _ => trivial) trivial) hinit
  rw [List.nil_append, TransitionSystem.emitted_of_label] at hend
  exact hend.inTracker address hmem

/-- The health state in every state that overlapping hooks reach, by what the hooks have
written about an address: it is unhealthy exactly when some attempt that failed since the
status was last restored was at least the threshold-th since the count was last started
again, which are the failures since the last success when no step came between the two
writes of one; a count is kept for exactly the addresses that some attempt has connected
to or failed for; and each of them belongs to a route inserted before. -/
theorem health_of_path {t : GatewayCalls} {es : List HookStep} (hpos : 0 < failureThreshold)
    (h : (system lc shardOf shards parse failureThreshold).Path (new failureThreshold) es t)
    (address : Str) :
    let writes := written lc shardOf shards parse failureThreshold (new failureThreshold) es
    (writes.count (address, .recordFailure) < 2 ^ 32 →
      (t.isHealthy address = false ↔
        HealthTracker.ReachedSinceRestored failureThreshold
          (HealthTracker.stepsFor address writes))) ∧
    (∀ calls : List HealthCall, HealthTracker.stepsFor address writes = calls.flatMap callSteps →
      (t.isHealthy address = false ↔ failureThreshold.toNat ≤
        HealthTracker.failuresSince address (calls.map fun call => ⟨address, call⟩))) ∧
    (address ∈ t.calls.router.healthTracker.failures ↔
      (address, .insertZero) ∈ writes ∨ (address, .recordFailure) ∈ writes) ∧
    (address ∈ t.calls.router.healthTracker.failures →
      Inserted (es.filterMap inserted) address) := by
  intro writes
  refine ⟨fun hfew => ?_, fun calls hcalls => ?_, ?_, fun hmem => inserted_of_mem_failures h hmem⟩
  · rw [isHealthy_of_path h]
    exact HealthTracker.isHealthy_runSteps_iff (by rwa [HealthTracker.countP_fails_stepsFor])
  · rw [isHealthy_of_path h]
    change (HealthTracker.runSteps failureThreshold address
      (HealthTracker.stepsFor address writes)).isHealthy address = false ↔ _
    rw [hcalls]
    exact HealthTracker.isHealthy_of_whole_calls hpos address calls
  · rw [healthTracker_of_path h]
    exact HealthTracker.mem_failures_replayWrites (ne_removeFailures_of_mem_written h) address

/-- A request asks for a peer, and its call reads the status of the only backend. -/
def readsStatus (id call : Nat) : List HookStep :=
  [.upstreamPeer id call (some "example.com".toList) none ['/'],
    .routerStep (.readShard call [oneBackendRoute "10.0.0.1:80"]), .routerStep (.bestMatch call),
    .routerStep (.isHealthy call)]

/-- The call selects the backend and its peer is created. -/
def getsPeer (id call : Nat) : List HookStep :=
  [.routerStep (.fetchAdd call), .backendToPeer id]

/-- Three attempts fail between the two writes of a success, and one after them. -/
def failuresWithinSuccess : List HookStep :=
  [.routerStep (.insertRoute (oneBackendRoute "10.0.0.1:80"))] ++
    ([0, 1, 2, 3, 4].flatMap fun id => readsStatus id id ++ getsPeer id id) ++
    [.connectedToUpstream 0, .failToConnect 1, .failToConnect 2, .failToConnect 3,
      .insertHealthy 0, .failToConnect 4]

/-- The one failure after the second write takes the backend out of service: it is the
fourth since the first write. -/
theorem health_of_path_withinSuccess :
    (failuresWithinSuccess.foldl (next .ascii fun _ => .ok ()) (new 3)).isHealthy
        "10.0.0.1:80".toList = false ∧
      HealthTracker.ReachedSinceRestored 3 (HealthTracker.stepsFor "10.0.0.1:80".toList
        (written .ascii (fun _ => 0) 1 (fun _ => .ok ()) 3 (new 3) failuresWithinSuccess)) ∧
      Inserted (failuresWithinSuccess.filterMap inserted) "10.0.0.1:80".toList := by
  have hpath : (system .ascii (fun _ => 0) 1 (fun _ => .ok ()) 3).Path (new 3)
      failuresWithinSuccess (failuresWithinSuccess.foldl (next .ascii fun _ => .ok ()) (new 3)) :=
    TransitionSystem.Path.of_allEnabled (by decide)
  have hunhealthy : (failuresWithinSuccess.foldl (next .ascii fun _ => .ok ()) (new 3)).isHealthy
      "10.0.0.1:80".toList = false := by decide
  rcases health_of_path (by decide) hpath "10.0.0.1:80".toList with ⟨hstatus, -, -, hinserted⟩
  exact ⟨hunhealthy, (hstatus (by decide)).mp hunhealthy, hinserted (by decide)⟩

/-! ## Attempts to an address that never connects -/

/-- A request may still fail at an address: its call for a backend has read the address as
healthy and has not returned another backend, or its connection to it is under way. -/
def MayFail (s : GatewayCalls) (address : Str) (id : Nat) : Prop :=
  ∃ request, s.requests id = some request ∧
    match request.phase with
    | .upstreamPeer call => ∃ search, s.calls.searches call = some search ∧ search.Reads address
    | .connecting => request.ctx.backendAddress = some address
    | .idle | .connectedToUpstream => False

/-- The requests that may still fail at the address. -/
def underWay (s : GatewayCalls) (address : Str) : Set Nat :=
  {id | s.MayFail address id}

/-- While an address is unhealthy no call reads it as healthy. -/
theorem reads_of_next {s : GatewayCalls} {e : HookStep} {address : Str} {call : Nat}
    {search : Search} (henabled : enabled shardOf shards s e)
    (hunhealthy : s.isHealthy address = false)
    (hsearch : (next lc parse s e).calls.searches call = some search)
    (hreads : search.Reads address) :
    ∃ before, s.calls.searches call = some before ∧ before.Reads address := by
  cases hstep : s.routerStep e with
  | none =>
      rw [calls_next_of_none hstep] at hsearch
      exact ⟨search, hsearch, hreads⟩
  | some e' =>
      rw [calls_next hstep] at hsearch
      rcases RouterCalls.searches_next_cases (enabled_routerStep henabled hstep) hsearch with
        hbegun | ⟨before, answer, hbefore, hmoves⟩
      · exact absurd hreads ((Search.of_begun hbegun).2 address)
      · exact ⟨before, hbefore, hmoves.reads hunhealthy hreads⟩

/-- While an address is unhealthy no request is added to those that may fail at it. -/
theorem mayFail_of_next {s : GatewayCalls} {e : HookStep} {address : Str} {id : Nat}
    (henabled : enabled shardOf shards s e) (hunhealthy : s.isHealthy address = false)
    (h : (next lc parse s e).MayFail address id) : s.MayFail address id := by
  rcases h with ⟨after, hafter, hphase⟩
  rcases requests_next_cases hafter with hsame | ⟨call, hostHeader, authority, path, rfl, rfl⟩ |
    ⟨before, rfl, hbefore, rfl⟩ | ⟨-, rfl⟩ | ⟨-, rfl⟩
  · refine ⟨after, hsame, ?_⟩
    cases hwhere : after.phase with
    | upstreamPeer call =>
        rw [hwhere] at hphase
        rcases hphase with ⟨search, hsearch, hreads⟩
        exact reads_of_next henabled hunhealthy hsearch hreads
    | connecting | idle | connectedToUpstream => rwa [hwhere] at hphase
  · -- the call of a new attempt was not in progress before
    rcases hphase with ⟨search, hsearch, hreads⟩
    rcases reads_of_next henabled hunhealthy hsearch hreads with ⟨before, hbefore, -⟩
    exact absurd (henabled.1.symm.trans hbefore) (by simp)
  · rcases peerOf_cases henabled hbefore with hidle |
      ⟨call, host, path, backend, hcall, hsearch, haddress, hpeer⟩
    · rw [hidle] at hphase
      cases hphase
    · refine ⟨before, hbefore, ?_⟩
      rw [hcall]
      refine ⟨_, hsearch, ?_⟩
      rcases hpeer with hconnecting | hidle
      · rw [hconnecting] at hphase
        exact Option.some.inj (haddress.symm.trans hphase)
      · rw [hidle] at hphase
        cases hphase
  · cases hphase
  · cases hphase

/-- A failed attempt was under way before and is no longer after. -/
theorem underWay_of_failure {s : GatewayCalls} {e : HookStep} {address : Str}
    (henabled : enabled shardOf shards s e) (h : s.write e = some (address, .recordFailure)) :
    ∃ id ∈ s.underWay address,
      (next lc parse s e).underWay address ⊆ s.underWay address \ {id} := by
  rcases write_cases henabled h with ⟨id, hctx, hstep⟩
  simp only [reduceCtorEq, and_false, and_true, false_or] at hstep
  subst hstep
  have hconnecting : s.phaseOf id = some .connecting := henabled
  rcases Option.map_eq_some_iff.mp hconnecting with ⟨request, hrequest, hphase⟩
  have hheld : request.ctx.backendAddress = some address := by
    rw [ctxOf, hrequest] at hctx
    exact hctx
  have hsearches : (next lc parse s (.failToConnect id)).calls.searches = s.calls.searches := by
    have hrouter : s.routerStep (.failToConnect id) = some (.trackerStep address .recordFailure) := by
      rw [routerStep, hctx, Option.map_some]
    rw [calls_next hrouter]
    rfl
  refine ⟨id, ⟨request, hrequest, by rw [hphase]; exact hheld⟩, ?_⟩
  rintro other ⟨after, hafter, hmay⟩
  by_cases hother : other = id
  · -- the request is between hooks after its failure
    subst hother
    simp only [next, requestsAfter, Function.update_self, Option.some.injEq] at hafter
    subst hafter
    cases hmay
  · have hunmoved : GatewayCalls.request (.failToConnect id) ≠ some other :=
      fun hsame => hother (Option.some.inj hsame).symm
    rw [requests_next_of_ne hunmoved] at hafter
    rw [hsearches] at hmay
    exact ⟨⟨after, hafter, hmay⟩, hother⟩

/-- Only finitely many requests are in flight after a step, if finitely many were before. -/
theorem finite_requests_of_step {s : GatewayCalls} (e : HookStep)
    (h : {id | (s.requests id).isSome = true}.Finite) :
    {id | ((next lc parse s e).requests id).isSome = true}.Finite := by
  have hrequest : {id | request e = some id}.Finite := by
    refine Set.Subsingleton.finite fun id hid other hother => ?_
    exact Option.some.inj (hid.symm.trans hother)
  refine (h.union hrequest).subset fun other hother => ?_
  by_cases hmoved : request e = some other
  · exact Or.inr hmoved
  · left
    rwa [Set.mem_ofPred_eq, requests_next_of_ne hmoved] at hother

theorem finite_underWay {s : GatewayCalls} (h : {id | (s.requests id).isSome = true}.Finite)
    (address : Str) : (s.underWay address).Finite := by
  refine h.subset ?_
  rintro id ⟨request, hrequest, -⟩
  rw [Set.mem_ofPred_eq, hrequest]
  rfl

/-- What links the history of a run to the attempts still under way to an address that
has not connected: at the threshold no attempt is added any more, so the failures counted
and the attempts that may still fail have a bounded sum. -/
structure FailuresBounded (failureThreshold : UInt32) (c : Nat) (address : Str)
    (s : GatewayCalls) (writes : List (Str × TrackerStep)) : Prop where
  replayed : s.calls.router.healthTracker = HealthTracker.replayWrites failureThreshold writes
  finite : {id | (s.requests id).isSome = true}.Finite
  begun : ∀ id, s.phaseOf id = some .connectedToUpstream → ∀ held,
    (s.ctxOf id).backendAddress = some held → (held, .insertZero) ∈ writes
  onlyFailures : (address, .insertZero) ∉ writes →
    ∀ step, (address, step) ∈ writes → step = .recordFailure
  bounded : (address, .insertZero) ∉ writes →
    failureThreshold.toNat ≤ writes.count (address, .recordFailure) →
      writes.count (address, .recordFailure) + (s.underWay address).ncard ≤
        failureThreshold.toNat + c - 1

/-- An address that has not connected is unhealthy exactly when the threshold is reached. -/
theorem FailuresBounded.isHealthy_iff {c : Nat} {address : Str} {s : GatewayCalls}
    {writes : List (Str × TrackerStep)} (hpos : 0 < failureThreshold)
    (h : FailuresBounded failureThreshold c address s writes)
    (hnever : (address, .insertZero) ∉ writes) :
    s.isHealthy address = false ↔
      failureThreshold.toNat ≤ writes.count (address, .recordFailure) := by
  have honly : ∀ step ∈ HealthTracker.stepsFor address writes, step = .recordFailure :=
    fun step hstep => h.onlyFailures hnever step (HealthTracker.mem_stepsFor.mp hstep)
  have hlength : (HealthTracker.stepsFor address writes).length =
      writes.count (address, .recordFailure) := by
    rw [← HealthTracker.countP_fails_stepsFor, eq_comm, List.countP_eq_length]
    intro step hstep
    rw [honly step hstep]
    rfl
  rw [← hlength, ← (HealthTracker.isHealthy_of_only_failures hpos address honly).2,
    ← (HealthTracker.agree_replayWrites failureThreshold writes address).2.2, ← h.replayed]
  rfl

/-- Between the two writes of a success the first one has been written. -/
theorem begun_of_step {s : GatewayCalls} {e : HookStep} {writes : List (Str × TrackerStep)}
    (h : ∀ id, s.phaseOf id = some .connectedToUpstream → ∀ held,
      (s.ctxOf id).backendAddress = some held → (held, .insertZero) ∈ writes)
    (henabled : enabled shardOf shards s e) :
    ∀ id, (next lc parse s e).phaseOf id = some .connectedToUpstream → ∀ held,
      ((next lc parse s e).ctxOf id).backendAddress = some held →
        (held, .insertZero) ∈ writes ++ (s.write e).toList := by
  intro id hphase held hctx
  rcases Option.map_eq_some_iff.mp hphase with ⟨after, hafter, hconnected⟩
  have hheld : after.ctx.backendAddress = some held := by
    rw [ctxOf, hafter] at hctx
    exact hctx
  rcases requests_next_cases hafter with hsame | ⟨call, hostHeader, authority, path, rfl, rfl⟩ |
    ⟨before, rfl, hbefore, rfl⟩ | ⟨rfl, rfl⟩ | ⟨-, rfl⟩
  · refine List.mem_append_left _ (h id ?_ held ?_)
    · rw [phaseOf, hsame, Option.map_some, hconnected]
    · rw [ctxOf, hsame]
      exact hheld
  · cases hconnected
  · rcases peerOf_cases henabled hbefore with hidle |
      ⟨call, host, path, backend, -, -, -, hconnecting | hidle⟩
    · rw [hidle] at hconnected
      cases hconnected
    · rw [hconnecting] at hconnected
      cases hconnected
    · rw [hidle] at hconnected
      cases hconnected
  · have hwrite : s.write (.connectedToUpstream id) = some (held, .insertZero) := by
      rw [write, routerStep, hheld]
      rfl
    rw [hwrite]
    simp
  · cases hconnected

/-- A step keeps the sum of failures and attempts under way bounded. -/
theorem failuresBounded_step (hpos : 0 < failureThreshold) {c : Nat} {address : Str}
    {s : GatewayCalls} {e : HookStep} {writes : List (Str × TrackerStep)}
    (hcap : (s.underWay address).ncard ≤ c)
    (h : FailuresBounded failureThreshold c address s writes)
    (henabled : enabled shardOf shards s e) :
    FailuresBounded failureThreshold c address (next lc parse s e)
      (writes ++ (s.write e).toList) := by
  have hbefore : (address, .insertZero) ∉ writes ++ (s.write e).toList →
      (address, .insertZero) ∉ writes := fun hnever hmem => hnever (List.mem_append_left _ hmem)
  refine ⟨?_, finite_requests_of_step e h.finite, begun_of_step h.begun henabled, ?_, ?_⟩
  · rw [healthTracker_next, h.replayed]
    unfold HealthTracker.replayWrites
    rw [List.foldl_append]
  · intro hnever step hmem
    rcases List.mem_append.mp hmem with hearlier | hnow
    · exact h.onlyFailures (hbefore hnever) step hearlier
    · have hwrite := Option.mem_toList.mp hnow
      rcases write_cases henabled hwrite with ⟨id, hctx, ⟨-, rfl⟩ | ⟨rfl, -⟩ | ⟨-, hfailure⟩⟩
      · exact absurd (List.mem_append_right _ hnow) hnever
      · -- the second write of a success comes after its first
        exact absurd (h.begun id henabled address hctx) (hbefore hnever)
      · exact hfailure
  · intro hnever
    have hbounded := h.bounded (hbefore hnever)
    have hfinite := finite_underWay h.finite address
    by_cases hfail : s.write e = some (address, .recordFailure)
    · -- one attempt less, one failure more
      have hlost : ∃ id ∈ s.underWay address,
          (next lc parse s e).underWay address ⊆ s.underWay address \ {id} :=
        underWay_of_failure henabled hfail
      rcases hlost with ⟨id, hid, hless⟩
      have hcard := Set.ncard_sdiff_singleton_add_one hid hfinite
      have hfewer := Set.ncard_le_ncard hless (hfinite.sdiff)
      rw [hfail, Option.toList_some, List.count_append, List.count_singleton_self]
      intro hreach
      omega
    · -- at the threshold the address is unhealthy, and no attempt is added
      have hsame : (s.write e).toList.count (address, .recordFailure) = 0 := by
        rw [List.count_eq_zero, Option.mem_toList]
        exact hfail
      rw [List.count_append, hsame, Nat.add_zero]
      intro hreach
      have hunhealthy := (h.isHealthy_iff hpos (hbefore hnever)).mpr hreach
      have hsubset : (next lc parse s e).underWay address ⊆ s.underWay address :=
        fun id hid => mayFail_of_next henabled hunhealthy hid
      have hcard := Set.ncard_le_ncard hsubset hfinite
      have hsum := hbounded hreach
      omega

/-- An address that never connects fails at most threshold attempts and, besides the one
that reaches the threshold, those that have read it as healthy by then: where at most so
many requests may fail at it at once, its failures in a run are bounded whatever the run
does. -/
theorem failures_of_dead_backend_le (hpos : 0 < failureThreshold) {address : Str} {c : Nat}
    {t : GatewayCalls} {es : List HookStep}
    (h : (system lc shardOf shards parse failureThreshold).Path (new failureThreshold) es t)
    (hnever : (address, .insertZero) ∉
      written lc shardOf shards parse failureThreshold (new failureThreshold) es)
    (hcap : (system lc shardOf shards parse failureThreshold).Along
      (fun s => (s.underWay address).ncard ≤ c) (new failureThreshold) es) :
    (written lc shardOf shards parse failureThreshold (new failureThreshold) es).count
        (address, .recordFailure) ≤ failureThreshold.toNat + c - 1 := by
  have hpos' : 0 < failureThreshold.toNat := UInt32.lt_iff_toNat_lt.mp hpos
  have hinit : FailuresBounded failureThreshold c address (new failureThreshold) [] := by
    refine ⟨rfl, ?_, fun id hphase => ?_, fun _ step hmem => ?_, fun _ hreach => ?_⟩
    · simp [new]
    · cases hphase
    · cases hmem
    · rw [List.count_nil] at hreach
      omega
  have hbound := h.preserves_history (FailuresBounded failureThreshold c address) write
    (fun s e writes hs hinv henabled => failuresBounded_step hpos hs hinv henabled) hcap hinit
  rw [List.nil_append] at hbound
  by_cases hreach : failureThreshold.toNat ≤
      (written lc shardOf shards parse failureThreshold (new failureThreshold) es).count
        (address, .recordFailure)
  · have hsum := hbound.bounded hnever hreach
    change (written lc shardOf shards parse failureThreshold (new failureThreshold) es).count
      (address, .recordFailure) + _ ≤ _ at hsum
    omega
  · omega

/-- At most as many requests may fail at an address as there are requests. -/
theorem along_ncard_underWay_le (ids : Finset Nat) (address : Str) {t : GatewayCalls}
    {es : List HookStep}
    (h : (system lc shardOf shards parse failureThreshold).Path (new failureThreshold) es t)
    (hids : ∀ e ∈ es, ∀ id, request e = some id → id ∈ ids) :
    (system lc shardOf shards parse failureThreshold).Along
      (fun s => (s.underWay address).ncard ≤ ids.card) (new failureThreshold) es := by
  have hknown := h.along (P := fun s => ∀ id, (s.requests id).isSome = true → id ∈ ids)
    (fun s e he hs _ id hid => ?_) (fun id hid => by cases hid)
  · refine hknown.imp fun s hs => ?_
    have hsubset : s.underWay address ⊆ ids := by
      rintro id ⟨request, hrequest, -⟩
      exact hs id (by rw [hrequest]; rfl)
    rw [← Set.ncard_coe_finset]
    exact Set.ncard_le_ncard hsubset ids.finite_toSet
  · by_cases hmoved : request e = some id
    · exact hids e he id hmoved
    · exact hs id (by rwa [← requests_next_of_ne hmoved])

/-- One request reads the status, three attempts of another one fail, and only then the
first one selects the backend and fails. -/
def lateFailure : List HookStep :=
  [.routerStep (.insertRoute (oneBackendRoute "10.0.0.1:80"))] ++ readsStatus 0 0 ++
    ([1, 2, 3].flatMap fun call => readsStatus 1 call ++ getsPeer 1 call ++ [.failToConnect 1]) ++
    getsPeer 0 0 ++ [.failToConnect 0]

/-- With two requests at once the bound for threshold three is reached. -/
theorem failures_of_dead_backend_late :
    (written .ascii (fun _ => 0) 1 (fun _ => .ok ()) 3 (new 3) lateFailure).count
        ("10.0.0.1:80".toList, .recordFailure) = 4 ∧
      (written .ascii (fun _ => 0) 1 (fun _ => .ok ()) 3 (new 3) lateFailure).count
        ("10.0.0.1:80".toList, .recordFailure) ≤ (3 : UInt32).toNat + 2 - 1 := by
  have hpath : (system .ascii (fun _ => 0) 1 (fun _ => .ok ()) 3).Path (new 3) lateFailure _ :=
    TransitionSystem.Path.of_allEnabled (by decide)
  have hcap := along_ncard_underWay_le {0, 1} "10.0.0.1:80".toList hpath (by decide)
  exact ⟨by decide, failures_of_dead_backend_le (by decide) hpath (by decide) hcap⟩

end GatewayCalls

end PingoraProxy
