import PingoraProxy.Proxy.SearchesInTurn

/-!
# The counter under concurrent calls

The counter of the load balancer is moved by one atomic addition for each selection and
by nothing else.  So whatever overlaps and whatever is written, the selections of a run
take the values of the counter one after the other, each exactly once, and each selects
the position its value points at in what its own call has read.

From this a rule is shared by weight also among calls that overlap, as long as they have
read the same backends and statuses.

Main results:

- Theorem {lit}`current_of_step`: what a step does to the counter.
- Theorem {lit}`findBackend_takes_tickets`: the selections of a run take consecutive
  values of the counter.
- Theorem {lit}`findBackend_shares_by_weight`: overlapping calls that have read the same
  share the backends by weight.
-/

namespace PingoraProxy

open Foundation

namespace LoadBalancer

/-! ## Selecting from statuses read before -/

/-- The sum of the weights of the backends read as healthy, each at least one. -/
def readWeight (statuses : List Bool) (backends : List Backend) : Nat :=
  ((readHealthy statuses backends).map fun i => max (backends.get i).weight.toNat 1).sum

theorem length_readExpanded (statuses : List Bool) (backends : List Backend) :
    (readExpanded statuses backends).length = readWeight statuses backends := by
  unfold readExpanded readWeight
  rw [RoundRobin.length_expand]
  simp only [repetitions_eq]

/-- A backend read as healthy occurs in the expansion as often as its weight says. -/
theorem count_readExpanded {statuses : List Bool} {backends : List Backend}
    {i : Fin backends.length} (h : statuses[i.val]? = some true) :
    (readExpanded statuses backends).count i = max (backends.get i).weight.toNat 1 := by
  have hmem : i ∈ readHealthy statuses backends := by simp [readHealthy, h]
  have hnodup : (readHealthy statuses backends).Nodup := (List.nodup_finRange _).filter _
  rw [← repetitions_eq]
  exact RoundRobin.count_expand hnodup hmem

/-- Without a selection the counter stays. -/
theorem selectFrom_none {current : UInt64} {statuses : List Bool} {backends : List Backend}
    (h : (selectFrom current statuses backends).1 = none) :
    (selectFrom current statuses backends).2 = current := by
  rw [selectFrom_eq] at h ⊢
  by_cases hnil : readExpanded statuses backends = []
  · rw [if_pos hnil]
  · rw [if_neg hnil, List.getElem?_eq_none_iff] at h
    have hlt := Nat.mod_lt current.toNat (List.length_pos_iff.mpr hnil)
    omega

/-- A selection moves the counter and picks the position it pointed at. -/
theorem selectFrom_some {current : UInt64} {statuses : List Bool} {backends : List Backend}
    {i : Fin backends.length} (h : (selectFrom current statuses backends).1 = some i) :
    (selectFrom current statuses backends).2 = current + 1 ∧
      (readExpanded statuses backends)[
        current.toNat % (readExpanded statuses backends).length]? = some i := by
  rw [selectFrom_eq] at h ⊢
  split_ifs at h with hnil
  rw [if_neg hnil]
  exact ⟨rfl, h⟩

end LoadBalancer

/-! ## Tickets -/

/-- A selection of a call: the backends and statuses it has read, the value of the
counter it takes and the position it selects. -/
structure Ticket where
  backends : List Backend
  statuses : List Bool
  current : UInt64
  position : Fin backends.length

namespace Ticket

/-- The backend selected. -/
def backend (ticket : Ticket) : Backend :=
  ticket.backends.get ticket.position

/-- The position selected is the one the value of the counter points at. -/
def Points (ticket : Ticket) : Prop :=
  (LoadBalancer.readExpanded ticket.statuses ticket.backends)[
    ticket.current.toNat %
      (LoadBalancer.readExpanded ticket.statuses ticket.backends).length]? =
    some ticket.position

end Ticket

namespace RouterCalls

variable (lc : Lowercasing) (shardOf : Str → Nat) (shards : Nat)

/-- The selection a step makes. -/
def ticket (s : RouterCalls) : RouterStep → Option Ticket
  | .fetchAdd id =>
      match s.searches id with
      | some ⟨_, _, .next _ backends statuses⟩ =>
          (LoadBalancer.selectFrom s.router.loadBalancer.current statuses backends).1.map
            fun i => ⟨backends, statuses, s.router.loadBalancer.current, i⟩
      | _ => none
  | _ => none

/-- The selections of a run, in order. -/
def tickets (router : Router) (s : RouterCalls) (es : List RouterStep) : List Ticket :=
  (system lc shardOf shards router).emitted ticket s es

variable {lc shardOf shards}

/-- A selection takes the value the counter has and the position it points at. -/
theorem ticket_eq_some {s : RouterCalls} {e : RouterStep} {t : Ticket}
    (h : ticket s e = some t) : t.current = s.router.loadBalancer.current ∧ t.Points := by
  cases e with
  | fetchAdd id =>
      simp only [ticket] at h
      split at h
      · rcases Option.map_eq_some_iff.mp h with ⟨i, hi, rfl⟩
        exact ⟨rfl, (LoadBalancer.selectFrom_some hi).2⟩
      · cases h
  | findBackend | readShard | bestMatch | isHealthy | insertRoute | removeRoute | trackerStep =>
      cases h

/-- A step moves the counter by one when it selects, and leaves it otherwise. -/
theorem current_of_step {s : RouterCalls} {e : RouterStep}
    (henabled : enabled shardOf shards s e) :
    (next lc s e).router.loadBalancer.current =
      if (ticket s e).isSome then s.router.loadBalancer.current + 1
      else s.router.loadBalancer.current := by
  cases e with
  | fetchAdd id =>
      rcases henabled with ⟨host, path, routes, backends, statuses, hsearch, -⟩
      have hcurrent : (next lc s (.fetchAdd id)).router.loadBalancer.current =
          (LoadBalancer.selectFrom s.router.loadBalancer.current statuses backends).2 := by
        simp only [next, hsearch]
        rfl
      have hticket : (ticket s (.fetchAdd id)).isSome =
          (LoadBalancer.selectFrom s.router.loadBalancer.current statuses backends).1.isSome := by
        simp only [ticket, hsearch, Option.isSome_map]
      rw [hcurrent, hticket]
      cases hselected : (LoadBalancer.selectFrom s.router.loadBalancer.current statuses
          backends).1 with
      | none => exact LoadBalancer.selectFrom_none hselected
      | some i => exact (LoadBalancer.selectFrom_some hselected).1
  | findBackend | readShard | bestMatch | isHealthy | insertRoute | removeRoute | trackerStep =>
      rfl

/-- A step answers with a backend exactly when it selects it. -/
theorem answered_bind (s : RouterCalls) (e : RouterStep) :
    (answered lc s e).bind Prod.snd = (ticket s e).bind fun t => some t.backend := by
  cases e with
  | fetchAdd id =>
      rcases hsearch : s.searches id with - | ⟨host, path, phase⟩
      · simp only [answered, ticket, hsearch, Option.bind_none]
      · cases phase with
        | next routes backends statuses =>
            simp only [answered, ticket, hsearch, Option.bind_some, Option.bind_map]
            cases (LoadBalancer.selectFrom s.router.loadBalancer.current statuses backends).1 with
            | none => rfl
            | some i => rfl
        | getHttpRoutes | returned => simp only [answered, ticket, hsearch, Option.bind_none]
  | bestMatch id =>
      rcases hsearch : s.searches id with - | ⟨host, path, phase⟩
      · simp only [answered, ticket, hsearch, Option.bind_none]
      · cases phase with
        | getHttpRoutes shard routes =>
            simp only [answered, ticket, hsearch, Option.bind_none]
            split_ifs <;> rfl
        | next | returned => simp only [answered, ticket, hsearch, Option.bind_none]
  | findBackend | readShard | isHealthy | insertRoute | removeRoute | trackerStep => rfl

theorem iterate_add_one (current : UInt64) (k : Nat) :
    (· + 1)^[k] current = current + UInt64.ofNat k := by
  induction k with
  | zero => simp
  | succ k ih =>
      rw [Function.iterate_succ_apply', ih, UInt64.ofNat_add, UInt64.add_assoc]
      rfl

/-! ## Runs -/

/-- The selections of a run take the values of the counter one after the other. -/
theorem current_of_path {router : Router} {s t : RouterCalls} {es : List RouterStep}
    (h : (system lc shardOf shards router).Path s es t) :
    (tickets lc shardOf shards router s es).map Ticket.current =
        (List.range (tickets lc shardOf shards router s es).length).map
          (fun k => s.router.loadBalancer.current + UInt64.ofNat k) ∧
      t.router.loadBalancer.current = s.router.loadBalancer.current +
        UInt64.ofNat (tickets lc shardOf shards router s es).length := by
  have hconsecutive := h.consecutive (fun u => u.router.loadBalancer.current) (· + 1) ticket
    Ticket.current
    (fun u e henabled hnone => (current_of_step henabled).trans (if_neg (by simp [hnone])))
    (fun u e taken henabled htaken => ⟨(ticket_eq_some htaken).1,
      (current_of_step henabled).trans (if_pos (by simp [htaken]))⟩)
  rw [← List.range_map_iterate, iterate_add_one] at hconsecutive
  refine ⟨?_, hconsecutive.2⟩
  rw [tickets, hconsecutive.1]
  simp only [iterate_add_one]

/-- Each selection of a run picks the position its value of the counter points at. -/
theorem points_of_mem_tickets {router : Router} {s : RouterCalls} {es : List RouterStep} :
    ∀ taken ∈ tickets lc shardOf shards router s es, taken.Points :=
  TransitionSystem.forall_mem_emitted ticket fun _ _ _ htaken => (ticket_eq_some htaken).2

/-- Whatever overlaps and whatever is written, the selections of a run take the values of
the counter one after the other, each exactly once; each selects the position its value
points at in what its call has read; and the answers with a backend are these. -/
theorem findBackend_takes_tickets {router : Router} {s t : RouterCalls} {es : List RouterStep}
    (h : (system lc shardOf shards router).Path s es t) :
    (tickets lc shardOf shards router s es).map Ticket.current =
        (List.range (tickets lc shardOf shards router s es).length).map
          (fun k => s.router.loadBalancer.current + UInt64.ofNat k) ∧
      t.router.loadBalancer.current = s.router.loadBalancer.current +
        UInt64.ofNat (tickets lc shardOf shards router s es).length ∧
      (∀ taken ∈ tickets lc shardOf shards router s es, taken.Points) ∧
      (answers lc shardOf shards router s es).filterMap Prod.snd =
        (tickets lc shardOf shards router s es).map Ticket.backend := by
  refine ⟨(current_of_path h).1, (current_of_path h).2, points_of_mem_tickets, ?_⟩
  rw [answers, TransitionSystem.filterMap_emitted_congr answered_bind, tickets]
  exact congrFun List.filterMap_eq_map' _

/-- Selections that have read the same are consecutive picks from one expansion, as long
as the counter does not wrap around. -/
theorem positions_eq_picks {router : Router} {s t : RouterCalls} {es : List RouterStep}
    {backends : List Backend} {statuses : List Bool}
    (h : (system lc shardOf shards router).Path s es t)
    (hsame : ∀ taken ∈ tickets lc shardOf shards router s es,
      taken.backends = backends ∧ taken.statuses = statuses)
    (hwrap : s.router.loadBalancer.current.toNat +
      (tickets lc shardOf shards router s es).length ≤ 2 ^ 64) :
    (tickets lc shardOf shards router s es).map (fun taken => some taken.position.val) =
      RoundRobin.picks ((LoadBalancer.readExpanded statuses backends).map Fin.val)
        s.router.loadBalancer.current.toNat
        (tickets lc shardOf shards router s es).length := by
  let expansion := (LoadBalancer.readExpanded statuses backends).map Fin.val
  have hpoint : ∀ taken ∈ tickets lc shardOf shards router s es,
      some taken.position.val = expansion[taken.current.toNat % expansion.length]? := by
    intro taken hmem
    have hpoints := points_of_mem_tickets taken hmem
    rcases taken with ⟨backends', statuses', current, position⟩
    rcases hsame _ hmem with ⟨rfl, rfl⟩
    unfold Ticket.Points at hpoints
    simp only [expansion, List.length_map, List.getElem?_map]
    rw [hpoints, Option.map_some]
  have hvalue : ∀ k ∈ List.range (tickets lc shardOf shards router s es).length,
      (s.router.loadBalancer.current + UInt64.ofNat k).toNat =
        s.router.loadBalancer.current.toNat + k := by
    intro k hk
    have hlt := List.mem_range.mp hk
    rw [UInt64.toNat_add, UInt64.toNat_ofNat']
    omega
  calc (tickets lc shardOf shards router s es).map (fun taken => some taken.position.val)
      = ((tickets lc shardOf shards router s es).map Ticket.current).map
          fun current => expansion[current.toNat % expansion.length]? := by
        rw [List.map_map]
        exact List.map_congr_left hpoint
    _ = RoundRobin.picks expansion s.router.loadBalancer.current.toNat
          (tickets lc shardOf shards router s es).length := by
        rw [(current_of_path h).1, List.map_map]
        refine List.map_congr_left fun k hk => ?_
        rw [Function.comp_apply, hvalue k hk]

/-- Calls that overlap in any way, with any writes between their steps, share the backends
of a rule by weight, up to one round, as long as all that select have read the same
backends with the same statuses and the counter does not wrap around. -/
theorem findBackend_shares_by_weight {router : Router} {s t : RouterCalls}
    {es : List RouterStep} {backends : List Backend} {statuses : List Bool}
    (h : (system lc shardOf shards router).Path s es t)
    (hsame : ∀ taken ∈ tickets lc shardOf shards router s es,
      taken.backends = backends ∧ taken.statuses = statuses)
    (hwrap : s.router.loadBalancer.current.toNat +
      (tickets lc shardOf shards router s es).length ≤ 2 ^ 64)
    {i : Fin backends.length} (hi : statuses[i.val]? = some true) :
    (tickets lc shardOf shards router s es).length / LoadBalancer.readWeight statuses backends *
        max (backends.get i).weight.toNat 1 ≤
      (tickets lc shardOf shards router s es).countP (fun taken => taken.position.val == i.val) ∧
      (tickets lc shardOf shards router s es).countP (fun taken => taken.position.val == i.val) ≤
        ((tickets lc shardOf shards router s es).length +
            LoadBalancer.readWeight statuses backends - 1) /
          LoadBalancer.readWeight statuses backends * max (backends.get i).weight.toNat 1 := by
  have hcount : ((LoadBalancer.readExpanded statuses backends).map Fin.val).count i.val =
      max (backends.get i).weight.toNat 1 := by
    rw [List.count_map_of_injective _ _ fun _ _ => Fin.ext, LoadBalancer.count_readExpanded hi]
  have hnonempty : (LoadBalancer.readExpanded statuses backends).map Fin.val ≠ [] := by
    intro hnil
    rw [hnil, List.count_nil] at hcount
    omega
  have hbounds := RoundRobin.count_picks_bounds hnonempty s.router.loadBalancer.current.toNat
    (tickets lc shardOf shards router s es).length i.val
  rw [← positions_eq_picks h hsame hwrap, hcount, List.length_map,
    LoadBalancer.length_readExpanded, List.count, List.countP_map] at hbounds
  have hsome : ((fun o : Option Nat => o == some i.val) ∘ fun taken : Ticket =>
      some taken.position.val) = fun taken => taken.position.val == i.val := by
    funext taken
    exact Option.some_beq_some
  rwa [hsome] at hbounds

/-- Two calls that overlap with a failure of an address that none of them reads. -/
def overlappingWithFailure : List RouterStep :=
  [.findBackend 0 "example.com".toList ['/'], .findBackend 1 "example.com".toList ['/'],
    .readShard 0 GatewayProxy.singleBackendUpdate.httpRoutes,
    .readShard 1 GatewayProxy.singleBackendUpdate.httpRoutes, .bestMatch 1, .bestMatch 0,
    .isHealthy 0, .trackerStep "10.9.9.9:80".toList .recordFailure, .isHealthy 1, .fetchAdd 1,
    .removeRoute ['r'], .fetchAdd 0]

/-- The steps of the two calls and the writes are enabled in turn. -/
theorem path_overlappingWithFailure :
    (system .ascii (fun _ => 0) 1 singleBackendRouter).Path
      ⟨singleBackendRouter, fun _ => none⟩ overlappingWithFailure
      (overlappingWithFailure.foldl (next .ascii) ⟨singleBackendRouter, fun _ => none⟩) :=
  TransitionSystem.Path.of_allEnabled ⟨rfl, rfl, ⟨_, _, _, _, rfl, by decide, rfl⟩,
    ⟨_, _, _, _, rfl, by decide, rfl⟩, ⟨_, _, _, rfl⟩, ⟨_, _, _, rfl⟩,
    ⟨_, _, _, _, _, rfl, by decide⟩, trivial, ⟨_, _, _, _, _, rfl, by decide⟩,
    ⟨_, _, _, _, _, rfl, by decide⟩, trivial, ⟨_, _, _, _, _, rfl, by decide⟩, trivial⟩

/-- The two calls take the values zero and one. -/
theorem findBackend_takes_tickets_two :
    (tickets .ascii (fun _ => 0) 1 singleBackendRouter ⟨singleBackendRouter, fun _ => none⟩
      overlappingWithFailure).map Ticket.current = [0, 1] := by
  rw [(findBackend_takes_tickets path_overlappingWithFailure).1]
  decide

/-- A router with two backends, of weights two and one. -/
def weightedRouter : Router :=
  .new (UpdateRoutesRequest.configuration ⟨[makeRoute "r" [] [makeRule []
    [makeBackend "10.0.0.1:80" 2, makeBackend "10.0.0.2:80" 1]]], [], 1⟩) (.new 1)

/-- Three calls begin and read the table one after the other; only then do they read the
statuses, and a failure of another address comes before they select. -/
def threeOverlappingCalls : List RouterStep :=
  ([0, 1, 2].flatMap fun id => [.findBackend id "example.com".toList ['/'],
      .readShard id [makeRoute "r" [] [makeRule []
        [makeBackend "10.0.0.1:80" 2, makeBackend "10.0.0.2:80" 1]]], .bestMatch id]) ++
    ([2, 0, 1].flatMap fun id => [.isHealthy id, .isHealthy id]) ++
    [.trackerStep "10.9.9.9:80".toList .recordFailure, .fetchAdd 1, .fetchAdd 0, .fetchAdd 2]

/-- Of the three calls two are given the backend of weight two and one the other. -/
theorem findBackend_shares_by_weight_three :
    (tickets .ascii (fun _ => 0) 1 weightedRouter ⟨weightedRouter, fun _ => none⟩
        threeOverlappingCalls).countP (fun taken => taken.position.val == 0) = 2 ∧
      (tickets .ascii (fun _ => 0) 1 weightedRouter ⟨weightedRouter, fun _ => none⟩
        threeOverlappingCalls).countP (fun taken => taken.position.val == 1) = 1 := by
  have hpath : (system .ascii (fun _ => 0) 1 weightedRouter).Path
      ⟨weightedRouter, fun _ => none⟩ threeOverlappingCalls _ :=
    TransitionSystem.Path.of_allEnabled (by decide)
  have hsame : ∀ taken ∈ tickets .ascii (fun _ => 0) 1 weightedRouter
      ⟨weightedRouter, fun _ => none⟩ threeOverlappingCalls,
      taken.backends = [makeBackend "10.0.0.1:80" 2, makeBackend "10.0.0.2:80" 1] ∧
        taken.statuses = [true, true] := by decide
  have hlength : (tickets .ascii (fun _ => 0) 1 weightedRouter
      ⟨weightedRouter, fun _ => none⟩ threeOverlappingCalls).length = 3 := by decide
  have hfirst := findBackend_shares_by_weight hpath hsame (by decide) (i := ⟨0, by decide⟩) rfl
  have hsecond := findBackend_shares_by_weight hpath hsame (by decide) (i := ⟨1, by decide⟩) rfl
  rw [hlength] at hfirst hsecond
  exact ⟨Nat.le_antisymm hfirst.2 hfirst.1, Nat.le_antisymm hsecond.2 hsecond.1⟩

end RouterCalls

end PingoraProxy
