import PingoraProxy.Proxy.Router

/-!
# Fairness of weighted round-robin

One load balancer, with one counter, serves every rule of the table.  A stretch of
calls that select from a single rule moves the counter through consecutive values,
so the rule's backends share the stretch by their weights.  Calls for other rules
move the same counter, and then a rule may see only some residues of it.

Selections are recorded as positions, so that two equal backends of one rule are
counted apart.

Main results:

- Theorem {lit}`selections_append`: a run goes on from the state it has reached.
- Theorem {lit}`count_selections`: in a stretch for one rule the selections are those of
  consecutive calls for its backends.
- Theorem {lit}`selections_unfair_across_rules`: traffic for one rule can starve a
  backend of another.
- Theorem {lit}`selections_fair_in_stretch`: every stretch for one rule is shared
  by weight.
-/

namespace PingoraProxy

open Foundation

namespace Router

variable (lc : Lowercasing)

/-! ## Runs of calls -/

/-- A call for a backend, with the listing of the table it iterates over. -/
structure Query where
  routes : List HttpRoute
  host : Str
  path : Str

/-- A selected backend: the rule it was selected from and its position there. -/
abbrev Selection := (slot : Slot) × Fin slot.2.backends.length

/-- The backend selected. -/
def Selection.backend (selected : Selection) : Backend :=
  selected.1.2.backends.get selected.2

/-- The selection a call makes. -/
def selection (lb : LoadBalancer) (q : Query) : Option Selection :=
  match winner lc q.routes q.host q.path with
  | none => none
  | some best => (lb.next best.1.2.backends).1.map fun i => ⟨best.1, i⟩

/-- The load balancer after a call. -/
def afterQuery (lb : LoadBalancer) (q : Query) : LoadBalancer :=
  (findBackend lc lb q.routes q.host q.path).2

/-- The load balancer after a run of calls. -/
def afterQueries (lb : LoadBalancer) (qs : List Query) : LoadBalancer :=
  qs.foldl (afterQuery lc) lb

/-- The selections of a run of calls. -/
def selections : LoadBalancer → List Query → List (Option Selection)
  | _, [] => []
  | lb, q :: qs => selection lc lb q :: selections (afterQuery lc lb q) qs

/-- A call is resolved to a rule. -/
def resolvedTo (slot : Slot) (q : Query) : Bool :=
  decide ((winner lc q.routes q.host q.path).map Prod.fst = some slot)

/-- A call finds no rule, or none of the backends of its rule is healthy. -/
def SelectsNothing (tracker : HealthTracker) (q : Query) : Prop :=
  ∀ best, winner lc q.routes q.host q.path = some best →
    ∀ b ∈ best.1.2.backends, tracker.isHealthy b.address = false

/-- The sum of the weights of the healthy backends, each at least one. -/
def totalWeight (tracker : HealthTracker) (backends : List Backend) : Nat :=
  ((LoadBalancer.healthy tracker backends).map fun i => max (backends.get i).weight.toNat 1).sum

/-- The calls resolved to a rule are shared among its healthy backends by weight, up
to one round. -/
def FairFor (tracker : HealthTracker) (qs : List Query) (selected : List (Option Selection))
    (slot : Slot) : Prop :=
  ∀ i : Fin slot.2.backends.length, tracker.isHealthy (slot.2.backends.get i).address = true →
    qs.countP (resolvedTo lc slot) / totalWeight tracker slot.2.backends *
        max (slot.2.backends.get i).weight.toNat 1 ≤ selected.count (some ⟨slot, i⟩) ∧
      selected.count (some ⟨slot, i⟩) ≤
        (qs.countP (resolvedTo lc slot) + totalWeight tracker slot.2.backends - 1) /
          totalWeight tracker slot.2.backends * max (slot.2.backends.get i).weight.toNat 1

/-- The backend a call returns is the one it selects. -/
theorem findBackend_eq_selection (lb : LoadBalancer) (q : Query) :
    (findBackend lc lb q.routes q.host q.path).1 =
      (selection lc lb q).map Selection.backend := by
  unfold selection
  cases hwinner : winner lc q.routes q.host q.path with
  | none =>
      rw [findBackend_eq_none lc hwinner]
      rfl
  | some best =>
      rw [findBackend_eq_of_winner lc hwinner, Option.map_map]
      rfl

@[simp]
theorem healthTracker_afterQuery (lb : LoadBalancer) (q : Query) :
    (afterQuery lc lb q).healthTracker = lb.healthTracker :=
  healthTracker_findBackend lc lb q.routes q.host q.path

theorem healthTracker_afterQueries (lb : LoadBalancer) (qs : List Query) :
    (afterQueries lc lb qs).healthTracker = lb.healthTracker := by
  unfold afterQueries
  induction qs generalizing lb with
  | nil => rfl
  | cons q qs ih => rw [List.foldl_cons, ih, healthTracker_afterQuery]

/-- A run goes on from the state it has reached. -/
theorem selections_append (lb : LoadBalancer) (qs qs' : List Query) :
    selections lc lb (qs ++ qs') =
      selections lc lb qs ++ selections lc (afterQueries lc lb qs) qs' := by
  induction qs generalizing lb with
  | nil => rfl
  | cons q qs ih =>
      rw [List.cons_append, selections, ih]
      rfl

/-! ## One call -/

/-- A call that selects nothing leaves the counter. -/
theorem selection_of_selectsNothing {lb : LoadBalancer} {q : Query}
    (h : SelectsNothing lc lb.healthTracker q) :
    selection lc lb q = none ∧ afterQuery lc lb q = lb := by
  unfold selection afterQuery
  cases hwinner : winner lc q.routes q.host q.path with
  | none =>
      rw [findBackend_eq_none lc hwinner]
      exact ⟨rfl, rfl⟩
  | some best =>
      have hexpanded : LoadBalancer.expanded lb.healthTracker best.1.2.backends = [] :=
        LoadBalancer.expanded_eq_nil_iff.mpr
          (LoadBalancer.healthy_eq_nil_iff.mpr (h best hwinner))
      have hnext : lb.next best.1.2.backends = (none, lb) := by
        rw [LoadBalancer.next_eq, if_pos hexpanded]
      rw [findBackend_eq_of_winner lc hwinner]
      dsimp only
      rw [hnext]
      exact ⟨rfl, rfl⟩

/-- A call resolved to a rule gets the backend that is next in the rule. -/
theorem findBackend_of_resolved (lb : LoadBalancer) {q : Query} {slot : Slot}
    (hresolved : resolvedTo lc slot q = true) :
    findBackend lc lb q.routes q.host q.path =
      ((lb.next slot.2.backends).1.map slot.2.backends.get,
        (lb.next slot.2.backends).2) := by
  unfold resolvedTo at hresolved
  rcases Option.map_eq_some_iff.mp (of_decide_eq_true hresolved) with ⟨best, hwinner, hslot⟩
  subst hslot
  exact findBackend_eq_of_winner lc hwinner

/-- A call resolved to a rule makes the next selection from this rule. -/
theorem selection_of_resolved {lb : LoadBalancer} {q : Query} {slot : Slot}
    (hresolved : resolvedTo lc slot q = true) :
    selection lc lb q = (lb.next slot.2.backends).1.map (fun i => ⟨slot, i⟩) ∧
      afterQuery lc lb q = (lb.next slot.2.backends).2 := by
  constructor
  · unfold resolvedTo at hresolved
    rcases Option.map_eq_some_iff.mp (of_decide_eq_true hresolved) with ⟨best, hwinner, hslot⟩
    subst hslot
    unfold selection
    rw [hwinner]
  · unfold afterQuery
    rw [findBackend_of_resolved lc lb hresolved]

/-! ## Stretches for one rule -/

/-- In a stretch whose selecting calls are all resolved to one rule, the rule's positions
are selected as often as in as many consecutive calls for its backends. -/
theorem count_selections {slot : Slot} (i : Fin slot.2.backends.length) (qs : List Query)
    (lb : LoadBalancer)
    (hone : ∀ q ∈ qs, resolvedTo lc slot q = true ∨ SelectsNothing lc lb.healthTracker q) :
    (selections lc lb qs).count (some ⟨slot, i⟩) =
      (LoadBalancer.nextCalls slot.2.backends lb (qs.countP (resolvedTo lc slot))).count
        (some i) := by
  induction qs generalizing lb with
  | nil => rfl
  | cons q qs ih =>
      have hrest : ∀ q' ∈ qs, resolvedTo lc slot q' = true ∨
          SelectsNothing lc (afterQuery lc lb q).healthTracker q' := by
        intro q' hq'
        rw [healthTracker_afterQuery]
        exact hone q' (List.mem_cons_of_mem q hq')
      rw [selections, List.count_cons, ih (afterQuery lc lb q) hrest]
      by_cases hresolved : resolvedTo lc slot q = true
      · rcases selection_of_resolved lc hresolved with ⟨hselect, hafter⟩
        have hbeq : ((selection lc lb q : Option Selection) == some ⟨slot, i⟩) =
            ((lb.next slot.2.backends).1 == some i) := by
          rw [hselect, Bool.eq_iff_iff, beq_iff_eq, beq_iff_eq]
          cases (lb.next slot.2.backends).1 <;> simp
        rw [List.countP_cons_of_pos hresolved, LoadBalancer.nextCalls, List.count_cons, hbeq,
          hafter]
      · rcases selection_of_selectsNothing lc ((hone q (by simp)).resolve_left hresolved) with
          ⟨hselect, hafter⟩
        rw [List.countP_cons_of_neg hresolved, hselect, hafter]
        rfl

/-- The total weight is the length of the weighted expansion. -/
theorem length_expanded (tracker : HealthTracker) (backends : List Backend) :
    (LoadBalancer.expanded tracker backends).length = totalWeight tracker backends := by
  unfold LoadBalancer.expanded totalWeight
  rw [RoundRobin.length_expand]
  simp only [LoadBalancer.repetitions_eq]

/-- Two rules of one table: the first has two backends, the second one. -/
def pairAndSingle : List HttpRoute :=
  [makeRoute "pair" ["a.com"] [makeRule [] [makeBackend "a:1" 1, makeBackend "a:2" 1]],
    makeRoute "single" ["b.com"] [makeRule [] [makeBackend "b:1" 1]]]

/-- Calls for the two rules in turn. -/
def alternatingQueries : List Query :=
  ["a.com", "b.com", "a.com"].map fun host => ⟨pairAndSingle, host.toList, ['/']⟩

/-- The rule with two backends. -/
def pairSlot : Slot :=
  (makeRoute "pair" ["a.com"] [makeRule [] [makeBackend "a:1" 1, makeBackend "a:2" 1]],
    makeRule [] [makeBackend "a:1" 1, makeBackend "a:2" 1])

/-- Traffic for one rule can starve a backend of another: of the two calls for the
first rule both go to its first backend. -/
theorem selections_unfair_across_rules :
    ¬FairFor .ascii (.new 3) alternatingQueries
      (selections .ascii (.new (.new 3)) alternatingQueries) pairSlot := by
  intro h
  have hsecond := (h ⟨1, by decide⟩ rfl).1
  revert hsecond
  decide

/-- On a freshly created router every stretch of calls whose selections are all
resolved to one rule is shared among the healthy backends of the rule by weight, as
long as the counter does not wrap around in it. -/
theorem selections_fair_in_stretch (tracker : HealthTracker) (before stretch : List Query)
    (slot : Slot)
    (hone : ∀ q ∈ stretch, resolvedTo lc slot q = true ∨ SelectsNothing lc tracker q)
    (hwrap : (afterQueries lc (.new tracker) before).current.toNat +
      stretch.countP (resolvedTo lc slot) ≤ 2 ^ 64) :
    selections lc (.new tracker) (before ++ stretch) =
        selections lc (.new tracker) before ++
          selections lc (afterQueries lc (.new tracker) before) stretch ∧
      FairFor lc tracker stretch
        (selections lc (afterQueries lc (.new tracker) before) stretch) slot := by
  refine ⟨selections_append lc _ before stretch, ?_⟩
  intro i hhealthy
  have htracker := healthTracker_afterQueries lc (.new tracker) before
  have hcount := count_selections lc i stretch (afterQueries lc (.new tracker) before)
    (by rw [htracker]; exact hone)
  have hbounds := LoadBalancer.count_nextCalls_bounds (by rw [htracker]; exact hhealthy) hwrap
  rw [htracker, length_expanded, ← hcount] at hbounds
  exact hbounds

/-- The bounds hold for two calls of the first rule after one of the second. -/
theorem selections_fair_after_other_rule :
    (∀ q ∈ [⟨pairAndSingle, "a.com".toList, ['/']⟩, ⟨pairAndSingle, "a.com".toList, ['/']⟩],
        resolvedTo .ascii pairSlot q = true ∨ SelectsNothing .ascii (.new 3) q) ∧
      FairFor .ascii (.new 3)
        [⟨pairAndSingle, "a.com".toList, ['/']⟩, ⟨pairAndSingle, "a.com".toList, ['/']⟩]
        (selections .ascii (afterQueries .ascii (.new (.new 3))
          [⟨pairAndSingle, "b.com".toList, ['/']⟩])
          [⟨pairAndSingle, "a.com".toList, ['/']⟩, ⟨pairAndSingle, "a.com".toList, ['/']⟩])
        pairSlot :=
  have hone : ∀ q ∈ [⟨pairAndSingle, "a.com".toList, ['/']⟩,
      ⟨pairAndSingle, "a.com".toList, ['/']⟩],
      resolvedTo .ascii pairSlot q = true ∨ SelectsNothing .ascii (.new 3) q := by
    intro q hq
    simp only [List.mem_cons, List.not_mem_nil, or_false, or_self] at hq
    subst hq
    exact Or.inl (by decide)
  ⟨hone, (selections_fair_in_stretch .ascii (.new 3)
    [⟨pairAndSingle, "b.com".toList, ['/']⟩] _ pairSlot hone (by decide)).2⟩

end Router

end PingoraProxy
