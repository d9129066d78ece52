import PingoraProxy.Proxy.Fairness

/-!
# Windows of the counter

Consecutive calls of the load balancer read consecutive counter values, from any value
on.  As long as the counter does not wrap around in the window they share the healthy
positions by weight, up to one round.  At the wrap the residues start again out of phase,
so a round across it may select a position twice as often.

Main results:

- Theorem {lit}`next_eq_none_iff_healthyCount`: nothing is selected exactly when the
  healthy count is zero.
- Theorem {lit}`nextCalls_across_wrap`: at the wrap the picks start again from position
  zero.
- Theorem {lit}`count_round_le`: one round selects no position more than twice its weight,
  also across the wrap.
- Theorem {lit}`exists_count_nextCalls_ge`: whole turns of the counter select a healthy
  position any number of times.
- Theorem {lit}`next_distributes_by_weight`: the distribution from any counter value.
-/

namespace PingoraProxy

open Foundation

/-- The healthy count is zero exactly when every backend is unhealthy. -/
theorem HealthTracker.healthyCount_eq_zero_iff {tracker : HealthTracker}
    {backends : List Backend} :
    tracker.healthyCount backends = 0 ↔ ∀ b ∈ backends, tracker.isHealthy b.address = false := by
  unfold HealthTracker.healthyCount
  rw [List.length_eq_zero_iff, List.filter_eq_nil_iff]
  simp only [Bool.not_eq_true]

namespace LoadBalancer

/-! ## Healthy count -/

/-- Nothing is selected exactly when the healthy count is zero. -/
theorem next_eq_none_iff_healthyCount (lb : LoadBalancer) (backends : List Backend) :
    (lb.next backends).1 = none ↔ lb.healthTracker.healthyCount backends = 0 := by
  rw [next_eq_none_iff, HealthTracker.healthyCount_eq_zero_iff]

/-- The expansion is empty exactly when the healthy count is zero. -/
theorem expanded_eq_nil_iff_healthyCount {tracker : HealthTracker} {backends : List Backend} :
    expanded tracker backends = [] ↔ tracker.healthyCount backends = 0 := by
  rw [expanded_eq_nil_iff, healthy_eq_nil_iff, HealthTracker.healthyCount_eq_zero_iff]

/-! ## Across the wrap -/

/-- At the wrap the picks start again from position zero. -/
theorem nextCalls_across_wrap {backends : List Backend} {lb : LoadBalancer}
    (h : expanded lb.healthTracker backends ≠ []) {m n : Nat}
    (hm : lb.current.toNat + m = 2 ^ 64) (hn : n ≤ 2 ^ 64) :
    nextCalls backends lb (m + n) =
      RoundRobin.picks (expanded lb.healthTracker backends) lb.current.toNat m ++
        RoundRobin.picks (expanded lb.healthTracker backends) 0 n := by
  have hzero : (lb.current + UInt64.ofNat m).toNat = 0 := by
    rw [UInt64.toNat_add, UInt64.toNat_ofNat']
    omega
  have hwrapped := @nextCalls_eq_picks backends ⟨lb.current + UInt64.ofNat m, lb.healthTracker⟩ h n
    (by dsimp only; omega)
  dsimp only at hwrapped
  rw [nextCalls_add, nextCalls_eq_picks h hm.le, afterCalls_eq h, hwrapped, hzero]

/-- One round selects no position more than twice as often as its weight says, also
across the wrap: up to the wrap and after it the picks are consecutive. -/
theorem count_round_le {backends : List Backend} {lb : LoadBalancer}
    (hlength : (expanded lb.healthTracker backends).length < 2 ^ 63) (i : Fin backends.length) :
    (nextCalls backends lb (expanded lb.healthTracker backends).length).count (some i) ≤
      2 * (expanded lb.healthTracker backends).count i := by
  by_cases hnil : expanded lb.healthTracker backends = []
  · rw [hnil]
    exact Nat.le_refl 0
  · by_cases hcross : lb.current.toNat + (expanded lb.healthTracker backends).length ≤ 2 ^ 64
    · rw [nextCalls_eq_picks hnil hcross, RoundRobin.count_picks_cycle]
      omega
    · have hlt := UInt64.toNat_lt lb.current
      rcases Nat.exists_eq_add_of_le hlt.le with ⟨m, hm⟩
      have hbefore : m ≤ (expanded lb.healthTracker backends).length := by omega
      rcases Nat.exists_eq_add_of_le hbefore with ⟨n, hn⟩
      have hcalls := nextCalls_across_wrap hnil hm.symm (by omega : n ≤ 2 ^ 64)
      rw [← hn] at hcalls
      rw [hcalls]
      exact RoundRobin.count_two_picks_le hbefore (by omega) _ _ i

/-! ## Whole turns of the counter -/

/-- A whole turn of the counter ends where it began. -/
theorem afterCalls_turn {backends : List Backend} {lb : LoadBalancer}
    (h : expanded lb.healthTracker backends ≠ []) {n : Nat} (hn : n = 2 ^ 64) :
    afterCalls backends lb n = lb := by
  have hzero : UInt64.ofNat n = 0 := by
    apply UInt64.toNat_inj.mp
    rw [UInt64.toNat_ofNat', hn]
    rfl
  rw [afterCalls_eq h, hzero, UInt64.add_zero]

/-- A whole turn of the counter selects every position of the expansion: one of its two
parts, before and after the wrap, holds a whole round. -/
theorem count_turn_pos {backends : List Backend} {lb : LoadBalancer} {i : Fin backends.length}
    (hmem : i ∈ expanded lb.healthTracker backends)
    (hlength : (expanded lb.healthTracker backends).length < 2 ^ 63) {m : Nat}
    (hm : lb.current.toNat + m = 2 ^ 64) :
    0 < (nextCalls backends lb (m + lb.current.toNat)).count (some i) := by
  have hne : expanded lb.healthTracker backends ≠ [] := List.ne_nil_of_mem hmem
  have hcount := List.count_pos_iff.mpr hmem
  have hround : ∀ c n, (expanded lb.healthTracker backends).length ≤ n →
      0 < (RoundRobin.picks (expanded lb.healthTracker backends) c n).count (some i) := by
    intro c n hn
    have hbound := (RoundRobin.count_picks_bounds hne c n i).1
    have hrounds := Nat.div_pos hn (List.length_pos_iff.mpr hne)
    exact Nat.lt_of_lt_of_le (Nat.mul_pos hrounds hcount) hbound
  rw [nextCalls_across_wrap hne hm (UInt64.toNat_lt _).le, List.count_append]
  rcases Nat.lt_or_ge m (expanded lb.healthTracker backends).length with hlt | hge
  · have hafter := hround 0 lb.current.toNat (by omega)
    omega
  · have hbefore := hround lb.current.toNat m hge
    omega

/-- Enough calls select a healthy position any number of times, whatever the counter
starts from. -/
theorem exists_count_nextCalls_ge {backends : List Backend} {lb : LoadBalancer}
    {i : Fin backends.length}
    (hhealthy : lb.healthTracker.isHealthy (backends.get i).address = true)
    (hweight : Router.totalWeight lb.healthTracker backends < 2 ^ 63) (k : Nat) :
    ∃ n, k ≤ (nextCalls backends lb n).count (some i) := by
  rw [← Router.length_expanded] at hweight
  have hmem := mem_expanded hhealthy
  rcases Nat.exists_eq_add_of_le (UInt64.toNat_lt lb.current).le with ⟨m, hm⟩
  have hturn := count_turn_pos hmem hweight hm.symm
  have hsame : afterCalls backends lb (m + lb.current.toNat) = lb :=
    afterCalls_turn (List.ne_nil_of_mem hmem) (by omega)
  induction k with
  | zero => exact ⟨0, Nat.zero_le _⟩
  | succ k ih =>
      rcases ih with ⟨n, hn⟩
      refine ⟨m + lb.current.toNat + n, ?_⟩
      rw [nextCalls_add, hsame, List.count_append]
      omega

/-! ## The distribution from any counter value -/

/-- In a window of calls a position is selected by its weight, up to one round, and
exactly by its weight in whole rounds. -/
def SharedByWeight (lb : LoadBalancer) (backends : List Backend) (n : Nat)
    (i : Fin backends.length) : Prop :=
  n / Router.totalWeight lb.healthTracker backends * max (backends.get i).weight.toNat 1 ≤
      (nextCalls backends lb n).count (some i) ∧
    (nextCalls backends lb n).count (some i) ≤
      (n + Router.totalWeight lb.healthTracker backends - 1) /
        Router.totalWeight lb.healthTracker backends * max (backends.get i).weight.toNat 1 ∧
    (Router.totalWeight lb.healthTracker backends ∣ n →
      (nextCalls backends lb n).count (some i) =
        n / Router.totalWeight lb.healthTracker backends * max (backends.get i).weight.toNat 1)

/-- A window without a wrap is shared among the healthy positions by weight. -/
theorem sharedByWeight_of_healthy {lb : LoadBalancer} {backends : List Backend} {n : Nat}
    (hwrap : lb.current.toNat + n ≤ 2 ^ 64) {i : Fin backends.length}
    (hhealthy : lb.healthTracker.isHealthy (backends.get i).address = true) :
    SharedByWeight lb backends n i := by
  have hbounds := count_nextCalls_bounds hhealthy hwrap
  rw [Router.length_expanded] at hbounds
  refine ⟨hbounds.1, hbounds.2, ?_⟩
  rintro ⟨rounds, rfl⟩
  have hne := List.ne_nil_of_mem (mem_expanded hhealthy)
  rw [nextCalls_eq_picks hne hwrap, ← count_expanded hhealthy, ← Router.length_expanded,
    Nat.mul_comm, RoundRobin.count_picks_mul, Nat.mul_div_cancel _ (List.length_pos_iff.mpr hne)]

/-- From any counter value: nothing is selected exactly when no backend is healthy.
Otherwise a window without a wrap is shared among the healthy positions by weight, up to
one round, and one round across the wrap selects none more than twice its weight. -/
theorem next_distributes_by_weight (lb : LoadBalancer) (backends : List Backend) :
    ((lb.next backends).1 = none ↔ lb.healthTracker.healthyCount backends = 0) ∧
    (lb.healthTracker.healthyCount backends ≠ 0 →
      0 < Router.totalWeight lb.healthTracker backends ∧
      (∀ n, lb.current.toNat + n ≤ 2 ^ 64 → ∀ i : Fin backends.length,
        (lb.healthTracker.isHealthy (backends.get i).address = true →
          SharedByWeight lb backends n i) ∧
        (lb.healthTracker.isHealthy (backends.get i).address = false →
          (nextCalls backends lb n).count (some i) = 0)) ∧
      (Router.totalWeight lb.healthTracker backends < 2 ^ 63 → ∀ i : Fin backends.length,
        lb.healthTracker.isHealthy (backends.get i).address = true →
          (nextCalls backends lb (Router.totalWeight lb.healthTracker backends)).count
              (some i) ≤ 2 * max (backends.get i).weight.toNat 1)) := by
  refine ⟨next_eq_none_iff_healthyCount lb backends, fun hcount => ⟨?_, ?_, ?_⟩⟩
  · have hne : expanded lb.healthTracker backends ≠ [] :=
      fun hnil => hcount (expanded_eq_nil_iff_healthyCount.mp hnil)
    rw [← Router.length_expanded]
    exact List.length_pos_iff.mpr hne
  · intro n hwrap i
    exact ⟨sharedByWeight_of_healthy hwrap,
      fun hunhealthy => count_nextCalls_unhealthy hunhealthy n⟩
  · intro hweight i hhealthy
    rw [← Router.length_expanded] at hweight ⊢
    rw [← count_expanded hhealthy]
    exact count_round_le hweight i

/-- Two backends with weights two and one: the round that starts at the last counter
value selects the first one three times. -/
theorem next_distributes_by_weight_at_wrap :
    (nextCalls [makeBackend "a:1" 2, makeBackend "b:1" 1] ⟨18446744073709551615, .new 3⟩ 3).count
      (some 0) = 3 ∧
    (nextCalls [makeBackend "a:1" 2, makeBackend "b:1" 1] ⟨18446744073709551615, .new 3⟩
      (Router.totalWeight (.new 3) [makeBackend "a:1" 2, makeBackend "b:1" 1])).count
        (some 0) ≤ 4 :=
  ⟨by decide, ((next_distributes_by_weight ⟨18446744073709551615, .new 3⟩
    [makeBackend "a:1" 2, makeBackend "b:1" 1]).2 (by decide)).2.2 (by decide) 0 (by decide)⟩

end LoadBalancer

end PingoraProxy
