import PingoraProxy.Foundation.RoundRobin
import PingoraProxy.Store.RouteStore

/-!
# Health tracking and load balancing

The tracker keeps a status and a failure count for each address.  The load
balancer repeats every healthy backend by its weight and picks the position its
counter points at.  A reference into a slice is a position in the list, so two
equal backends in one list stay distinct.

Main results:

- Theorems {lit}`isHealthy_recordSuccess`, {lit}`isHealthy_recordFailure` and
  {lit}`isHealthy_reset`: what each operation does to the status of every address.
- Theorem {lit}`next_eq`: a selection picks from the weighted expansion of the
  healthy positions, and moves the counter only when it picks.
- Theorems {lit}`next_eq_none_iff` and {lit}`isHealthy_of_next`: nothing is
  selected exactly when no backend is healthy, and what is selected is healthy.
- Theorem {lit}`nextCalls_eq_picks`: consecutive calls are consecutive picks from the
  weighted expansion, as long as the counter does not wrap around.
-/

namespace PingoraProxy

open Foundation

/-- Health status of a backend. -/
inductive HealthStatus where
  | healthy
  | unhealthy
deriving DecidableEq, Repr

/-- Health status and failure counts by backend address. -/
@[ext]
structure HealthTracker where
  health : DashMap HealthStatus
  failures : DashMap UInt32
  failureThreshold : UInt32

namespace HealthTracker

/-! ## Tracker operations -/

/-- A tracker that knows no backend. -/
def new (failureThreshold : UInt32) : HealthTracker where
  health := ∅
  failures := ∅
  failureThreshold := failureThreshold

/-- Record a successful request: reset the failure count, then restore the status. -/
def recordSuccess (tracker : HealthTracker) (address : Str) : HealthTracker :=
  let tracker := { tracker with failures := tracker.failures.insert address 0 }
  { tracker with health := tracker.health.insert address .healthy }

/-- Record a failed request: count it, and mark the backend at the threshold.
The count is a 32-bit number and wraps around. -/
def recordFailure (tracker : HealthTracker) (address : Str) : HealthTracker :=
  let count := (tracker.failures.lookup address).getD 0 + 1
  let tracker := { tracker with failures := tracker.failures.insert address count }
  if count ≥ tracker.failureThreshold then
    { tracker with health := tracker.health.insert address .unhealthy }
  else tracker

/-- Whether a backend is healthy; an unknown backend is. -/
def isHealthy (tracker : HealthTracker) (address : Str) : Bool :=
  ((tracker.health.lookup address).map fun status => status == .healthy).getD true

/-- Reset a backend: forget its failure count, then its status. -/
def reset (tracker : HealthTracker) (address : Str) : HealthTracker :=
  let tracker := { tracker with failures := tracker.failures.erase address }
  { tracker with health := tracker.health.erase address }

/-- The number of healthy backends in a list. -/
def healthyCount (tracker : HealthTracker) (backends : List Backend) : Nat :=
  (backends.filter fun b => tracker.isHealthy b.address).length

/-- The failure count of an address, zero when none is recorded. -/
def failureCount (tracker : HealthTracker) (address : Str) : UInt32 :=
  (tracker.failures.lookup address).getD 0

@[simp]
theorem isHealthy_new (failureThreshold : UInt32) (address : Str) :
    (new failureThreshold).isHealthy address = true :=
  rfl

@[simp]
theorem failureCount_new (failureThreshold : UInt32) (address : Str) :
    (new failureThreshold).failureCount address = 0 :=
  rfl

@[simp]
theorem failureThreshold_recordSuccess (tracker : HealthTracker) (address : Str) :
    (tracker.recordSuccess address).failureThreshold = tracker.failureThreshold :=
  rfl

@[simp]
theorem failureThreshold_recordFailure (tracker : HealthTracker) (address : Str) :
    (tracker.recordFailure address).failureThreshold = tracker.failureThreshold := by
  unfold recordFailure
  dsimp only
  split <;> rfl

/-- A success makes its own address healthy and leaves the others. -/
theorem isHealthy_recordSuccess (tracker : HealthTracker) (address other : Str) :
    (tracker.recordSuccess address).isHealthy other =
      if address = other then true else tracker.isHealthy other := by
  unfold recordSuccess isHealthy
  dsimp only
  rw [ConcurrentMap.lookup_insert_eq]
  split_ifs <;> rfl

/-- A reset makes its own address healthy and leaves the others. -/
theorem isHealthy_reset (tracker : HealthTracker) (address other : Str) :
    (tracker.reset address).isHealthy other =
      if address = other then true else tracker.isHealthy other := by
  unfold reset isHealthy
  dsimp only
  split_ifs with h
  · subst h
    rw [Finmap.lookup_erase]
    rfl
  · rw [Finmap.lookup_erase_ne (Ne.symm h)]

/-- A failure that reaches the threshold makes its own address unhealthy; every
other status stays. -/
theorem isHealthy_recordFailure (tracker : HealthTracker) (address other : Str) :
    (tracker.recordFailure address).isHealthy other =
      if address = other ∧ tracker.failureThreshold ≤ tracker.failureCount address + 1 then
        false
      else tracker.isHealthy other := by
  unfold recordFailure isHealthy failureCount
  dsimp only
  by_cases hreach : tracker.failureThreshold ≤ (tracker.failures.lookup address).getD 0 + 1
  · rw [if_pos hreach, ConcurrentMap.lookup_insert_eq]
    by_cases h : address = other <;> simp [h, hreach]
  · rw [if_neg hreach, if_neg (by simp [hreach])]

/-- A success zeroes the count of its own address. -/
theorem failureCount_recordSuccess (tracker : HealthTracker) (address other : Str) :
    (tracker.recordSuccess address).failureCount other =
      if address = other then 0 else tracker.failureCount other := by
  unfold recordSuccess failureCount
  dsimp only
  rw [ConcurrentMap.lookup_insert_eq]
  split_ifs <;> rfl

/-- A reset zeroes the count of its own address. -/
theorem failureCount_reset (tracker : HealthTracker) (address other : Str) :
    (tracker.reset address).failureCount other =
      if address = other then 0 else tracker.failureCount other := by
  unfold reset failureCount
  dsimp only
  split_ifs with h
  · subst h
    rw [Finmap.lookup_erase]
    rfl
  · rw [Finmap.lookup_erase_ne (Ne.symm h)]

/-- A failure counts for its own address. -/
theorem failureCount_recordFailure (tracker : HealthTracker) (address other : Str) :
    (tracker.recordFailure address).failureCount other =
      if address = other then tracker.failureCount other + 1
      else tracker.failureCount other := by
  unfold recordFailure failureCount
  dsimp only
  have hcount : ∀ t : HealthTracker, t.failures = tracker.failures.insert address
      ((tracker.failures.lookup address).getD 0 + 1) →
      (t.failures.lookup other).getD 0 =
        if address = other then (tracker.failures.lookup other).getD 0 + 1
        else (tracker.failures.lookup other).getD 0 := by
    intro t ht
    rw [ht, ConcurrentMap.lookup_insert_eq]
    split_ifs with h
    · rw [h]
      rfl
    · rfl
  split <;> exact hcount _ rfl

end HealthTracker

/-! ## The load balancer -/

/-- Weighted round-robin state: a 64-bit counter and the shared health tracker. -/
structure LoadBalancer where
  current : UInt64
  healthTracker : HealthTracker

namespace LoadBalancer

/-- A load balancer that has selected nothing yet. -/
def new (healthTracker : HealthTracker) : LoadBalancer where
  current := 0
  healthTracker := healthTracker

/-- The positions of the healthy backends of a list. -/
def healthy (tracker : HealthTracker) (backends : List Backend) : List (Fin backends.length) :=
  (List.finRange backends.length).filter fun i => tracker.isHealthy (backends.get i).address

/-- How often a backend is repeated; weight zero counts as one. -/
def repetitions (b : Backend) : Nat :=
  (max b.weight 1).toNat

/-- The healthy positions, each repeated by the weight of its backend. -/
def expanded (tracker : HealthTracker) (backends : List Backend) : List (Fin backends.length) :=
  RoundRobin.expand (fun i => repetitions (backends.get i)) (healthy tracker backends)

/-- Select the next backend, as its position in the list. -/
def next (lb : LoadBalancer) (backends : List Backend) :
    Option (Fin backends.length) × LoadBalancer :=
  if (healthy lb.healthTracker backends).isEmpty then (none, lb)
  else if (expanded lb.healthTracker backends).isEmpty then (none, lb)
  else
    let idx := lb.current.toNat % (expanded lb.healthTracker backends).length
    ((expanded lb.healthTracker backends)[idx]?, { lb with current := lb.current + 1 })

/-- All healthy backends of a list. -/
def healthyBackends (lb : LoadBalancer) (backends : List Backend) : List Backend :=
  backends.filter fun b => lb.healthTracker.isHealthy b.address

/-- The number of repetitions is the weight, but at least one. -/
theorem repetitions_eq (b : Backend) : repetitions b = max b.weight.toNat 1 := by
  unfold repetitions
  have hmax : max b.weight 1 = if b.weight ≤ 1 then 1 else b.weight := rfl
  rw [hmax]
  split_ifs with hle <;> rw [UInt32.le_iff_toNat_le] at hle <;> simp at * <;> omega

theorem repetitions_pos (b : Backend) : 0 < repetitions b := by
  rw [repetitions_eq]
  omega

/-- A position is kept exactly when its backend is healthy. -/
theorem mem_healthy {tracker : HealthTracker} {backends : List Backend}
    {i : Fin backends.length} :
    i ∈ healthy tracker backends ↔ tracker.isHealthy (backends.get i).address = true := by
  simp [healthy]

/-- The healthy positions are those of the healthy backends. -/
theorem map_get_healthy (lb : LoadBalancer) (backends : List Backend) :
    (healthy lb.healthTracker backends).map backends.get = lb.healthyBackends backends := by
  unfold healthyBackends
  conv_rhs => rw [← List.map_get_finRange backends, List.filter_map]
  rfl

/-- No position is kept twice. -/
theorem nodup_healthy (tracker : HealthTracker) (backends : List Backend) :
    (healthy tracker backends).Nodup :=
  (List.nodup_finRange _).filter _

theorem expanded_eq_nil_iff {tracker : HealthTracker} {backends : List Backend} :
    expanded tracker backends = [] ↔ healthy tracker backends = [] :=
  RoundRobin.expand_eq_nil_iff fun i _ => repetitions_pos (backends.get i)

/-- No position is kept exactly when every backend is unhealthy. -/
theorem healthy_eq_nil_iff {tracker : HealthTracker} {backends : List Backend} :
    healthy tracker backends = [] ↔ ∀ b ∈ backends, tracker.isHealthy b.address = false := by
  rw [List.eq_nil_iff_forall_not_mem]
  simp only [mem_healthy, Bool.not_eq_true]
  constructor
  · intro h b hb
    rcases List.mem_iff_getElem.mp hb with ⟨i, hi, rfl⟩
    exact h ⟨i, hi⟩
  · intro h i
    exact h _ (List.getElem_mem i.isLt)

/-- A selection picks from the weighted expansion of the healthy positions, and
moves the counter exactly when it picks. -/
theorem next_eq (lb : LoadBalancer) (backends : List Backend) :
    lb.next backends =
      if expanded lb.healthTracker backends = [] then (none, lb)
      else
        ((expanded lb.healthTracker backends)[
            lb.current.toNat % (expanded lb.healthTracker backends).length]?,
          { lb with current := lb.current + 1 }) := by
  unfold next
  simp only [List.isEmpty_iff]
  by_cases h : expanded lb.healthTracker backends = []
  · rw [if_pos (expanded_eq_nil_iff.mp h), if_pos h]
  · rw [if_neg (mt expanded_eq_nil_iff.mpr h), if_neg h]

/-- The position the counter points at lies within the expansion. -/
theorem next_eq_some {lb : LoadBalancer} {backends : List Backend}
    (h : expanded lb.healthTracker backends ≠ []) :
    ∃ i, (expanded lb.healthTracker backends)[
        lb.current.toNat % (expanded lb.healthTracker backends).length]? = some i ∧
      lb.next backends = (some i, { lb with current := lb.current + 1 }) := by
  have hlt := Nat.mod_lt lb.current.toNat (List.length_pos_iff.mpr h)
  refine ⟨_, List.getElem?_eq_getElem hlt, ?_⟩
  rw [next_eq, if_neg h, List.getElem?_eq_getElem hlt]

/-- Nothing is selected exactly when no backend is healthy. -/
theorem next_eq_none_iff {lb : LoadBalancer} {backends : List Backend} :
    (lb.next backends).1 = none ↔
      ∀ b ∈ backends, lb.healthTracker.isHealthy b.address = false := by
  rw [← healthy_eq_nil_iff, ← expanded_eq_nil_iff]
  by_cases h : expanded lb.healthTracker backends = []
  · simp [next_eq, h]
  · rcases next_eq_some h with ⟨i, -, hnext⟩
    simp [hnext, h]

/-- What is selected is healthy. -/
theorem isHealthy_of_next {lb : LoadBalancer} {backends : List Backend}
    {i : Fin backends.length} (h : (lb.next backends).1 = some i) :
    lb.healthTracker.isHealthy (backends.get i).address = true := by
  by_cases hnil : expanded lb.healthTracker backends = []
  · simp [next_eq, hnil] at h
  · rcases next_eq_some hnil with ⟨j, hj, hnext⟩
    rw [hnext, Option.some.injEq] at h
    subst h
    exact mem_healthy.mp (RoundRobin.mem_of_mem_expand (List.mem_of_getElem? hj))

/-- A selection never touches the tracker. -/
@[simp]
theorem healthTracker_next (lb : LoadBalancer) (backends : List Backend) :
    (lb.next backends).2.healthTracker = lb.healthTracker := by
  rw [next_eq]
  split_ifs <;> rfl

/-! ## Consecutive calls -/

/-- The selections of consecutive calls for one list of backends. -/
def nextCalls (backends : List Backend) : LoadBalancer → Nat → List (Option (Fin backends.length))
  | _, 0 => []
  | lb, n + 1 => (lb.next backends).1 :: nextCalls backends (lb.next backends).2 n

/-- The load balancer after consecutive calls. -/
def afterCalls (backends : List Backend) : LoadBalancer → Nat → LoadBalancer
  | lb, 0 => lb
  | lb, n + 1 => afterCalls backends (lb.next backends).2 n

/-- Calls go on from the state they have reached. -/
theorem nextCalls_add (backends : List Backend) (lb : LoadBalancer) (m n : Nat) :
    nextCalls backends lb (m + n) =
      nextCalls backends lb m ++ nextCalls backends (afterCalls backends lb m) n := by
  induction m generalizing lb with
  | zero => rw [Nat.zero_add]; rfl
  | succ m ih =>
      rw [Nat.succ_add, nextCalls, ih]
      rfl

/-- Calls that select move the counter by one each and keep the tracker. -/
theorem afterCalls_eq {backends : List Backend} {lb : LoadBalancer}
    (h : expanded lb.healthTracker backends ≠ []) (n : Nat) :
    afterCalls backends lb n = { lb with current := lb.current + UInt64.ofNat n } := by
  induction n generalizing lb with
  | zero => simp [afterCalls]
  | succ n ih =>
      rcases next_eq_some h with ⟨i, -, hnext⟩
      have hcurrent : lb.current + 1 + UInt64.ofNat n = lb.current + UInt64.ofNat (n + 1) := by
        rw [UInt64.ofNat_add, UInt64.add_assoc, UInt64.add_comm (UInt64.ofNat n)]
        rfl
      have hcalls : afterCalls backends { lb with current := lb.current + 1 } n = _ := ih h
      rw [afterCalls, hnext, hcalls, hcurrent]

/-- In a window without a wrap the calls are consecutive picks from the weighted
expansion. -/
theorem nextCalls_eq_picks {backends : List Backend} {lb : LoadBalancer}
    (h : expanded lb.healthTracker backends ≠ []) {n : Nat}
    (hwrap : lb.current.toNat + n ≤ 2 ^ 64) :
    nextCalls backends lb n =
      RoundRobin.picks (expanded lb.healthTracker backends) lb.current.toNat n := by
  induction n generalizing lb with
  | zero => rfl
  | succ n ih =>
      rcases next_eq_some h with ⟨i, hi, hnext⟩
      have hhead : (lb.next backends).1 = (expanded lb.healthTracker backends)[
          lb.current.toNat % (expanded lb.healthTracker backends).length]? := by
        rw [hnext, hi]
      have htail : nextCalls backends (lb.next backends).2 n =
          RoundRobin.picks (expanded lb.healthTracker backends) (lb.current.toNat + 1) n := by
        cases n with
        | zero => rfl
        | succ n =>
            have hcurrent : (lb.current + 1).toNat = lb.current.toNat + 1 := by
              rw [UInt64.toNat_add]
              exact Nat.mod_eq_of_lt (by simp; omega)
            have hcalls : nextCalls backends { lb with current := lb.current + 1 } (n + 1) = _ :=
              ih h (by dsimp only; omega)
            rw [hnext, hcalls, hcurrent]
      rw [RoundRobin.picks_succ, nextCalls, hhead, htail]

/-! ## Counting selections -/

/-- A healthy position occurs in the expansion as often as its weight says. -/
theorem count_expanded {tracker : HealthTracker} {backends : List Backend}
    {i : Fin backends.length} (h : tracker.isHealthy (backends.get i).address = true) :
    (expanded tracker backends).count i = max (backends.get i).weight.toNat 1 := by
  rw [← repetitions_eq]
  exact RoundRobin.count_expand (nodup_healthy tracker backends) (mem_healthy.mpr h)

/-- A healthy position occurs in the expansion. -/
theorem mem_expanded {tracker : HealthTracker} {backends : List Backend}
    {i : Fin backends.length} (h : tracker.isHealthy (backends.get i).address = true) :
    i ∈ expanded tracker backends := by
  rw [← List.count_pos_iff, count_expanded h]
  omega

/-- An unhealthy position is never selected. -/
theorem count_nextCalls_unhealthy {backends : List Backend} {lb : LoadBalancer}
    {i : Fin backends.length}
    (h : lb.healthTracker.isHealthy (backends.get i).address = false) (n : Nat) :
    (nextCalls backends lb n).count (some i) = 0 := by
  induction n generalizing lb with
  | zero => rfl
  | succ n ih =>
      have hhead : (lb.next backends).1 ≠ some i := by
        intro hselect
        rw [isHealthy_of_next hselect] at h
        cases h
      rw [nextCalls, List.count_cons_of_ne hhead]
      exact ih (by rwa [healthTracker_next])

/-- What is selected is healthy. -/
theorem isHealthy_of_mem_nextCalls {backends : List Backend} {lb : LoadBalancer} {n : Nat}
    {i : Fin backends.length} (h : some i ∈ nextCalls backends lb n) :
    lb.healthTracker.isHealthy (backends.get i).address = true := by
  by_contra hunhealthy
  have hcount := count_nextCalls_unhealthy (Bool.not_eq_true _ ▸ hunhealthy) n
  exact List.count_eq_zero.mp hcount h

/-- A window without a wrap is shared among the healthy positions by weight, up to one
round. -/
theorem count_nextCalls_bounds {backends : List Backend} {lb : LoadBalancer} {n : Nat}
    {i : Fin backends.length}
    (hhealthy : lb.healthTracker.isHealthy (backends.get i).address = true)
    (hwrap : lb.current.toNat + n ≤ 2 ^ 64) :
    n / (expanded lb.healthTracker backends).length * max (backends.get i).weight.toNat 1 ≤
        (nextCalls backends lb n).count (some i) ∧
      (nextCalls backends lb n).count (some i) ≤
        (n + (expanded lb.healthTracker backends).length - 1) /
          (expanded lb.healthTracker backends).length * max (backends.get i).weight.toNat 1 := by
  have hne := List.ne_nil_of_mem (mem_expanded hhealthy)
  rw [nextCalls_eq_picks hne hwrap, ← count_expanded hhealthy]
  exact RoundRobin.count_picks_bounds hne lb.current.toNat n i

end LoadBalancer

end PingoraProxy
