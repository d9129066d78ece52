import PingoraProxy.Foundation.History
import PingoraProxy.Proxy.Router

/-!
# Health status and the history of calls

The tracker keeps a status and a 32-bit count for each address.  This module
relates both to the calls made so far: the count is the number of failures since
the last success or reset, modulo 2^32, and the status compares that number, not
the wrapped count, with the threshold.

Main results:

- Theorem {lit}`failureCount_run`: the count after any sequence of calls.
- Theorem {lit}`isHealthy_run`: the status after any sequence of calls.
- Theorem {lit}`tracker_computes_consecutive_failures`: an address is unhealthy
  exactly at threshold consecutive failures, and is then never selected.
-/

namespace PingoraProxy

open Foundation

/-- A call to the tracker about one address. -/
inductive HealthCall where
  | recordSuccess
  | recordFailure
  | reset
deriving DecidableEq, Repr

/-- A call to the tracker with its address. -/
structure HealthOp where
  address : Str
  call : HealthCall
deriving DecidableEq

namespace HealthOp

/-- The effect of a call. -/
def apply (tracker : HealthTracker) (op : HealthOp) : HealthTracker :=
  match op.call with
  | .recordSuccess => tracker.recordSuccess op.address
  | .recordFailure => tracker.recordFailure op.address
  | .reset => tracker.reset op.address

/-- Whether a call is a success or a reset of the given address. -/
def restores (address : Str) (op : HealthOp) : Bool :=
  decide (op.address = address) && decide (op.call ≠ .recordFailure)

/-- Whether a call is a failure of the given address. -/
def fails (address : Str) (op : HealthOp) : Bool :=
  decide (op.address = address) && decide (op.call = .recordFailure)

end HealthOp

namespace HealthTracker

/-! ## Histories of calls -/

/-- The tracker after a sequence of calls, from a new one. -/
def run (failureThreshold : UInt32) (ops : List HealthOp) : HealthTracker :=
  ops.foldl HealthOp.apply (new failureThreshold)

/-- The number of failures of an address since its last success or reset. -/
def failuresSince (address : Str) (ops : List HealthOp) : Nat :=
  (sinceLast (HealthOp.restores address) ops).countP (HealthOp.fails address)

theorem run_concat (failureThreshold : UInt32) (ops : List HealthOp) (op : HealthOp) :
    run failureThreshold (ops ++ [op]) = op.apply (run failureThreshold ops) := by
  unfold run
  rw [List.foldl_append]
  rfl

@[simp]
theorem failuresSince_nil (address : Str) : failuresSince address [] = 0 :=
  rfl

/-- A success or reset of the address starts the count again, a failure of it is
counted, and a call about another address changes nothing. -/
theorem failuresSince_concat (address : Str) (ops : List HealthOp) (op : HealthOp) :
    failuresSince address (ops ++ [op]) =
      if op.address = address then
        if op.call = .recordFailure then failuresSince address ops + 1 else 0
      else failuresSince address ops := by
  unfold failuresSince
  by_cases haddress : op.address = address
  · by_cases hcall : op.call = .recordFailure
    · have hrestores : op.restores address = false := by simp [HealthOp.restores, hcall]
      have hfails : op.fails address = true := by simp [HealthOp.fails, haddress, hcall]
      rw [sinceLast_concat_of_neg hrestores, List.countP_append, if_pos haddress, if_pos hcall]
      simp [hfails]
    · have hrestores : op.restores address = true := by
        simp [HealthOp.restores, haddress, hcall]
      rw [sinceLast_concat_of_pos hrestores, if_pos haddress, if_neg hcall]
      rfl
  · have hrestores : op.restores address = false := by simp [HealthOp.restores, haddress]
    have hfails : op.fails address = false := by simp [HealthOp.fails, haddress]
    rw [sinceLast_concat_of_neg hrestores, List.countP_append, if_neg haddress]
    simp [hfails]

/-- Only the calls about an address count for it. -/
theorem failuresSince_filter (address : Str) (ops : List HealthOp) :
    failuresSince address (ops.filter fun op => decide (op.address = address)) =
      failuresSince address ops := by
  unfold failuresSince
  have hkeep : ∀ op : HealthOp, op.restores address = true →
      decide (op.address = address) = true := by
    intro op hop
    exact (Bool.and_eq_true_iff.mp hop).1
  rw [sinceLast_filter hkeep, List.countP_filter]
  refine List.countP_congr fun op _ => ?_
  simp only [HealthOp.fails, Bool.and_eq_true, decide_eq_true_eq]
  tauto

/-! ## One call -/

/-- A call moves the count as it moves the number of failures. -/
theorem failureCount_apply (tracker : HealthTracker) (op : HealthOp) (address : Str) :
    (op.apply tracker).failureCount address =
      if op.address = address then
        if op.call = .recordFailure then tracker.failureCount address + 1 else 0
      else tracker.failureCount address := by
  unfold HealthOp.apply
  cases hcall : op.call with
  | recordSuccess => simpa using failureCount_recordSuccess tracker op.address address
  | recordFailure => simpa using failureCount_recordFailure tracker op.address address
  | reset => simpa using failureCount_reset tracker op.address address

/-- A call changes the status of its own address only: to healthy, or to unhealthy
at the threshold. -/
theorem isHealthy_apply (tracker : HealthTracker) (op : HealthOp) (address : Str) :
    (op.apply tracker).isHealthy address =
      if op.address = address then
        if op.call = .recordFailure then
          if tracker.failureThreshold ≤ tracker.failureCount address + 1 then false
          else tracker.isHealthy address
        else true
      else tracker.isHealthy address := by
  unfold HealthOp.apply
  cases hcall : op.call with
  | recordSuccess => simpa using isHealthy_recordSuccess tracker op.address address
  | recordFailure =>
      simp only [isHealthy_recordFailure]
      by_cases haddress : op.address = address
      · simp [haddress]
      · simp [haddress]
  | reset => simpa using isHealthy_reset tracker op.address address

@[simp]
theorem failureThreshold_apply (tracker : HealthTracker) (op : HealthOp) :
    (op.apply tracker).failureThreshold = tracker.failureThreshold := by
  unfold HealthOp.apply
  cases op.call with
  | recordSuccess => exact failureThreshold_recordSuccess tracker op.address
  | recordFailure => exact failureThreshold_recordFailure tracker op.address
  | reset => rfl

/-! ## Runs of calls -/

@[simp]
theorem failureThreshold_run (failureThreshold : UInt32) (ops : List HealthOp) :
    (run failureThreshold ops).failureThreshold = failureThreshold := by
  induction ops using List.reverseRecOn with
  | nil => rfl
  | append_singleton ops op ih => rw [run_concat, failureThreshold_apply, ih]

/-- The count is the number of failures since the last success or reset, modulo 2^32. -/
theorem failureCount_run (failureThreshold : UInt32) (ops : List HealthOp) (address : Str) :
    (run failureThreshold ops).failureCount address =
      UInt32.ofNat (failuresSince address ops) := by
  induction ops using List.reverseRecOn with
  | nil => rfl
  | append_singleton ops op ih =>
      rw [run_concat, failureCount_apply, failuresSince_concat, ih]
      split_ifs
      · exact (UInt32.ofNat_add _ _).symm
      · rfl
      · rfl

/-- The count after one more failure, modulo 2^32. -/
theorem toNat_ofNat_add_one (n : Nat) : (UInt32.ofNat n + 1).toNat = (n + 1) % 2 ^ 32 := by
  rw [UInt32.toNat_add]
  simp

/-- A count that has not wrapped around reaches the threshold with the true number. -/
theorem threshold_le_ofNat_of_lt {failureThreshold : UInt32} {n : Nat} (hfew : n + 1 < 2 ^ 32)
    (hreach : failureThreshold.toNat ≤ n + 1) : failureThreshold ≤ UInt32.ofNat n + 1 := by
  rw [UInt32.le_iff_toNat_le, toNat_ofNat_add_one, Nat.mod_eq_of_lt hfew]
  exact hreach

/-- One more failure reaches the threshold in the wrapped count only when the true
number does, and does so in the moment the true number arrives there. -/
theorem threshold_le_ofNat_iff {failureThreshold : UInt32} {n : Nat} :
    failureThreshold ≤ UInt32.ofNat n + 1 ∨ failureThreshold.toNat ≤ n ↔
      failureThreshold.toNat ≤ n + 1 := by
  have hlt := failureThreshold.toNat_lt
  rw [UInt32.le_iff_toNat_le, toNat_ofNat_add_one]
  omega

/-- An address is unhealthy exactly when its failures since the last success or
reset have reached the threshold, however often the count has wrapped around. -/
theorem isHealthy_run {failureThreshold : UInt32} (hpos : 0 < failureThreshold)
    (ops : List HealthOp) (address : Str) :
    (run failureThreshold ops).isHealthy address = false ↔
      failureThreshold.toNat ≤ failuresSince address ops := by
  have hpos' : 0 < failureThreshold.toNat := UInt32.lt_iff_toNat_lt.mp hpos
  induction ops using List.reverseRecOn with
  | nil =>
      rw [failuresSince_nil]
      have hnew : (run failureThreshold []).isHealthy address = true := rfl
      rw [hnew]
      simp
      omega
  | append_singleton ops op ih =>
      have hbefore : (run failureThreshold ops).isHealthy address = false ↔
          failureThreshold.toNat ≤ failuresSince address ops := ih
      rw [run_concat, isHealthy_apply, failuresSince_concat, failureThreshold_run,
        failureCount_run]
      by_cases haddress : op.address = address
      · rw [if_pos haddress, if_pos haddress]
        by_cases hcall : op.call = .recordFailure
        · rw [if_pos hcall, if_pos hcall, ← threshold_le_ofNat_iff, ← hbefore]
          by_cases hreach : failureThreshold ≤ UInt32.ofNat (failuresSince address ops) + 1
          · simp [hreach]
          · simp [hreach]
        · rw [if_neg hcall, if_neg hcall]
          simp
          omega
      · rw [if_neg haddress, if_neg haddress]
        exact hbefore

/-- After any sequence of calls an address is unhealthy exactly when at least
threshold failures of it came after its last success or reset; calls about other
addresses do not matter; and neither the load balancer nor the router selects a
backend with that many failures. -/
theorem tracker_computes_consecutive_failures (failureThreshold : UInt32)
    (hpos : 0 < failureThreshold) (ops : List HealthOp) :
    (∀ address, (run failureThreshold ops).isHealthy address = false ↔
      failureThreshold.toNat ≤ failuresSince address ops) ∧
    (∀ address, (run failureThreshold ops).isHealthy address =
      (run failureThreshold (ops.filter fun op => decide (op.address = address))).isHealthy
        address) ∧
    (∀ current backends i,
      (LoadBalancer.next ⟨current, run failureThreshold ops⟩ backends).1 = some i →
        failuresSince (backends.get i).address ops < failureThreshold.toNat) ∧
    (∀ lc current routes host path b,
      (Router.findBackend lc ⟨current, run failureThreshold ops⟩ routes host path).1 = some b →
        failuresSince b.address ops < failureThreshold.toNat) := by
  have hstatus := isHealthy_run hpos
  have hhealthy : ∀ address, (run failureThreshold ops).isHealthy address = true →
      failuresSince address ops < failureThreshold.toNat := by
    intro address h
    rw [← not_le, ← hstatus ops address, h]
    simp
  refine ⟨hstatus ops, ?_, ?_, ?_⟩
  · intro address
    rw [Bool.eq_iff_iff, ← not_iff_not, Bool.not_eq_true, Bool.not_eq_true, hstatus, hstatus,
      failuresSince_filter]
  · intro current backends i h
    exact hhealthy _ (LoadBalancer.isHealthy_of_next h)
  · intro lc current routes host path b h
    rcases Router.mem_of_findBackend lc h with ⟨-, -, -, -, hb⟩
    exact hhealthy _ hb

/-- Three failures with a success of another address between them reach the
threshold three. -/
theorem tracker_three_failures :
    (0 : UInt32) < 3 ∧
      (run 3 [⟨['a'], .recordFailure⟩, ⟨['a'], .recordFailure⟩, ⟨['b'], .recordSuccess⟩,
        ⟨['a'], .recordFailure⟩]).isHealthy ['a'] = false :=
  ⟨by decide, ((tracker_computes_consecutive_failures 3 (by decide) _).1 _).mpr (by decide)⟩

end HealthTracker

end PingoraProxy
