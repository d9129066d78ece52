import PingoraProxy.Foundation.Interleaving
import PingoraProxy.Proxy.HealthHistory

/-!
# Concurrent calls to the tracker

The tracker keeps its count and its status in two maps.  A failure updates both under
one guard; a success and a reset write the count first and the status in a second
step.  Failures may come between the two steps, and then the second step hides them.

Main results:

- Theorem {lit}`foldl_callSteps`: the steps of a call, run without interruption, are
  the call.
- Theorem {lit}`isHealthy_of_restoredLate` and
  {lit}`isHealthy_of_not_restoredLate`: what a late second step does to the status.
- Theorem {lit}`success_hides_failures`: a success that overlaps with enough failures
  leaves the backend healthy at its failure threshold.
- Theorem {lit}`maps_agree_iff`: the maps agree in a quiescent state exactly when no
  second step came after the failures that reached the threshold.
- Theorem {lit}`isHealthy_runSteps_iff`: the status after any steps, by the failures since
  it was last restored and since the count was last started again.
- Theorem {lit}`agree_replayWrites`: the steps about an address alone decide what the
  tracker says of it.
-/

namespace PingoraProxy

open Foundation

/-! ## Atomic steps -/

/-- One atomic step of a call about a fixed address. -/
inductive TrackerStep where
  | insertZero
  | insertHealthy
  | removeFailures
  | removeHealth
  | recordFailure
deriving DecidableEq, Repr

namespace TrackerStep

/-- The effect of a step. -/
def apply (address : Str) (tracker : HealthTracker) : TrackerStep → HealthTracker
  | insertZero => { tracker with failures := tracker.failures.insert address 0 }
  | insertHealthy => { tracker with health := tracker.health.insert address .healthy }
  | removeFailures => { tracker with failures := tracker.failures.erase address }
  | removeHealth => { tracker with health := tracker.health.erase address }
  -- the guard of the count is held until the status is written
  | recordFailure => tracker.recordFailure address

/-- Whether a step starts the count again. -/
def zeroes : TrackerStep → Bool
  | insertZero | removeFailures => true
  | _ => false

/-- Whether a step restores the status. -/
def restores : TrackerStep → Bool
  | insertHealthy | removeHealth => true
  | _ => false

/-- Whether a step is a failure. -/
def fails : TrackerStep → Bool
  | recordFailure => true
  | _ => false

end TrackerStep

/-- The atomic steps of a call, in program order. -/
def callSteps : HealthCall → List TrackerStep
  | .recordSuccess => [.insertZero, .insertHealthy]
  | .recordFailure => [.recordFailure]
  | .reset => [.removeFailures, .removeHealth]

namespace HealthTracker

/-- The steps of a call, run without interruption, are the call. -/
theorem foldl_callSteps (tracker : HealthTracker) (op : HealthOp) :
    (callSteps op.call).foldl (TrackerStep.apply op.address) tracker = op.apply tracker := by
  unfold HealthOp.apply
  cases op.call with
  | recordSuccess => rfl
  | recordFailure => rfl
  | reset => rfl

/-- The tracker after some atomic steps about one address, from a new one. -/
def runSteps (failureThreshold : UInt32) (address : Str) (steps : List TrackerStep) :
    HealthTracker :=
  steps.foldl (TrackerStep.apply address) (new failureThreshold)

/-- The number of failures since the count was last started again. -/
def failuresSinceZero (steps : List TrackerStep) : Nat :=
  (sinceLast TrackerStep.zeroes steps).countP TrackerStep.fails

/-- The count has reached the threshold, and a status was restored after the last
failure. -/
def RestoredLate (failureThreshold : UInt32) (steps : List TrackerStep) : Prop :=
  failureThreshold.toNat ≤ failuresSinceZero steps ∧
    ∃ step ∈ sinceLast TrackerStep.fails steps, step.restores = true

/-- Every call has taken all of its steps or none. -/
def Quiescent {ι : Type} [DecidableEq ι] (calls : ι → HealthCall)
    (tr : List (ι × TrackerStep)) : Prop :=
  ∀ i, Interleaving.proj i tr = [] ∨ Interleaving.proj i tr = callSteps (calls i)

/-! ## One step -/

theorem runSteps_concat (failureThreshold : UInt32) (address : Str) (steps : List TrackerStep)
    (step : TrackerStep) :
    runSteps failureThreshold address (steps ++ [step]) =
      step.apply address (runSteps failureThreshold address steps) := by
  unfold runSteps
  rw [List.foldl_append]
  rfl

theorem failuresSinceZero_concat (steps : List TrackerStep) (step : TrackerStep) :
    failuresSinceZero (steps ++ [step]) =
      if step.zeroes = true then 0
      else if step.fails = true then failuresSinceZero steps + 1
      else failuresSinceZero steps := by
  unfold failuresSinceZero
  by_cases hzeroes : step.zeroes = true
  · rw [sinceLast_concat_of_pos hzeroes, if_pos hzeroes]
    rfl
  · rw [sinceLast_concat_of_neg (Bool.not_eq_true _ ▸ hzeroes), if_neg hzeroes,
      List.countP_append]
    by_cases hfails : step.fails = true <;> simp [hfails]

/-- There are at most as many failures since the last start as there are in all. -/
theorem failuresSinceZero_le (steps : List TrackerStep) :
    failuresSinceZero steps ≤ steps.countP TrackerStep.fails := by
  induction steps using List.reverseRecOn with
  | nil => exact Nat.le_refl _
  | append_singleton steps step ih =>
      rw [failuresSinceZero_concat, List.countP_append]
      by_cases hfails : step.fails = true
      · simp only [hfails, List.countP_singleton, if_true]
        split_ifs <;> omega
      · simp only [hfails, List.countP_singleton]
        split_ifs <;> omega

/-- A step moves the count as it moves the number of failures. -/
theorem failureCount_step (tracker : HealthTracker) (address : Str) (step : TrackerStep) :
    (step.apply address tracker).failureCount address =
      if step.zeroes = true then 0
      else if step.fails = true then tracker.failureCount address + 1
      else tracker.failureCount address := by
  cases step with
  | insertZero =>
      unfold TrackerStep.apply failureCount
      dsimp only
      rw [Finmap.lookup_insert]
      rfl
  | removeFailures =>
      unfold TrackerStep.apply failureCount
      dsimp only
      rw [Finmap.lookup_erase]
      rfl
  | insertHealthy => rfl
  | removeHealth => rfl
  | recordFailure =>
      unfold TrackerStep.apply
      dsimp only
      rw [failureCount_recordFailure, if_pos rfl]
      rfl

/-- A step restores the status, or is a failure at the threshold, or leaves the
status. -/
theorem isHealthy_step (tracker : HealthTracker) (address : Str) (step : TrackerStep) :
    (step.apply address tracker).isHealthy address =
      if step.restores = true then true
      else if step.fails = true ∧
          tracker.failureThreshold ≤ tracker.failureCount address + 1 then false
      else tracker.isHealthy address := by
  cases step with
  | insertZero => rfl
  | removeFailures => rfl
  | insertHealthy =>
      unfold TrackerStep.apply isHealthy
      dsimp only
      rw [Finmap.lookup_insert]
      rfl
  | removeHealth =>
      unfold TrackerStep.apply isHealthy
      dsimp only
      rw [Finmap.lookup_erase]
      rfl
  | recordFailure =>
      unfold TrackerStep.apply
      dsimp only
      rw [isHealthy_recordFailure]
      simp [TrackerStep.restores, TrackerStep.fails]

/-- No step changes the threshold. -/
theorem failureThreshold_step (tracker : HealthTracker) (address : Str) (step : TrackerStep) :
    (step.apply address tracker).failureThreshold = tracker.failureThreshold := by
  cases step with
  | recordFailure => exact failureThreshold_recordFailure _ _
  | insertZero | insertHealthy | removeFailures | removeHealth => rfl

@[simp]
theorem failureThreshold_runSteps (failureThreshold : UInt32) (address : Str)
    (steps : List TrackerStep) :
    (runSteps failureThreshold address steps).failureThreshold = failureThreshold := by
  induction steps using List.reverseRecOn with
  | nil => rfl
  | append_singleton steps step ih => rw [runSteps_concat, failureThreshold_step, ih]

/-! ## Runs of steps -/

/-- The count is the number of failures since it was last started again, modulo 2^32. -/
theorem failureCount_runSteps (failureThreshold : UInt32) (address : Str)
    (steps : List TrackerStep) :
    (runSteps failureThreshold address steps).failureCount address =
      UInt32.ofNat (failuresSinceZero steps) := by
  induction steps using List.reverseRecOn with
  | nil => rfl
  | append_singleton steps step ih =>
      rw [runSteps_concat, failureCount_step, failuresSinceZero_concat, ih]
      split_ifs
      · rfl
      · exact (UInt32.ofNat_add _ _).symm
      · rfl

/-- A status restored after the last failure stays restored. -/
theorem isHealthy_of_restoredLate (failureThreshold : UInt32) (address : Str)
    {steps : List TrackerStep}
    (h : ∃ step ∈ sinceLast TrackerStep.fails steps, step.restores = true) :
    (runSteps failureThreshold address steps).isHealthy address = true := by
  induction steps using List.reverseRecOn with
  | nil => rfl
  | append_singleton steps step ih =>
      rw [runSteps_concat, isHealthy_step]
      by_cases hfails : step.fails = true
      · rw [sinceLast_concat_of_pos hfails] at h
        rcases h with ⟨restored, hnone, hrestored⟩
        cases hnone
      · rw [sinceLast_concat_of_neg (Bool.not_eq_true _ ▸ hfails)] at h
        by_cases hrestores : step.restores = true
        · rw [if_pos hrestores]
        · rw [if_neg hrestores, if_neg fun hand => hfails hand.1]
          apply ih
          rcases h with ⟨earlier, hearlier, hrestored⟩
          rcases List.mem_append.mp hearlier with hmem | hsame
          · exact ⟨earlier, hmem, hrestored⟩
          · rw [List.mem_singleton.mp hsame] at hrestored
            exact absurd hrestored hrestores

/-- At the threshold, and with no status restored after the last failure, the address
is unhealthy. -/
theorem isHealthy_of_not_restoredLate {failureThreshold : UInt32} (hpos : 0 < failureThreshold)
    (address : Str) {steps : List TrackerStep}
    (hfew : steps.countP TrackerStep.fails < 2 ^ 32)
    (hreach : failureThreshold.toNat ≤ failuresSinceZero steps)
    (hnone : ∀ step ∈ sinceLast TrackerStep.fails steps, step.restores = false) :
    (runSteps failureThreshold address steps).isHealthy address = false := by
  have hpos' : 0 < failureThreshold.toNat := UInt32.lt_iff_toNat_lt.mp hpos
  induction steps using List.reverseRecOn with
  | nil =>
      rw [failuresSinceZero] at hreach
      simp at hreach
      omega
  | append_singleton steps step ih =>
      rw [runSteps_concat, isHealthy_step, failureThreshold_runSteps, failureCount_runSteps]
      rw [List.countP_append] at hfew
      rw [failuresSinceZero_concat] at hreach
      by_cases hfails : step.fails = true
      · cases step with
        | recordFailure =>
            have hle := failuresSinceZero_le steps
            have hsucc : failuresSinceZero steps + 1 < 2 ^ 32 := by
              simp only [List.countP_singleton, TrackerStep.fails, if_true] at hfew
              omega
            have hcount : failureThreshold ≤ UInt32.ofNat (failuresSinceZero steps) + 1 :=
              threshold_le_ofNat_of_lt hsucc hreach
            rw [if_neg (by decide), if_pos ⟨rfl, hcount⟩]
        | _ => cases hfails
      · rw [sinceLast_concat_of_neg (Bool.not_eq_true _ ▸ hfails)] at hnone
        have hrestores : step.restores = false := hnone step (by simp)
        rw [if_neg (by simp [hrestores]), if_neg fun hand => hfails hand.1]
        by_cases hzeroes : step.zeroes = true
        · rw [if_pos hzeroes] at hreach
          omega
        · rw [if_neg hzeroes, if_neg hfails] at hreach
          exact ih (by omega) hreach fun earlier hearlier => hnone earlier (by simp [hearlier])

/-- An unhealthy address owes its status to a failure at the threshold after which no
status was restored. -/
theorem exists_reaching_failure {failureThreshold : UInt32} {address : Str}
    {steps : List TrackerStep}
    (h : (runSteps failureThreshold address steps).isHealthy address = false) :
    ∃ before after, steps = before ++ .recordFailure :: after ∧
      (∀ step ∈ after, step.restores = false) ∧
      failureThreshold.toNat ≤ failuresSinceZero (before ++ [.recordFailure]) := by
  induction steps using List.reverseRecOn with
  | nil => cases h
  | append_singleton steps step ih =>
      rw [runSteps_concat, isHealthy_step, failureThreshold_runSteps, failureCount_runSteps] at h
      by_cases hrestores : step.restores = true
      · rw [if_pos hrestores] at h
        cases h
      · rw [if_neg hrestores] at h
        by_cases hreach : step.fails = true ∧
            failureThreshold ≤ UInt32.ofNat (failuresSinceZero steps) + 1
        · cases step with
          | recordFailure =>
              refine ⟨steps, [], rfl, by simp, ?_⟩
              rw [failuresSinceZero_concat]
              exact threshold_le_ofNat_iff.mp (Or.inl hreach.2)
          | _ => cases hreach.1
        · rw [if_neg hreach] at h
          rcases ih h with ⟨before, after, hsplit, hafter, hcount⟩
          refine ⟨before, after ++ [step], by simp [hsplit], ?_, hcount⟩
          intro later hlater
          rcases List.mem_append.mp hlater with hmem | hsame
          · exact hafter later hmem
          · rw [List.mem_singleton.mp hsame]
            exact Bool.not_eq_true _ ▸ hrestores

/-- After the last step that restored the status, some failure was at least the
threshold-th since the count was last started again. -/
def ReachedSinceRestored (failureThreshold : UInt32) (steps : List TrackerStep) : Prop :=
  ∃ before after, steps = before ++ .recordFailure :: after ∧
    (∀ step ∈ after, step.restores = false) ∧
    failureThreshold.toNat ≤ failuresSinceZero (before ++ [.recordFailure])

/-- A step that does not restore the status leaves an unhealthy address unhealthy. -/
theorem isHealthy_of_no_restores {tracker : HealthTracker} {address : Str}
    {steps : List TrackerStep} (h : tracker.isHealthy address = false)
    (hnone : ∀ step ∈ steps, step.restores = false) :
    (steps.foldl (TrackerStep.apply address) tracker).isHealthy address = false := by
  induction steps generalizing tracker with
  | nil => exact h
  | cons step steps ih =>
      refine ih ?_ fun later hlater => hnone later (List.mem_cons_of_mem _ hlater)
      have hstep : step.restores = false := hnone step List.mem_cons_self
      rw [isHealthy_step, if_neg (by simp [hstep]), h, ite_self]

/-- After fewer than 2^32 failures an address is unhealthy exactly when some failure since
its status was last restored has reached the threshold. -/
theorem isHealthy_runSteps_iff {failureThreshold : UInt32} {address : Str}
    {steps : List TrackerStep} (hfew : steps.countP TrackerStep.fails < 2 ^ 32) :
    (runSteps failureThreshold address steps).isHealthy address = false ↔
      ReachedSinceRestored failureThreshold steps := by
  constructor
  · exact exists_reaching_failure
  · rintro ⟨before, after, rfl, hnone, hreach⟩
    rw [failuresSinceZero_concat, if_neg (by decide), if_pos (by decide)] at hreach
    have hsucc : failuresSinceZero before + 1 < 2 ^ 32 := by
      have hle := failuresSinceZero_le before
      rw [List.countP_append, List.countP_cons_of_pos rfl] at hfew
      omega
    have hcount := threshold_le_ofNat_of_lt hsucc hreach
    have hfailed : (runSteps failureThreshold address (before ++ [.recordFailure])).isHealthy
        address = false := by
      rw [runSteps_concat, isHealthy_step, failureThreshold_runSteps, failureCount_runSteps,
        if_neg (by decide), if_pos ⟨rfl, hcount⟩]
    rw [List.append_cons]
    unfold runSteps at hfailed ⊢
    rw [List.foldl_append]
    exact isHealthy_of_no_restores hfailed hnone

/-- Steps that come call by call, none between the steps of another, are the calls. -/
theorem isHealthy_of_whole_calls {failureThreshold : UInt32} (hpos : 0 < failureThreshold)
    (address : Str) (calls : List HealthCall) :
    (runSteps failureThreshold address (calls.flatMap callSteps)).isHealthy address = false ↔
      failureThreshold.toNat ≤ failuresSince address (calls.map fun call => ⟨address, call⟩) := by
  have hrun : ∀ tracker : HealthTracker,
      (calls.flatMap callSteps).foldl (TrackerStep.apply address) tracker =
        (calls.map fun call => (⟨address, call⟩ : HealthOp)).foldl HealthOp.apply tracker := by
    induction calls with
    | nil => exact fun tracker => rfl
    | cons call calls ih =>
        intro tracker
        rw [List.flatMap_cons, List.foldl_append, ih, List.map_cons, List.foldl_cons,
          ← foldl_callSteps]
  unfold runSteps
  rw [hrun]
  exact isHealthy_run hpos _ address

/-- While nothing but failures has happened to an address, it is unhealthy exactly when
the threshold is reached, however often the count has wrapped around. -/
theorem isHealthy_of_only_failures {failureThreshold : UInt32} (hpos : 0 < failureThreshold)
    (address : Str) {steps : List TrackerStep} (hsteps : ∀ step ∈ steps, step = .recordFailure) :
    failuresSinceZero steps = steps.length ∧
      ((runSteps failureThreshold address steps).isHealthy address = false ↔
        failureThreshold.toNat ≤ steps.length) := by
  have hpos' : 0 < failureThreshold.toNat := UInt32.lt_iff_toNat_lt.mp hpos
  induction steps using List.reverseRecOn with
  | nil =>
      refine ⟨rfl, iff_of_false (fun hstatus => by cases hstatus) ?_⟩
      rw [List.length_nil]
      omega
  | append_singleton steps step ih =>
      rcases ih fun other hother => hsteps other (List.mem_append_left _ hother) with
        ⟨hcount, hstatus⟩
      have hstep : step = .recordFailure := hsteps step (by simp)
      subst hstep
      rw [failuresSinceZero_concat, if_neg (by decide), if_pos (by decide), hcount,
        List.length_append, List.length_singleton]
      refine ⟨rfl, ?_⟩
      rw [runSteps_concat, isHealthy_step, failureThreshold_runSteps, failureCount_runSteps,
        hcount, ← threshold_le_ofNat_iff, ← hstatus, if_neg (by decide)]
      by_cases hreach : failureThreshold ≤ UInt32.ofNat steps.length + 1
      · simp [TrackerStep.fails, hreach]
      · simp [TrackerStep.fails, hreach]

/-! ## Several addresses -/

/-- The tracker after some atomic steps, each about its own address, from a new one. -/
def replayWrites (failureThreshold : UInt32) (writes : List (Str × TrackerStep)) :
    HealthTracker :=
  writes.foldl (fun tracker w => w.2.apply w.1 tracker) (new failureThreshold)

/-- The steps about one address. -/
def stepsFor (address : Str) (writes : List (Str × TrackerStep)) : List TrackerStep :=
  (writes.filter fun w => w.1 = address).map Prod.snd

theorem replayWrites_concat (failureThreshold : UInt32) (writes : List (Str × TrackerStep))
    (w : Str × TrackerStep) :
    replayWrites failureThreshold (writes ++ [w]) =
      w.2.apply w.1 (replayWrites failureThreshold writes) := by
  unfold replayWrites
  rw [List.foldl_append]
  rfl

theorem stepsFor_concat (address : Str) (writes : List (Str × TrackerStep))
    (w : Str × TrackerStep) :
    stepsFor address (writes ++ [w]) =
      stepsFor address writes ++ if w.1 = address then [w.2] else [] := by
  unfold stepsFor
  by_cases h : w.1 = address
  · simp [h]
  · simp [h]

theorem mem_stepsFor {address : Str} {writes : List (Str × TrackerStep)} {step : TrackerStep} :
    step ∈ stepsFor address writes ↔ (address, step) ∈ writes := by
  simp [stepsFor]

/-- The failures among the steps about an address are its failures. -/
theorem countP_fails_stepsFor (address : Str) (writes : List (Str × TrackerStep)) :
    (stepsFor address writes).countP TrackerStep.fails =
      writes.count (address, .recordFailure) := by
  unfold stepsFor List.count
  rw [List.countP_map, List.countP_filter]
  refine List.countP_congr fun w _ => ?_
  rcases w with ⟨other, step⟩
  cases step <;> simp [TrackerStep.fails]

/-- A step about another address leaves count and status. -/
theorem apply_of_ne {address other : Str} (hne : other ≠ address) (step : TrackerStep)
    (tracker : HealthTracker) :
    (step.apply other tracker).failureCount address = tracker.failureCount address ∧
      (step.apply other tracker).isHealthy address = tracker.isHealthy address := by
  cases step with
  | recordFailure =>
      unfold TrackerStep.apply
      dsimp only
      rw [failureCount_recordFailure, isHealthy_recordFailure, if_neg hne]
      exact ⟨rfl, by simp [hne]⟩
  | insertZero =>
      refine ⟨?_, rfl⟩
      unfold TrackerStep.apply failureCount
      dsimp only
      rw [Finmap.lookup_insert_of_ne _ (Ne.symm hne)]
  | insertHealthy =>
      refine ⟨rfl, ?_⟩
      unfold TrackerStep.apply isHealthy
      dsimp only
      rw [Finmap.lookup_insert_of_ne _ (Ne.symm hne)]
  | removeFailures =>
      refine ⟨?_, rfl⟩
      unfold TrackerStep.apply failureCount
      dsimp only
      rw [Finmap.lookup_erase_ne (Ne.symm hne)]
  | removeHealth =>
      refine ⟨rfl, ?_⟩
      unfold TrackerStep.apply isHealthy
      dsimp only
      rw [Finmap.lookup_erase_ne (Ne.symm hne)]

/-- Count and status of an address depend on the steps about it only. -/
theorem agree_replayWrites (failureThreshold : UInt32) (writes : List (Str × TrackerStep))
    (address : Str) :
    (replayWrites failureThreshold writes).failureThreshold = failureThreshold ∧
    (replayWrites failureThreshold writes).failureCount address =
        (runSteps failureThreshold address (stepsFor address writes)).failureCount address ∧
      (replayWrites failureThreshold writes).isHealthy address =
        (runSteps failureThreshold address (stepsFor address writes)).isHealthy address := by
  induction writes using List.reverseRecOn with
  | nil => exact ⟨rfl, rfl, rfl⟩
  | append_singleton writes w ih =>
      rcases ih with ⟨hthreshold, hcount, hstatus⟩
      rw [replayWrites_concat, stepsFor_concat]
      by_cases haddress : w.1 = address
      · subst haddress
        rw [if_pos rfl, runSteps_concat, failureCount_step, failureCount_step, isHealthy_step,
          isHealthy_step, failureThreshold_step, hthreshold, failureThreshold_runSteps, hcount,
          hstatus]
        exact ⟨rfl, rfl, rfl⟩
      · rcases apply_of_ne haddress w.2 (replayWrites failureThreshold writes) with
          ⟨hcount', hstatus'⟩
        rw [if_neg haddress, List.append_nil, failureThreshold_step, hcount', hstatus']
        exact ⟨hthreshold, hcount, hstatus⟩

/-! ## Quiescent states -/

/-- A call that starts the count again ends by restoring the status. -/
theorem callSteps_of_zeroes {call : HealthCall} {step : TrackerStep} (hmem : step ∈ callSteps call)
    (hzeroes : step.zeroes = true) :
    ∃ first last, callSteps call = first ++ [last] ∧ last.restores = true := by
  cases call with
  | recordSuccess => exact ⟨[.insertZero], .insertHealthy, rfl, rfl⟩
  | recordFailure =>
      rw [List.mem_singleton.mp hmem] at hzeroes
      cases hzeroes
  | reset => exact ⟨[.removeFailures], .removeHealth, rfl, rfl⟩

/-- In a quiescent state, when no status was restored since some moment, the count was
not started again since then either. -/
theorem no_zeroes_of_no_restores {ι : Type} [DecidableEq ι] {calls : ι → HealthCall}
    {before after : List (ι × TrackerStep)} (hquiescent : Quiescent calls (before ++ after))
    (hrestores : ∀ e ∈ after, e.2.restores = false) : ∀ e ∈ after, e.2.zeroes = false := by
  intro e he
  by_contra hzeroes
  have hmem : e.2 ∈ Interleaving.proj e.1 after := Interleaving.mem_proj.mpr he
  have hsteps := hquiescent e.1
  rw [Interleaving.proj_append] at hsteps
  rcases hsteps with hnil | hall
  · rw [(List.append_eq_nil_iff.mp hnil).2] at hmem
    cases hmem
  · rcases callSteps_of_zeroes (hall ▸ List.mem_append_right _ hmem)
      (Bool.not_eq_false _ ▸ hzeroes) with ⟨first, last, hcall, hlast⟩
    rcases List.eq_nil_or_concat' (Interleaving.proj e.1 after) with hnil | ⟨init, final, hafter⟩
    · rw [hnil] at hmem
      cases hmem
    · rw [hcall, hafter, ← List.append_assoc] at hall
      have hfinal : final = last := by simpa using (List.append_inj' hall rfl).2
      have hrestored := hrestores (e.1, final)
        (Interleaving.mem_proj.mp (by rw [hafter]; simp))
      rw [hfinal, hlast] at hrestored
      cases hrestored

/-- Steps that do not start the count again only add to it. -/
theorem failuresSinceZero_le_append {before after : List TrackerStep}
    (h : ∀ step ∈ after, step.zeroes = false) :
    failuresSinceZero before ≤ failuresSinceZero (before ++ after) := by
  induction after using List.reverseRecOn with
  | nil => rw [List.append_nil]
  | append_singleton after step ih =>
      have hstep : step.zeroes = false := h step (by simp)
      have hrest := ih fun s hs => h s (by simp [hs])
      rw [← List.append_assoc, failuresSinceZero_concat, if_neg (by simp [hstep])]
      split_ifs <;> omega

/-- In a quiescent state an unhealthy address is at its threshold. -/
theorem threshold_le_of_unhealthy {ι : Type} [DecidableEq ι] {failureThreshold : UInt32}
    {address : Str} {calls : ι → HealthCall} {tr : List (ι × TrackerStep)}
    (hquiescent : Quiescent calls tr)
    (h : (runSteps failureThreshold address (tr.map Prod.snd)).isHealthy address = false) :
    failureThreshold.toNat ≤ failuresSinceZero (tr.map Prod.snd) := by
  rcases exists_reaching_failure h with ⟨before, after, hsplit, hafter, hcount⟩
  rw [List.append_cons] at hsplit
  rcases List.map_eq_append_iff.mp hsplit with ⟨trBefore, trAfter, rfl, hbefore, rfl⟩
  have hzeroes := no_zeroes_of_no_restores hquiescent fun e he =>
    hafter e.2 (List.mem_map_of_mem he)
  rw [List.map_append, hbefore]
  refine hcount.trans (failuresSinceZero_le_append ?_)
  intro step hstep
  rcases List.mem_map.mp hstep with ⟨e, he, rfl⟩
  exact hzeroes e he

/-- A success and three failures: the failures come between its two steps. -/
def overlappingCalls : Fin 4 → HealthCall
  | 0 => .recordSuccess
  | _ => .recordFailure

/-- The steps in the order in which they are taken. -/
def overlappingSteps : List (Fin 4 × TrackerStep) :=
  [(0, .insertZero), (1, .recordFailure), (2, .recordFailure), (3, .recordFailure),
    (0, .insertHealthy)]

/-- A success that overlaps with three failures leaves the backend healthy with a
failure count at its threshold. -/
theorem success_hides_failures :
    Quiescent overlappingCalls overlappingSteps ∧
      (overlappingSteps.map Prod.snd).countP TrackerStep.fails < 2 ^ 32 ∧
      ¬((runSteps 3 ['a'] (overlappingSteps.map Prod.snd)).isHealthy ['a'] = false ↔
        3 ≤ (runSteps 3 ['a'] (overlappingSteps.map Prod.snd)).failureCount ['a']) := by
  refine ⟨?_, by decide, by decide⟩
  intro i
  right
  revert i
  decide

/-- In a quiescent state after fewer than 2^32 failures, an address is unhealthy
exactly at its threshold, unless a success or reset restored the status after the
failures that reached the threshold since the count was last started again. -/
theorem maps_agree_iff {ι : Type} [DecidableEq ι] (failureThreshold : UInt32)
    (hpos : 0 < failureThreshold) (address : Str) (calls : ι → HealthCall)
    (tr : List (ι × TrackerStep)) (hquiescent : Quiescent calls tr)
    (hfew : (tr.map Prod.snd).countP TrackerStep.fails < 2 ^ 32) :
    ((runSteps failureThreshold address (tr.map Prod.snd)).isHealthy address = false ↔
        failureThreshold ≤
          (runSteps failureThreshold address (tr.map Prod.snd)).failureCount address) ↔
      ¬RestoredLate failureThreshold (tr.map Prod.snd) := by
  have hle := failuresSinceZero_le (tr.map Prod.snd)
  have hcount : failureThreshold ≤
      (runSteps failureThreshold address (tr.map Prod.snd)).failureCount address ↔
      failureThreshold.toNat ≤ failuresSinceZero (tr.map Prod.snd) := by
    rw [failureCount_runSteps, UInt32.le_iff_toNat_le, UInt32.toNat_ofNat',
      Nat.mod_eq_of_lt (by omega)]
  rw [hcount]
  constructor
  · rintro hagree ⟨hreach, hlate⟩
    have hhealthy := isHealthy_of_restoredLate failureThreshold address hlate
    exact absurd (hhealthy.symm.trans (hagree.mpr hreach)) (by decide)
  · intro hnot
    constructor
    · exact threshold_le_of_unhealthy hquiescent
    · intro hreach
      apply isHealthy_of_not_restoredLate hpos address hfew hreach
      intro step hstep
      by_contra hrestores
      exact hnot ⟨hreach, step, hstep, Bool.not_eq_false _ ▸ hrestores⟩

/-- A success and three failures. -/
def successAndFailures : Fin 4 → HealthCall
  | 0 => .recordSuccess
  | _ => .recordFailure

/-- The first failure comes between the two steps of the success, the others after them. -/
def failureWithinSuccess : List (Fin 4 × TrackerStep) :=
  [(0, .insertZero), (1, .recordFailure), (0, .insertHealthy), (2, .recordFailure),
    (3, .recordFailure)]

/-- Although a failure overlaps with the success, the maps agree: no second step comes
after the failure that reaches the threshold. -/
theorem maps_agree_after_overlap :
    Quiescent successAndFailures failureWithinSuccess ∧
      (runSteps 3 ['a'] (failureWithinSuccess.map Prod.snd)).failureCount ['a'] = 3 ∧
      (runSteps 3 ['a'] (failureWithinSuccess.map Prod.snd)).isHealthy ['a'] = false := by
  have hquiescent : Quiescent successAndFailures failureWithinSuccess := by
    intro i
    right
    revert i
    decide
  have hnot : ¬RestoredLate 3 (failureWithinSuccess.map Prod.snd) := by
    rintro ⟨-, step, hstep, -⟩
    cases hstep
  exact ⟨hquiescent, by decide,
    ((maps_agree_iff 3 (by decide) ['a'] _ _ hquiescent (by decide)).mpr hnot).mpr (by decide)⟩

end HealthTracker

end PingoraProxy
