import PingoraProxy.Proxy.Gateway
import PingoraProxy.Proxy.SearchesInTurn

/-!
# Hooks that overlap

The proxy runs the hooks of many requests at the same time.  Asking for a peer is a call
for a backend, which reads the table and the statuses in steps, and keeps the address
when the call has returned.  A success is recorded by two writes, a failure under one
guard.  Here the gateway takes these steps one by one, in any order across the requests;
the calls for a backend are those of {lit}`RouterCalls`, and routes may be written between
any two steps.

Main results:

- Theorem {lit}`path_calls`: a run of the gateway is a run of its calls for a backend, with
  the writes of the hooks among the writes to the tracker.
- Theorem {lit}`healthTracker_of_path`: the tracker is the replay of what the hooks wrote.
-/

namespace PingoraProxy

open Foundation

/-! ## Requests between and within hooks -/

/-- Where a request stands: between hooks, in the call for a backend of the hook that asks
for a peer, with the outcome of its connection to come, or between the two writes of a
success. -/
inductive HookPhase where
  | idle
  | upstreamPeer (call : Nat)
  | connecting
  | connectedToUpstream
deriving DecidableEq

/-- A request: its context and where it stands. -/
structure HookedRequest where
  ctx : GatewayCtx
  phase : HookPhase

/-- The gateway with its calls for a backend and its requests. -/
structure GatewayCalls where
  calls : RouterCalls
  requests : Nat → Option HookedRequest

/-- The steps of the hooks: a request asks for a peer, the call for a backend goes on or
routes are written, the peer is created, a success is recorded by its two writes, a
failure is recorded, or the request ends. -/
inductive HookStep where
  | upstreamPeer (id call : Nat) (hostHeader authority : Option Str) (path : Str)
  | routerStep (e : RouterStep)
  | backendToPeer (id : Nat)
  | connectedToUpstream (id : Nat)
  | insertHealthy (id : Nat)
  | failToConnect (id : Nat)
  | finish (id : Nat)

/-- Whether a step is one of a call under way or a write of a route; calls begin and the
tracker is written in the steps of the hooks only. -/
def RouterStep.isFree : RouterStep → Bool
  | .findBackend .. | .trackerStep .. => false
  | _ => true

/-- The write to the tracker that a step is, with its address. -/
def RouterStep.trackerWrite : RouterStep → Option (Str × TrackerStep)
  | .trackerStep address step => some (address, step)
  | _ => none

namespace GatewayCalls

variable (lc : Lowercasing) (shardOf : Str → Nat) (shards : Nat) {Addr : Type}
  (parse : Str → Except Str Addr)

/-- A gateway without routes and requests, with a new tracker. -/
def new (failureThreshold : UInt32) : GatewayCalls where
  calls := ⟨.new .new (.new failureThreshold), fun _ => none⟩
  requests := fun _ => none

/-- The context of a request; a request not in flight gets a new one. -/
def ctxOf (s : GatewayCalls) (id : Nat) : GatewayCtx :=
  ((s.requests id).map HookedRequest.ctx).getD .default

/-- What a request does when its call has returned: without a backend it ends with a 404,
and with one its address is kept before the peer is created. -/
def peerOf (calls : RouterCalls) (request : HookedRequest) : HookedRequest :=
  match request.phase with
  | .upstreamPeer call =>
      match (calls.searches call).map Search.phase with
      | some (.returned none) => { request with phase := .idle }
      | some (.returned (some backend)) =>
          { ctx := { request.ctx with backendAddress := some backend.address }
            phase := if (backendToPeer parse backend).isOk then .connecting else .idle }
      | _ => request
  | _ => request

/-- The step of the calls for a backend, or the write to the tracker, that a step is. -/
def routerStep (s : GatewayCalls) : HookStep → Option RouterStep
  | .upstreamPeer _ call hostHeader authority path =>
      some (.findBackend call (extractHostForRouting hostHeader authority) path)
  | .routerStep e => some e
  | .connectedToUpstream id =>
      (s.ctxOf id).backendAddress.map fun address => .trackerStep address .insertZero
  | .insertHealthy id =>
      (s.ctxOf id).backendAddress.map fun address => .trackerStep address .insertHealthy
  | .failToConnect id =>
      (s.ctxOf id).backendAddress.map fun address => .trackerStep address .recordFailure
  | .backendToPeer _ | .finish _ => none

/-- The requests after a step. -/
def requestsAfter (s : GatewayCalls) : HookStep → Nat → Option HookedRequest
  | .upstreamPeer id call _ _ _ =>
      Function.update s.requests id (some ⟨s.ctxOf id, .upstreamPeer call⟩)
  | .routerStep _ => s.requests
  | .backendToPeer id =>
      Function.update s.requests id ((s.requests id).map (peerOf parse s.calls))
  | .connectedToUpstream id =>
      Function.update s.requests id (some ⟨s.ctxOf id, .connectedToUpstream⟩)
  | .insertHealthy id | .failToConnect id =>
      Function.update s.requests id (some ⟨s.ctxOf id, .idle⟩)
  | .finish id => Function.update s.requests id none

/-- The state a step leads to. -/
def next (s : GatewayCalls) (e : HookStep) : GatewayCalls where
  calls := (s.routerStep e).elim s.calls (s.calls.next lc)
  requests := requestsAfter parse s e

/-- The phase of a request in flight. -/
def phaseOf (s : GatewayCalls) (id : Nat) : Option HookPhase :=
  (s.requests id).map HookedRequest.phase

/-- The steps a state allows: a request takes the steps of its hooks in program order, its
call for a backend is a new one, and only an attempt under way has an outcome. -/
def enabled (s : GatewayCalls) : HookStep → Prop
  | .upstreamPeer id call _ _ _ => s.calls.searches call = none ∧
      (s.phaseOf id = none ∨ s.phaseOf id = some .idle)
  | .routerStep e => e.isFree = true ∧ s.calls.enabled shardOf shards e
  | .backendToPeer id => ∃ call host path result, s.phaseOf id = some (.upstreamPeer call) ∧
      s.calls.searches call = some ⟨host, path, .returned result⟩
  | .connectedToUpstream id | .failToConnect id => s.phaseOf id = some .connecting
  | .insertHealthy id => s.phaseOf id = some .connectedToUpstream
  | .finish id => s.phaseOf id = some .idle ∨ s.phaseOf id = some .connecting

instance : ∀ s e, Decidable (enabled shardOf shards s e)
  | s, .upstreamPeer id call _ _ _ =>
      decidable_of_iff ((s.calls.searches call).isNone = true ∧
        (s.phaseOf id = none ∨ s.phaseOf id = some .idle)) (by simp [enabled])
  | s, .routerStep e =>
      inferInstanceAs (Decidable (e.isFree = true ∧ s.calls.enabled shardOf shards e))
  | s, .backendToPeer id =>
      match h : s.phaseOf id with
      | some (.upstreamPeer call) =>
          match hsearch : s.calls.searches call with
          | some ⟨_, _, .returned _⟩ => isTrue ⟨call, _, _, _, h, hsearch⟩
          | some ⟨_, _, .getHttpRoutes ..⟩ | some ⟨_, _, .next ..⟩ | none =>
              isFalse (by simp [enabled, h, hsearch])
      | some .idle | some .connecting | some .connectedToUpstream | none =>
          isFalse (by simp [enabled, h])
  | s, .connectedToUpstream id => inferInstanceAs (Decidable (s.phaseOf id = some .connecting))
  | s, .failToConnect id => inferInstanceAs (Decidable (s.phaseOf id = some .connecting))
  | s, .insertHealthy id =>
      inferInstanceAs (Decidable (s.phaseOf id = some .connectedToUpstream))
  | s, .finish id =>
      inferInstanceAs (Decidable (s.phaseOf id = some .idle ∨ s.phaseOf id = some .connecting))

/-- The gateway, started with the given failure threshold. -/
def system (failureThreshold : UInt32) : TransitionSystem GatewayCalls HookStep where
  init := new failureThreshold
  enabled := enabled shardOf shards
  next := next lc parse

instance (failureThreshold : UInt32) (s : GatewayCalls) (e : HookStep) :
    Decidable ((system lc shardOf shards parse failureThreshold).enabled s e) :=
  inferInstanceAs (Decidable (enabled shardOf shards s e))

/-- Whether the tracker has an address as healthy. -/
def isHealthy (s : GatewayCalls) (address : Str) : Bool :=
  s.calls.isHealthy address

/-! ## The calls for a backend in a run -/

/-- What a step writes to the tracker. -/
def write (s : GatewayCalls) (e : HookStep) : Option (Str × TrackerStep) :=
  (s.routerStep e).bind RouterStep.trackerWrite

/-- What the hooks of a run write to the tracker, in order. -/
def written (failureThreshold : UInt32) (s : GatewayCalls) (es : List HookStep) :
    List (Str × TrackerStep) :=
  (system lc shardOf shards parse failureThreshold).emitted write s es

variable {lc shardOf shards parse} {failureThreshold : UInt32}

/-- The calls for a backend take the step, or the write, that a step is. -/
theorem calls_next {s : GatewayCalls} {e : HookStep} {e' : RouterStep}
    (h : s.routerStep e = some e') : (next lc parse s e).calls = s.calls.next lc e' := by
  unfold next
  dsimp only
  rw [h]
  rfl

/-- Other steps leave the calls for a backend. -/
theorem calls_next_of_none {s : GatewayCalls} {e : HookStep} (h : s.routerStep e = none) :
    (next lc parse s e).calls = s.calls := by
  unfold next
  dsimp only
  rw [h]
  rfl

/-- The step of a call for a backend, or the write, that an enabled step is, is enabled. -/
theorem enabled_routerStep {s : GatewayCalls} {e : HookStep} {e' : RouterStep}
    (henabled : enabled shardOf shards s e) (h : s.routerStep e = some e') :
    s.calls.enabled shardOf shards e' := by
  cases e with
  | upstreamPeer id call hostHeader authority path =>
      cases h
      exact henabled.1
  | routerStep e =>
      cases h
      exact henabled.2
  | connectedToUpstream id | insertHealthy id | failToConnect id =>
      rcases Option.map_eq_some_iff.mp h with ⟨address, -, rfl⟩
      exact trivial
  | backendToPeer id | finish id => cases h

/-- A run of the gateway is a run of its calls for a backend, with the writes of the hooks
among the writes to the tracker. -/
theorem path_calls {s t : GatewayCalls} {es : List HookStep} (router : Router)
    (h : (system lc shardOf shards parse failureThreshold).Path s es t) :
    (RouterCalls.system lc shardOf shards router).Path s.calls
      ((system lc shardOf shards parse failureThreshold).emitted routerStep s es) t.calls :=
  h.project calls routerStep (fun _ _ _ hnone => calls_next_of_none hnone)
    fun _ _ _ henabled hsome => ⟨enabled_routerStep henabled hsome, calls_next hsome⟩

/-- A step of a call for a backend leaves the tracker; a write to it takes effect. -/
theorem healthTracker_of_routerStep (s : RouterCalls) (e : RouterStep) :
    (s.next lc e).router.healthTracker =
      e.trackerWrite.toList.foldl (fun tracker w => w.2.apply w.1 tracker)
        s.router.healthTracker := by
  cases e <;> rfl

/-- A step changes the tracker by what it writes. -/
theorem healthTracker_next (s : GatewayCalls) (e : HookStep) :
    (next lc parse s e).calls.router.healthTracker =
      (s.write e).toList.foldl (fun tracker w => w.2.apply w.1 tracker)
        s.calls.router.healthTracker := by
  unfold write
  cases hstep : s.routerStep e with
  | none => rw [calls_next_of_none hstep]; rfl
  | some e' => rw [calls_next hstep, healthTracker_of_routerStep]; rfl

/-- The tracker is the replay of what the hooks wrote. -/
theorem healthTracker_of_path {t : GatewayCalls} {es : List HookStep}
    (h : (system lc shardOf shards parse failureThreshold).Path (new failureThreshold) es t) :
    t.calls.router.healthTracker = HealthTracker.replayWrites failureThreshold
      (written lc shardOf shards parse failureThreshold (new failureThreshold) es) :=
  h.component_eq (fun s => s.calls.router.healthTracker) (fun tracker w => w.2.apply w.1 tracker)
    write fun s e _ => healthTracker_next s e

/-! ## Single steps -/

/-- What a step writes is written by a hook, under the address its request keeps. -/
theorem write_cases {s : GatewayCalls} {e : HookStep} {address : Str} {step : TrackerStep}
    (henabled : enabled shardOf shards s e) (h : s.write e = some (address, step)) :
    ∃ id, (s.ctxOf id).backendAddress = some address ∧
      (e = .connectedToUpstream id ∧ step = .insertZero ∨
        e = .insertHealthy id ∧ step = .insertHealthy ∨
          e = .failToConnect id ∧ step = .recordFailure) := by
  rcases Option.bind_eq_some_iff.mp h with ⟨e', he', hwrite⟩
  cases e with
  | upstreamPeer id call hostHeader authority path =>
      cases he'
      cases hwrite
  | routerStep e =>
      cases he'
      have hfree := henabled.1
      cases e' with
      | trackerStep => cases hfree
      | findBackend | readShard | bestMatch | isHealthy | fetchAdd | insertRoute | removeRoute =>
          cases hwrite
  | connectedToUpstream id =>
      rcases Option.map_eq_some_iff.mp he' with ⟨held, hheld, rfl⟩
      cases hwrite
      exact ⟨id, hheld, Or.inl ⟨rfl, rfl⟩⟩
  | insertHealthy id =>
      rcases Option.map_eq_some_iff.mp he' with ⟨held, hheld, rfl⟩
      cases hwrite
      exact ⟨id, hheld, Or.inr (Or.inl ⟨rfl, rfl⟩)⟩
  | failToConnect id =>
      rcases Option.map_eq_some_iff.mp he' with ⟨held, hheld, rfl⟩
      cases hwrite
      exact ⟨id, hheld, Or.inr (Or.inr ⟨rfl, rfl⟩)⟩
  | backendToPeer id | finish id => cases he'

/-- The request a step moves; steps of calls for a backend and writes move none. -/
def request : HookStep → Option Nat
  | .upstreamPeer id .. | .backendToPeer id | .connectedToUpstream id | .insertHealthy id
  | .failToConnect id | .finish id => some id
  | .routerStep _ => none

/-- Only the request of a step is moved by it. -/
theorem requests_next_of_ne {e : HookStep} {other : Nat} (h : request e ≠ some other)
    (s : GatewayCalls) : (next lc parse s e).requests other = s.requests other := by
  cases e with
  | routerStep e => rfl
  | upstreamPeer id | backendToPeer id | connectedToUpstream id | insertHealthy id
  | failToConnect id | finish id =>
      have hne : other ≠ id := fun hsame => h (congrArg some hsame.symm)
      exact Function.update_of_ne hne _ _

/-- What a step makes of a request in flight. -/
theorem requests_next_cases {s : GatewayCalls} {e : HookStep} {id : Nat} {after : HookedRequest}
    (h : (next lc parse s e).requests id = some after) :
    s.requests id = some after ∨
      (∃ call hostHeader authority path, e = .upstreamPeer id call hostHeader authority path ∧
        after = ⟨s.ctxOf id, .upstreamPeer call⟩) ∨
      (∃ before, e = .backendToPeer id ∧ s.requests id = some before ∧
        after = peerOf parse s.calls before) ∨
      (e = .connectedToUpstream id ∧ after = ⟨s.ctxOf id, .connectedToUpstream⟩) ∨
      ((e = .insertHealthy id ∨ e = .failToConnect id) ∧ after = ⟨s.ctxOf id, .idle⟩) := by
  by_cases hother : request e = some id
  · right
    cases e with
    | routerStep e => cases hother
    | upstreamPeer other call hostHeader authority path =>
        cases hother
        simp only [next, requestsAfter, Function.update_self, Option.some.injEq] at h
        exact Or.inl ⟨call, hostHeader, authority, path, rfl, h.symm⟩
    | backendToPeer other =>
        cases hother
        simp only [next, requestsAfter, Function.update_self] at h
        rcases Option.map_eq_some_iff.mp h with ⟨before, hbefore, hafter⟩
        exact Or.inr (Or.inl ⟨before, rfl, hbefore, hafter.symm⟩)
    | connectedToUpstream other =>
        cases hother
        simp only [next, requestsAfter, Function.update_self, Option.some.injEq] at h
        exact Or.inr (Or.inr (Or.inl ⟨rfl, h.symm⟩))
    | insertHealthy other =>
        cases hother
        simp only [next, requestsAfter, Function.update_self, Option.some.injEq] at h
        exact Or.inr (Or.inr (Or.inr ⟨Or.inl rfl, h.symm⟩))
    | failToConnect other =>
        cases hother
        simp only [next, requestsAfter, Function.update_self, Option.some.injEq] at h
        exact Or.inr (Or.inr (Or.inr ⟨Or.inr rfl, h.symm⟩))
    | finish other =>
        cases hother
        simp only [next, requestsAfter, Function.update_self] at h
        cases h
  · rw [requests_next_of_ne hother] at h
    exact Or.inl h

/-- A request whose call has returned ends with its context as it was, or keeps the
address of the backend that the call has returned. -/
theorem peerOf_cases {s : GatewayCalls} {id : Nat} {before : HookedRequest}
    (henabled : enabled shardOf shards s (.backendToPeer id))
    (hbefore : s.requests id = some before) :
    peerOf parse s.calls before = ⟨before.ctx, .idle⟩ ∨
      ∃ call host path backend, before.phase = .upstreamPeer call ∧
        s.calls.searches call = some ⟨host, path, .returned (some backend)⟩ ∧
        (peerOf parse s.calls before).ctx.backendAddress = some backend.address ∧
        ((peerOf parse s.calls before).phase = .connecting ∨
          (peerOf parse s.calls before).phase = .idle) := by
  rcases henabled with ⟨call, host, path, result, hphase, hsearch⟩
  have hcall : before.phase = .upstreamPeer call := by
    rw [phaseOf, hbefore] at hphase
    exact Option.some.inj hphase
  unfold peerOf
  rw [hcall]
  dsimp only
  rw [hsearch]
  cases result with
  | none => exact Or.inl rfl
  | some backend =>
      refine Or.inr ⟨call, host, path, backend, rfl, hsearch, rfl, ?_⟩
      cases hpeer : (backendToPeer parse backend).isOk with
      | true => exact Or.inl (if_pos hpeer)
      | false => exact Or.inr (if_neg (Bool.eq_false_iff.mp hpeer))

end GatewayCalls

end PingoraProxy
