import Mathlib.Data.Fintype.Basic
import PingoraProxy.Foundation.RefillRace
import PingoraProxy.Store.RouteStore

/-!
# Concurrent full syncs

Nothing keeps two full syncs apart: their clears, insertions and version writes may
interleave.  Each component of the store ends as its own last writes leave it.

Main results:

- Theorem {lit}`table_exec`: a table depends only on the interleaving of the writes to it.
- Theorem {lit}`exec_eq_configuration_iff`: the store ends as one call's configuration
  exactly when that call prevails in all three components.
- Theorem {lit}`interleaved_syncs_mix`: two interleaved syncs may leave the routes of
  both.
- Theorem {lit}`syncs_agree_iff`: two syncs agree on one configuration exactly when one
  of them prevails.
-/

namespace PingoraProxy

open Foundation Foundation.Interleaving

namespace RouteStore

variable {ι : Type}

/-- The map of a kind depends only on the interleaving of the writes to it. -/
theorem table_exec (kind : RouteKind) (store : RouteStore) (tr : List (ι × StoreStep)) :
    kind.table (exec StoreStep.apply store tr) =
      ConcurrentMap.replay kind.id (kind.table store) ((restrict kind.op tr).map Prod.snd) := by
  rw [map_snd_restrict]
  exact kind.table_foldl store _

variable [DecidableEq ι]

/-- A trace that runs every given full sync to its end, in any order of their writes. -/
def SyncsInterleave (reqs : ι → UpdateRoutesRequest) (tr : List (ι × StoreStep)) : Prop :=
  Interleaves (fun i => updateSteps (reqs i)) tr

/-- The call that stores its version last. -/
def lastVersionWriter (tr : List (ι × StoreStep)) : Option ι :=
  (restrict StoreStep.versionOp tr).getLast?.map Prod.fst

/-- A call prevails in a trace: for every identifier the last write touching it in a
map is the call's own or leaves what the call submits, and its version is stored last.
The call's own write always leaves what it submits, as {lit}`RefillRace.settledBy_iff`
says. -/
def Prevails (reqs : ι → UpdateRoutesRequest) (x : ι) (tr : List (ι × StoreStep)) : Prop :=
  (∀ id, RefillRace.SettledBy HttpRoute.id (fun i => (reqs i).httpRoutes) x id
    (restrict StoreStep.httpOp tr)) ∧
  (∀ id, RefillRace.SettledBy GrpcRoute.id (fun i => (reqs i).grpcRoutes) x id
    (restrict StoreStep.grpcOp tr)) ∧
  lastVersionWriter tr = some x

/-! ## The components of the store -/

/-- The writes of the calls to the map of a kind interleave. -/
theorem SyncsInterleave.ofKind {reqs : ι → UpdateRoutesRequest} {tr : List (ι × StoreStep)}
    (h : SyncsInterleave reqs tr) (kind : RouteKind) :
    Interleaves (fun i => RefillRace.refill (kind.submitted (reqs i))) (restrict kind.op tr) := by
  have hrestrict := Interleaves.restrict h kind.op
  simp only [RouteKind.filterMap_op_updateSteps] at hrestrict
  exact hrestrict

/-- The version writes of the calls interleave. -/
theorem SyncsInterleave.version {reqs : ι → UpdateRoutesRequest} {tr : List (ι × StoreStep)}
    (h : SyncsInterleave reqs tr) :
    Interleaves (fun i => [(reqs i).version]) (restrict StoreStep.versionOp tr) := by
  have hrestrict := Interleaves.restrict h StoreStep.versionOp
  simp only [filterMap_versionOp_updateSteps] at hrestrict
  exact hrestrict

/-- The version is that of the call that stores its version last. -/
theorem version_exec {reqs : ι → UpdateRoutesRequest} {tr : List (ι × StoreStep)}
    (h : SyncsInterleave reqs tr) (store : RouteStore) {x : ι}
    (hlast : lastVersionWriter tr = some x) :
    (exec StoreStep.apply store tr).version = (reqs x).version := by
  rcases Option.map_eq_some_iff.mp hlast with ⟨⟨y, v⟩, hget, hxy⟩
  have hmem : v ∈ proj y (restrict StoreStep.versionOp tr) :=
    mem_proj.mpr (List.mem_of_getLast? hget)
  rw [h.version y, List.mem_singleton] at hmem
  have hversion : (exec StoreStep.apply store tr).version =
      (((restrict StoreStep.versionOp tr).map Prod.snd).getLast?).getD store.version := by
    rw [map_snd_restrict]
    exact version_foldl store _
  rw [hversion, List.getLast?_map, hget, hmem]
  exact congrArg (fun i => (reqs i).version) hxy

/-- Some call stores its version last. -/
theorem exists_lastVersionWriter {reqs : ι → UpdateRoutesRequest} {tr : List (ι × StoreStep)}
    (h : SyncsInterleave reqs tr) (x : ι) : ∃ y, lastVersionWriter tr = some y := by
  have hmem : (x, (reqs x).version) ∈ restrict StoreStep.versionOp tr := by
    rw [← mem_proj, h.version x]
    exact List.mem_singleton_self _
  unfold lastVersionWriter
  rw [List.getLast?_eq_some_getLast (List.ne_nil_of_mem hmem)]
  exact ⟨_, rfl⟩

/-! ## Agreement -/

/-- The store ends as one call's configuration exactly when that call prevails. -/
theorem exec_eq_configuration_iff {reqs : ι → UpdateRoutesRequest} {tr : List (ι × StoreStep)}
    (h : SyncsInterleave reqs tr) (hversions : Function.Injective fun i => (reqs i).version)
    (store : RouteStore) (x : ι) :
    exec StoreStep.apply store tr = (reqs x).configuration ↔ Prevails reqs x tr := by
  have htable : ∀ kind : RouteKind,
      kind.table (exec StoreStep.apply store tr) = kind.table (reqs x).configuration ↔
        ∀ id, RefillRace.SettledBy kind.id (fun i => kind.submitted (reqs i)) x id
          (restrict kind.op tr) := by
    intro kind
    rw [table_exec, kind.table_configuration]
    exact RefillRace.replay_eq_tableOf_iff kind.id (h.ofKind kind) _ x
  constructor
  · intro heq
    refine ⟨(htable .http).mp (congrArg httpRoutes heq),
      (htable .grpc).mp (congrArg grpcRoutes heq), ?_⟩
    rcases exists_lastVersionWriter h x with ⟨y, hy⟩
    have hsame : (reqs y).version = (reqs x).version :=
      (version_exec h store hy).symm.trans (congrArg version heq)
    rw [hy, hversions hsame]
  · rintro ⟨hhttp, hgrpc, hversion⟩
    apply RouteStore.ext
    · exact (htable .http).mpr hhttp
    · exact (htable .grpc).mpr hgrpc
    · exact version_exec h store hversion

/-- Two requests, told apart by a flag. -/
def pairOf (a b : UpdateRoutesRequest) (first : Bool) : UpdateRoutesRequest :=
  if first then a else b

/-- Both calls clear the maps before either inserts. -/
def clearsFirst : List (Bool × StoreStep) :=
  [(true, .clearHttp), (true, .clearGrpc), (false, .clearHttp), (false, .clearGrpc),
    (true, .insertHttp (makeRoute "a" [] [])), (false, .insertHttp (makeRoute "b" [] [])),
    (true, .storeVersion 1), (false, .storeVersion 2)]

/-- Two interleaved syncs leave the routes of both. -/
theorem interleaved_syncs_mix :
    (versioned 1 "a").version ≠ (versioned 2 "b").version ∧
      SyncsInterleave (pairOf (versioned 1 "a") (versioned 2 "b")) clearsFirst ∧
      ¬(exec StoreStep.apply new clearsFirst = (versioned 1 "a").configuration ∨
        exec StoreStep.apply new clearsFirst = (versioned 2 "b").configuration) := by
  refine ⟨by decide, ?_, ?_⟩
  · intro i
    revert i
    decide
  · rintro (heq | heq)
    · have hlookup := congrArg (fun store => store.httpRoutes.lookup ['b']) heq
      revert hlookup
      decide
    · have hlookup := congrArg (fun store => store.httpRoutes.lookup ['a']) heq
      revert hlookup
      decide

/-- Two full syncs with distinct versions agree on one configuration exactly when one
of them prevails in the HTTP map, the gRPC map and the version at once. -/
theorem syncs_agree_iff (a b : UpdateRoutesRequest) (hversions : a.version ≠ b.version)
    (store : RouteStore) (tr : List (Bool × StoreStep))
    (h : SyncsInterleave (pairOf a b) tr) :
    (exec StoreStep.apply store tr = a.configuration ∨
        exec StoreStep.apply store tr = b.configuration) ↔
      ∃ x, Prevails (pairOf a b) x tr := by
  have hinjective : Function.Injective fun i => (pairOf a b i).version := by
    intro i j hij
    cases i <;> cases j
    · rfl
    · exact absurd hij.symm hversions
    · exact absurd hij hversions
    · rfl
  have hconfiguration := exec_eq_configuration_iff h hinjective store
  constructor
  · rintro (ha | hb)
    · exact ⟨true, (hconfiguration true).mp ha⟩
    · exact ⟨false, (hconfiguration false).mp hb⟩
  · rintro ⟨x, hx⟩
    cases x with
    | true => exact Or.inl ((hconfiguration true).mpr hx)
    | false => exact Or.inr ((hconfiguration false).mpr hx)

/-- The second call clears the maps after the insertion of the first, and stores its
version last. -/
def secondPrevails : List (Bool × StoreStep) :=
  [(true, .clearHttp), (true, .clearGrpc), (true, .insertHttp (makeRoute "a" [] [])),
    (false, .clearHttp), (false, .clearGrpc), (true, .storeVersion 1),
    (false, .insertHttp (makeRoute "b" [] [])), (false, .storeVersion 2)]

/-- Although the calls overlap, the store ends as the second one's configuration, so one
of them prevails. -/
theorem syncs_agree_iff_secondPrevails :
    SyncsInterleave (pairOf (versioned 1 "a") (versioned 2 "b")) secondPrevails ∧
      exec StoreStep.apply new secondPrevails = (versioned 2 "b").configuration ∧
      ∃ x, Prevails (pairOf (versioned 1 "a") (versioned 2 "b")) x secondPrevails := by
  have h : SyncsInterleave (pairOf (versioned 1 "a") (versioned 2 "b")) secondPrevails := by
    intro i
    revert i
    decide
  have hexec : exec StoreStep.apply new secondPrevails = (versioned 2 "b").configuration := rfl
  exact ⟨h, hexec, (syncs_agree_iff _ _ (by decide) new secondPrevails h).mp (Or.inr hexec)⟩

end RouteStore

end PingoraProxy
