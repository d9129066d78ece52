import PingoraProxy.Store.RouteStore

/-!
# The store in the middle of a full sync

A reader may see the store after any number of the atomic writes of a full sync.  This
module computes what it sees: the first clear empties the HTTP table, the second the
gRPC table, then the submitted routes appear one by one, and the version comes last.

Main results:

- Theorem {lit}`foldl_take_updateSteps`: the store after some writes of a full sync.
- Theorem {lit}`exists_progress`: every moment of a sequence of full syncs lies in one of
  them, or after the last.
- Theorem {lit}`storeAfter_eq`: the store at that moment.
-/

namespace PingoraProxy

open Foundation

/-- After how many writes of a full sync the map of a kind is cleared. -/
def RouteKind.clearedAfter : RouteKind → Nat
  | http => 1
  | grpc => 2

/-- After how many writes of a full sync the insertions into the map of a kind begin. -/
def RouteKind.insertsAfter (req : UpdateRoutesRequest) : RouteKind → Nat
  | http => 2
  | grpc => 2 + req.httpRoutes.length

namespace RouteStore

/-! ## One full sync -/

/-- The store after the first writes of a full sync. -/
def partialSync (store : RouteStore) (req : UpdateRoutesRequest) (n : Nat) : RouteStore where
  httpRoutes := if n = 0 then store.httpRoutes else httpTable (req.httpRoutes.take (n - 2))
  grpcRoutes := if n ≤ 1 then store.grpcRoutes
    else grpcTable (req.grpcRoutes.take (n - 2 - req.httpRoutes.length))
  version := if n ≤ 2 + req.httpRoutes.length + req.grpcRoutes.length then store.version
    else req.version

/-- The map of a kind in the middle of a full sync. -/
theorem table_partialSync (kind : RouteKind) (store : RouteStore) (req : UpdateRoutesRequest)
    (n : Nat) :
    kind.table (partialSync store req n) =
      if n < kind.clearedAfter then kind.table store
      else ConcurrentMap.tableOf kind.id
        ((kind.submitted req).take (n - kind.insertsAfter req)) := by
  cases kind with
  | http =>
      simp only [RouteKind.clearedAfter, Nat.lt_one_iff]
      rfl
  | grpc =>
      simp only [RouteKind.clearedAfter, Nat.lt_succ_iff, RouteKind.insertsAfter, ← Nat.sub_sub]
      rfl

theorem length_updateSteps (req : UpdateRoutesRequest) :
    (updateSteps req).length = 3 + req.httpRoutes.length + req.grpcRoutes.length := by
  unfold updateSteps
  simp only [List.length_append, List.length_map, List.length_cons, List.length_nil]
  omega

/-- The first writes of a full sync, part by part. -/
theorem take_updateSteps (req : UpdateRoutesRequest) (n : Nat) :
    (updateSteps req).take n =
      [StoreStep.clearHttp, .clearGrpc].take n ++
        (req.httpRoutes.take (n - 2)).map .insertHttp ++
        (req.grpcRoutes.take (n - 2 - req.httpRoutes.length)).map .insertGrpc ++
        [StoreStep.storeVersion req.version].take
          (n - 2 - req.httpRoutes.length - req.grpcRoutes.length) := by
  unfold updateSteps
  rw [List.take_append, List.take_append, List.take_append]
  simp only [List.length_append, List.length_map, List.length_cons, List.length_nil,
    List.map_take, Nat.sub_sub, Nat.reduceAdd, Nat.zero_add]

/-- The part of the first writes of a full sync that acts on one component. -/
theorem filterMap_take_updateSteps {β : Type} (f : StoreStep → Option β)
    (req : UpdateRoutesRequest) (n : Nat) :
    ((updateSteps req).take n).filterMap f =
      ([StoreStep.clearHttp, .clearGrpc].take n).filterMap f ++
        (req.httpRoutes.take (n - 2)).filterMap (fun route => f (.insertHttp route)) ++
        (req.grpcRoutes.take (n - 2 - req.httpRoutes.length)).filterMap
          (fun route => f (.insertGrpc route)) ++
        ([StoreStep.storeVersion req.version].take
          (n - 2 - req.httpRoutes.length - req.grpcRoutes.length)).filterMap f := by
  rw [take_updateSteps]
  simp only [List.filterMap_append, List.filterMap_map, Function.comp_def]

/-- The first writes of a full sync that act on the map of a kind. -/
theorem filterMap_op_take (kind : RouteKind) (req : UpdateRoutesRequest) (n : Nat) :
    ((updateSteps req).take n).filterMap kind.op =
      if n < kind.clearedAfter then []
      else .clear :: ((kind.submitted req).take (n - kind.insertsAfter req)).map .insert := by
  have hversion : ∀ m, ([StoreStep.storeVersion req.version].take m).filterMap kind.op = [] := by
    intro m
    cases kind <;> cases m <;> simp [RouteKind.op, StoreStep.httpOp, StoreStep.grpcOp]
  rw [filterMap_take_updateSteps, hversion]
  cases kind with
  | http =>
      rcases n with _ | _ | n <;>
        simp [RouteKind.op, StoreStep.httpOp, RouteKind.clearedAfter, RouteKind.insertsAfter,
          RouteKind.submitted]
  | grpc =>
      simp only [RouteKind.insertsAfter, ← Nat.sub_sub]
      rcases n with _ | _ | n <;>
        simp [RouteKind.op, StoreStep.grpcOp, List.filterMap_cons, RouteKind.clearedAfter,
          RouteKind.submitted]

/-- The first writes of a full sync that store a version. -/
theorem filterMap_versionOp_take (req : UpdateRoutesRequest) (n : Nat) :
    ((updateSteps req).take n).filterMap StoreStep.versionOp =
      if n ≤ 2 + req.httpRoutes.length + req.grpcRoutes.length then [] else [req.version] := by
  have hclears : ([StoreStep.clearHttp, .clearGrpc].take n).filterMap StoreStep.versionOp =
      [] := by
    rcases n with _ | _ | n <;> simp [StoreStep.versionOp]
  rw [filterMap_take_updateSteps, hclears]
  by_cases hn : n ≤ 2 + req.httpRoutes.length + req.grpcRoutes.length
  · have hzero : n - 2 - req.httpRoutes.length - req.grpcRoutes.length = 0 := by omega
    rw [hzero, if_pos hn]
    simp [StoreStep.versionOp]
  · have hone : [StoreStep.storeVersion req.version].take
        (n - 2 - req.httpRoutes.length - req.grpcRoutes.length) = [.storeVersion req.version] :=
      List.take_of_length_le (by rw [List.length_singleton]; omega)
    rw [hone, if_neg hn]
    simp [StoreStep.versionOp]

/-- The store after the first writes of a full sync. -/
theorem foldl_take_updateSteps (store : RouteStore) (req : UpdateRoutesRequest) (n : Nat) :
    ((updateSteps req).take n).foldl StoreStep.apply store = partialSync store req n := by
  apply RouteStore.ext_table
  · intro kind
    rw [kind.table_foldl, filterMap_op_take, table_partialSync]
    by_cases hn : n < kind.clearedAfter
    · rw [if_pos hn, if_pos hn]
      rfl
    · rw [if_neg hn, if_neg hn, ConcurrentMap.replay_clear, ConcurrentMap.replay_map_insert]
      rfl
  · rw [version_foldl, filterMap_versionOp_take]
    unfold partialSync
    by_cases hn : n ≤ 2 + req.httpRoutes.length + req.grpcRoutes.length
    · rw [if_pos hn, if_pos hn]
      rfl
    · rw [if_neg hn, if_neg hn]
      rfl

/-! ## A sequence of full syncs -/

/-- What a sequence of full syncs leaves: the last configuration, or an empty store. -/
def configured (reqs : List UpdateRoutesRequest) : RouteStore :=
  (reqs.getLast?.map UpdateRoutesRequest.configuration).getD new

/-- The atomic writes of full syncs run one after another. -/
def syncSteps (reqs : List UpdateRoutesRequest) : List StoreStep :=
  reqs.flatMap updateSteps

/-- The store after the first writes of a sequence of full syncs, from an empty store. -/
def storeAfter (reqs : List UpdateRoutesRequest) (p : Nat) : RouteStore :=
  ((syncSteps reqs).take p).foldl StoreStep.apply new

/-- A moment of a sequence of full syncs: the given number of them are complete, and the
given number of writes of the next one are done, none if there is no next one. -/
def Progress (reqs : List UpdateRoutesRequest) (p k n : Nat) : Prop :=
  p = (syncSteps (reqs.take k)).length + n ∧
    ((k = reqs.length ∧ n = 0) ∨ ∃ req, reqs[k]? = some req ∧ n < (updateSteps req).length)

theorem syncSteps_concat (reqs : List UpdateRoutesRequest) (req : UpdateRoutesRequest) :
    syncSteps (reqs ++ [req]) = syncSteps reqs ++ updateSteps req := by
  simp [syncSteps]

theorem configured_concat (reqs : List UpdateRoutesRequest) (req : UpdateRoutesRequest) :
    configured (reqs ++ [req]) = req.configuration := by
  unfold configured
  rw [List.getLast?_concat]
  rfl

/-- Full syncs run to their end leave the last configuration. -/
theorem foldl_syncSteps (reqs : List UpdateRoutesRequest) :
    (syncSteps reqs).foldl StoreStep.apply new = configured reqs := by
  induction reqs using List.reverseRecOn with
  | nil => rfl
  | append_singleton reqs req ih =>
      rw [syncSteps_concat, List.foldl_append, foldl_updateSteps, updateRoutes_snd,
        configured_concat]

/-- Every moment of a sequence of full syncs lies in one of them, or after the last. -/
theorem exists_progress (reqs : List UpdateRoutesRequest) {p : Nat}
    (hp : p ≤ (syncSteps reqs).length) : ∃ k n, Progress reqs p k n := by
  induction reqs using List.reverseRecOn with
  | nil => exact ⟨0, 0, by simpa [syncSteps] using hp, Or.inl ⟨rfl, rfl⟩⟩
  | append_singleton reqs req ih =>
      rw [syncSteps_concat, List.length_append] at hp
      rcases Nat.lt_or_ge p (syncSteps reqs).length with hbefore | hwithin
      · rcases ih hbefore.le with ⟨k, n, hpk, hk⟩
        rcases hk with ⟨rfl, rfl⟩ | ⟨req', hreq', hn⟩
        · rw [List.take_length] at hpk
          omega
        · have hklt : k < reqs.length := (List.getElem?_eq_some_iff.mp hreq').1
          refine ⟨k, n, ?_, Or.inr ⟨req', ?_, hn⟩⟩
          · rw [List.take_append_of_le_length hklt.le]
            exact hpk
          · rw [List.getElem?_append_left hklt]
            exact hreq'
      · rcases Nat.lt_or_ge (p - (syncSteps reqs).length) (updateSteps req).length with hin | hend
        · refine ⟨reqs.length, p - (syncSteps reqs).length, ?_, Or.inr ⟨req, by simp, hin⟩⟩
          rw [List.take_left]
          omega
        · refine ⟨reqs.length + 1, 0, ?_, Or.inl ⟨by simp, rfl⟩⟩
          rw [List.take_of_length_le (by simp), syncSteps_concat, List.length_append]
          omega

/-- The store at a moment of a sequence of full syncs. -/
theorem storeAfter_eq {reqs : List UpdateRoutesRequest} {p k n : Nat}
    (h : Progress reqs p k n) :
    storeAfter reqs p =
      match reqs[k]? with
      | none => configured reqs
      | some req => partialSync (configured (reqs.take k)) req n := by
  rcases h with ⟨hp, hk⟩
  unfold storeAfter
  rcases hk with ⟨rfl, rfl⟩ | ⟨req, hreq, hn⟩
  · rw [List.take_length] at hp
    rw [List.getElem?_eq_none (Nat.le_refl _), List.take_of_length_le (by omega)]
    exact foldl_syncSteps reqs
  · have hklt : k < reqs.length := (List.getElem?_eq_some_iff.mp hreq).1
    have hsplit : syncSteps reqs =
        syncSteps (reqs.take k) ++ (updateSteps req ++ syncSteps (reqs.drop (k + 1))) := by
      have hget : reqs[k] = req := (List.getElem?_eq_some_iff.mp hreq).2
      conv_lhs => rw [← List.take_append_drop k reqs, List.drop_eq_getElem_cons hklt, hget]
      simp [syncSteps]
    rw [hreq, hsplit, hp, List.take_length_add_append, List.take_append_of_le_length hn.le,
      List.foldl_append, foldl_syncSteps]
    exact foldl_take_updateSteps _ req n

end RouteStore

end PingoraProxy
