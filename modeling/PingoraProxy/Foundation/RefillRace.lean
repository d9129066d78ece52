import PingoraProxy.Foundation.ConcurrentMap
import PingoraProxy.Foundation.History
import PingoraProxy.Foundation.Interleaving

/-!
# Processes that clear and refill one map

Several processes each clear a concurrent map and then insert their own values.  In
an interleaving, what a key holds in the end is decided by the last write that
touches it.

Main results:

- Theorem {lit}`written_of_own`: when the last write touching a key is a process's
  own, the key ends as that process would leave it alone.
- Theorem {lit}`settledBy_iff`: when a process settles a key.
- Theorem {lit}`replay_eq_tableOf_iff`: the map ends as one process's table exactly
  when the last write touching each key is that process's or leaves the same.
- Theorem {lit}`replay_eq_insertAll`: at any moment the map holds what was inserted
  since the last clear, and what it held at first only when nothing cleared it.
- Theorem {lit}`mem_replay_of_lastClearer`: the process that clears last leaves all its
  keys in the map.
-/

namespace Foundation
namespace RefillRace

open ConcurrentMap Interleaving

variable {ι K V : Type*} [DecidableEq K] (key : V → K)

/-- The writes of a process: clear the map, then insert the values. -/
def refill (vs : List V) : List (MapOp V) :=
  .clear :: vs.map .insert

/-- The last write of a trace that touches a key, with its process. -/
def lastTouch (k : K) (tr : List (ι × MapOp V)) : Option (ι × MapOp V) :=
  tr.reverse.find? fun e => e.2.touches key k

/-- The last write touching a key is the given process's own, or leaves there what the
process itself would leave.  When the processes run to their end the first case is
contained in the second, see {lit}`settledBy_iff`. -/
def SettledBy (vals : ι → List V) (x : ι) (k : K) (tr : List (ι × MapOp V)) : Prop :=
  ∀ e, lastTouch key k tr = some e → e.1 = x ∨ e.2.written = lastWith key (vals x) k

/-- After the last write touching it a key holds what that write left. -/
theorem lookup_replay_lastTouch {m : ConcurrentMap K V} {k : K} {tr : List (ι × MapOp V)}
    {e : ι × MapOp V} (h : lastTouch key k tr = some e) :
    (replay key m (tr.map Prod.snd)).lookup k = e.2.written := by
  rcases lastStep_eq_some h with ⟨before, after, rfl, htouch, hafter⟩
  rw [List.map_append, List.map_cons]
  apply lookup_replay_of_last key htouch
  intro op hop
  rcases List.mem_map.mp hop with ⟨e', he', rfl⟩
  exact hafter e' he'

/-- Values whose insertions do not touch a key do not carry it. -/
theorem lastWith_eq_none_of_untouched {vs : List V} {k : K}
    (h : ∀ v ∈ vs, (MapOp.insert v).touches key k = false) : lastWith key vs k = none := by
  rw [lastWith_eq_none_iff, List.mem_map]
  rintro ⟨v, hv, hkey⟩
  have hnot := h v hv
  simp [MapOp.touches, hkey] at hnot

variable [DecidableEq ι]

/-- Every process clears the map. -/
theorem clear_mem {vals : ι → List V} {tr : List (ι × MapOp V)}
    (h : Interleaves (fun i => refill (vals i)) tr) (x : ι) : (x, MapOp.clear) ∈ tr := by
  rw [← mem_proj, h x]
  exact List.mem_cons_self

/-- In the trace of a process that clears the map some write touches every key. -/
theorem exists_lastTouch {vals : ι → List V} {tr : List (ι × MapOp V)}
    (h : Interleaves (fun i => refill (vals i)) tr) (x : ι) (k : K) :
    ∃ e, lastTouch key k tr = some e :=
  exists_lastStep (clear_mem h x) rfl

/-- A process clears the map once, before all of its insertions. -/
theorem proj_after_clear {vals : ι → List V} {before after : List (ι × MapOp V)} {x : ι}
    (h : Interleaves (fun i => refill (vals i)) (before ++ (x, .clear) :: after)) :
    proj x after = (vals x).map .insert := by
  have hproj : proj x before ++ .clear :: proj x after = .clear :: (vals x).map .insert := by
    rw [← proj_cons_self, ← proj_append]
    exact h x
  cases hbefore : proj x before with
  | nil =>
      rw [hbefore, List.nil_append, List.cons.injEq] at hproj
      exact hproj.2
  | cons first rest =>
      -- a second clear would stand among the insertions
      rw [hbefore, List.cons_append, List.cons.injEq] at hproj
      have hclear : MapOp.clear ∈ (vals x).map MapOp.insert := by
        rw [← hproj.2]
        simp
      simp at hclear

/-- After inserting a value a process inserts the rest of its values. -/
theorem proj_after_insert {vals : ι → List V} {before after : List (ι × MapOp V)} {x : ι}
    {v : V} (h : Interleaves (fun i => refill (vals i)) (before ++ (x, .insert v) :: after)) :
    ∃ vs ws, vals x = vs ++ v :: ws ∧ proj x after = ws.map .insert := by
  have hproj : proj x before ++ .insert v :: proj x after = .clear :: (vals x).map .insert := by
    rw [← proj_cons_self, ← proj_append]
    exact h x
  cases hbefore : proj x before with
  | nil =>
      -- the program begins with the clear
      rw [hbefore] at hproj
      cases hproj
  | cons first rest =>
      rw [hbefore, List.cons_append, List.cons.injEq] at hproj
      rcases List.map_eq_append_iff.mp hproj.2.symm with ⟨vs, ws, hvals, -, hws⟩
      rcases List.map_eq_cons_iff.mp hws with ⟨w, ws', rfl, hw, hws'⟩
      rw [← MapOp.insert.inj hw]
      exact ⟨vs, ws', hvals, hws'.symm⟩

/-- When the last write touching a key is a process's own, the key ends as that process
would leave it alone. -/
theorem written_of_own {vals : ι → List V} {before after : List (ι × MapOp V)} {x : ι}
    {op : MapOp V} {k : K} (h : Interleaves (fun i => refill (vals i)) (before ++ (x, op) :: after))
    (htouch : op.touches key k = true) (hafter : ∀ e ∈ after, e.2.touches key k = false) :
    op.written = lastWith key (vals x) k := by
  have hrest : ∀ op' ∈ proj x after, op'.touches key k = false := by
    intro op' hop'
    exact hafter _ (mem_proj.mp hop')
  cases op with
  | clear =>
      -- every value of the process comes after the clear
      rw [proj_after_clear h] at hrest
      exact (lastWith_eq_none_of_untouched key fun v hv =>
        hrest _ (List.mem_map_of_mem hv)).symm
  | insert v =>
      rcases proj_after_insert h with ⟨vs, ws, hvals, hws⟩
      rw [hws] at hrest
      have hkey : key v = k := of_decide_eq_true htouch
      have hlast : lastWith key ws k = none :=
        lastWith_eq_none_of_untouched key fun w hw => hrest _ (List.mem_map_of_mem hw)
      rw [hvals, lastWith_append, lastWith_cons, hlast, if_pos hkey]
      rfl

/-- A process settles a key exactly when the last write touching it leaves there what the
process would leave alone: its own last write does. -/
theorem settledBy_iff {vals : ι → List V} {tr : List (ι × MapOp V)}
    (h : Interleaves (fun i => refill (vals i)) tr) (x : ι) (k : K) :
    SettledBy key vals x k tr ↔
      ∀ e, lastTouch key k tr = some e → e.2.written = lastWith key (vals x) k := by
  constructor
  · intro hsettled e he
    rcases hsettled e he with rfl | hsame
    · rcases lastStep_eq_some he with ⟨before, after, rfl, htouch, hafter⟩
      exact written_of_own key h htouch hafter
    · exact hsame
  · intro hsame e he
    exact Or.inr (hsame e he)

/-- A key ends as in one process's table exactly when it is settled by that process. -/
theorem lookup_replay_iff {vals : ι → List V} {tr : List (ι × MapOp V)}
    (h : Interleaves (fun i => refill (vals i)) tr) (m : ConcurrentMap K V) (x : ι) (k : K) :
    (replay key m (tr.map Prod.snd)).lookup k = (tableOf key (vals x)).lookup k ↔
      SettledBy key vals x k tr := by
  rw [lookup_tableOf, settledBy_iff key h]
  constructor
  · intro heq e he
    rwa [lookup_replay_lastTouch key he] at heq
  · intro hsame
    rcases exists_lastTouch key h x k with ⟨e, he⟩
    rw [lookup_replay_lastTouch key he]
    exact hsame e he

/-- The map ends as one process's table exactly when that process settles every key. -/
theorem replay_eq_tableOf_iff {vals : ι → List V} {tr : List (ι × MapOp V)}
    (h : Interleaves (fun i => refill (vals i)) tr) (m : ConcurrentMap K V) (x : ι) :
    replay key m (tr.map Prod.snd) = tableOf key (vals x) ↔
      ∀ k, SettledBy key vals x k tr := by
  constructor
  · intro heq k
    rw [← lookup_replay_iff key h m x k, heq]
  · intro hsettled
    apply Finmap.ext_lookup
    intro k
    exact (lookup_replay_iff key h m x k).mpr (hsettled k)

/-! ## The insertions since the last clear -/

/-- The values inserted since the last clear, in order. -/
def insertedSince (ops : List (MapOp V)) : List V :=
  (sinceLast MapOp.isClear ops).filterMap MapOp.written

@[simp]
theorem insertedSince_concat_clear (ops : List (MapOp V)) :
    insertedSince (ops ++ [.clear]) = [] := by
  rw [insertedSince, sinceLast_concat_of_pos rfl]
  rfl

@[simp]
theorem insertedSince_concat_insert (ops : List (MapOp V)) (v : V) :
    insertedSince (ops ++ [.insert v]) = insertedSince ops ++ [v] := by
  rw [insertedSince, sinceLast_concat_of_neg rfl, List.filterMap_append]
  rfl

/-- A value inserted since the last clear was inserted. -/
theorem insert_mem_of_insertedSince {ops : List (MapOp V)} {v : V}
    (hv : v ∈ insertedSince ops) : MapOp.insert v ∈ ops := by
  rcases List.mem_filterMap.mp hv with ⟨op, hop, hwritten⟩
  cases op with
  | clear => cases hwritten
  | insert w =>
      cases hwritten
      exact mem_of_mem_sinceLast hop

/-- At any moment the map holds what was inserted since the last clear, on top of what
it held at first when nothing cleared it. -/
theorem replay_eq_insertAll (m : ConcurrentMap K V) (ops : List (MapOp V)) :
    replay key m ops =
      insertAll key (if ops.any MapOp.isClear then ∅ else m) (insertedSince ops) := by
  induction ops using List.reverseRecOn with
  | nil => rfl
  | append_singleton ops op ih =>
      rw [replay_append, ih, List.any_append]
      cases op with
      | clear =>
          rw [insertedSince_concat_clear]
          simp [MapOp.isClear]
      | insert v =>
          rw [insertedSince_concat_insert, insertAll_append]
          simp [MapOp.isClear]

/-- Once something has cleared the map, it is filled with what was inserted since. -/
theorem replay_eq_tableOf_insertedSince (m : ConcurrentMap K V) {ops : List (MapOp V)}
    (hclear : MapOp.clear ∈ ops) : replay key m ops = tableOf key (insertedSince ops) := by
  have hany : ops.any MapOp.isClear = true := List.any_eq_true.mpr ⟨_, hclear, rfl⟩
  rw [replay_eq_insertAll, if_pos hany, tableOf]

/-! ## The process that clears last -/

/-- The process whose clear comes last. -/
def lastClearer (tr : List (ι × MapOp V)) : Option ι :=
  (lastStep MapOp.isClear tr).map Prod.fst

/-- In the trace of processes that clear the map one of them clears last. -/
theorem exists_lastClearer {vals : ι → List V} {tr : List (ι × MapOp V)}
    (h : Interleaves (fun i => refill (vals i)) tr) (x : ι) :
    ∃ y, lastClearer tr = some y := by
  have hstep : ∃ e, lastStep MapOp.isClear tr = some e := exists_lastStep (clear_mem h x) rfl
  rcases hstep with ⟨e, he⟩
  exact ⟨e.1, by rw [lastClearer, he, Option.map_some]⟩

/-- The process that clears last inserts all its values after this clear. -/
theorem mem_insertedSince_of_lastClearer {vals : ι → List V} {tr : List (ι × MapOp V)}
    {x : ι} (h : Interleaves (fun i => refill (vals i)) tr) (hlast : lastClearer tr = some x)
    {v : V} (hv : v ∈ vals x) : v ∈ insertedSince (tr.map Prod.snd) := by
  rcases Option.map_eq_some_iff.mp hlast with ⟨⟨y, op⟩, hstep, rfl⟩
  rcases lastStep_eq_some hstep with ⟨before, after, rfl, hop, hafter⟩
  cases op with
  | insert w => cases hop
  | clear =>
      have hinsert : (y, MapOp.insert v) ∈ after := by
        rw [← mem_proj, proj_after_clear h]
        exact List.mem_map_of_mem hv
      have hnone : ∀ op ∈ after.map Prod.snd, op.isClear = false := by
        intro op hmem
        rcases List.mem_map.mp hmem with ⟨e, he, rfl⟩
        exact hafter e he
      rw [insertedSince, List.map_append, List.map_cons, sinceLast_of_split rfl hnone]
      exact List.mem_filterMap.mpr ⟨_, List.mem_map_of_mem hinsert, rfl⟩

/-- Only values of the processes are inserted. -/
theorem exists_mem_of_insertedSince {vals : ι → List V} {tr : List (ι × MapOp V)}
    (h : Interleaves (fun i => refill (vals i)) tr) {v : V}
    (hv : v ∈ insertedSince (tr.map Prod.snd)) : ∃ i, v ∈ vals i := by
  rcases List.mem_map.mp (insert_mem_of_insertedSince hv) with ⟨⟨i, op⟩, hmem, rfl⟩
  have hproj : MapOp.insert v ∈ proj i tr := mem_proj.mpr hmem
  rw [h i] at hproj
  exact ⟨i, by simpa [refill] using hproj⟩

/-- The map ends filled with what was inserted since the last clear, whatever it held at
first. -/
theorem replay_eq_tableOf {vals : ι → List V} {tr : List (ι × MapOp V)}
    (h : Interleaves (fun i => refill (vals i)) tr) (m : ConcurrentMap K V) (x : ι) :
    replay key m (tr.map Prod.snd) = tableOf key (insertedSince (tr.map Prod.snd)) :=
  replay_eq_tableOf_insertedSince key m (List.mem_map_of_mem (clear_mem h x))

/-- The process that clears last leaves all its keys in the map. -/
theorem mem_replay_of_lastClearer {vals : ι → List V} {tr : List (ι × MapOp V)} {x : ι}
    (h : Interleaves (fun i => refill (vals i)) tr) (m : ConcurrentMap K V)
    (hlast : lastClearer tr = some x) {v : V} (hv : v ∈ vals x) :
    key v ∈ replay key m (tr.map Prod.snd) := by
  rw [replay_eq_tableOf key h m x, mem_tableOf]
  exact List.mem_map_of_mem (mem_insertedSince_of_lastClearer h hlast hv)

/-- Every value of the map is one of some process, under its own key. -/
theorem exists_mem_of_lookup_replay {vals : ι → List V} {tr : List (ι × MapOp V)}
    (h : Interleaves (fun i => refill (vals i)) tr) (m : ConcurrentMap K V) (x : ι) {k : K}
    {v : V} (hlookup : (replay key m (tr.map Prod.snd)).lookup k = some v) :
    ∃ i, v ∈ vals i ∧ key v = k := by
  rw [replay_eq_tableOf key h m x] at hlookup
  rcases lookup_tableOf_eq_some key hlookup with ⟨hmem, hkey⟩
  rcases exists_mem_of_insertedSince h hmem with ⟨i, hi⟩
  exact ⟨i, hi, hkey⟩

end RefillRace
end Foundation
