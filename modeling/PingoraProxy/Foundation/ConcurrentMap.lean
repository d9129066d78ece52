import Mathlib.Data.Finmap

/-!
# Concurrent maps seen through their atomic operations

A concurrent hash map offers atomic clears, insertions, removals and lookups,
and an iteration whose order is unspecified.  The model is Mathlib's finite map,
which has no order of its own; an iteration is any list of its values.

Main results:

- Theorem {lit}`lists_tableOf`: a map filled from values with distinct keys
  iterates over exactly these values, in some order.
- Theorem {lit}`lookup_replay`: after any sequence of clears and insertions, a
  key holds what the last operation touching it wrote.
- Theorem {lit}`lookup_tableOf`: a filled map holds, under each key, the last
  value submitted with that key.
- Theorem {lit}`ListsBelow.lists`: an iteration that takes one shard after another lists
  a map that does not change meanwhile.
- Theorem {lit}`tableOf_of_lists`: a map with every value under its own key is filled
  again from any of its listings.
- Theorem {lit}`lists_tableOf_iff_keepsLast`: a filled map lists exactly the last value
  of every submitted key.
-/

namespace Foundation

/-- A finite map with atomic operations and no iteration order of its own. -/
abbrev ConcurrentMap (K V : Type*) := Finmap (fun _ : K => V)

namespace ConcurrentMap

variable {K V : Type*}

/-! ## Iteration -/

/-- The values held by a map, without an order. -/
def values (m : ConcurrentMap K V) : Multiset V :=
  m.entries.map Sigma.snd

/-- One of the orders in which an iteration over the map may yield its values. -/
def Lists (m : ConcurrentMap K V) (vs : List V) : Prop :=
  (vs : Multiset V) = m.values

instance [DecidableEq V] (m : ConcurrentMap K V) (vs : List V) : Decidable (m.Lists vs) :=
  inferInstanceAs (Decidable ((vs : Multiset V) = m.values))

/-- Every map can be iterated. -/
theorem exists_lists (m : ConcurrentMap K V) : ∃ vs, m.Lists vs :=
  Quotient.exists_rep m.values

/-- Two iterations over one map differ in their order only. -/
theorem Lists.perm {m : ConcurrentMap K V} {vs ws : List V}
    (hvs : m.Lists vs) (hws : m.Lists ws) : vs.Perm ws :=
  Multiset.coe_eq_coe.mp (Eq.trans hvs hws.symm)

/-- Every reordering of an iteration is an iteration. -/
theorem Lists.of_perm {m : ConcurrentMap K V} {vs ws : List V}
    (hvs : m.Lists vs) (hperm : ws.Perm vs) : m.Lists ws :=
  Eq.trans (Multiset.coe_eq_coe.mpr hperm) hvs

/-- Every listing of a map is as long as the map has entries. -/
theorem Lists.length_eq {m : ConcurrentMap K V} {ws : List V} (h : m.Lists ws) :
    ws.length = m.entries.card := by
  have hcard := congrArg Multiset.card h
  rw [Multiset.coe_card] at hcard
  rw [hcard, values, Multiset.card_map]

@[simp]
theorem values_empty : (∅ : ConcurrentMap K V).values = 0 :=
  rfl

/-- The empty map is iterated as the empty list and nothing else. -/
@[simp]
theorem lists_empty_iff {vs : List V} : (∅ : ConcurrentMap K V).Lists vs ↔ vs = [] := by
  simp [Lists]

/-! ## Iteration shard by shard -/

section Shards

variable (shardOf : K → ℕ)

/-- One of the orders in which an iteration may yield the values of one shard. -/
def ListsShard (m : ConcurrentMap K V) (shard : ℕ) (vs : List V) : Prop :=
  (vs : Multiset V) = (m.entries.filter fun e => shardOf e.1 = shard).map Sigma.snd

instance [DecidableEq V] (m : ConcurrentMap K V) (shard : ℕ) (vs : List V) :
    Decidable (m.ListsShard shardOf shard vs) :=
  inferInstanceAs (Decidable ((vs : Multiset V) = _))

/-- One of the orders in which an iteration may yield the values of the first shards. -/
def ListsBelow (m : ConcurrentMap K V) (shards : ℕ) (vs : List V) : Prop :=
  (vs : Multiset V) = (m.entries.filter fun e => shardOf e.1 < shards).map Sigma.snd

variable {shardOf}

theorem listsBelow_zero (m : ConcurrentMap K V) : m.ListsBelow shardOf 0 [] := by
  simp [ListsBelow]

/-- One more shard is listed after the first ones. -/
theorem ListsBelow.append {m : ConcurrentMap K V} {shard : ℕ} {vs ws : List V}
    (hvs : m.ListsBelow shardOf shard vs) (hws : m.ListsShard shardOf shard ws) :
    m.ListsBelow shardOf (shard + 1) (vs ++ ws) := by
  have hsplit : (m.entries.filter fun e => shardOf e.1 < shard + 1) =
      (m.entries.filter fun e => shardOf e.1 < shard) +
        m.entries.filter fun e => shardOf e.1 = shard := by
    have hnone : (m.entries.filter fun e => shardOf e.1 < shard ∧ shardOf e.1 = shard) = 0 :=
      Multiset.filter_eq_nil.mpr fun e _ hboth => by omega
    rw [Multiset.filter_add_filter, hnone, add_zero]
    exact Multiset.filter_congr fun e _ => Nat.lt_succ_iff_lt_or_eq
  unfold ListsBelow at hvs ⊢
  rw [hsplit, Multiset.map_add, ← hvs, ← hws, Multiset.coe_add]

/-- All shards together are the map. -/
theorem ListsBelow.lists {m : ConcurrentMap K V} {shards : ℕ} {vs : List V}
    (hvs : m.ListsBelow shardOf shards vs) (hshards : ∀ k, shardOf k < shards) : m.Lists vs := by
  have hall : (m.entries.filter fun e => shardOf e.1 < shards) = m.entries :=
    Multiset.filter_eq_self.mpr fun e _ => hshards e.1
  unfold ListsBelow at hvs
  rwa [hall] at hvs

end Shards

variable [DecidableEq K]

/-- An iteration yields a value exactly when some key holds it. -/
theorem Lists.mem_iff {m : ConcurrentMap K V} {vs : List V} (hvs : m.Lists vs) {v : V} :
    v ∈ vs ↔ ∃ k, m.lookup k = some v := by
  rw [← Multiset.mem_coe, hvs, values, Multiset.mem_map]
  constructor
  · rintro ⟨⟨k, w⟩, hmem, rfl⟩
    exact ⟨k, Finmap.lookup_eq_some_iff.mpr hmem⟩
  · rintro ⟨k, hk⟩
    exact ⟨⟨k, v⟩, Finmap.lookup_eq_some_iff.mp hk, rfl⟩

/-- A shard yields a value exactly when one of its keys holds it. -/
theorem ListsShard.mem_iff {shardOf : K → ℕ} {m : ConcurrentMap K V} {shard : ℕ} {vs : List V}
    (hvs : m.ListsShard shardOf shard vs) {v : V} :
    v ∈ vs ↔ ∃ k, shardOf k = shard ∧ m.lookup k = some v := by
  rw [← Multiset.mem_coe, hvs, Multiset.mem_map]
  constructor
  · rintro ⟨⟨k, w⟩, hmem, rfl⟩
    rcases Multiset.mem_filter.mp hmem with ⟨hentry, hshard⟩
    exact ⟨k, hshard, Finmap.lookup_eq_some_iff.mpr hentry⟩
  · rintro ⟨k, hshard, hk⟩
    exact ⟨⟨k, v⟩, Multiset.mem_filter.mpr ⟨Finmap.lookup_eq_some_iff.mp hk, hshard⟩, rfl⟩

/-- Inserting under a fresh key adds one value. -/
theorem values_insert_of_notMem {m : ConcurrentMap K V} {k : K} {v : V} (hk : k ∉ m) :
    values (m.insert k v) = v ::ₘ m.values := by
  simp [values, Finmap.entries_insert_of_notMem hk]

/-- The lookup form of an insertion. -/
theorem lookup_insert_eq (m : ConcurrentMap K V) (k k' : K) (v : V) :
    Finmap.lookup k' (m.insert k v) = if k = k' then some v else m.lookup k' := by
  split_ifs with h
  · subst h
    exact Finmap.lookup_insert m
  · exact Finmap.lookup_insert_of_ne m (Ne.symm h)

/-! ## Filling a map from a list of keyed values -/

variable (key : V → K)

/-- Insert every value of a list under its own key, in order. -/
def insertAll (m : ConcurrentMap K V) (vs : List V) : ConcurrentMap K V :=
  vs.foldl (fun m v => m.insert (key v) v) m

/-- The map a list of keyed values leaves in an empty map. -/
def tableOf (vs : List V) : ConcurrentMap K V :=
  insertAll key ∅ vs

/-- The last value of a list that carries a key. -/
def lastWith (vs : List V) (k : K) : Option V :=
  vs.reverse.find? fun v => decide (key v = k)

@[simp]
theorem insertAll_nil (m : ConcurrentMap K V) : insertAll key m [] = m :=
  rfl

@[simp]
theorem insertAll_cons (m : ConcurrentMap K V) (v : V) (vs : List V) :
    insertAll key m (v :: vs) = insertAll key (m.insert (key v) v) vs :=
  rfl

theorem insertAll_append (m : ConcurrentMap K V) (vs ws : List V) :
    insertAll key m (vs ++ ws) = insertAll key (insertAll key m vs) ws :=
  List.foldl_append

@[simp]
theorem tableOf_nil : tableOf key ([] : List V) = ∅ :=
  rfl

theorem tableOf_concat (vs : List V) (v : V) :
    tableOf key (vs ++ [v]) = (tableOf key vs).insert (key v) v := by
  rw [tableOf, insertAll_append]
  rfl

@[simp]
theorem lastWith_nil (k : K) : lastWith key [] k = none :=
  rfl

theorem lastWith_concat (vs : List V) (v : V) (k : K) :
    lastWith key (vs ++ [v]) k = if key v = k then some v else lastWith key vs k := by
  simp only [lastWith, List.reverse_append, List.reverse_singleton, List.singleton_append,
    List.find?_cons]
  split_ifs with h <;> simp [h]

/-- Later values come first. -/
theorem lastWith_append (vs ws : List V) (k : K) :
    lastWith key (vs ++ ws) k = (lastWith key ws k).or (lastWith key vs k) := by
  unfold lastWith
  rw [List.reverse_append, List.find?_append]

theorem lastWith_cons (v : V) (vs : List V) (k : K) :
    lastWith key (v :: vs) k = (lastWith key vs k).or (if key v = k then some v else none) := by
  rw [← List.singleton_append, lastWith_append]
  congr 1
  by_cases h : key v = k <;> simp [lastWith, h]

/-- The last value found for a key was submitted and carries this key. -/
theorem lastWith_eq_some {vs : List V} {k : K} {v : V} (h : lastWith key vs k = some v) :
    v ∈ vs ∧ key v = k := by
  have hmem := List.mem_of_find?_eq_some h
  have hkey := List.find?_some h
  exact ⟨List.mem_reverse.mp hmem, of_decide_eq_true hkey⟩

/-- No last value exists exactly when nothing was submitted under the key. -/
theorem lastWith_eq_none_iff {vs : List V} {k : K} :
    lastWith key vs k = none ↔ k ∉ vs.map key := by
  simp [lastWith]

/-- A filled map holds, under each key, the last value submitted with that key. -/
theorem lookup_tableOf (vs : List V) (k : K) :
    (tableOf key vs).lookup k = lastWith key vs k := by
  induction vs using List.reverseRecOn with
  | nil => rfl
  | append_singleton vs v ih =>
      rw [tableOf_concat, lookup_insert_eq, lastWith_concat, ih]

/-- A filled map has an entry for a key exactly when some submitted value carries it. -/
theorem mem_tableOf {vs : List V} {k : K} : k ∈ tableOf key vs ↔ k ∈ vs.map key := by
  rw [← not_iff_not, ← Finmap.lookup_eq_none, lookup_tableOf, lastWith_eq_none_iff]

/-- Every value of a filled map was submitted, under its own key. -/
theorem lookup_tableOf_eq_some {vs : List V} {k : K} {v : V}
    (h : (tableOf key vs).lookup k = some v) : v ∈ vs ∧ key v = k :=
  lastWith_eq_some key (by rwa [lookup_tableOf] at h)

/-- A filled map lists only submitted values. -/
theorem mem_of_lists_tableOf {vs ws : List V} (hlists : (tableOf key vs).Lists ws) {v : V}
    (hv : v ∈ ws) : v ∈ vs := by
  rcases hlists.mem_iff.mp hv with ⟨k, hk⟩
  exact (lookup_tableOf_eq_some key hk).1

/-- Filling from values with distinct keys keeps every one of them. -/
theorem values_tableOf {vs : List V} (hnodup : (vs.map key).Nodup) :
    (tableOf key vs).values = (vs : Multiset V) := by
  induction vs using List.reverseRecOn with
  | nil => rfl
  | append_singleton vs v ih =>
      rw [List.map_append, List.nodup_append] at hnodup
      rcases hnodup with ⟨hvs, -, hfresh⟩
      have hnotMem : key v ∉ tableOf key vs := by
        rw [mem_tableOf]
        intro hmem
        exact hfresh _ hmem _ (by simp) rfl
      rw [tableOf_concat, values_insert_of_notMem hnotMem, ih hvs]
      exact Multiset.coe_eq_coe.mpr (List.perm_append_singleton v vs).symm

/-- A map filled from values with distinct keys iterates over exactly these values. -/
theorem lists_tableOf {vs ws : List V} (hnodup : (vs.map key).Nodup) :
    (tableOf key vs).Lists ws ↔ ws.Perm vs := by
  rw [Lists, values_tableOf key hnodup, Multiset.coe_eq_coe]

/-! ## What a filled map lists -/

/-- A list keeps the last value of every key of another list, each once. -/
def KeepsLast (vs ws : List V) : Prop :=
  (ws.map key).Nodup ∧
    ∀ v, v ∈ ws ↔ ∃ before after, vs = before ++ v :: after ∧ key v ∉ after.map key

/-- A value is the last one with its key exactly when no later value carries the key. -/
theorem lastWith_eq_some_iff {vs : List V} {v : V} :
    lastWith key vs (key v) = some v ↔
      ∃ before after, vs = before ++ v :: after ∧ key v ∉ after.map key := by
  unfold lastWith
  rw [List.find?_eq_some_iff_append]
  constructor
  · rintro ⟨-, later, earlier, hsplit, hlater⟩
    refine ⟨earlier.reverse, later.reverse, ?_, ?_⟩
    · rw [← List.reverse_reverse vs, hsplit]
      simp
    · intro hmem
      rcases List.mem_map.mp hmem with ⟨w, hw, hkey⟩
      simpa [hkey] using hlater w (List.mem_reverse.mp hw)
  · rintro ⟨before, after, rfl, hafter⟩
    refine ⟨decide_eq_true rfl, after.reverse, before.reverse, by simp, ?_⟩
    intro w hw
    have hne : key w ≠ key v :=
      fun hkey => hafter (hkey ▸ List.mem_map_of_mem (List.mem_reverse.mp hw))
    simp [hne]

/-- In a map that holds every value under its own key, the values have distinct keys. -/
theorem nodup_map_key_values {m : ConcurrentMap K V}
    (hkeyed : ∀ k v, m.lookup k = some v → key v = k) : (m.values.map key).Nodup := by
  have hkeys : m.values.map key = m.entries.keys := by
    unfold values Multiset.keys
    rw [Multiset.map_map]
    apply Multiset.map_congr rfl
    intro entry hentry
    exact hkeyed entry.1 entry.2 (Finmap.lookup_eq_some_iff.mpr hentry)
  rw [hkeys]
  exact m.nodupKeys.nodup_keys

/-- A map that holds every value under its own key is listed without repeated keys. -/
theorem lists_iff_of_keyed {m : ConcurrentMap K V}
    (hkeyed : ∀ k v, m.lookup k = some v → key v = k) {ws : List V} :
    m.Lists ws ↔ (ws.map key).Nodup ∧ ∀ v, v ∈ ws ↔ m.lookup (key v) = some v := by
  have hnodup := nodup_map_key_values key hkeyed
  have hmem : ∀ v, (∃ k, m.lookup k = some v) ↔ m.lookup (key v) = some v := by
    intro v
    constructor
    · rintro ⟨k, hk⟩
      rw [hkeyed k v hk]
      exact hk
    · intro h
      exact ⟨key v, h⟩
  constructor
  · intro hlists
    refine ⟨?_, fun v => (hlists.mem_iff).trans (hmem v)⟩
    rw [← Multiset.coe_nodup, ← Multiset.map_coe, hlists]
    exact hnodup
  · rintro ⟨hws, hvalues⟩
    rcases exists_lists m with ⟨vs, hvs⟩
    have hvsNodup : vs.Nodup := by
      rw [← Multiset.coe_nodup, hvs]
      exact hnodup.of_map
    refine hvs.of_perm ((List.perm_ext_iff_of_nodup hws.of_map hvsNodup).mpr fun v => ?_)
    rw [hvalues, hvs.mem_iff, hmem]

/-- A map that holds every value under its own key is filled again from any of its
listings. -/
theorem tableOf_of_lists {m : ConcurrentMap K V}
    (hkeyed : ∀ k v, m.lookup k = some v → key v = k) {ws : List V} (h : m.Lists ws) :
    tableOf key ws = m := by
  have hvalues := ((lists_iff_of_keyed key hkeyed).mp h).2
  refine Finmap.ext_lookup fun k => ?_
  rw [lookup_tableOf]
  cases hlast : lastWith key ws k with
  | some w =>
      rcases lastWith_eq_some key hlast with ⟨hw, rfl⟩
      exact ((hvalues w).mp hw).symm
  | none =>
      cases hlookup : m.lookup k with
      | none => rfl
      | some v =>
          have hv : v ∈ ws := h.mem_iff.mpr ⟨k, hlookup⟩
          rw [lastWith_eq_none_iff, ← hkeyed k v hlookup] at hlast
          exact absurd (List.mem_map_of_mem hv) hlast

/-- A filled map lists exactly the last value of every submitted key. -/
theorem lists_tableOf_iff_keepsLast {vs ws : List V} :
    (tableOf key vs).Lists ws ↔ KeepsLast key vs ws := by
  rw [lists_iff_of_keyed key fun k v h => (lookup_tableOf_eq_some key h).2]
  unfold KeepsLast
  simp only [lookup_tableOf, lastWith_eq_some_iff]

/-- A filled map has an entry for every submitted value exactly when the keys are
distinct. -/
theorem card_tableOf_eq_length_iff {vs : List V} :
    (tableOf key vs).entries.card = vs.length ↔ (vs.map key).Nodup := by
  have hkeys : (tableOf key vs).keys = (vs.map key).toFinset := by
    ext k
    rw [Finmap.mem_keys, mem_tableOf, List.mem_toFinset]
  have hcard : (tableOf key vs).entries.card = (vs.map key).toFinset.card := by
    rw [← hkeys]
    exact (Multiset.card_map _ _).symm
  rw [hcard, ← List.length_map key]
  exact Multiset.toFinset_card_eq_card_iff_nodup

/-! ## Replaying clears and insertions -/

/-- An atomic write to a map of keyed values. -/
inductive MapOp (V : Type*) where
  | clear
  | insert (value : V)
deriving DecidableEq

/-- The effect of one atomic write. -/
def MapOp.apply (m : ConcurrentMap K V) : MapOp V → ConcurrentMap K V
  | .clear => ∅
  | .insert v => m.insert (key v) v

/-- Whether a write decides what is held under a key. -/
def MapOp.touches (k : K) : MapOp V → Bool
  | .clear => true
  | .insert v => decide (key v = k)

/-- What a write leaves under a key that it touches. -/
def MapOp.written : MapOp V → Option V
  | .clear => none
  | .insert v => some v

/-- Whether a write empties the map. -/
def MapOp.isClear : MapOp V → Bool
  | .clear => true
  | .insert _ => false

/-- The effect of a sequence of atomic writes. -/
def replay (m : ConcurrentMap K V) (ops : List (MapOp V)) : ConcurrentMap K V :=
  ops.foldl (MapOp.apply key) m

@[simp]
theorem replay_nil (m : ConcurrentMap K V) : replay key m [] = m :=
  rfl

@[simp]
theorem replay_clear (m : ConcurrentMap K V) (ops : List (MapOp V)) :
    replay key m (.clear :: ops) = replay key ∅ ops :=
  rfl

@[simp]
theorem replay_insert (m : ConcurrentMap K V) (v : V) (ops : List (MapOp V)) :
    replay key m (.insert v :: ops) = replay key (m.insert (key v) v) ops :=
  rfl

theorem replay_append (m : ConcurrentMap K V) (ops ops' : List (MapOp V)) :
    replay key m (ops ++ ops') = replay key (replay key m ops) ops' :=
  List.foldl_append

/-- Insertions alone fill the map. -/
theorem replay_map_insert (m : ConcurrentMap K V) (vs : List V) :
    replay key m (vs.map .insert) = insertAll key m vs := by
  induction vs generalizing m with
  | nil => rfl
  | cons v vs ih => exact ih (m.insert (key v) v)

/-- One write changes exactly the keys it touches. -/
theorem lookup_apply (m : ConcurrentMap K V) (op : MapOp V) (k : K) :
    (op.apply key m).lookup k = if op.touches key k then op.written else m.lookup k := by
  cases op with
  | clear => rfl
  | insert v => simp [MapOp.apply, MapOp.touches, MapOp.written, lookup_insert_eq]

/-- Writes keep every value under its own key. -/
theorem keyed_replay {m : ConcurrentMap K V}
    (hkeyed : ∀ k v, m.lookup k = some v → key v = k) (ops : List (MapOp V)) :
    ∀ k v, (replay key m ops).lookup k = some v → key v = k := by
  induction ops generalizing m with
  | nil => exact hkeyed
  | cons op ops ih =>
      refine ih fun k v h => ?_
      rw [lookup_apply] at h
      split_ifs at h with htouch
      · cases op with
        | clear => cases h
        | insert w =>
            cases h
            exact of_decide_eq_true htouch
      · exact hkeyed k v h

/-- After any sequence of writes, a key holds what the last write touching it
left there, and its old value when none touched it. -/
theorem lookup_replay (m : ConcurrentMap K V) (ops : List (MapOp V)) (k : K) :
    (replay key m ops).lookup k =
      match ops.reverse.find? (MapOp.touches key k) with
      | some op => op.written
      | none => m.lookup k := by
  induction ops using List.reverseRecOn with
  | nil => rfl
  | append_singleton ops op ih =>
      rw [replay_append]
      change (op.apply key (replay key m ops)).lookup k = _
      rw [lookup_apply, ih]
      simp only [List.reverse_append, List.reverse_singleton, List.singleton_append,
        List.find?_cons]
      cases op.touches key k <;> rfl

/-- A write touching a key, with no later one touching it, decides the key. -/
theorem lookup_replay_of_last {m : ConcurrentMap K V} {before after : List (MapOp V)}
    {op : MapOp V} {k : K} (htouch : op.touches key k = true)
    (hafter : ∀ op' ∈ after, op'.touches key k = false) :
    (replay key m (before ++ op :: after)).lookup k = op.written := by
  have hnone : after.reverse.find? (MapOp.touches key k) = none := by
    simpa using hafter
  rw [lookup_replay]
  simp [List.find?_append, hnone, htouch]

end ConcurrentMap

end Foundation
