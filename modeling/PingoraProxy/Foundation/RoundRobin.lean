import Mathlib.Data.List.Rotate
import Mathlib.Data.List.Count
import Mathlib.Algebra.BigOperators.Group.List.Basic
import Mathlib.Tactic.Ring

/-!
# Round-robin picking from a weighted list

Each element is repeated by its weight, and consecutive counter values pick
consecutive positions of the expanded list, modulo its length.

Main results:

- Theorem {lit}`count_expand`: in an expansion without repeated elements, every
  element occurs as often as its weight says.
- Theorem {lit}`count_picks_cycle`: one full cycle picks every element as often
  as it occurs, from any starting counter.
- Theorem {lit}`count_picks_bounds`: {lit}`n` consecutive picks lie between the
  whole cycles contained in {lit}`n` and the whole cycles covering it.
-/

namespace Foundation
namespace RoundRobin

variable {α : Type*}

/-! ## Weighted expansion -/

/-- Repeat every element as often as its weight says. -/
def expand (weight : α → Nat) (l : List α) : List α :=
  l.flatMap fun a => List.replicate (weight a) a

@[simp]
theorem expand_nil (weight : α → Nat) : expand weight [] = [] :=
  rfl

@[simp]
theorem expand_cons (weight : α → Nat) (a : α) (l : List α) :
    expand weight (a :: l) = List.replicate (weight a) a ++ expand weight l :=
  rfl

/-- The expansion is as long as the total weight. -/
theorem length_expand (weight : α → Nat) (l : List α) :
    (expand weight l).length = (l.map weight).sum := by
  induction l with
  | nil => rfl
  | cons a l ih => simp [ih]

/-- With positive weights an expansion is no shorter than its list. -/
theorem length_le_length_expand {weight : α → Nat} {l : List α}
    (hpos : ∀ a ∈ l, 0 < weight a) : l.length ≤ (expand weight l).length := by
  rw [length_expand, ← List.length_map weight]
  refine List.length_le_sum_of_one_le _ fun n hn => ?_
  rcases List.mem_map.mp hn with ⟨a, ha, rfl⟩
  exact hpos a ha

/-- A view of an expansion is the expansion of the views. -/
theorem map_expand {β : Type*} (weight : α → Nat) (f : α → β) (l : List α) :
    (expand weight l).map f = l.flatMap fun a => List.replicate (weight a) (f a) := by
  induction l with
  | nil => rfl
  | cons a l ih => simp [ih]

/-- Expansion introduces no new element. -/
theorem mem_of_mem_expand {weight : α → Nat} {l : List α} {a : α}
    (h : a ∈ expand weight l) : a ∈ l := by
  rcases List.mem_flatMap.mp h with ⟨b, hb, ha⟩
  rwa [List.eq_of_mem_replicate ha]

/-- With positive weights only the empty list expands to the empty list. -/
theorem expand_eq_nil_iff {weight : α → Nat} {l : List α} (hpos : ∀ a ∈ l, 0 < weight a) :
    expand weight l = [] ↔ l = [] := by
  cases l with
  | nil => simp
  | cons a l =>
      have ha : weight a ≠ 0 := (hpos a (by simp)).ne'
      simp [ha]

/-! ## Consecutive picks -/

/-- The positions picked by {lit}`n` consecutive counter values from {lit}`c` on. -/
def picks (l : List α) (c n : Nat) : List (Option α) :=
  (List.range n).map fun j => l[(c + j) % l.length]?

@[simp]
theorem picks_zero (l : List α) (c : Nat) : picks l c 0 = [] :=
  rfl

@[simp]
theorem length_picks (l : List α) (c n : Nat) : (picks l c n).length = n := by
  simp [picks]

/-- Picking goes on where it stopped. -/
theorem picks_add (l : List α) (c m n : Nat) :
    picks l c (m + n) = picks l c m ++ picks l (c + m) n := by
  simp [picks, List.range_add, Function.comp_def, Nat.add_assoc]

/-- The first of several picks. -/
theorem picks_succ (l : List α) (c n : Nat) :
    picks l c (n + 1) = l[c % l.length]? :: picks l (c + 1) n := by
  rw [Nat.add_comm, picks_add]
  rfl

/-- One cycle picks the list, rotated to its starting position. -/
theorem picks_cycle (l : List α) (c : Nat) :
    picks l c l.length = (l.rotate c).map some := by
  apply List.ext_getElem
  · simp
  · intro j hj hj'
    have hlt : j < l.length := by simpa using hj
    have hmod : (c + j) % l.length < l.length := Nat.mod_lt _ (by omega)
    simp [picks, List.getElem_rotate, Nat.add_comm j c, List.getElem?_eq_getElem hmod]

variable [DecidableEq α]

/-- One full cycle picks every element as often as it occurs. -/
theorem count_picks_cycle (l : List α) (c : Nat) (a : α) :
    (picks l c l.length).count (some a) = l.count a := by
  rw [picks_cycle, List.count_map_of_injective _ _ (Option.some_injective α),
    (l.rotate_perm c).count_eq]

/-- Whole cycles pick every element a whole number of times. -/
theorem count_picks_mul (l : List α) (c q : Nat) (a : α) :
    (picks l c (q * l.length)).count (some a) = q * l.count a := by
  induction q generalizing c with
  | zero => simp
  | succ q ih =>
      rw [Nat.succ_mul, picks_add, List.count_append, ih, count_picks_cycle]
      ring

/-- At most one cycle picks no element more often than it occurs. -/
theorem count_picks_le {l : List α} {n : Nat} (hn : n ≤ l.length) (c : Nat) (a : α) :
    (picks l c n).count (some a) ≤ l.count a := by
  calc (picks l c n).count (some a)
      ≤ (picks l c n).count (some a) + (picks l (c + n) (l.length - n)).count (some a) :=
        Nat.le_add_right _ _
    _ = (picks l c l.length).count (some a) := by
        rw [← List.count_append, ← picks_add, Nat.add_sub_cancel' hn]
    _ = l.count a := count_picks_cycle l c a

/-- Two runs of picks, each of at most one cycle, pick no element more than twice as often
as it occurs, wherever each of them starts. -/
theorem count_two_picks_le {l : List α} {m n : Nat} (hm : m ≤ l.length) (hn : n ≤ l.length)
    (c d : Nat) (a : α) : (picks l c m ++ picks l d n).count (some a) ≤ 2 * l.count a := by
  have hfirst := count_picks_le hm c a
  have hsecond := count_picks_le hn d a
  rw [List.count_append]
  omega

/-- Consecutive picks contain every element at least once per contained cycle
and at most once per covering cycle, for each of its occurrences. -/
theorem count_picks_bounds {l : List α} (hl : l ≠ []) (c n : Nat) (a : α) :
    n / l.length * l.count a ≤ (picks l c n).count (some a) ∧
      (picks l c n).count (some a) ≤ (n + l.length - 1) / l.length * l.count a := by
  have hpos : 0 < l.length := List.length_pos_iff.mpr hl
  have hsplit : n = n / l.length * l.length + n % l.length := by
    rw [Nat.mul_comm]
    exact (Nat.div_add_mod n l.length).symm
  have hcount : (picks l c n).count (some a) = n / l.length * l.count a +
      (picks l (c + n / l.length * l.length) (n % l.length)).count (some a) := by
    conv_lhs => rw [hsplit]
    rw [picks_add, List.count_append, count_picks_mul]
  refine ⟨hcount ▸ Nat.le_add_right _ _, ?_⟩
  rcases Nat.eq_zero_or_pos (n % l.length) with hrem | hrem
  · rw [hcount, hrem, picks_zero, List.count_nil, Nat.add_zero]
    exact Nat.mul_le_mul_right _ (Nat.div_le_div_right (by omega))
  · -- a started cycle is counted whole in the upper bound
    have hceil : n / l.length + 1 ≤ (n + l.length - 1) / l.length := by
      rw [Nat.le_div_iff_mul_le hpos, Nat.succ_mul]
      omega
    calc (picks l c n).count (some a)
        ≤ n / l.length * l.count a + l.count a := by
          rw [hcount]
          exact Nat.add_le_add_left
            (count_picks_le (Nat.mod_lt n hpos).le _ a) _
      _ = (n / l.length + 1) * l.count a := (Nat.succ_mul _ _).symm
      _ ≤ (n + l.length - 1) / l.length * l.count a := Nat.mul_le_mul_right _ hceil

/-- Without repeated elements, every element occurs as often as its weight says. -/
theorem count_expand {weight : α → Nat} {l : List α} (hnodup : l.Nodup) {a : α}
    (ha : a ∈ l) : (expand weight l).count a = weight a := by
  induction l with
  | nil => simp at ha
  | cons b l ih =>
      rcases List.nodup_cons.mp hnodup with ⟨hb, hl⟩
      rw [expand_cons, List.count_append, List.count_replicate]
      rcases List.mem_cons.mp ha with rfl | ha
      · have hnot : a ∉ expand weight l := fun h => hb (mem_of_mem_expand h)
        simp [List.count_eq_zero_of_not_mem hnot]
      · have hne : b ≠ a := fun h => hb (h ▸ ha)
        simp [hne, ih hl ha]

end RoundRobin
end Foundation
