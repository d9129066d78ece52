import Mathlib.Data.List.Induction

/-!
# The part of a history since an event

A history is a list of events, the latest last.  What has happened since the last
event of some kind is the part of the history after it, or the whole history if
there was none.

Main results:

- Theorems {lit}`sinceLast_concat_of_pos` and {lit}`sinceLast_concat_of_neg`: how
  one more event changes the part since the last event.
- Theorem {lit}`sinceLast_filter`: events that do not matter may be left out.
-/

namespace Foundation

variable {α : Type*}

/-- The events after the last one of the given kind. -/
def sinceLast (p : α → Bool) (l : List α) : List α :=
  (l.reverse.takeWhile fun a => !p a).reverse

@[simp]
theorem sinceLast_nil (p : α → Bool) : sinceLast p [] = [] :=
  rfl

/-- The events since the last one of the kind belong to the history. -/
theorem mem_of_mem_sinceLast {p : α → Bool} {l : List α} {a : α} (ha : a ∈ sinceLast p l) :
    a ∈ l :=
  List.mem_reverse.mp ((List.takeWhile_sublist _).subset (List.mem_reverse.mp ha))

/-- An event of the kind leaves nothing after it. -/
theorem sinceLast_concat_of_pos {p : α → Bool} {a : α} (ha : p a = true) (l : List α) :
    sinceLast p (l ++ [a]) = [] := by
  simp [sinceLast, ha]

/-- Any other event comes after the last one of the kind. -/
theorem sinceLast_concat_of_neg {p : α → Bool} {a : α} (ha : p a = false) (l : List α) :
    sinceLast p (l ++ [a]) = sinceLast p l ++ [a] := by
  simp [sinceLast, ha]

/-- What follows the last event of the kind is the part since it. -/
theorem sinceLast_of_split {p : α → Bool} {before after : List α} {a : α} (ha : p a = true)
    (hafter : ∀ b ∈ after, p b = false) : sinceLast p (before ++ a :: after) = after := by
  induction after using List.reverseRecOn with
  | nil => exact sinceLast_concat_of_pos ha before
  | append_singleton after b ih =>
      have hb : p b = false := hafter b (by simp)
      have hrest : ∀ c ∈ after, p c = false := fun c hc => hafter c (by simp [hc])
      rw [← List.cons_append, ← List.append_assoc, sinceLast_concat_of_neg hb, ih hrest]

/-- Events that do not matter may be left out, as long as all of the kind stay. -/
theorem sinceLast_filter {p q : α → Bool} (hpq : ∀ a, p a = true → q a = true) (l : List α) :
    sinceLast p (l.filter q) = (sinceLast p l).filter q := by
  induction l using List.reverseRecOn with
  | nil => rfl
  | append_singleton l a ih =>
      rw [List.filter_append]
      by_cases hp : p a = true
      · have hkeep : [a].filter q = [a] := by simp [hpq a hp]
        rw [hkeep, sinceLast_concat_of_pos hp, sinceLast_concat_of_pos hp]
        rfl
      · rw [sinceLast_concat_of_neg (Bool.not_eq_true _ ▸ hp), List.filter_append]
        by_cases hq : q a = true
        · have hkeep : [a].filter q = [a] := by simp [hq]
          rw [hkeep, sinceLast_concat_of_neg (Bool.not_eq_true _ ▸ hp), ih]
        · have hdrop : [a].filter q = [] := by simp [hq]
          rw [hdrop, List.append_nil, List.append_nil, ih]

end Foundation
