import Mathlib.Data.List.Basic

/-!
# Splitting at a separator

Splitting a list at a separator keeps empty parts, so the list can be put together
again from its parts.  A statement about parts is therefore one about the list and
the places where the separator stands.

Main results:

- Theorem {lit}`splitOn_isPrefix_iff`: the parts of one list begin the parts of another
  exactly when the other list is the same or goes on with a separator after it.
- Theorem {lit}`splitOn_eq_cons_iff`: the first part is what comes before the first
  separator.
-/

namespace Foundation
namespace Splitting

variable {α : Type*}

/-! ## Putting the parts together -/

/-- Parts put together block by block. -/
theorem intercalate_append (sep : List α) {ls ls' : List (List α)} (h : ls ≠ []) (h' : ls' ≠ []) :
    sep.intercalate (ls ++ ls') = sep.intercalate ls ++ sep ++ sep.intercalate ls' := by
  induction ls with
  | nil => exact absurd rfl h
  | cons l ls ih =>
      by_cases hls : ls = []
      · subst hls
        rw [List.singleton_append, List.intercalate_cons_of_ne_nil h', List.intercalate_singleton]
      · have hne : ls ++ ls' ≠ [] := fun hnil => hls (List.append_eq_nil_iff.mp hnil).1
        rw [List.cons_append, List.intercalate_cons_of_ne_nil hne, ih hls,
          List.intercalate_cons_of_ne_nil hls]
        simp only [List.append_assoc]

variable [DecidableEq α]

/-- The parts determine the list. -/
theorem splitOn_injective (a : α) : Function.Injective (List.splitOn a) := by
  intro l m h
  have hl : [a].intercalate (l.splitOn a) = l := List.intercalate_splitOn a
  have hm : [a].intercalate (m.splitOn a) = m := List.intercalate_splitOn a
  rw [← hl, h, hm]

/-- No part contains the separator. -/
theorem notMem_of_mem_splitOn {a : α} {l part : List α} (h : part ∈ l.splitOn a) : a ∉ part := by
  induction l generalizing part with
  | nil =>
      rw [List.splitOn_nil, List.mem_singleton] at h
      simp [h]
  | cons b l ih =>
      rw [List.splitOn_cons_eq_if_modifyHead] at h
      by_cases hsep : (b == a) = true
      · rw [if_pos hsep] at h
        rcases List.mem_cons.mp h with rfl | hpart
        · simp
        · exact ih hpart
      · rw [if_neg hsep] at h
        rcases List.exists_cons_of_ne_nil (List.splitOn_ne_nil a l) with ⟨first, rest, hsplit⟩
        rw [hsplit, List.modifyHead_cons] at h
        rcases List.mem_cons.mp h with rfl | hpart
        · have hfirst : a ∉ first := ih (by simp [hsplit])
          have hne : a ≠ b := fun hab => hsep (beq_iff_eq.mpr hab.symm)
          simp [hne, hfirst]
        · exact ih (by simp [hsplit, hpart])

/-! ## Parts at the beginning -/

/-- The first part is what comes before the first separator, and the other parts are
those of the rest. -/
theorem splitOn_eq_cons_iff {a : α} {l first rest : List α} :
    l.splitOn a = first :: rest.splitOn a ↔ l = first ++ a :: rest ∧ a ∉ first := by
  constructor
  · intro h
    have hmem : first ∈ l.splitOn a := by simp [h]
    have hl : [a].intercalate (l.splitOn a) = l := List.intercalate_splitOn a
    refine ⟨?_, notMem_of_mem_splitOn hmem⟩
    rw [← hl, h, List.intercalate_cons_of_ne_nil (List.splitOn_ne_nil a rest),
      List.intercalate_splitOn]
    simp
  · rintro ⟨rfl, hfirst⟩
    exact List.splitOn_append_cons_self_of_not_mem hfirst rest

/-- The parts of one list begin the parts of another exactly when the other list is the
same or goes on with a separator after it. -/
theorem splitOn_isPrefix_iff {a : α} {l m : List α} :
    l.splitOn a <+: m.splitOn a ↔ m = l ∨ l ++ [a] <+: m := by
  constructor
  · rintro ⟨parts, hparts⟩
    by_cases hnil : parts = []
    · left
      rw [hnil, List.append_nil] at hparts
      exact (splitOn_injective a hparts).symm
    · right
      have hm : [a].intercalate (m.splitOn a) = m := List.intercalate_splitOn a
      refine ⟨[a].intercalate parts, ?_⟩
      rw [← hm, ← hparts, intercalate_append _ (List.splitOn_ne_nil a l) hnil,
        List.intercalate_splitOn]
  · rintro (rfl | ⟨rest, rfl⟩)
    · exact List.prefix_refl _
    · refine ⟨rest.splitOn a, ?_⟩
      rw [List.append_assoc, List.singleton_append, List.splitOn_append_cons_self]

/-- A separator at the end leaves an empty last part. -/
theorem splitOn_concat (a : α) (l : List α) : (l ++ [a]).splitOn a = l.splitOn a ++ [[]] := by
  rw [List.splitOn_append_cons_self, List.splitOn_nil]

end Splitting
end Foundation
