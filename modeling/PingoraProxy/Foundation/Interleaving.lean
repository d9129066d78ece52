import Mathlib.Data.List.Infix

/-!
# Interleavings of sequential programs

A process is a list of atomic steps.  A trace records which process took which
step; it is an interleaving when the steps of each process, read off in order,
are its program.

Main results:

- Theorem {lit}`lastStep_eq_some`: the last step of a kind splits the trace.
- Theorem {lit}`proj_restrict`: reading off the steps on one component commutes
  with reading off the steps of one process.
- Theorem {lit}`Interleaves.restrict`: the steps on one component interleave the
  parts of the programs on that component.
-/

namespace Foundation
namespace Interleaving

variable {ι α β σ : Type*}

/-! ## Traces -/

/-- The state a trace leaves. -/
def exec (step : σ → α → σ) (s : σ) (tr : List (ι × α)) : σ :=
  (tr.map Prod.snd).foldl step s

@[simp]
theorem exec_nil (step : σ → α → σ) (s : σ) : exec step s ([] : List (ι × α)) = s :=
  rfl

@[simp]
theorem exec_cons (step : σ → α → σ) (s : σ) (e : ι × α) (tr : List (ι × α)) :
    exec step s (e :: tr) = exec step (step s e.2) tr :=
  rfl

/-- The part of a trace that acts on one component, with the action on it. -/
def restrict (f : α → Option β) (tr : List (ι × α)) : List (ι × β) :=
  tr.filterMap fun e => (f e.2).map (Prod.mk e.1)

@[simp]
theorem restrict_nil (f : α → Option β) : restrict f ([] : List (ι × α)) = [] :=
  rfl

/-- Forgetting the processes of a restricted trace restricts the steps. -/
theorem map_snd_restrict (f : α → Option β) (tr : List (ι × α)) :
    (restrict f tr).map Prod.snd = (tr.map Prod.snd).filterMap f := by
  simp only [restrict, List.map_filterMap, List.filterMap_map]
  refine List.filterMap_congr fun e _ => ?_
  cases h : f e.2 <;> simp [h]

@[simp]
theorem restrict_append (f : α → Option β) (tr tr' : List (ι × α)) :
    restrict f (tr ++ tr') = restrict f tr ++ restrict f tr' :=
  List.filterMap_append

/-! ## The last step of a kind -/

/-- The last step of a trace that is of a kind, with its process. -/
def lastStep (p : α → Bool) (tr : List (ι × α)) : Option (ι × α) :=
  tr.reverse.find? fun e => p e.2

@[simp]
theorem lastStep_nil (p : α → Bool) : lastStep p ([] : List (ι × α)) = none :=
  rfl

/-- A later step of the kind replaces the last one. -/
theorem lastStep_concat (p : α → Bool) (tr : List (ι × α)) (e : ι × α) :
    lastStep p (tr ++ [e]) = if p e.2 then some e else lastStep p tr := by
  simp only [lastStep, List.reverse_append, List.reverse_singleton, List.singleton_append,
    List.find?_cons]
  split_ifs with h <;> simp [h]

/-- The last step of a kind splits the trace. -/
theorem lastStep_eq_some {p : α → Bool} {tr : List (ι × α)} {e : ι × α}
    (h : lastStep p tr = some e) :
    ∃ before after, tr = before ++ e :: after ∧ p e.2 = true ∧
      ∀ e' ∈ after, p e'.2 = false := by
  rcases List.find?_eq_some_iff_append.mp h with ⟨hp, after, before, hsplit, hafter⟩
  refine ⟨before.reverse, after.reverse, ?_, hp, ?_⟩
  · rw [← List.reverse_reverse tr, hsplit]
    simp
  · intro e' he'
    simpa using hafter e' (List.mem_reverse.mp he')

/-- A trace with a step of a kind has a last one. -/
theorem exists_lastStep {p : α → Bool} {tr : List (ι × α)} {e : ι × α} (hmem : e ∈ tr)
    (hp : p e.2 = true) : ∃ e', lastStep p tr = some e' := by
  rw [← Option.isSome_iff_exists, lastStep, List.find?_isSome]
  exact ⟨e, List.mem_reverse.mpr hmem, hp⟩

/-- The process of the last step of a kind is found on the component the kind acts on. -/
theorem lastStep_restrict (f : α → Option β) (p : β → Bool) (tr : List (ι × α)) :
    (lastStep p (restrict f tr)).map Prod.fst =
      (lastStep (fun a => (f a).any p) tr).map Prod.fst := by
  induction tr using List.reverseRecOn with
  | nil => rfl
  | append_singleton tr e ih =>
      rw [restrict_append, lastStep_concat]
      cases hf : f e.2 with
      | none =>
          have hskip : restrict f [e] = [] := by simp [restrict, hf]
          rw [hskip, List.append_nil, ih]
          rfl
      | some b =>
          have hkeep : restrict f [e] = [(e.1, b)] := by simp [restrict, hf]
          rw [hkeep, lastStep_concat, Option.any_some]
          split_ifs
          · rfl
          · exact ih

/-! ## The programs a trace interleaves -/

variable [DecidableEq ι]

/-- The steps process {lit}`i` takes in a trace, in order. -/
def proj (i : ι) (tr : List (ι × α)) : List α :=
  tr.filterMap fun e => if e.1 = i then some e.2 else none

/-- A trace in which every process runs its whole program. -/
def Interleaves (prog : ι → List α) (tr : List (ι × α)) : Prop :=
  ∀ i, proj i tr = prog i

@[simp]
theorem proj_nil (i : ι) : proj i ([] : List (ι × α)) = [] :=
  rfl

theorem proj_cons (i : ι) (e : ι × α) (tr : List (ι × α)) :
    proj i (e :: tr) = if e.1 = i then e.2 :: proj i tr else proj i tr := by
  by_cases h : e.1 = i <;> simp [proj, h]

@[simp]
theorem proj_cons_self (i : ι) (a : α) (tr : List (ι × α)) :
    proj i ((i, a) :: tr) = a :: proj i tr := by
  simp [proj_cons]

@[simp]
theorem proj_append (i : ι) (tr tr' : List (ι × α)) :
    proj i (tr ++ tr') = proj i tr ++ proj i tr' :=
  List.filterMap_append

/-- A process takes a step exactly when the trace records it. -/
theorem mem_proj {i : ι} {a : α} {tr : List (ι × α)} : a ∈ proj i tr ↔ (i, a) ∈ tr := by
  simp only [proj, List.mem_filterMap, Option.ite_none_right_eq_some, Option.some.injEq]
  constructor
  · rintro ⟨⟨j, b⟩, hmem, rfl, rfl⟩
    exact hmem
  · intro hmem
    exact ⟨(i, a), hmem, rfl, rfl⟩

/-! ## Restricting a trace to one component -/

/-- The steps of one process on one component. -/
theorem proj_restrict (f : α → Option β) (i : ι) (tr : List (ι × α)) :
    proj i (restrict f tr) = (proj i tr).filterMap f := by
  induction tr with
  | nil => rfl
  | cons e tr ih =>
      rcases e with ⟨j, a⟩
      cases hf : f a with
      | none =>
          have hskip : restrict f ((j, a) :: tr) = restrict f tr := by simp [restrict, hf]
          rw [hskip, ih, proj_cons]
          split_ifs <;> simp [hf]
      | some b =>
          have hkeep : restrict f ((j, a) :: tr) = (j, b) :: restrict f tr := by
            simp [restrict, hf]
          rw [hkeep, proj_cons, proj_cons, ih]
          split_ifs <;> simp [hf]

/-- Restricting an interleaving interleaves the restricted programs. -/
theorem Interleaves.restrict {prog : ι → List α} {tr : List (ι × α)}
    (h : Interleaves prog tr) (f : α → Option β) :
    Interleaves (fun i => (prog i).filterMap f) (restrict f tr) := by
  intro i
  rw [proj_restrict, h i]

end Interleaving
end Foundation
