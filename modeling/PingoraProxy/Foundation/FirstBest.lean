import Mathlib.Data.List.Induction
import Mathlib.Data.List.Perm.Basic
import Mathlib.Order.Monotone.Basic
import Mathlib.Data.Prod.Lex
import Mathlib.Order.MinMax

/-!
# Scanning for the first best candidate

A scan over a list keeps an incumbent and replaces it only by a strictly better
candidate; candidates without a score are skipped.  Its result is the first
candidate of greatest score.

Main results:

- Theorem {lit}`firstBest_eq_some_iff`: the scan returns exactly the first
  candidate of greatest score.
- Theorem {lit}`firstBest_map`: only the order of the scores matters.
- Theorem {lit}`max?_filterMap_eq`: the greatest value of a list is the value of
  its greatest class.
- Theorem {lit}`firstBest_flatMap`: scanning a concatenation of blocks is
  scanning the blocks by their own best scores.
- Theorem {lit}`firstBest_replace`: candidates may be replaced by blocks that reach the
  same score.
- Theorem {lit}`firstBest_map_snd_perm`: the greatest score does not depend on the
  order of the candidates.
-/

namespace Foundation
namespace FirstBest

variable {α β γ : Type*} [LinearOrder β] [LinearOrder γ]

/-- One step of the scan: a strictly better candidate replaces the incumbent. -/
def consider (score : α → Option β) (best : Option (α × β)) (a : α) : Option (α × β) :=
  match score a with
  | none => best
  | some s =>
      match best with
      | none => some (a, s)
      | some (b, t) => if t < s then some (a, s) else some (b, t)

/-- The incumbent left after scanning a list from its head. -/
def firstBest (score : α → Option β) (l : List α) : Option (α × β) :=
  l.foldl (consider score) none

/-- A candidate is the first of greatest score: everything before it scores
less, everything after it at most as much. -/
def IsFirstBest (score : α → Option β) (l : List α) (a : α) (s : β) : Prop :=
  ∃ before after, l = before ++ a :: after ∧ score a = some s ∧
    (∀ b ∈ before, ∀ t, score b = some t → t < s) ∧
    ∀ b ∈ after, ∀ t, score b = some t → t ≤ s

/-! ## First best candidates -/

/-- No candidate scores more than the first best one. -/
theorem IsFirstBest.le {score : α → Option β} {l : List α} {a b : α} {s t : β}
    (h : IsFirstBest score l a s) (hb : b ∈ l) (ht : score b = some t) : t ≤ s := by
  rcases h with ⟨before, after, rfl, ha, hbefore, hafter⟩
  rcases List.mem_append.mp hb with hb | hb
  · exact (hbefore b hb t ht).le
  · rcases List.mem_cons.mp hb with rfl | hb
    · exact (Option.some.inj (ht.symm.trans ha)).le
    · exact hafter b hb t ht

/-- The first best candidate is one of the candidates, with the score recorded. -/
theorem IsFirstBest.mem {score : α → Option β} {l : List α} {a : α} {s : β}
    (h : IsFirstBest score l a s) : a ∈ l ∧ score a = some s := by
  rcases h with ⟨before, after, rfl, ha, -, -⟩
  exact ⟨by simp, ha⟩

/-- Appending candidates that score at most as much keeps the first best one. -/
theorem IsFirstBest.append {score : α → Option β} {l l' : List α} {a : α} {s : β}
    (h : IsFirstBest score l a s) (hle : ∀ b ∈ l', ∀ t, score b = some t → t ≤ s) :
    IsFirstBest score (l ++ l') a s := by
  rcases h with ⟨before, after, rfl, ha, hbefore, hafter⟩
  refine ⟨before, after ++ l', by simp, ha, hbefore, ?_⟩
  intro b hb t ht
  rcases List.mem_append.mp hb with hb | hb
  · exact hafter b hb t ht
  · exact hle b hb t ht

/-- A last candidate that beats all earlier ones is the first best one. -/
theorem isFirstBest_concat {score : α → Option β} {l : List α} {a : α} {s : β}
    (ha : score a = some s) (hlt : ∀ b ∈ l, ∀ t, score b = some t → t < s) :
    IsFirstBest score (l ++ [a]) a s :=
  ⟨l, [], rfl, ha, hlt, by simp⟩

/-! ## The scan returns the first best candidate -/

@[simp]
theorem firstBest_nil (score : α → Option β) : firstBest score [] = none :=
  rfl

theorem firstBest_append (score : α → Option β) (l l' : List α) :
    firstBest score (l ++ l') = l'.foldl (consider score) (firstBest score l) :=
  List.foldl_append

theorem firstBest_concat (score : α → Option β) (l : List α) (a : α) :
    firstBest score (l ++ [a]) = consider score (firstBest score l) a := by
  simp [firstBest]

theorem consider_unscored {score : α → Option β} {a : α} (ha : score a = none)
    (best : Option (α × β)) : consider score best a = best := by
  simp [consider, ha]

theorem consider_first {score : α → Option β} {a : α} {s : β} (ha : score a = some s) :
    consider score none a = some (a, s) := by
  simp [consider, ha]

theorem consider_better {score : α → Option β} {a b : α} {s t : β} (ha : score a = some s)
    (hlt : t < s) : consider score (some (b, t)) a = some (a, s) := by
  simp [consider, ha, hlt]

/-- An incumbent survives a candidate that scores at most as much. -/
theorem consider_of_le {score : α → Option β} {a b : α} {t : β}
    (hle : ∀ s, score a = some s → s ≤ t) : consider score (some (b, t)) a = some (b, t) := by
  cases ha : score a with
  | none => exact consider_unscored ha _
  | some s => simp [consider, ha, not_lt.mpr (hle s ha)]

/-- An incumbent survives a list of candidates that score at most as much. -/
theorem foldl_consider_of_le {score : α → Option β} {l : List α} {a : α} {s : β}
    (hle : ∀ b ∈ l, ∀ t, score b = some t → t ≤ s) :
    l.foldl (consider score) (some (a, s)) = some (a, s) := by
  induction l with
  | nil => rfl
  | cons b l ih =>
      rw [List.foldl_cons, consider_of_le (hle b (by simp))]
      exact ih fun c hc => hle c (by simp [hc])

/-- The scan returns nothing exactly when no candidate scores. -/
theorem firstBest_eq_none_iff {score : α → Option β} {l : List α} :
    firstBest score l = none ↔ ∀ a ∈ l, score a = none := by
  induction l using List.reverseRecOn with
  | nil => simp
  | append_singleton l x ih =>
      rw [firstBest_concat]
      cases hx : score x with
      | none => simpa [consider_unscored hx, ih, or_imp, forall_and] using fun _ => hx
      | some s =>
          have hsome : consider score (firstBest score l) x ≠ none := by
            unfold consider
            rw [hx]
            cases firstBest score l with
            | none => simp
            | some best => dsimp only; split_ifs <;> simp
          simp [hsome, hx]

/-- The scan's result is a first best candidate. -/
theorem isFirstBest_of_firstBest {score : α → Option β} {l : List α} {a : α} {s : β}
    (h : firstBest score l = some (a, s)) : IsFirstBest score l a s := by
  induction l using List.reverseRecOn generalizing a s with
  | nil => simp at h
  | append_singleton l x ih =>
      rw [firstBest_concat] at h
      cases hx : score x with
      | none =>
          rw [consider_unscored hx] at h
          exact (ih h).append (by simp [hx])
      | some t =>
          cases hbest : firstBest score l with
          | none =>
              rw [hbest, consider_first hx, Option.some.injEq, Prod.mk.injEq] at h
              rcases h with ⟨rfl, rfl⟩
              have hnone := firstBest_eq_none_iff.mp hbest
              exact isFirstBest_concat hx fun b hb u hu => by simp [hnone b hb] at hu
          | some best =>
              rcases best with ⟨b, u⟩
              have hb := ih hbest
              rw [hbest] at h
              rcases lt_or_ge u t with hlt | hge
              · rw [consider_better hx hlt, Option.some.injEq, Prod.mk.injEq] at h
                rcases h with ⟨rfl, rfl⟩
                exact isFirstBest_concat hx fun c hc v hv => (hb.le hc hv).trans_lt hlt
              · have hle : ∀ v, score x = some v → v ≤ u := by
                  intro v hv
                  exact (Option.some.inj (hv.symm.trans hx)) ▸ hge
                rw [consider_of_le hle, Option.some.injEq, Prod.mk.injEq] at h
                rcases h with ⟨rfl, rfl⟩
                exact hb.append (by simpa using hle)

/-- The scan returns exactly the first candidate of greatest score. -/
theorem firstBest_eq_some_iff {score : α → Option β} {l : List α} {a : α} {s : β} :
    firstBest score l = some (a, s) ↔ IsFirstBest score l a s := by
  constructor
  · exact isFirstBest_of_firstBest
  · rintro ⟨before, after, rfl, ha, hbefore, hafter⟩
    have hstep : consider score (firstBest score before) a = some (a, s) := by
      cases hbest : firstBest score before with
      | none => exact consider_first ha
      | some best =>
          rcases (isFirstBest_of_firstBest hbest).mem with ⟨hmem, hscore⟩
          exact consider_better ha (hbefore _ hmem _ hscore)
    rw [firstBest_append, List.foldl_cons, hstep]
    exact foldl_consider_of_le hafter

/-- A scoring candidate is matched or beaten by the scan's result. -/
theorem exists_firstBest_of_mem {score : α → Option β} {l : List α} {b : α} {t : β}
    (hb : b ∈ l) (ht : score b = some t) :
    ∃ a s, firstBest score l = some (a, s) ∧ t ≤ s := by
  cases h : firstBest score l with
  | none =>
      rw [firstBest_eq_none_iff.mp h b hb] at ht
      simp at ht
  | some best => exact ⟨best.1, best.2, rfl, (isFirstBest_of_firstBest h).le hb ht⟩

/-! ## What the result depends on -/

/-- Appending candidates that do not beat the result changes nothing. -/
theorem firstBest_append_of_le {score : α → Option β} {l l' : List α} {a : α} {s : β}
    (h : firstBest score l = some (a, s))
    (hle : ∀ b ∈ l', ∀ t, score b = some t → t ≤ s) :
    firstBest score (l ++ l') = some (a, s) :=
  firstBest_eq_some_iff.mpr ((isFirstBest_of_firstBest h).append hle)

/-- The greatest score does not depend on the order of the candidates. -/
theorem firstBest_map_snd_perm {score : α → Option β} {l l' : List α} (hperm : l.Perm l') :
    (firstBest score l).map Prod.snd = (firstBest score l').map Prod.snd := by
  cases h : firstBest score l with
  | none =>
      have h' : firstBest score l' = none := by
        rw [firstBest_eq_none_iff] at h ⊢
        exact fun a ha => h a (hperm.mem_iff.mpr ha)
      rw [h']
  | some best =>
      have hbest := isFirstBest_of_firstBest h
      rcases exists_firstBest_of_mem (hperm.mem_iff.mp hbest.mem.1) hbest.mem.2 with
        ⟨a', s', h', hle⟩
      have hbest' := isFirstBest_of_firstBest h'
      have hle' : s' ≤ best.2 := hbest.le (hperm.mem_iff.mpr hbest'.mem.1) hbest'.mem.2
      rw [h', Option.map_some, Option.map_some, le_antisymm hle hle']

/-- Any candidate of greatest score comes first in some order of the candidates. -/
theorem exists_perm_firstBest {score : α → Option β} {l : List α} {a : α} {s : β}
    (ha : a ∈ l) (hs : score a = some s)
    (hmax : ∀ b ∈ l, ∀ t, score b = some t → t ≤ s) :
    ∃ l', l'.Perm l ∧ firstBest score l' = some (a, s) := by
  rcases List.append_of_mem ha with ⟨before, after, rfl⟩
  refine ⟨a :: (before ++ after), List.perm_middle.symm, firstBest_eq_some_iff.mpr ?_⟩
  refine ⟨[], before ++ after, rfl, hs, by simp, ?_⟩
  intro b hb
  exact hmax b (List.perm_middle.mem_iff.mpr (by simp [List.mem_append.mp hb]))

/-- Only the order of the scores matters: a strictly monotone recoding of them
keeps the chosen candidate. -/
theorem firstBest_map {score : α → Option β} {rank : α → Option γ} {f : γ → β} {l : List α}
    {valid : Set γ} (hf : StrictMonoOn f valid)
    (hvalid : ∀ a ∈ l, ∀ r, rank a = some r → r ∈ valid)
    (hscore : ∀ a ∈ l, score a = (rank a).map f) :
    firstBest score l = (firstBest rank l).map fun best => (best.1, f best.2) := by
  cases h : firstBest rank l with
  | none =>
      have hnone := firstBest_eq_none_iff.mp h
      exact firstBest_eq_none_iff.mpr fun a ha => by simp [hscore a ha, hnone a ha]
  | some best =>
      rcases best with ⟨a, r⟩
      rcases isFirstBest_of_firstBest h with ⟨before, after, rfl, ha, hbefore, hafter⟩
      have hr : r ∈ valid := hvalid a (by simp) r ha
      refine firstBest_eq_some_iff.mpr
        ⟨before, after, rfl, by simp [hscore a (by simp), ha], ?_, ?_⟩
      · intro b hb t ht
        have hbmem : b ∈ before ++ a :: after := by simp [hb]
        rw [hscore b hbmem, Option.map_eq_some_iff] at ht
        rcases ht with ⟨q, hq, rfl⟩
        exact hf (hvalid b hbmem q hq) hr (hbefore b hb q hq)
      · intro b hb t ht
        have hbmem : b ∈ before ++ a :: after := by simp [hb]
        rw [hscore b hbmem, Option.map_eq_some_iff] at ht
        rcases ht with ⟨q, hq, rfl⟩
        exact hf.monotoneOn (hvalid b hbmem q hq) hr (hafter b hb q hq)

/-- The maximum of a list is a member that no member exceeds. -/
theorem max?_eq_some_iff {l : List β} {m : β} :
    l.max? = some m ↔ m ∈ l ∧ ∀ b ∈ l, b ≤ m := by
  have : Std.LawfulOrderMax β := { max_eq_or := max_choice }
  exact List.max?_eq_some_iff

/-- The greatest value over the accepted elements of a list is the value of their
greatest class. -/
theorem max?_filterMap_eq {accept : α → Bool} {score : α → Option β} {cls : α → γ} {value : γ → β}
    {valid : Set γ} {l : List α} (hmono : MonotoneOn value valid)
    (hvalid : ∀ a ∈ l, accept a = true → cls a ∈ valid)
    (hscore : ∀ a ∈ l, score a = if accept a = true then some (value (cls a)) else none) :
    (l.filterMap score).max? = ((l.filter accept).map cls).max?.map value := by
  have hmem : ∀ v, v ∈ l.filterMap score ↔ ∃ a ∈ l, accept a = true ∧ value (cls a) = v := by
    intro v
    rw [List.mem_filterMap]
    refine exists_congr fun a => and_congr_right fun ha => ?_
    rw [hscore a ha]
    by_cases hacc : accept a = true <;> simp [hacc]
  cases hbest : ((l.filter accept).map cls).max? with
  | none =>
      have hnone : l.filter accept = [] := by simpa using hbest
      rw [Option.map_none, List.max?_eq_none_iff, List.eq_nil_iff_forall_not_mem]
      intro v hv
      rcases (hmem v).mp hv with ⟨a, ha, hacc, -⟩
      exact List.filter_eq_nil_iff.mp hnone a ha hacc
  | some c =>
      rcases max?_eq_some_iff.mp hbest with ⟨hc, hmax⟩
      rcases List.mem_map.mp hc with ⟨a, ha, rfl⟩
      rcases List.mem_filter.mp ha with ⟨hal, hacc⟩
      rw [Option.map_some, max?_eq_some_iff]
      refine ⟨(hmem _).mpr ⟨a, hal, hacc, rfl⟩, ?_⟩
      intro v hv
      rcases (hmem v).mp hv with ⟨b, hb, hbacc, rfl⟩
      have hle : cls b ≤ cls a :=
        hmax _ (List.mem_map_of_mem (List.mem_filter.mpr ⟨hb, hbacc⟩))
      exact hmono (hvalid b hb hbacc) (hvalid a hal hacc) hle

/-- With a default class for the case that nothing is accepted, the greatest value is
missing exactly when nothing is accepted. -/
theorem max?_filterMap_eq_ite {accept : α → Bool} {score : α → Option β} {cls : α → γ}
    {value : γ → β} {valid : Set γ} {l : List α} (hmono : MonotoneOn value valid)
    (hvalid : ∀ a ∈ l, accept a = true → cls a ∈ valid)
    (hscore : ∀ a ∈ l, score a = if accept a = true then some (value (cls a)) else none)
    (default : γ) :
    (l.filterMap score).max? =
      if ∃ a ∈ l, accept a = true then
        some (value (((l.filter accept).map cls).max?.getD default))
      else none := by
  rw [max?_filterMap_eq hmono hvalid hscore]
  by_cases hsome : ∃ a ∈ l, accept a = true
  · have hne : (l.filter accept).map cls ≠ [] := by
      simpa [List.filter_eq_nil_iff] using hsome
    rcases Option.ne_none_iff_exists'.mp (mt List.max?_eq_none_iff.mp hne) with ⟨c, hc⟩
    rw [if_pos hsome, hc]
    rfl
  · have hnil : l.filter accept = [] := by
      simpa [List.filter_eq_nil_iff] using hsome
    rw [if_neg hsome, hnil]
    rfl

/-- No accepted element has a class above the greatest one. -/
theorem le_getD_max? {accept : α → Bool} {cls : α → γ} {l : List α} {a : α} (ha : a ∈ l)
    (hacc : accept a = true) (default : γ) :
    cls a ≤ ((l.filter accept).map cls).max?.getD default := by
  have hmem : cls a ∈ (l.filter accept).map cls :=
    List.mem_map_of_mem (List.mem_filter.mpr ⟨ha, hacc⟩)
  cases hbest : ((l.filter accept).map cls).max? with
  | none => simp [List.max?_eq_none_iff.mp hbest] at hmem
  | some c => exact (max?_eq_some_iff.mp hbest).2 _ hmem

/-- The greatest class is the default one or the class of an accepted element. -/
theorem getD_max?_cases (accept : α → Bool) (cls : α → γ) (l : List α) (default : γ) :
    ((l.filter accept).map cls).max?.getD default = default ∨
      ∃ a ∈ l, accept a = true ∧ cls a = ((l.filter accept).map cls).max?.getD default := by
  cases hbest : ((l.filter accept).map cls).max? with
  | none => exact Or.inl rfl
  | some c =>
      rcases List.mem_map.mp (max?_eq_some_iff.mp hbest).1 with ⟨a, ha, hcls⟩
      rcases List.mem_filter.mp ha with ⟨hal, hacc⟩
      exact Or.inr ⟨a, hal, hacc, hcls⟩

/-! ## Scanning two candidates -/

/-- Of two candidates the second is taken only when it scores more. -/
theorem firstBest_pair {score : α → Option β} {a b : α} {s t : β} (ha : score a = some s)
    (hb : score b = some t) :
    firstBest score [a, b] = if s < t then some (b, t) else some (a, s) := by
  have hlist : firstBest score [a, b] = consider score (some (a, s)) b := by
    simp [firstBest, consider_first ha]
  rw [hlist]
  by_cases hlt : s < t
  · rw [if_pos hlt, consider_better hb hlt]
  · rw [if_neg hlt]
    exact consider_of_le fun u hu => Option.some.inj (hb.symm.trans hu) ▸ not_lt.mp hlt

/-! ## Scanning blocks of candidates -/

variable {δ : Type*}

/-- The best score a block of candidates reaches by itself. -/
def blockScore (score : α → Option β) (block : δ → List α) (d : δ) : Option β :=
  (firstBest score (block d)).map Prod.snd

/-- Scanning a concatenation of blocks picks the first block of greatest own
score and then scans this block. -/
theorem firstBest_flatMap (score : α → Option β) (block : δ → List α) (ds : List δ) :
    firstBest score (ds.flatMap block) =
      (firstBest (blockScore score block) ds).bind fun best => firstBest score (block best.1) := by
  cases h : firstBest (blockScore score block) ds with
  | none =>
      refine firstBest_eq_none_iff.mpr fun a ha => ?_
      rcases List.mem_flatMap.mp ha with ⟨d, hd, ha⟩
      have hblock := firstBest_eq_none_iff.mp h d hd
      rw [blockScore, Option.map_eq_none_iff] at hblock
      exact firstBest_eq_none_iff.mp hblock a ha
  | some best =>
      rcases best with ⟨d, s⟩
      rcases isFirstBest_of_firstBest h with ⟨before, after, rfl, hd, hbefore, hafter⟩
      rw [blockScore, Option.map_eq_some_iff] at hd
      rcases hd with ⟨⟨a, s'⟩, hbest, rfl⟩
      rcases isFirstBest_of_firstBest hbest with ⟨before', after', hsplit, ha, hbefore', hafter'⟩
      rw [Option.bind_some, hbest, firstBest_eq_some_iff]
      refine ⟨before.flatMap block ++ before', after' ++ after.flatMap block, ?_, ha, ?_, ?_⟩
      · simp [hsplit]
      · intro b hb t ht
        rcases List.mem_append.mp hb with hb | hb
        · rcases List.mem_flatMap.mp hb with ⟨e, he, hb⟩
          rcases exists_firstBest_of_mem hb ht with ⟨c, u, hc, hle⟩
          exact hle.trans_lt (hbefore e he u (by simp [blockScore, hc]))
        · exact hbefore' b hb t ht
      · intro b hb t ht
        rcases List.mem_append.mp hb with hb | hb
        · exact hafter' b hb t ht
        · rcases List.mem_flatMap.mp hb with ⟨e, he, hb⟩
          rcases exists_firstBest_of_mem hb ht with ⟨c, u, hc, hle⟩
          exact hle.trans (hafter e he u (by simp [blockScore, hc]))

/-- The score of the first best candidate is the greatest score of all. -/
theorem map_snd_firstBest (score : α → Option β) (l : List α) :
    (firstBest score l).map Prod.snd = (l.filterMap score).max? := by
  cases h : firstBest score l with
  | none =>
      rw [Option.map_none, eq_comm, List.max?_eq_none_iff, List.filterMap_eq_nil_iff]
      exact firstBest_eq_none_iff.mp h
  | some best =>
      have hbest := isFirstBest_of_firstBest h
      rw [Option.map_some, eq_comm, max?_eq_some_iff]
      refine ⟨List.mem_filterMap.mpr ⟨best.1, hbest.mem⟩, fun t ht => ?_⟩
      rcases List.mem_filterMap.mp ht with ⟨b, hb, hscore⟩
      exact hbest.le hb hscore

/-- The greatest pair of two scores taken independently, in the lexicographic order, is the
pair of the greatest ones. -/
theorem max?_lex_product {ε : Type*} (as : List δ) (bs : List ε) (f : δ → Option β)
    (g : ε → Option γ) :
    (as.flatMap fun a => bs.filterMap fun b =>
        (f a).bind fun x => (g b).map fun y => toLex (x, y)).max? =
      (as.filterMap f).max?.bind fun x => (bs.filterMap g).max?.map fun y => toLex (x, y) := by
  have hmem : ∀ p : β ×ₗ γ, p ∈ (as.flatMap fun a => bs.filterMap fun b =>
      (f a).bind fun x => (g b).map fun y => toLex (x, y)) ↔
      (ofLex p).1 ∈ as.filterMap f ∧ (ofLex p).2 ∈ bs.filterMap g := by
    intro p
    simp only [List.mem_flatMap, List.mem_filterMap, Option.bind_eq_some_iff,
      Option.map_eq_some_iff]
    constructor
    · rintro ⟨a, ha, b, hb, x, hx, y, hy, rfl⟩
      exact ⟨⟨a, ha, hx⟩, b, hb, hy⟩
    · rintro ⟨⟨a, ha, hx⟩, b, hb, hy⟩
      exact ⟨a, ha, b, hb, _, hx, _, hy, rfl⟩
  cases hx : (as.filterMap f).max? with
  | none =>
      rw [Option.bind_none, List.max?_eq_none_iff, List.eq_nil_iff_forall_not_mem]
      intro p hp
      rw [hmem, List.max?_eq_none_iff.mp hx] at hp
      cases hp.1
  | some x =>
      cases hy : (bs.filterMap g).max? with
      | none =>
          rw [Option.bind_some, Option.map_none, List.max?_eq_none_iff,
            List.eq_nil_iff_forall_not_mem]
          intro p hp
          rw [hmem, List.max?_eq_none_iff.mp hy] at hp
          cases hp.2
      | some y =>
          rcases max?_eq_some_iff.mp hx with ⟨hxmem, hxmax⟩
          rcases max?_eq_some_iff.mp hy with ⟨hymem, hymax⟩
          rw [Option.bind_some, Option.map_some, max?_eq_some_iff]
          refine ⟨(hmem _).mpr ⟨hxmem, hymem⟩, fun p hp => ?_⟩
          rcases (hmem p).mp hp with ⟨hpx, hpy⟩
          have hle : (ofLex p).1 ≤ x ∧ (ofLex p).2 ≤ y := ⟨hxmax _ hpx, hymax _ hpy⟩
          exact Prod.Lex.toLex_mono (Prod.mk_le_mk.mpr hle)

/-- Only the scores of the candidates matter for the scan. -/
theorem firstBest_congr {score score' : α → Option β} {l : List α}
    (h : ∀ a ∈ l, score a = score' a) : firstBest score l = firstBest score' l := by
  unfold firstBest
  refine List.foldl_ext _ _ _ fun best a ha => ?_
  unfold consider
  rw [h a ha]

/-- Candidates without a score play no part in the scan. -/
theorem firstBest_filter (score : α → Option β) (l : List α) :
    firstBest score (l.filter fun a => (score a).isSome) = firstBest score l := by
  induction l using List.reverseRecOn with
  | nil => rfl
  | append_singleton l a ih =>
      rw [List.filter_append, firstBest_concat]
      cases ha : score a with
      | none =>
          have hskip : [a].filter (fun a => (score a).isSome) = [] := by simp [ha]
          rw [hskip, List.append_nil, ih, consider_unscored ha]
      | some s =>
          have hkeep : [a].filter (fun a => (score a).isSome) = [a] := by simp [ha]
          rw [hkeep, firstBest_concat, ih]

/-- Candidates may be replaced by blocks that reach the same score: what is visible of the
first best one stays, if all of a block show it. -/
theorem firstBest_replace {ε : Type*} {score : α → Option β} {score' : δ → Option β}
    {block : δ → List α} (view : α → ε) (view' : δ → ε) {ds : List δ}
    (hscore : ∀ d ∈ ds, blockScore score block d = score' d)
    (hview : ∀ d ∈ ds, ∀ a ∈ block d, view a = view' d) :
    (firstBest score (ds.flatMap block)).map (fun best => (view best.1, best.2)) =
      (firstBest score' ds).map fun best => (view' best.1, best.2) := by
  rw [firstBest_flatMap, firstBest_congr hscore]
  cases h : firstBest score' ds with
  | none => rfl
  | some best =>
      rcases best with ⟨d, s⟩
      rcases (isFirstBest_of_firstBest h).mem with ⟨hd, hs⟩
      rw [← hscore d hd, blockScore, Option.map_eq_some_iff] at hs
      rcases hs with ⟨⟨a, t⟩, ha, rfl⟩
      have hmem := (isFirstBest_of_firstBest ha).mem.1
      simp only [Option.bind_some, ha, Option.map_some, hview d hd a hmem]

end FirstBest
end Foundation
