import Mathlib.Data.List.Iterate

/-!
# Labelled transition systems

A system has an initial state and a next state for every enabled label.  A path
is a finite run; its labels say in which order the steps were taken.

Main results:

- Theorem {lit}`Path.of_allEnabled`: labels that are enabled one after the other make
  a path.
- Theorem {lit}`Path.preserves`: what every enabled step preserves, every path
  preserves.
- Theorem {lit}`Path.preserves_history`: the same for a property of the state together
  with what the steps have emitted so far.
- Theorem {lit}`Path.component_eq`: a part of the state that every step moves by what it
  emits is at any time the replay of what was emitted.
- Theorem {lit}`Path.consecutive`: the items of a run find a part of the state that only
  they move at one value after the other.
- Theorem {lit}`Path.project`: a part of the state that moves by the steps of another
  system runs through a path of that system.
- Theorem {lit}`Path.inTurn_eq`: where every call takes effect in one step, a run of
  overlapping calls answers as the same calls made one after another.
-/

namespace Foundation

/-- An initial state, the labels enabled in a state, and the state each leads to. -/
structure TransitionSystem (σ ε : Type) where
  init : σ
  enabled : σ → ε → Prop
  next : σ → ε → σ

namespace TransitionSystem

variable {σ ε : Type} (sys : TransitionSystem σ ε)

/-- A finite run from one state to another, with its labels. -/
inductive Path : σ → List ε → σ → Prop where
  | nil (s : σ) : Path s [] s
  | cons {s t : σ} {e : ε} {es : List ε} :
      sys.enabled s e → Path (sys.next s e) es t → Path s (e :: es) t

/-- Some finite run leads from one state to the other. -/
def Reaches (s t : σ) : Prop :=
  ∃ es, sys.Path s es t

/-- Some finite run leads from the initial state here. -/
def Reachable (s : σ) : Prop :=
  sys.Reaches sys.init s

/-- Every label of a list is enabled when its turn comes. -/
def AllEnabled : σ → List ε → Prop
  | _, [] => True
  | s, e :: es => sys.enabled s e ∧ AllEnabled (sys.next s e) es

instance decidableAllEnabled [∀ s e, Decidable (sys.enabled s e)] :
    ∀ s es, Decidable (sys.AllEnabled s es)
  | _, [] => inferInstanceAs (Decidable True)
  | s, e :: es =>
      have : Decidable (sys.AllEnabled (sys.next s e) es) := decidableAllEnabled _ es
      inferInstanceAs (Decidable (_ ∧ _))

variable {sys}

/-- Labels that are enabled one after the other make a path. -/
theorem Path.of_allEnabled {s : σ} {es : List ε} (h : sys.AllEnabled s es) :
    sys.Path s es (es.foldl sys.next s) := by
  induction es generalizing s with
  | nil => exact .nil s
  | cons e es ih => exact .cons h.1 (ih h.2)

/-- What every enabled step preserves, every path preserves. -/
theorem Path.preserves {P : σ → Prop} (hstep : ∀ s e, P s → sys.enabled s e → P (sys.next s e))
    {s t : σ} {es : List ε} (h : sys.Path s es t) (hs : P s) : P t := by
  induction h with
  | nil => exact hs
  | cons henabled _ ih => exact ih (hstep _ _ hs henabled)

/-! ## What a run emits -/

variable {α τ : Type}

/-- What the steps of a run emit, in order. -/
def emitted (sys : TransitionSystem σ ε) (out : σ → ε → Option α) : σ → List ε → List α
  | _, [] => []
  | s, e :: es => (out s e).toList ++ emitted sys out (sys.next s e) es

/-- A property of every state a run passes. -/
def Along (sys : TransitionSystem σ ε) (Q : σ → Prop) : σ → List ε → Prop
  | s, [] => Q s
  | s, e :: es => Q s ∧ Along sys Q (sys.next s e) es

@[simp]
theorem emitted_nil (out : σ → ε → Option α) (s : σ) : sys.emitted out s [] = [] :=
  rfl

@[simp]
theorem emitted_cons (out : σ → ε → Option α) (s : σ) (e : ε) (es : List ε) :
    sys.emitted out s (e :: es) = (out s e).toList ++ sys.emitted out (sys.next s e) es :=
  rfl

/-- Where the labels alone say what is emitted, the states do not matter. -/
theorem emitted_of_label (out : ε → Option α) (s : σ) (es : List ε) :
    sys.emitted (fun _ e => out e) s es = es.filterMap out := by
  induction es generalizing s with
  | nil => rfl
  | cons e es ih =>
      rw [emitted_cons, ih]
      cases hout : out e <;> simp [hout]

/-- What the labels of a path preserve holds of all its states. -/
theorem Path.along {P : σ → Prop} {s t : σ} {es : List ε} (h : sys.Path s es t)
    (hstep : ∀ u, ∀ e ∈ es, P u → sys.enabled u e → P (sys.next u e)) (hs : P s) :
    sys.Along P s es := by
  induction h with
  | nil => exact hs
  | cons henabled _ ih =>
      refine ⟨hs, ih (fun u e he => hstep u e (List.mem_cons_of_mem _ he)) ?_⟩
      exact hstep _ _ List.mem_cons_self hs henabled

/-- A property that another one implies holds of all states of a run with it. -/
theorem Along.imp {P Q : σ → Prop} (hPQ : ∀ s, P s → Q s) {s : σ} {es : List ε}
    (h : sys.Along P s es) : sys.Along Q s es := by
  induction es generalizing s with
  | nil => exact hPQ s h
  | cons e es ih => exact ⟨hPQ s h.1, ih h.2⟩

/-- What every enabled step preserves of the state and of what was emitted before it,
every path preserves; the steps may rely on a property of all states of the path. -/
theorem Path.preserves_history (P : σ → List α → Prop) {Q : σ → Prop}
    (out : σ → ε → Option α)
    (hstep : ∀ s e as, Q s → P s as → sys.enabled s e →
      P (sys.next s e) (as ++ (out s e).toList))
    {s t : σ} {es : List ε} (h : sys.Path s es t) (hQ : sys.Along Q s es) {as : List α}
    (hs : P s as) : P t (as ++ sys.emitted out s es) := by
  induction h generalizing as with
  | nil => rwa [emitted_nil, List.append_nil]
  | cons henabled _ ih =>
      rw [emitted_cons, ← List.append_assoc]
      exact ih hQ.2 (hstep _ _ _ hQ.1 hs henabled)

/-- A part of the state that every step moves by what it emits is at any time the replay
of what was emitted. -/
theorem Path.component_eq (part : σ → τ) (f : τ → α → τ) (out : σ → ε → Option α)
    (hstep : ∀ s e, sys.enabled s e → part (sys.next s e) = (out s e).toList.foldl f (part s))
    {s t : σ} {es : List ε} (h : sys.Path s es t) :
    part t = (sys.emitted out s es).foldl f (part s) := by
  induction h with
  | nil => rfl
  | cons henabled _ ih => rw [ih, emitted_cons, List.foldl_append, hstep _ _ henabled]

/-- A part of the state that only steps with an item move, each by the same map: the
items of a run find it at one value after the other. -/
theorem Path.consecutive (part : σ → τ) (f : τ → τ) (out : σ → ε → Option α) (found : α → τ)
    (hsilent : ∀ s e, sys.enabled s e → out s e = none → part (sys.next s e) = part s)
    (hitem : ∀ s e a, sys.enabled s e → out s e = some a →
      found a = part s ∧ part (sys.next s e) = f (part s))
    {s t : σ} {es : List ε} (h : sys.Path s es t) :
    (sys.emitted out s es).map found =
        List.iterate f (part s) (sys.emitted out s es).length ∧
      part t = f^[(sys.emitted out s es).length] (part s) := by
  induction h with
  | nil => exact ⟨rfl, rfl⟩
  | @cons s t e es henabled _ ih =>
      cases hout : out s e with
      | none =>
          rw [hsilent s e henabled hout] at ih
          simpa only [emitted_cons, hout, Option.toList_none, List.nil_append] using ih
      | some a =>
          rcases hitem s e a henabled hout with ⟨hfound, hmoved⟩
          rw [hmoved] at ih
          simp only [emitted_cons, hout, Option.toList_some, List.singleton_append,
            List.map_cons, List.length_cons, List.iterate, Function.iterate_succ_apply, hfound,
            ih.1]
          exact ⟨trivial, ih.2⟩

/-- What every item has, the items of a run have. -/
theorem forall_mem_emitted {P : α → Prop} (out : σ → ε → Option α)
    (h : ∀ s e a, out s e = some a → P a) {s : σ} {es : List ε} :
    ∀ a ∈ sys.emitted out s es, P a := by
  induction es generalizing s with
  | nil => intro a ha; cases ha
  | cons e es ih =>
      intro a ha
      rcases List.mem_append.mp ha with hnow | hlater
      · exact h s e a (Option.mem_toList.mp hnow)
      · exact ih a hlater

/-- Two kinds of items that look the same in every step look the same in a run. -/
theorem filterMap_emitted_congr {β γ : Type} {out : σ → ε → Option α} {out' : σ → ε → Option β}
    {view : α → Option γ} {view' : β → Option γ}
    (h : ∀ s e, (out s e).bind view = (out' s e).bind view') (s : σ) (es : List ε) :
    (sys.emitted out s es).filterMap view = (sys.emitted out' s es).filterMap view' := by
  have hlist : ∀ {δ : Type} (o : Option δ) (g : δ → Option γ),
      o.toList.filterMap g = (o.bind g).toList := by
    intro δ o g
    cases o with
    | none => rfl
    | some d => cases hg : g d <;> simp [hg]
  induction es generalizing s with
  | nil => rfl
  | cons e es ih =>
      rw [emitted_cons, emitted_cons, List.filterMap_append, List.filterMap_append, hlist, hlist,
        h, ih]

/-- A part of the state that every step leaves or moves by an enabled step of another
system runs through a path of that system. -/
theorem Path.project {σ' ε' : Type} {sys' : TransitionSystem σ' ε'} (part : σ → σ')
    (out : σ → ε → Option ε')
    (hsilent : ∀ s e, sys.enabled s e → out s e = none → part (sys.next s e) = part s)
    (hmoves : ∀ s e e', sys.enabled s e → out s e = some e' →
      sys'.enabled (part s) e' ∧ part (sys.next s e) = sys'.next (part s) e')
    {s t : σ} {es : List ε} (h : sys.Path s es t) :
    sys'.Path (part s) (sys.emitted out s es) (part t) := by
  induction h with
  | nil s => exact .nil (part s)
  | @cons s t e es henabled _ ih =>
      cases hout : out s e with
      | none =>
          rw [hsilent s e henabled hout] at ih
          simpa only [emitted_cons, hout, Option.toList_none, List.nil_append] using ih
      | some e' =>
          rcases hmoves s e e' henabled hout with ⟨henabled', hmoved⟩
          rw [hmoved] at ih
          simpa only [emitted_cons, hout, Option.toList_some, List.singleton_append] using
            Path.cons henabled' ih

/-! ## Calls that take effect in one step -/

variable {κ ρ : Type}

/-- The answers of calls made one after another, and the state after them. -/
def inTurn (call : τ → κ → ρ × τ) : τ → List κ → List ρ × τ
  | x, [] => ([], x)
  | x, q :: qs =>
      ((call x q).1 :: (inTurn call (call x q).2 qs).1, (inTurn call (call x q).2 qs).2)

/-- Every call takes effect in the step that emits its answer: the steps of a run keep
an invariant, a step without an answer leaves the part of the state the calls act on,
and a step with an answer changes it as the call does.  Then the answers of the run are
those of the same calls made one after another. -/
theorem Path.inTurn_eq {I : σ → Prop} (part : σ → τ) (call : τ → κ → ρ × τ)
    (out : σ → ε → Option (κ × ρ)) {s t : σ} {es : List ε} (h : sys.Path s es t)
    (hkeep : ∀ u, ∀ e ∈ es, I u → sys.enabled u e → I (sys.next u e))
    (hsilent : ∀ u, ∀ e ∈ es, I u → sys.enabled u e → out u e = none →
      part (sys.next u e) = part u)
    (hanswer : ∀ u, ∀ e ∈ es, I u → sys.enabled u e → ∀ q a, out u e = some (q, a) →
      call (part u) q = (a, part (sys.next u e)))
    (hs : I s) :
    inTurn call (part s) ((sys.emitted out s es).map Prod.fst) =
      ((sys.emitted out s es).map Prod.snd, part t) := by
  induction h with
  | nil => rfl
  | @cons s t e es henabled _ ih =>
      have hhead := List.mem_cons_self (a := e) (l := es)
      have hrest := ih (fun u e' he => hkeep u e' (List.mem_cons_of_mem _ he))
        (fun u e' he => hsilent u e' (List.mem_cons_of_mem _ he))
        (fun u e' he => hanswer u e' (List.mem_cons_of_mem _ he)) (hkeep s e hhead hs henabled)
      cases hout : out s e with
      | none =>
          rw [hsilent s e hhead hs henabled hout] at hrest
          simpa only [emitted_cons, hout, Option.toList_none, List.nil_append] using hrest
      | some answer =>
          rcases answer with ⟨q, a⟩
          have hcall := hanswer s e hhead hs henabled q a hout
          simp only [emitted_cons, hout, Option.toList_some, List.singleton_append,
            List.map_cons, inTurn, hcall, hrest]

/-- One enabled step reaches its next state. -/
theorem reaches_step {s : σ} {e : ε} (h : sys.enabled s e) : sys.Reaches s (sys.next s e) :=
  ⟨[e], .cons h (.nil _)⟩

end TransitionSystem
end Foundation
