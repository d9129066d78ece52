import Mathlib.Order.Basic
import PingoraProxy.Proxy.Router

/-!
# The documented matching priority

The router documents its priority by classes: an exact host name beats a
wildcard, which beats a route without host names; an exact path beats a prefix,
longer prefixes first, which beats a regex, which beats a match on every path.
The code encodes the classes as numbers.  This module states the priority without
numbers and shows that the encoding respects it on every request.

Main results:

- Theorem {lit}`isSome_slotScore_iff`: the rules that compete for a request are the
  eligible ones.
- Theorem {lit}`bestHostnameScore_eq`: the host name score is the value of the
  best class among the matching patterns.
- Theorem {lit}`bestPathScore_eq`: the path score is the value of the best class
  among the accepting matches.
- Theorem {lit}`rankValue_strictMonoOn`: the values are ordered as the classes.
- Theorem {lit}`findBackend_served_by_highest_rank`: the first eligible rule of
  highest rank serves the request.
-/

namespace PingoraProxy

open Foundation

namespace Router

/-! ## Classes -/

/-- The host name classes, from the least to the most specific. -/
inductive HostClass where
  | matchAll
  | wildcard
  | exact

namespace HostClass

/-- The place of a class in the priority. -/
def level : HostClass → Nat
  | matchAll => 0
  | wildcard => 1
  | exact => 2

theorem level_injective : Function.Injective level := by
  intro a b h
  cases a <;> cases b <;> first | rfl | cases h

instance : LinearOrder HostClass :=
  LinearOrder.lift' level level_injective

theorem lt_iff {a b : HostClass} : a < b ↔ a.level < b.level :=
  Iff.rfl

/-- The class of a host name pattern. -/
def ofPattern (pattern : Str) : HostClass :=
  if Str.startsWith pattern wildcardStart then wildcard else exact

end HostClass

/-- The path classes, from the least to the most specific; prefixes are ordered
by their length. -/
inductive PathClass where
  | matchAll
  | regex
  | pathPrefix (len : Nat)
  | exact

namespace PathClass

/-- The place of a class in the priority. -/
def level : PathClass → Nat ×ₗ Nat
  | matchAll => toLex (0, 0)
  | regex => toLex (1, 0)
  | pathPrefix len => toLex (2, len)
  | exact => toLex (3, 0)

theorem level_injective : Function.Injective level := by
  intro a b h
  cases a <;> cases b <;> simp_all [level]

instance : LinearOrder PathClass :=
  LinearOrder.lift' level level_injective

theorem lt_iff {a b : PathClass} : a < b ↔ a.level < b.level :=
  Iff.rfl

/-- The class of a pattern of the given type. -/
def ofType : PathMatchType → Str → PathClass
  | .exact, _ => exact
  | .pathPrefix, pattern => pathPrefix (Str.len pattern)
  | .regex, _ => regex
  | .unspecified, _ => matchAll

/-- The class of a match; one without a path condition is on every path. -/
def ofMatch (routeMatch : HttpRouteMatch) : PathClass :=
  match routeMatch.path with
  | none => matchAll
  | some pm => ofType (matchTypeOf pm) pm.value

end PathClass

/-! ## Eligible rules and their rank -/

/-- Whether a match accepts a path. -/
def accepts (path : Str) (routeMatch : HttpRouteMatch) : Bool :=
  match routeMatch.path with
  | none => true
  | some pm => pathMatches (matchTypeOf pm) pm.value path

variable (lc : Lowercasing)

/-- A rule may serve a request: its route has no host names or one that matches,
it has a backend, and it has no matches or one that accepts the path. -/
def Eligible (host path : Str) (slot : Slot) : Prop :=
  (slot.1.hostnames = [] ∨ ∃ pattern ∈ slot.1.hostnames, hostnameMatches lc pattern host = true) ∧
    slot.2.backends ≠ [] ∧
    (slot.2.routeMatches = [] ∨ ∃ m ∈ slot.2.routeMatches, accepts path m = true)

instance (host path : Str) (slot : Slot) : Decidable (Eligible lc host path slot) :=
  inferInstanceAs (Decidable ((_ ∨ _) ∧ _ ≠ _ ∧ (_ ∨ _)))

/-- The best class among the host names that match. -/
def hostRank (host : Str) (hostnames : List Str) : HostClass :=
  ((hostnames.filter fun pattern => hostnameMatches lc pattern host).map
    HostClass.ofPattern).max?.getD .matchAll

/-- The best class among the matches that accept the path. -/
def pathRank (path : Str) (routeMatches : List HttpRouteMatch) : PathClass :=
  ((routeMatches.filter (accepts path)).map PathClass.ofMatch).max?.getD .matchAll

/-- The rank of a rule: first by host name, then by path. -/
def rank (host path : Str) (slot : Slot) : HostClass ×ₗ PathClass :=
  toLex (hostRank lc host slot.1.hostnames, pathRank path slot.2.routeMatches)

/-- The rank a rule competes with, if it is eligible. -/
def eligibleRank (host path : Str) (slot : Slot) : Option (HostClass ×ₗ PathClass) :=
  if Eligible lc host path slot then some (rank lc host path slot) else none

/-- A rule is the first eligible one of highest rank in a listing. -/
def IsFirstOfHighestRank (host path : Str) (routes : List HttpRoute) (slot : Slot) : Prop :=
  ∃ before after, slots routes = before ++ slot :: after ∧ Eligible lc host path slot ∧
    (∀ s ∈ before, Eligible lc host path s → rank lc host path s < rank lc host path slot) ∧
    ∀ s ∈ after, Eligible lc host path s → rank lc host path s ≤ rank lc host path slot

/-! ## Rules that compete -/

/-- A maximum over the values of a list exists exactly when some element has one. -/
theorem isSome_max?_filterMap {α : Type} {f : α → Option Nat} {l : List α} :
    (l.filterMap f).max?.isSome = true ↔ ∃ a ∈ l, (f a).isSome = true := by
  rw [Option.isSome_iff_ne_none, ne_eq, List.max?_eq_none_iff, List.filterMap_eq_nil_iff]
  simp only [not_forall, Option.isSome_iff_ne_none]
  constructor
  · rintro ⟨a, ha, hne⟩
    exact ⟨a, ha, hne⟩
  · rintro ⟨a, ha, hne⟩
    exact ⟨a, ha, hne⟩

theorem isSome_hostnameScore (pattern host : Str) :
    (hostnameScore lc pattern host).isSome = hostnameMatches lc pattern host := by
  unfold hostnameScore
  by_cases hmatch : hostnameMatches lc pattern host = true
  · rw [if_neg (by simp [hmatch]), hmatch]
    split_ifs <;> rfl
  · rw [if_pos (by simp [hmatch])]
    exact (Bool.not_eq_true _ ▸ hmatch).symm

theorem isSome_pathMatchScore (routeMatch : HttpRouteMatch) (path : Str) :
    (pathMatchScore routeMatch path).isSome = accepts path routeMatch := by
  unfold pathMatchScore accepts
  cases routeMatch.path with
  | none => rfl
  | some pm =>
      dsimp only
      unfold pathScore
      by_cases hmatch : pathMatches (matchTypeOf pm) pm.value path = true
      · rw [if_neg (by simp [hmatch]), hmatch]
        cases matchTypeOf pm <;> rfl
      · rw [if_pos (by simp [hmatch])]
        exact (Bool.not_eq_true _ ▸ hmatch).symm

/-- A rule competes for a request exactly when it is eligible. -/
theorem isSome_slotScore_iff {host path : Str} {slot : Slot} :
    (slotScore lc host path slot).isSome = true ↔ Eligible lc host path slot := by
  have hhost : (bestHostnameScore lc slot.1.hostnames host).isSome = true ↔
      (slot.1.hostnames = [] ∨
        ∃ pattern ∈ slot.1.hostnames, hostnameMatches lc pattern host = true) := by
    unfold bestHostnameScore
    by_cases hempty : slot.1.hostnames = []
    · simp [hempty]
    · rw [if_neg (by simpa using hempty), isSome_max?_filterMap]
      simp only [isSome_hostnameScore, hempty, false_or]
  have hpath : (bestPathScore slot.2.routeMatches path).isSome = true ↔
      (slot.2.routeMatches = [] ∨ ∃ m ∈ slot.2.routeMatches, accepts path m = true) := by
    unfold bestPathScore
    by_cases hempty : slot.2.routeMatches = []
    · simp [hempty]
    · rw [if_neg (by simpa using hempty), isSome_max?_filterMap]
      simp only [isSome_pathMatchScore, hempty, false_or]
  unfold Eligible slotScore
  rw [← hhost, ← hpath]
  by_cases hbackends : slot.2.backends = []
  · simp [hbackends]
  · rw [if_neg (by simpa using hbackends)]
    cases bestHostnameScore lc slot.1.hostnames host <;>
      cases bestPathScore slot.2.routeMatches path <;> simp [hbackends]

/-! ## The values of the classes -/

/-- The score the code gives to a host name class, for a normalized host. -/
def hostValue (host : Str) : HostClass → Nat
  | .matchAll => 0
  | .wildcard => (host.dropWhile (· ≠ '.')).length + 1
  | .exact => host.length + 1000

/-- The score the code gives to a path class. -/
def pathValue (path : Str) : PathClass → Nat
  | .matchAll => 0
  | .regex => 500
  | .pathPrefix len => 1000 + len
  | .exact => 10000 + Str.len path

/-- The score the code gives to a rank. -/
def rankValue (host path : Str) (r : HostClass ×ₗ PathClass) : Nat ×ₗ Nat :=
  toLex (hostValue (normalizeHostname lc host) (ofLex r).1, pathValue path (ofLex r).2)

/-- The path classes that can occur: a matching prefix is no longer than the path. -/
def validPathClasses (path : Str) : Set PathClass :=
  {c | ∀ len, c = .pathPrefix len → len ≤ Str.len path}

/-- Host name scores are ordered as the classes: a wildcard leaves out at least
the first label of the host, so it never reaches the score of an exact name. -/
theorem hostValue_strictMono (host : Str) : StrictMono (hostValue host) := by
  have hdrop : (host.dropWhile (· ≠ '.')).length ≤ host.length :=
    (List.dropWhile_suffix _).length_le
  intro a b hab
  rw [HostClass.lt_iff] at hab
  cases a <;> cases b <;> simp only [HostClass.level] at hab <;> simp only [hostValue] <;> omega

/-- Path scores are ordered as the classes: a matching prefix is no longer than
the path, so it never reaches the score of an exact path. -/
theorem pathValue_strictMonoOn (path : Str) :
    StrictMonoOn (pathValue path) (validPathClasses path) := by
  intro a ha b hb hab
  rw [PathClass.lt_iff] at hab
  cases a <;> cases b <;>
    simp only [PathClass.level, Prod.Lex.toLex_lt_toLex] at hab <;>
    simp only [pathValue]
  case pathPrefix.exact len =>
      have hlen : len ≤ Str.len path := ha len rfl
      omega
  all_goals omega

/-- The values are ordered as the ranks. -/
theorem rankValue_strictMonoOn (host path : Str) :
    StrictMonoOn (rankValue lc host path) {r | (ofLex r).2 ∈ validPathClasses path} := by
  intro r hr q hq hlt
  rcases r with ⟨rh, rp⟩
  rcases q with ⟨qh, qp⟩
  have hlex : rh < qh ∨ rh = qh ∧ rp < qp := Prod.Lex.toLex_lt_toLex.mp hlt
  unfold rankValue
  rw [Prod.Lex.toLex_lt_toLex]
  rcases hlex with hhost | ⟨rfl, hpath⟩
  · exact Or.inl (hostValue_strictMono _ hhost)
  · exact Or.inr ⟨rfl, pathValue_strictMonoOn path hr hq hpath⟩

/-! ## The scores are the values of the best classes -/

/-- The start of a wildcard has no letters. -/
theorem wildcardStart_below_letters : ∀ c ∈ wildcardStart, c.toNat < 65 := by
  intro c hc
  have hcases : c = '*' ∨ c = '.' := by
    simpa [wildcardStart] using hc
  rcases hcases with rfl | rfl <;> decide

/-- Lowercasing an ASCII pattern does not change whether it is a wildcard. -/
theorem startsWith_wildcardStart_toLowercase {pattern : Str} (hascii : Str.IsAscii pattern) :
    Str.startsWith (lc.toLowercase pattern) wildcardStart =
      Str.startsWith pattern wildcardStart :=
  lc.startsWith_toLowercase hascii wildcardStart_below_letters

/-- An ASCII pattern that is no wildcard matches exactly the host of its own name. -/
theorem hostnameMatches_exact_iff_of_isAscii {pattern host : Str} (hascii : Str.IsAscii pattern)
    (hexact : Str.startsWith pattern wildcardStart = false) :
    hostnameMatches lc pattern host = true ↔
      normalizeHostname lc host = pattern.map Char.toLower := by
  rw [hostnameMatches_exact_iff lc ((startsWith_wildcardStart_toLowercase lc hascii).trans hexact),
    lc.toLowercase_ascii pattern hascii]

/-- A wildcard that matches is one character longer than the part of the host from
its first dot on. -/
theorem length_of_wildcard_match {pattern host : Str} (hascii : Str.IsAscii pattern)
    (hwild : Str.startsWith pattern wildcardStart = true)
    (hmatch : hostnameMatches lc pattern host = true) :
    pattern.length = ((normalizeHostname lc host).dropWhile (· ≠ '.')).length + 1 := by
  have hlower := (startsWith_wildcardStart_toLowercase lc hascii).trans hwild
  rcases Str.startsWith_iff.mp hlower with ⟨rest, hrest⟩
  have hpattern : lc.toLowercase pattern = '*' :: '.' :: rest := hrest.symm
  have hlength : pattern.length = rest.length + 2 := by
    rw [← lc.length_toLowercase hascii, hpattern]
    rfl
  rcases (hostnameMatches_wildcard_iff lc hpattern).mp hmatch with ⟨first, hfirst, -, hdot⟩
  have hkeep : ∀ c ∈ first, decide (c ≠ '.') = true := by
    intro c hc
    exact decide_eq_true fun h => hdot (h ▸ hc)
  have hdrop : (first ++ '.' :: rest).dropWhile (· ≠ '.') = '.' :: rest := by
    rw [List.dropWhile_append_of_pos hkeep]
    rfl
  rw [hfirst, hdrop, List.length_cons]
  omega

/-- An exact host name that matches is as long as the host. -/
theorem length_of_exact_match {pattern host : Str} (hascii : Str.IsAscii pattern)
    (hexact : Str.startsWith pattern wildcardStart = false)
    (hmatch : hostnameMatches lc pattern host = true) :
    pattern.length = (normalizeHostname lc host).length := by
  rw [(hostnameMatches_exact_iff_of_isAscii lc hascii hexact).mp hmatch, List.length_map]

/-- The score of a matching pattern is the value of its class. -/
theorem hostnameScore_eq {pattern : Str} (hascii : Str.IsAscii pattern) (host : Str) :
    hostnameScore lc pattern host =
      if hostnameMatches lc pattern host = true then
        some (hostValue (normalizeHostname lc host) (HostClass.ofPattern pattern))
      else none := by
  unfold hostnameScore HostClass.ofPattern
  by_cases hmatch : hostnameMatches lc pattern host = true
  · by_cases hwild : Str.startsWith pattern wildcardStart = true
    · have hlength := length_of_wildcard_match lc hascii hwild hmatch
      simp [hmatch, hwild, hostValue, Str.len_of_isAscii hascii, hlength]
    · have hlength := length_of_exact_match lc hascii (Bool.not_eq_true _ ▸ hwild) hmatch
      simp [hmatch, hwild, hostValue, Str.len_of_isAscii hascii, hlength]
  · simp [hmatch]

/-- The host name score is the value of the best class that matches. -/
theorem bestHostnameScore_eq {hostnames : List Str} (hascii : ∀ h ∈ hostnames, Str.IsAscii h)
    (host : Str) :
    bestHostnameScore lc hostnames host =
      if hostnames = [] ∨ ∃ h ∈ hostnames, hostnameMatches lc h host = true then
        some (hostValue (normalizeHostname lc host) (hostRank lc host hostnames))
      else none := by
  unfold bestHostnameScore hostRank
  by_cases hempty : hostnames = []
  · subst hempty
    rfl
  · rw [if_neg (by simpa using hempty), FirstBest.max?_filterMap_eq_ite
      (((hostValue_strictMono (normalizeHostname lc host)).strictMonoOn Set.univ).monotoneOn)
      (fun _ _ _ => Set.mem_univ _) (fun h hh => hostnameScore_eq lc (hascii h hh) host)
      HostClass.matchAll]
    simp only [hempty, false_or]

/-- The path class of an accepting match can occur. -/
theorem ofMatch_mem_validPathClasses {path : Str} {routeMatch : HttpRouteMatch}
    (haccepts : accepts path routeMatch = true) :
    PathClass.ofMatch routeMatch ∈ validPathClasses path := by
  intro len hlen
  unfold PathClass.ofMatch at hlen
  unfold accepts at haccepts
  cases hpath : routeMatch.path with
  | none =>
      rw [hpath] at hlen
      cases hlen
  | some pm =>
      rw [hpath] at hlen haccepts
      dsimp only at hlen haccepts
      cases htype : matchTypeOf pm with
      | pathPrefix =>
          rw [htype] at hlen haccepts
          have hbegins : pm.value <+: path := by
            simp only [pathMatches, prefixMatches] at haccepts
            split_ifs at haccepts with heq hstarts
            · rw [beq_iff_eq.mp heq]
            · exact Str.startsWith_iff.mp hstarts
            · exact Str.startsWith_iff.mp hstarts
          rw [← PathClass.pathPrefix.inj hlen]
          exact Str.len_le_of_isPrefix hbegins
      | unspecified | exact | regex =>
          rw [htype] at hlen
          cases hlen

/-- The score of a matching pattern is the value of its class. -/
theorem pathScore_eq (matchType : PathMatchType) (pattern path : Str) :
    pathScore matchType pattern path =
      if pathMatches matchType pattern path = true then
        some (pathValue path (PathClass.ofType matchType pattern))
      else none := by
  unfold pathScore
  by_cases hmatch : pathMatches matchType pattern path = true
  · rw [if_pos hmatch, if_neg (by simp [hmatch])]
    cases matchType with
    | exact =>
        have heq : path = pattern := by simpa [pathMatches] using hmatch
        simp [pathValue, PathClass.ofType, heq]
    | pathPrefix => rfl
    | regex => rfl
    | unspecified => rfl
  · rw [if_neg hmatch, if_pos (by simp [hmatch])]

/-- The score of an accepting match is the value of its class. -/
theorem pathMatchScore_eq (routeMatch : HttpRouteMatch) (path : Str) :
    pathMatchScore routeMatch path =
      if accepts path routeMatch = true then
        some (pathValue path (PathClass.ofMatch routeMatch))
      else none := by
  unfold pathMatchScore accepts PathClass.ofMatch
  cases routeMatch.path with
  | none => rfl
  | some pm => exact pathScore_eq (matchTypeOf pm) pm.value path

/-- The path score is the value of the best class that accepts the path. -/
theorem bestPathScore_eq (routeMatches : List HttpRouteMatch) (path : Str) :
    bestPathScore routeMatches path =
      if routeMatches = [] ∨ ∃ m ∈ routeMatches, accepts path m = true then
        some (pathValue path (pathRank path routeMatches))
      else none := by
  unfold bestPathScore pathRank
  by_cases hempty : routeMatches = []
  · subst hempty
    rfl
  · rw [if_neg (by simpa using hempty), FirstBest.max?_filterMap_eq_ite
      (pathValue_strictMonoOn path).monotoneOn (fun _ _ => ofMatch_mem_validPathClasses)
      (fun m _ => pathMatchScore_eq m path) PathClass.matchAll]
    simp only [hempty, false_or]

/-! ## The priority is respected -/

theorem eligibleRank_eq_some_iff {host path : Str} {slot : Slot} {r : HostClass ×ₗ PathClass} :
    eligibleRank lc host path slot = some r ↔
      Eligible lc host path slot ∧ rank lc host path slot = r := by
  unfold eligibleRank
  split_ifs with h <;> simp [h]

/-- A rule competes exactly when it is eligible, with the value of its rank. -/
theorem slotScore_eq {slot : Slot} (hascii : ∀ pattern ∈ slot.1.hostnames, Str.IsAscii pattern)
    (host path : Str) :
    slotScore lc host path slot =
      (eligibleRank lc host path slot).map (rankValue lc host path) := by
  unfold slotScore eligibleRank
  rw [bestHostnameScore_eq lc hascii, bestPathScore_eq]
  by_cases hbackends : slot.2.backends = []
  · have hnot : ¬Eligible lc host path slot := fun h => h.2.1 hbackends
    simp [hbackends, hnot]
  · rw [if_neg (by simpa using hbackends)]
    by_cases hhost : slot.1.hostnames = [] ∨
        ∃ pattern ∈ slot.1.hostnames, hostnameMatches lc pattern host = true
    · by_cases hpath : slot.2.routeMatches = [] ∨
          ∃ m ∈ slot.2.routeMatches, accepts path m = true
      · have heligible : Eligible lc host path slot := ⟨hhost, hbackends, hpath⟩
        rw [if_pos hhost, if_pos hpath, if_pos heligible]
        rfl
      · have hnot : ¬Eligible lc host path slot := fun h => hpath h.2.2
        rw [if_pos hhost, if_neg hpath, if_neg hnot]
        rfl
    · have hnot : ¬Eligible lc host path slot := fun h => hhost h.1
      rw [if_neg hhost, if_neg hnot]
      rfl

/-- The rank of a rule has a path class that can occur. -/
theorem rank_valid (host path : Str) (slot : Slot) :
    (ofLex (rank lc host path slot)).2 ∈ validPathClasses path := by
  change pathRank path slot.2.routeMatches ∈ validPathClasses path
  unfold pathRank
  cases hbest : ((slot.2.routeMatches.filter (accepts path)).map PathClass.ofMatch).max? with
  | none =>
      intro len hlen
      cases hlen
  | some c =>
      rcases List.mem_map.mp (FirstBest.max?_eq_some_iff.mp hbest).1 with ⟨m, hm, rfl⟩
      exact ofMatch_mem_validPathClasses (List.mem_filter.mp hm).2

/-- The winning rule is the first best one by rank. -/
theorem winner_eq {routes : List HttpRoute}
    (hascii : ∀ route ∈ routes, ∀ pattern ∈ route.hostnames, Str.IsAscii pattern)
    (host path : Str) :
    winner lc routes host path =
      (FirstBest.firstBest (eligibleRank lc host path) (slots routes)).map
        fun best => (best.1, rankValue lc host path best.2) := by
  refine FirstBest.firstBest_map (rankValue_strictMonoOn lc host path) ?_ ?_
  · intro slot _ r hr
    rcases (eligibleRank_eq_some_iff lc).mp hr with ⟨-, rfl⟩
    exact rank_valid lc host path slot
  · intro slot hslot
    exact slotScore_eq lc (hascii slot.1 (mem_slots.mp hslot).1) host path

/-- A first best candidate by rank is a first eligible rule of highest rank. -/
theorem isFirstOfHighestRank_of_isFirstBest {routes : List HttpRoute} {host path : Str}
    {slot : Slot} {r : HostClass ×ₗ PathClass}
    (h : FirstBest.IsFirstBest (eligibleRank lc host path) (slots routes) slot r) :
    IsFirstOfHighestRank lc host path routes slot := by
  rcases h with ⟨before, after, hsplit, hslot, hbefore, hafter⟩
  rcases (eligibleRank_eq_some_iff lc).mp hslot with ⟨heligible, rfl⟩
  refine ⟨before, after, hsplit, heligible, ?_, ?_⟩
  · intro s hs hse
    exact hbefore s hs _ ((eligibleRank_eq_some_iff lc).mpr ⟨hse, rfl⟩)
  · intro s hs hse
    exact hafter s hs _ ((eligibleRank_eq_some_iff lc).mpr ⟨hse, rfl⟩)

/-- The first eligible rule of highest rank serves the request: its backends, and
no others, are handed to the load balancer.  Without an eligible rule nothing is
selected. -/
theorem findBackend_served_by_highest_rank (lb : LoadBalancer) (routes : List HttpRoute)
    (host path : Str)
    (hascii : ∀ route ∈ routes, ∀ pattern ∈ route.hostnames, Str.IsAscii pattern) :
    ((∀ slot ∈ slots routes, ¬Eligible lc host path slot) →
      findBackend lc lb routes host path = (none, lb)) ∧
    ((∃ slot ∈ slots routes, Eligible lc host path slot) →
      ∃ slot, IsFirstOfHighestRank lc host path routes slot ∧
        findBackend lc lb routes host path =
          ((lb.next slot.2.backends).1.map slot.2.backends.get,
            (lb.next slot.2.backends).2)) := by
  have hwinner := winner_eq lc hascii host path
  constructor
  · intro hnone
    have hscan : FirstBest.firstBest (eligibleRank lc host path) (slots routes) = none :=
      FirstBest.firstBest_eq_none_iff.mpr fun slot hslot => if_neg (hnone slot hslot)
    apply findBackend_eq_none
    rw [hwinner, hscan]
    rfl
  · rintro ⟨slot, hslot, heligible⟩
    have hrank : eligibleRank lc host path slot = some (rank lc host path slot) :=
      (eligibleRank_eq_some_iff lc).mpr ⟨heligible, rfl⟩
    rcases FirstBest.exists_firstBest_of_mem hslot hrank with ⟨best, r, hbest, -⟩
    rw [hbest] at hwinner
    exact ⟨best, isFirstOfHighestRank_of_isFirstBest lc
      (FirstBest.isFirstBest_of_firstBest hbest), findBackend_eq_of_winner lc hwinner⟩

/-- Two routes that match one host, by a wildcard and exactly. -/
def wildcardThenExact : List HttpRoute :=
  [makeRoute "wild" ["*.example.com"] [makeRule [] [makeBackend "wild:80" 1]],
    makeRoute "exact" ["foo.example.com"] [makeRule [] [makeBackend "exact:80" 1]]]

/-- The exact host name serves the request although the wildcard comes first. -/
theorem findBackend_exact_beats_wildcard :
    (∀ route ∈ wildcardThenExact, ∀ pattern ∈ route.hostnames, Str.IsAscii pattern) ∧
      (findBackend .ascii (.new (.new 3)) wildcardThenExact "foo.example.com".toList
        "/".toList).1 = some (makeBackend "exact:80" 1) ∧
      ∃ slot, IsFirstOfHighestRank .ascii "foo.example.com".toList "/".toList
          wildcardThenExact slot ∧
        findBackend .ascii (.new (.new 3)) wildcardThenExact "foo.example.com".toList
            "/".toList =
          (((LoadBalancer.new (.new 3)).next slot.2.backends).1.map slot.2.backends.get,
            ((LoadBalancer.new (.new 3)).next slot.2.backends).2) :=
  ⟨by decide, by decide,
    (findBackend_served_by_highest_rank _ _ _ _ _ (by decide)).2 (by decide)⟩

end Router

end PingoraProxy
