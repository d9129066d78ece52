import Mathlib.Data.List.Permutation
import PingoraProxy.Proxy.EnumerationOrder
import PingoraProxy.Proxy.HostLabels
import PingoraProxy.Proxy.PathSegments

/-!
# Ties between scores

Scores are sums over ranges that overlap, but a matching pattern is bounded by the
request itself.  Two rules therefore tie only when the same pattern decides for both, or
when both are decided by a regex or by no pattern at all.

Main results:

- Theorem {lit}`bestPathScore_eq_iff`: path scores are equal exactly when the same kind
  of match, with the same longest prefix, decides both lists.
- Theorem {lit}`bestHostnameScore_eq_iff`: host name scores are equal exactly when the
  same pattern, up to the case of letters, decides both lists.
- Theorem {lit}`leftToOrder_iff`: the order of the table decides between two rules exactly
  when both scores tie.
- Theorems {lit}`mapOrder_decides_iff` and {lit}`ruleOrder_decides_iff`: when the answer
  depends on the order of two routes in the map, and of two rules in their route.
- Theorem {lit}`scoreTies_iff`: these results for one request.
-/

namespace PingoraProxy

open Foundation

namespace Router

/-! ## What decides a path score -/

/-- Some match of the list has a path condition of the given type with the given
pattern, and the path meets it. -/
def MatchesBy (path : Str) (routeMatches : List HttpRouteMatch) (matchType : PathMatchType)
    (pattern : Str) : Prop :=
  ∃ m ∈ routeMatches, ∃ pm, m.path = some pm ∧ matchTypeOf pm = matchType ∧
    pm.value = pattern ∧ pathMatches matchType pattern path = true

/-- A list of matches matches a path: it is empty, or one of its matches accepts it. -/
def PathsMatch (path : Str) (routeMatches : List HttpRouteMatch) : Prop :=
  routeMatches = [] ∨ ∃ m ∈ routeMatches, accepts path m = true

/-- An exact match on the path is in the list. -/
def DecidedByExact (path : Str) (routeMatches : List HttpRouteMatch) : Prop :=
  MatchesBy path routeMatches .exact path

/-- Without an exact match, a prefix is the longest one that matches. -/
def DecidedByPrefix (path : Str) (routeMatches : List HttpRouteMatch) (pattern : Str) : Prop :=
  ¬DecidedByExact path routeMatches ∧ MatchesBy path routeMatches .pathPrefix pattern ∧
    ∀ other, MatchesBy path routeMatches .pathPrefix other → Str.len other ≤ Str.len pattern

/-- Without an exact match and a prefix, some regex matches. -/
def DecidedByRegex (path : Str) (routeMatches : List HttpRouteMatch) : Prop :=
  ¬DecidedByExact path routeMatches ∧
    (∀ pattern, ¬MatchesBy path routeMatches .pathPrefix pattern) ∧
      ∃ pattern, MatchesBy path routeMatches .regex pattern

/-- No exact match, prefix or regex matches: what is left has no path condition or one
of unspecified or unknown type. -/
def DecidedByNone (path : Str) (routeMatches : List HttpRouteMatch) : Prop :=
  ∀ matchType pattern, MatchesBy path routeMatches matchType pattern → matchType = .unspecified

/-- Two lists of matches are decided alike for a path. -/
def PathTie (path : Str) (ms ms' : List HttpRouteMatch) : Prop :=
  (DecidedByExact path ms ∧ DecidedByExact path ms') ∨
    (∃ pattern, DecidedByPrefix path ms pattern ∧ DecidedByPrefix path ms' pattern) ∨
      (DecidedByRegex path ms ∧ DecidedByRegex path ms') ∨
        (DecidedByNone path ms ∧ DecidedByNone path ms')

theorem PathClass.le_iff {a b : PathClass} : a ≤ b ↔ a.level ≤ b.level :=
  Iff.rfl

/-- No class is above the exact one. -/
theorem PathClass.exact_le_iff {c : PathClass} : exact ≤ c ↔ c = exact := by
  rw [le_iff]
  cases c <;> simp [level, Prod.Lex.toLex_le_toLex]

/-- Above a prefix are the exact class and the prefixes that are no shorter. -/
theorem PathClass.pathPrefix_le_iff {len : Nat} {c : PathClass} :
    pathPrefix len ≤ c ↔ c = exact ∨ ∃ len', len ≤ len' ∧ c = pathPrefix len' := by
  rw [le_iff]
  cases c <;> simp [level, Prod.Lex.toLex_le_toLex]

theorem PathClass.ofType_eq_matchAll_iff {matchType : PathMatchType} {pattern : Str} :
    ofType matchType pattern = matchAll ↔ matchType = .unspecified := by
  cases matchType <;> simp [ofType]

/-- No class is below the least one. -/
theorem PathClass.le_matchAll_iff {c : PathClass} : c ≤ matchAll ↔ c = matchAll := by
  rw [le_iff]
  cases c <;> simp [level, Prod.Lex.toLex_le_toLex]

/-- An exact match is one on the path itself. -/
theorem eq_of_matchesBy_exact {path pattern : Str} {ms : List HttpRouteMatch}
    (h : MatchesBy path ms .exact pattern) : pattern = path := by
  rcases h with ⟨-, -, -, -, -, -, hmatch⟩
  unfold pathMatches at hmatch
  exact (beq_iff_eq.mp hmatch).symm

/-- A prefix that matches begins the path. -/
theorem isPrefix_of_matchesBy {path pattern : Str} {ms : List HttpRouteMatch}
    (h : MatchesBy path ms .pathPrefix pattern) : pattern <+: path := by
  rcases h with ⟨-, -, -, -, -, -, hmatch⟩
  rcases prefixMatches_iff.mp hmatch with rfl | ⟨hbegins, -⟩
  · exact List.prefix_refl _
  · exact hbegins

/-- A match bounds the rank of its list from below. -/
theorem ofType_le_pathRank {path pattern : Str} {ms : List HttpRouteMatch}
    {matchType : PathMatchType} (h : MatchesBy path ms matchType pattern) :
    PathClass.ofType matchType pattern ≤ pathRank path ms := by
  rcases h with ⟨m, hm, pm, hpath, rfl, rfl, hmatch⟩
  have haccepts : accepts path m = true := by
    unfold accepts
    rw [hpath]
    exact hmatch
  have hclass : PathClass.ofMatch m = PathClass.ofType (matchTypeOf pm) pm.value := by
    unfold PathClass.ofMatch
    rw [hpath]
  rw [← hclass]
  exact FirstBest.le_getD_max? hm haccepts PathClass.matchAll

/-- The rank of a list is the class of one of its matches, or the least one. -/
theorem pathRank_cases (path : Str) (ms : List HttpRouteMatch) :
    pathRank path ms = .matchAll ∨ ∃ matchType pattern, MatchesBy path ms matchType pattern ∧
      pathRank path ms = PathClass.ofType matchType pattern := by
  rcases FirstBest.getD_max?_cases (accepts path) PathClass.ofMatch ms PathClass.matchAll with
    hdefault | ⟨m, hm, haccepts, hclass⟩
  · exact Or.inl hdefault
  · change PathClass.ofMatch m = pathRank path ms at hclass
    rw [← hclass]
    unfold accepts at haccepts
    unfold PathClass.ofMatch
    cases hpath : m.path with
    | none => exact Or.inl rfl
    | some pm =>
        rw [hpath] at haccepts
        exact Or.inr ⟨matchTypeOf pm, pm.value, ⟨m, hm, pm, hpath, rfl, rfl, haccepts⟩, rfl⟩

/-- What decides a list whose rank is the given class. -/
def DecidedAs (path : Str) (ms : List HttpRouteMatch) : PathClass → Prop
  | .exact => DecidedByExact path ms
  | .pathPrefix len => ∃ pattern, DecidedByPrefix path ms pattern ∧ Str.len pattern = len
  | .regex => DecidedByRegex path ms
  | .matchAll => DecidedByNone path ms

theorem pathRank_of_decidedByExact {path : Str} {ms : List HttpRouteMatch}
    (h : DecidedByExact path ms) : pathRank path ms = .exact :=
  PathClass.exact_le_iff.mp (ofType_le_pathRank h)

/-- Every list is decided as its rank says: the rank is the class of one of its matches,
and every other match is bounded by it. -/
theorem decidedAs_pathRank (path : Str) (ms : List HttpRouteMatch) :
    DecidedAs path ms (pathRank path ms) := by
  have hbelow : ∀ matchType pattern, MatchesBy path ms matchType pattern →
      PathClass.ofType matchType pattern ≤ pathRank path ms :=
    fun _ _ hmatch => ofType_le_pathRank hmatch
  have hexact : pathRank path ms ≠ .exact → ¬DecidedByExact path ms :=
    fun hne hdecided => hne (pathRank_of_decidedByExact hdecided)
  have hnone : pathRank path ms = .matchAll → DecidedByNone path ms := by
    intro hrank matchType pattern hmatch
    have hle := hbelow matchType pattern hmatch
    rw [hrank, PathClass.le_matchAll_iff] at hle
    exact PathClass.ofType_eq_matchAll_iff.mp hle
  rcases pathRank_cases path ms with hrank | ⟨matchType, pattern, hmatch, hrank⟩
  · have hdecided := hnone hrank
    rwa [hrank]
  · rw [hrank] at hbelow hexact hnone ⊢
    cases matchType with
    | exact => exact eq_of_matchesBy_exact hmatch ▸ hmatch
    | pathPrefix =>
        refine ⟨pattern, ⟨hexact (by simp [PathClass.ofType]), hmatch, fun other hother => ?_⟩, rfl⟩
        have hle := hbelow .pathPrefix other hother
        simpa [PathClass.ofType, PathClass.pathPrefix_le_iff] using hle
    | regex =>
        refine ⟨hexact (by simp [PathClass.ofType]), fun other hother => ?_, pattern, hmatch⟩
        have hle := hbelow .pathPrefix other hother
        simp [PathClass.ofType, PathClass.pathPrefix_le_iff] at hle
    | unspecified => exact hnone rfl

/-- The longest prefix decides: an exact match is excluded, and the other classes are
less than any prefix. -/
theorem pathRank_of_decidedByPrefix {path pattern : Str} {ms : List HttpRouteMatch}
    (h : DecidedByPrefix path ms pattern) :
    pathRank path ms = .pathPrefix (Str.len pattern) := by
  rcases h with ⟨hexact, hmatch, hlongest⟩
  have hdecided := decidedAs_pathRank path ms
  rcases PathClass.pathPrefix_le_iff.mp (ofType_le_pathRank hmatch) with
    hrank | ⟨len, hlen, hrank⟩
  · rw [hrank] at hdecided
    exact absurd hdecided hexact
  · rw [hrank] at hdecided ⊢
    rcases hdecided with ⟨other, hother, rfl⟩
    rw [Nat.le_antisymm (hlongest other hother.2.1) hlen]

theorem pathRank_of_decidedByRegex {path : Str} {ms : List HttpRouteMatch}
    (h : DecidedByRegex path ms) : pathRank path ms = .regex := by
  rcases h with ⟨hexact, hpre, pattern, hmatch⟩
  have hle := ofType_le_pathRank hmatch
  have hdecided := decidedAs_pathRank path ms
  cases hrank : pathRank path ms with
  | exact =>
      rw [hrank] at hdecided
      exact absurd hdecided hexact
  | pathPrefix len =>
      rw [hrank] at hdecided
      rcases hdecided with ⟨other, hother, -⟩
      exact absurd hother.2.1 (hpre other)
  | regex => rfl
  | matchAll =>
      rw [hrank] at hle
      exact absurd (PathClass.le_matchAll_iff.mp hle) nofun

theorem pathRank_of_decidedByNone {path : Str} {ms : List HttpRouteMatch}
    (h : DecidedByNone path ms) : pathRank path ms = .matchAll := by
  rcases pathRank_cases path ms with hnone | ⟨matchType, other, hother, hrank⟩
  · exact hnone
  · rw [hrank, h matchType other hother]
    rfl

/-- Two lists have the same rank for a path exactly when they are decided alike: two
prefixes of one path with the same length are the same. -/
theorem pathRank_eq_iff {path : Str} {ms ms' : List HttpRouteMatch} :
    pathRank path ms = pathRank path ms' ↔ PathTie path ms ms' := by
  constructor
  · intro heq
    have h := decidedAs_pathRank path ms
    have h' := decidedAs_pathRank path ms'
    rw [← heq] at h'
    cases hrank : pathRank path ms with
    | exact =>
        rw [hrank] at h h'
        exact Or.inl ⟨h, h'⟩
    | pathPrefix len =>
        rw [hrank] at h h'
        rcases h with ⟨pattern, h, hlen⟩
        rcases h' with ⟨pattern', h', hlen'⟩
        have hsame : pattern = pattern' := Str.eq_of_isPrefixes_of_len_eq
          (isPrefix_of_matchesBy h.2.1) (isPrefix_of_matchesBy h'.2.1) (hlen.trans hlen'.symm)
        exact Or.inr (Or.inl ⟨pattern, h, hsame ▸ h'⟩)
    | regex =>
        rw [hrank] at h h'
        exact Or.inr (Or.inr (Or.inl ⟨h, h'⟩))
    | matchAll =>
        rw [hrank] at h h'
        exact Or.inr (Or.inr (Or.inr ⟨h, h'⟩))
  · rintro (⟨h, h'⟩ | ⟨pattern, h, h'⟩ | ⟨h, h'⟩ | ⟨h, h'⟩)
    · rw [pathRank_of_decidedByExact h, pathRank_of_decidedByExact h']
    · rw [pathRank_of_decidedByPrefix h, pathRank_of_decidedByPrefix h']
    · rw [pathRank_of_decidedByRegex h, pathRank_of_decidedByRegex h']
    · rw [pathRank_of_decidedByNone h, pathRank_of_decidedByNone h']

/-- The rank of a list is a class that can occur. -/
theorem pathRank_mem_validPathClasses (path : Str) (ms : List HttpRouteMatch) :
    pathRank path ms ∈ validPathClasses path := by
  intro len hlen
  have h := decidedAs_pathRank path ms
  rw [hlen] at h
  rcases h with ⟨pattern, h, rfl⟩
  exact Str.len_le_of_isPrefix (isPrefix_of_matchesBy h.2.1)

/-- The path score of a list that matches is the value of its rank. -/
theorem bestPathScore_of_pathsMatch {path : Str} {ms : List HttpRouteMatch}
    (h : PathsMatch path ms) :
    bestPathScore ms path = some (pathValue path (pathRank path ms)) :=
  (bestPathScore_eq ms path).trans (if_pos h)

/-- Path scores are equal exactly when both lists are decided alike. -/
theorem bestPathScore_eq_iff {path : Str} {ms ms' : List HttpRouteMatch}
    (h : PathsMatch path ms) (h' : PathsMatch path ms') :
    bestPathScore ms path = bestPathScore ms' path ↔ PathTie path ms ms' := by
  rw [bestPathScore_of_pathsMatch h, bestPathScore_of_pathsMatch h', Option.some.injEq,
    (pathValue_strictMonoOn path).injOn.eq_iff (pathRank_mem_validPathClasses path ms)
      (pathRank_mem_validPathClasses path ms'), pathRank_eq_iff]

/-! ## What decides a host name score -/

/-- A list of host names matches a host: it is empty, or one of its patterns matches. -/
def HostsMatch (lc : Lowercasing) (host : Str) (hostnames : List Str) : Prop :=
  hostnames = [] ∨ ∃ pattern ∈ hostnames, hostnameMatches lc pattern host = true

/-- A pattern that is no wildcard and spells the host without its port is in the list. -/
def ListsOwnName (host : Str) (hostnames : List Str) : Prop :=
  ∃ pattern ∈ hostnames, Str.startsWith pattern wildcardStart = false ∧
    SameUpToCase pattern (Str.beforeFirst ':' host)

/-- A wildcard of the list matches the host. -/
def ListsWildcard (lc : Lowercasing) (host : Str) (hostnames : List Str) (pattern : Str) : Prop :=
  pattern ∈ hostnames ∧ Str.startsWith pattern wildcardStart = true ∧
    hostnameMatches lc pattern host = true

/-- Two lists of host names are decided alike for a host. -/
def HostTie (lc : Lowercasing) (host : Str) (hs hs' : List Str) : Prop :=
  (ListsOwnName host hs ∧ ListsOwnName host hs') ∨
    (¬ListsOwnName host hs ∧ ¬ListsOwnName host hs' ∧
      ∃ pattern pattern', ListsWildcard lc host hs pattern ∧ ListsWildcard lc host hs' pattern' ∧
        SameUpToCase pattern pattern') ∨
      (hs = [] ∧ hs' = [])

variable (lc : Lowercasing)

/-- A list has the own name of a host exactly when a pattern that is no wildcard
matches. -/
theorem listsOwnName_iff {host : Str} (hhost : Str.IsAscii host) {hs : List Str}
    (hascii : ∀ h ∈ hs, Str.IsAscii h) :
    ListsOwnName host hs ↔ ∃ pattern ∈ hs, hostnameMatches lc pattern host = true ∧
      HostClass.ofPattern pattern = .exact := by
  refine exists_congr fun pattern => and_congr_right fun hmem => ?_
  unfold HostClass.ofPattern
  by_cases hwild : Str.startsWith pattern wildcardStart = true
  · simp [hwild]
  · have hexact : Str.startsWith pattern wildcardStart = false := Bool.not_eq_true _ ▸ hwild
    rw [if_neg hwild, hostnameMatches_exact_iff_labels lc (hascii pattern hmem) hexact hhost,
      labels_injective.eq_iff]
    have hcolon : ':'.toNat < 65 := by decide
    unfold hostName SameUpToCase
    simp only [Str.beforeFirst_map_toLower hcolon, hexact, true_and, and_true,
      eq_comm]

/-- A matching pattern that is no wildcard is exact. -/
theorem ofPattern_cases (pattern : Str) :
    HostClass.ofPattern pattern = .exact ∨
      (Str.startsWith pattern wildcardStart = true ∧ HostClass.ofPattern pattern = .wildcard) := by
  unfold HostClass.ofPattern
  by_cases hwild : Str.startsWith pattern wildcardStart = true
  · exact Or.inr ⟨hwild, if_pos hwild⟩
  · exact Or.inl (if_neg hwild)

/-- A matching pattern bounds the rank of its list from below. -/
theorem ofPattern_le_hostRank {host pattern : Str} {hs : List Str} (hmem : pattern ∈ hs)
    (hmatch : hostnameMatches lc pattern host = true) :
    HostClass.ofPattern pattern ≤ hostRank lc host hs := by
  refine FirstBest.le_getD_max? hmem ?_ HostClass.matchAll
  exact hmatch

/-- A list with the own name of the host has the greatest rank. -/
theorem hostRank_of_listsOwnName {host : Str} (hhost : Str.IsAscii host) {hs : List Str}
    (hascii : ∀ h ∈ hs, Str.IsAscii h) (hown : ListsOwnName host hs) :
    hostRank lc host hs = .exact := by
  rcases (listsOwnName_iff lc hhost hascii).mp hown with ⟨own, hmem, hmatches, hclass⟩
  have hle := ofPattern_le_hostRank lc hmem hmatches
  rw [hclass] at hle
  cases hrank : hostRank lc host hs with
  | exact => rfl
  | matchAll | wildcard =>
      rw [hrank] at hle
      exact absurd hle (by decide)

/-- Without the own name of the host every pattern that matches is a wildcard. -/
theorem wildcard_of_not_listsOwnName {host : Str} (hhost : Str.IsAscii host) {hs : List Str}
    (hascii : ∀ h ∈ hs, Str.IsAscii h) (hown : ¬ListsOwnName host hs) {pattern : Str}
    (hmem : pattern ∈ hs) (hmatches : hostnameMatches lc pattern host = true) :
    Str.startsWith pattern wildcardStart = true ∧ HostClass.ofPattern pattern = .wildcard := by
  rcases ofPattern_cases pattern with hexact | hwild
  · exact absurd ((listsOwnName_iff lc hhost hascii).mpr
      ⟨pattern, hmem, hmatches, hexact⟩) hown
  · exact hwild

/-- A list whose matching patterns are all wildcards has the rank of a wildcard. -/
theorem hostRank_of_wildcard {host pattern : Str} {hs : List Str}
    (hwild : ∀ other ∈ hs, hostnameMatches lc other host = true →
      HostClass.ofPattern other = .wildcard)
    (hmem : pattern ∈ hs) (hmatches : hostnameMatches lc pattern host = true) :
    hostRank lc host hs = .wildcard := by
  have hle := ofPattern_le_hostRank lc hmem hmatches
  rw [hwild pattern hmem hmatches] at hle
  rcases FirstBest.getD_max?_cases (fun h => hostnameMatches lc h host)
    HostClass.ofPattern hs HostClass.matchAll with hdefault | ⟨other, hmem', hmatches', hclass⟩
  · change hostRank lc host hs = .matchAll at hdefault
    rw [hdefault] at hle
    exact absurd hle (by decide)
  · change HostClass.ofPattern other = hostRank lc host hs at hclass
    rw [← hclass, hwild other hmem' hmatches']

/-- The rank of a list of host names is decided by what it lists. -/
theorem hostRank_decided {host : Str} (hhost : Str.IsAscii host) {hs : List Str}
    (hascii : ∀ h ∈ hs, Str.IsAscii h) (hmatch : HostsMatch lc host hs) :
    (ListsOwnName host hs ∧ hostRank lc host hs = .exact) ∨
      (¬ListsOwnName host hs ∧ (∃ pattern, ListsWildcard lc host hs pattern) ∧
        hostRank lc host hs = .wildcard) ∨
        (hs = [] ∧ hostRank lc host hs = .matchAll) := by
  rcases hmatch with rfl | ⟨pattern, hmem, hmatches⟩
  · exact Or.inr (Or.inr ⟨rfl, rfl⟩)
  · by_cases hown : ListsOwnName host hs
    · exact Or.inl ⟨hown, hostRank_of_listsOwnName lc hhost hascii hown⟩
    · have hwild : ∀ other ∈ hs, hostnameMatches lc other host = true →
          HostClass.ofPattern other = .wildcard := fun other hmem' hmatches' =>
        (wildcard_of_not_listsOwnName lc hhost hascii hown hmem' hmatches').2
      have hstart := (wildcard_of_not_listsOwnName lc hhost hascii hown hmem hmatches).1
      exact Or.inr (Or.inl ⟨hown, ⟨pattern, hmem, hstart, hmatches⟩,
        hostRank_of_wildcard lc hwild hmem hmatches⟩)

theorem not_listsOwnName_nil (host : Str) : ¬ListsOwnName host [] := by
  rintro ⟨pattern, hmem, -⟩
  exact List.not_mem_nil hmem

theorem not_listsWildcard_nil (host pattern : Str) : ¬ListsWildcard lc host [] pattern :=
  fun h => List.not_mem_nil h.1

/-- Two lists have the same rank for a host exactly when they are decided alike: at most
one wildcard matches a host, up to the case of letters. -/
theorem hostRank_eq_iff {host : Str} (hhost : Str.IsAscii host) {hs hs' : List Str}
    (hascii : ∀ h ∈ hs, Str.IsAscii h) (hascii' : ∀ h ∈ hs', Str.IsAscii h)
    (h : HostsMatch lc host hs) (h' : HostsMatch lc host hs') :
    hostRank lc host hs = hostRank lc host hs' ↔ HostTie lc host hs hs' := by
  have hdecided := hostRank_decided lc hhost hascii h
  have hdecided' := hostRank_decided lc hhost hascii' h'
  constructor
  · intro heq
    rw [← heq] at hdecided'
    rcases hdecided with ⟨hown, hrank⟩ | ⟨hown, ⟨pattern, hwild⟩, hrank⟩ | ⟨hnil, hrank⟩
    · simp only [hrank, reduceCtorEq, and_false, or_false, and_true] at hdecided'
      exact Or.inl ⟨hown, hdecided'⟩
    · simp only [hrank, reduceCtorEq, and_false, or_false, false_or, and_true] at hdecided'
      rcases hdecided' with ⟨hown', pattern', hwild'⟩
      have hsame := wildcard_unique lc (hascii _ hwild.1) (hascii' _ hwild'.1) hwild.2.1
        hwild'.2.1 hwild.2.2 hwild'.2.2
      exact Or.inr (Or.inl ⟨hown, hown', pattern, pattern', hwild, hwild', hsame⟩)
    · simp only [hrank, reduceCtorEq, and_false, false_or, and_true] at hdecided'
      exact Or.inr (Or.inr ⟨hnil, hdecided'⟩)
  · rintro (⟨hown, hown'⟩ | ⟨hown, hown', pattern, pattern', hwild, hwild', -⟩ | ⟨rfl, rfl⟩)
    · have hne : hs ≠ [] := fun hnil => not_listsOwnName_nil host (hnil ▸ hown)
      have hne' : hs' ≠ [] := fun hnil => not_listsOwnName_nil host (hnil ▸ hown')
      simp only [hown, hne, not_true_eq_false, false_and, or_false, true_and] at hdecided
      simp only [hown', hne', not_true_eq_false, false_and, or_false, true_and] at hdecided'
      rw [hdecided, hdecided']
    · have hne : hs ≠ [] := fun hnil => not_listsWildcard_nil lc host pattern (hnil ▸ hwild)
      have hne' : hs' ≠ [] := fun hnil => not_listsWildcard_nil lc host pattern' (hnil ▸ hwild')
      simp only [hown, hne, false_and, false_or, or_false] at hdecided
      simp only [hown', hne', false_and, false_or, or_false] at hdecided'
      rw [hdecided.2.2, hdecided'.2.2]
    · rfl

/-- The host name score of a list that matches is the value of its rank. -/
theorem bestHostnameScore_of_hostsMatch {host : Str} {hs : List Str}
    (hascii : ∀ h ∈ hs, Str.IsAscii h) (h : HostsMatch lc host hs) :
    bestHostnameScore lc hs host =
      some (hostValue (normalizeHostname lc host) (hostRank lc host hs)) :=
  (bestHostnameScore_eq lc hascii host).trans (if_pos h)

/-- Host name scores are equal exactly when both lists are decided alike. -/
theorem bestHostnameScore_eq_iff {host : Str} (hhost : Str.IsAscii host) {hs hs' : List Str}
    (hascii : ∀ h ∈ hs, Str.IsAscii h) (hascii' : ∀ h ∈ hs', Str.IsAscii h)
    (h : HostsMatch lc host hs) (h' : HostsMatch lc host hs') :
    bestHostnameScore lc hs host = bestHostnameScore lc hs' host ↔ HostTie lc host hs hs' := by
  rw [bestHostnameScore_of_hostsMatch lc hascii h, bestHostnameScore_of_hostsMatch lc hascii' h',
    Option.some.injEq, (hostValue_strictMono (normalizeHostname lc host)).injective.eq_iff,
    hostRank_eq_iff lc hhost hascii hascii' h h']

/-! ## What is left to the order of the table -/

/-- A route with one rule alone. -/
def alone (slot : Slot) : HttpRoute :=
  { slot.1 with rules := [slot.2] }

/-- In a table of two rules the one listed first serves the request, in either order. -/
def LeftToOrder (host path : Str) (slot slot' : Slot) : Prop :=
  (winner lc [alone slot, alone slot'] host path).map Prod.fst = some (alone slot, slot.2) ∧
    (winner lc [alone slot', alone slot] host path).map Prod.fst = some (alone slot', slot'.2)

/-- The score of a rule does not depend on the other rules of its route. -/
theorem slotScore_alone (host path : Str) (slot : Slot) :
    slotScore lc host path (alone slot, slot.2) = slotScore lc host path slot :=
  rfl

/-- Of two rules the one listed first serves the request unless it scores less. -/
theorem winner_pair {host path : Str} {slot slot' : Slot} {x y : Nat ×ₗ Nat}
    (hx : slotScore lc host path slot = some x) (hy : slotScore lc host path slot' = some y) :
    winner lc [alone slot, alone slot'] host path =
      if x < y then some ((alone slot', slot'.2), y) else some ((alone slot, slot.2), x) := by
  have hslots : slots [alone slot, alone slot'] = [(alone slot, slot.2), (alone slot', slot'.2)] :=
    rfl
  rw [← slotScore_alone] at hx hy
  unfold winner
  rw [hslots, FirstBest.firstBest_pair hx hy]

/-- The order decides between two rules that compete exactly when their scores are equal. -/
theorem leftToOrder_iff_score {host path : Str} {slot slot' : Slot} {x y : Nat ×ₗ Nat}
    (hx : slotScore lc host path slot = some x) (hy : slotScore lc host path slot' = some y) :
    LeftToOrder lc host path slot slot' ↔ x = y := by
  unfold LeftToOrder
  rw [winner_pair lc hx hy, winner_pair lc hy hx]
  -- a rule that is the other one has its score
  have hscore : (alone slot, slot.2) = (alone slot', slot'.2) → x = y := by
    intro hsame
    rw [← slotScore_alone, hsame, slotScore_alone, hy] at hx
    exact (Option.some.inj hx).symm
  constructor
  · rintro ⟨hfirst, hsecond⟩
    rcases lt_trichotomy x y with hlt | heq | hlt
    · rw [if_pos hlt, Option.map_some, Option.some.injEq] at hfirst
      exact hscore hfirst.symm
    · exact heq
    · rw [if_pos hlt, Option.map_some, Option.some.injEq] at hsecond
      exact hscore hsecond
  · rintro rfl
    simp only [lt_irrefl, if_false, Option.map_some, and_self]

/-- The score of an eligible rule. -/
theorem slotScore_of_eligible {host path : Str} {slot : Slot}
    (hascii : ∀ h ∈ slot.1.hostnames, Str.IsAscii h) (h : Eligible lc host path slot) :
    slotScore lc host path slot =
      some (rankValue lc host path (rank lc host path slot)) := by
  rw [slotScore_eq lc hascii, (eligibleRank_eq_some_iff lc).mpr ⟨h, rfl⟩]
  rfl

/-- The scores of two eligible rules are equal exactly when both parts tie. -/
theorem rankValue_eq_iff {host path : Str} (hhost : Str.IsAscii host) {slot slot' : Slot}
    (hascii : ∀ h ∈ slot.1.hostnames, Str.IsAscii h)
    (hascii' : ∀ h ∈ slot'.1.hostnames, Str.IsAscii h)
    (h : Eligible lc host path slot) (h' : Eligible lc host path slot') :
    rankValue lc host path (rank lc host path slot) =
        rankValue lc host path (rank lc host path slot') ↔
      HostTie lc host slot.1.hostnames slot'.1.hostnames ∧
        PathTie path slot.2.routeMatches slot'.2.routeMatches := by
  rw [(rankValue_strictMonoOn lc host path).injOn.eq_iff (rank_valid lc host path slot)
      (rank_valid lc host path slot'),
    ← hostRank_eq_iff lc hhost hascii hascii' h.1 h'.1, ← pathRank_eq_iff]
  unfold rank
  rw [toLex_inj, Prod.mk.injEq]

/-- The order of the table decides between two eligible rules exactly when both scores
tie. -/
theorem leftToOrder_iff {host path : Str} (hhost : Str.IsAscii host) {slot slot' : Slot}
    (hascii : ∀ h ∈ slot.1.hostnames, Str.IsAscii h)
    (hascii' : ∀ h ∈ slot'.1.hostnames, Str.IsAscii h)
    (h : Eligible lc host path slot) (h' : Eligible lc host path slot') :
    LeftToOrder lc host path slot slot' ↔
      HostTie lc host slot.1.hostnames slot'.1.hostnames ∧
        PathTie path slot.2.routeMatches slot'.2.routeMatches := by
  rw [leftToOrder_iff_score lc (slotScore_of_eligible lc hascii h)
      (slotScore_of_eligible lc hascii' h'), rankValue_eq_iff lc hhost hascii hascii' h h']

/-! ## What the order decides about the answer -/

/-- A rule alone in the table serves what it qualifies for. -/
theorem winner_alone {host path : Str} {slot : Slot} {x : Nat ×ₗ Nat}
    (hx : slotScore lc host path slot = some x) :
    winner lc [alone slot] host path = some ((alone slot, slot.2), x) := by
  rw [← slotScore_alone] at hx
  exact FirstBest.consider_first hx

/-- Of two rules the one listed first answers, as it would alone, unless it scores less. -/
theorem findBackend_pair {routes : List HttpRoute} {host path : Str} {slot slot' : Slot}
    {x y : Nat ×ₗ Nat} (hslots : slots routes = [slot, slot'])
    (hx : slotScore lc host path slot = some x) (hy : slotScore lc host path slot' = some y)
    (lb : LoadBalancer) :
    findBackend lc lb routes host path =
      if x < y then findBackend lc lb [alone slot'] host path
      else findBackend lc lb [alone slot] host path := by
  have hwinner : winner lc routes host path = if x < y then some (slot', y) else some (slot, x) := by
    unfold winner
    rw [hslots, FirstBest.firstBest_pair hx hy]
  by_cases hlt : x < y
  · rw [if_pos hlt] at hwinner ⊢
    rw [findBackend_eq_of_winner lc hwinner, findBackend_eq_of_winner lc (winner_alone lc hy)]
  · rw [if_neg hlt] at hwinner ⊢
    rw [findBackend_eq_of_winner lc hwinner, findBackend_eq_of_winner lc (winner_alone lc hx)]

/-- The answers to two listings of the same two rules differ exactly when the scores are
equal and the rules answer differently on their own. -/
theorem findBackend_differs_iff_score {routes routes' : List HttpRoute} {host path : Str}
    {slot slot' other other' : Slot} {x y : Nat ×ₗ Nat}
    (hslots : slots routes = [slot, slot']) (hslots' : slots routes' = [other', other])
    (hsame : alone other = alone slot ∧ other.2 = slot.2)
    (hsame' : alone other' = alone slot' ∧ other'.2 = slot'.2)
    (hx : slotScore lc host path slot = some x) (hy : slotScore lc host path slot' = some y)
    (lb : LoadBalancer) :
    (findBackend lc lb routes host path).1 ≠ (findBackend lc lb routes' host path).1 ↔
      x = y ∧ (findBackend lc lb [alone slot] host path).1 ≠
        (findBackend lc lb [alone slot'] host path).1 := by
  have hx' : slotScore lc host path other = some x := by
    rw [← slotScore_alone, hsame.1, hsame.2, slotScore_alone, hx]
  have hy' : slotScore lc host path other' = some y := by
    rw [← slotScore_alone, hsame'.1, hsame'.2, slotScore_alone, hy]
  rw [findBackend_pair lc hslots hx hy, findBackend_pair lc hslots' hy' hx', hsame.1, hsame'.1]
  rcases lt_trichotomy x y with hlt | rfl | hlt
  · rw [if_pos hlt, if_neg hlt.le.not_gt]
    exact iff_of_false (fun hne => hne rfl) (fun h => hlt.ne h.1)
  · simp only [lt_irrefl, if_false, true_and]
  · rw [if_neg hlt.le.not_gt, if_pos hlt]
    exact iff_of_false (fun hne => hne rfl) (fun h => hlt.ne' h.1)

/-- The listings of a table of two routes are its two orders. -/
theorem sameUnderEveryOrder_pair {lb : LoadBalancer} {route route' : HttpRoute}
    {host path : Str} (hids : route.id ≠ route'.id) :
    SameUnderEveryOrder lc lb [route, route'] host path ↔
      (findBackend lc lb [route, route'] host path).1 =
        (findBackend lc lb [route', route] host path).1 := by
  have hlists : ∀ l, (httpTable [route, route']).Lists l ↔ l.Perm [route, route'] := fun l =>
    ConcurrentMap.lists_tableOf HttpRoute.id (by simp [hids])
  have horders : ∀ l, l.Perm [route, route'] ↔ l = [route, route'] ∨ l = [route', route] :=
    fun _ => List.perm_pair
  constructor
  · intro hsame
    exact hsame _ _ ((hlists _).mpr (List.Perm.refl _)) ((hlists _).mpr (List.Perm.swap _ _ _))
  · intro heq l l' hl hl'
    rcases (horders l).mp ((hlists l).mp hl) with rfl | rfl <;>
      rcases (horders l').mp ((hlists l').mp hl') with rfl | rfl
    · rfl
    · exact heq
    · exact heq.symm
    · rfl

/-- The order of the map decides about the answer of two eligible rules of different
routes exactly when both parts tie and the rules answer differently on their own. -/
theorem mapOrder_decides_iff {host path : Str} (hhost : Str.IsAscii host) {slot slot' : Slot}
    (hascii : ∀ h ∈ slot.1.hostnames, Str.IsAscii h)
    (hascii' : ∀ h ∈ slot'.1.hostnames, Str.IsAscii h)
    (h : Eligible lc host path slot) (h' : Eligible lc host path slot')
    (hids : slot.1.id ≠ slot'.1.id) (lb : LoadBalancer) :
    ¬SameUnderEveryOrder lc lb [alone slot, alone slot'] host path ↔
      (HostTie lc host slot.1.hostnames slot'.1.hostnames ∧
        PathTie path slot.2.routeMatches slot'.2.routeMatches) ∧
        (findBackend lc lb [alone slot] host path).1 ≠
          (findBackend lc lb [alone slot'] host path).1 := by
  have hx := slotScore_of_eligible lc hascii h
  have hy := slotScore_of_eligible lc hascii' h'
  rw [← slotScore_alone] at hx hy
  have hids' : (alone slot).id ≠ (alone slot').id := hids
  rw [sameUnderEveryOrder_pair lc hids', ← rankValue_eq_iff lc hhost hascii hascii' h h']
  exact findBackend_differs_iff_score lc rfl rfl ⟨rfl, rfl⟩ ⟨rfl, rfl⟩ hx hy lb

/-- The order of the rules decides about the answer of two eligible rules of one route
exactly when the paths tie and the rules answer differently on their own. -/
theorem ruleOrder_decides_iff {host path : Str} (hhost : Str.IsAscii host) {route : HttpRoute}
    {rule rule' : HttpRouteRule} (hascii : ∀ h ∈ route.hostnames, Str.IsAscii h)
    (h : Eligible lc host path (route, rule)) (h' : Eligible lc host path (route, rule'))
    (lb : LoadBalancer) :
    (findBackend lc lb [{ route with rules := [rule, rule'] }] host path).1 ≠
        (findBackend lc lb [{ route with rules := [rule', rule] }] host path).1 ↔
      PathTie path rule.routeMatches rule'.routeMatches ∧
        (findBackend lc lb [alone (route, rule)] host path).1 ≠
          (findBackend lc lb [alone (route, rule')] host path).1 := by
  have hx := slotScore_of_eligible lc hascii h
  have hy := slotScore_of_eligible lc hascii h'
  have hhosts : HostTie lc host route.hostnames route.hostnames :=
    (hostRank_eq_iff lc hhost hascii hascii h.1 h.1).mp rfl
  have hties := rankValue_eq_iff lc hhost hascii hascii h h'
  rw [and_iff_right hhosts] at hties
  rw [← hties]
  have hslots : ∀ first second : HttpRouteRule,
      slots [{ route with rules := [first, second] }] =
        [({ route with rules := [first, second] }, first),
          ({ route with rules := [first, second] }, second)] := fun _ _ => rfl
  exact findBackend_differs_iff_score lc (hslots rule rule') (hslots rule' rule) ⟨rfl, rfl⟩
    ⟨rfl, rfl⟩ hx hy lb

/-! ## Ties for one request -/

/-- For one request: path scores tie exactly when both lists are decided alike for the
path, host name scores exactly when both are for the host, and the order of the table
decides between two eligible rules exactly when both tie.  It then decides about the
answer exactly when the rules answer differently on their own, as the order of the map
for rules of different routes, and as the order of the rules within one route. -/
theorem scoreTies_iff {host : Str} (hhost : Str.IsAscii host) (path : Str) :
    (∀ ms ms', PathsMatch path ms → PathsMatch path ms' →
      (bestPathScore ms path = bestPathScore ms' path ↔ PathTie path ms ms')) ∧
    (∀ hs hs', (∀ h ∈ hs, Str.IsAscii h) → (∀ h ∈ hs', Str.IsAscii h) →
      HostsMatch lc host hs → HostsMatch lc host hs' →
      (bestHostnameScore lc hs host = bestHostnameScore lc hs' host ↔
        HostTie lc host hs hs')) ∧
    (∀ slot slot' : Slot, (∀ h ∈ slot.1.hostnames, Str.IsAscii h) →
      (∀ h ∈ slot'.1.hostnames, Str.IsAscii h) →
      Eligible lc host path slot → Eligible lc host path slot' →
      (LeftToOrder lc host path slot slot' ↔
        HostTie lc host slot.1.hostnames slot'.1.hostnames ∧
          PathTie path slot.2.routeMatches slot'.2.routeMatches)) ∧
    (∀ slot slot' : Slot, (∀ h ∈ slot.1.hostnames, Str.IsAscii h) →
      (∀ h ∈ slot'.1.hostnames, Str.IsAscii h) →
      Eligible lc host path slot → Eligible lc host path slot' → slot.1.id ≠ slot'.1.id →
      ∀ lb, (¬SameUnderEveryOrder lc lb [alone slot, alone slot'] host path ↔
        (HostTie lc host slot.1.hostnames slot'.1.hostnames ∧
          PathTie path slot.2.routeMatches slot'.2.routeMatches) ∧
          (findBackend lc lb [alone slot] host path).1 ≠
            (findBackend lc lb [alone slot'] host path).1)) ∧
    ∀ (route : HttpRoute) (rule rule' : HttpRouteRule), (∀ h ∈ route.hostnames, Str.IsAscii h) →
      Eligible lc host path (route, rule) → Eligible lc host path (route, rule') →
      ∀ lb, ((findBackend lc lb [{ route with rules := [rule, rule'] }] host path).1 ≠
          (findBackend lc lb [{ route with rules := [rule', rule] }] host path).1 ↔
        PathTie path rule.routeMatches rule'.routeMatches ∧
          (findBackend lc lb [alone (route, rule)] host path).1 ≠
            (findBackend lc lb [alone (route, rule')] host path).1) := by
  refine ⟨fun ms ms' h h' => bestPathScore_eq_iff h h', ?_, ?_, ?_, ?_⟩
  · intro hs hs' hascii hascii' h h'
    exact bestHostnameScore_eq_iff lc hhost hascii hascii' h h'
  · intro slot slot' hascii hascii' h h'
    exact leftToOrder_iff lc hhost hascii hascii' h h'
  · intro slot slot' hascii hascii' h h' hids lb
    exact mapOrder_decides_iff lc hhost hascii hascii' h h' hids lb
  · intro route rule rule' hascii h h' lb
    exact ruleOrder_decides_iff lc hhost hascii h h' lb

/-- A rule for paths under {lit}`/x`. -/
def ruleUnderX (address : String) : HttpRouteRule :=
  makeRule [makeRouteMatch (some (makePathMatch .pathPrefix "/x"))] [makeBackend address 1]

/-- A route with such a rule. -/
def slotUnderX (id hostname address : String) : Slot :=
  (makeRoute id [hostname] [ruleUnderX address], ruleUnderX address)

/-- A wildcard and an exact pattern of one host do not tie; two spellings of one exact
pattern do, and then the order of the map or of the rules decides. -/
theorem scoreTies_spellings :
    ¬HostTie .ascii "foo.com".toList ["*.com".toList] ["foo.com".toList] ∧
      PathTie "/x".toList (ruleUnderX "a:1").routeMatches (ruleUnderX "b:1").routeMatches ∧
      LeftToOrder .ascii "foo.com".toList "/x".toList (slotUnderX "a" "foo.com" "a:1")
        (slotUnderX "b" "FOO.com" "b:1") ∧
      ¬SameUnderEveryOrder .ascii (.new (.new 1)) [alone (slotUnderX "a" "foo.com" "a:1"),
        alone (slotUnderX "b" "FOO.com" "b:1")] "foo.com".toList "/x".toList ∧
      (findBackend .ascii (.new (.new 1))
          [makeRoute "a" ["foo.com"] [ruleUnderX "a:1", ruleUnderX "b:1"]]
          "foo.com".toList "/x".toList).1 ≠
        (findBackend .ascii (.new (.new 1))
          [makeRoute "a" ["foo.com"] [ruleUnderX "b:1", ruleUnderX "a:1"]]
          "foo.com".toList "/x".toList).1 := by
  have hhost : Str.IsAscii "foo.com".toList := by decide
  rcases scoreTies_iff .ascii hhost "/x".toList with ⟨hpaths, hhosts, horder, hmap, hrules⟩
  have hpath : PathTie "/x".toList (ruleUnderX "a:1").routeMatches
      (ruleUnderX "b:1").routeMatches :=
    (hpaths _ _ (Or.inr (by decide)) (Or.inr (by decide))).mp rfl
  have hspellings : HostTie .ascii "foo.com".toList ["foo.com".toList] ["FOO.com".toList] :=
    (hhosts _ _ (by decide) (by decide) (Or.inr (by decide)) (Or.inr (by decide))).mp (by decide)
  have ha : Eligible .ascii "foo.com".toList "/x".toList (slotUnderX "a" "foo.com" "a:1") :=
    ⟨Or.inr (by decide), by decide, Or.inr (by decide)⟩
  have hb : Eligible .ascii "foo.com".toList "/x".toList (slotUnderX "b" "FOO.com" "b:1") :=
    ⟨Or.inr (by decide), by decide, Or.inr (by decide)⟩
  have hb' : Eligible .ascii "foo.com".toList "/x".toList (slotUnderX "a" "foo.com" "b:1") :=
    ⟨Or.inr (by decide), by decide, Or.inr (by decide)⟩
  refine ⟨fun htie => ?_, hpath, ?_, ?_, ?_⟩
  · have hscores := (hhosts ["*.com".toList] ["foo.com".toList] (by decide) (by decide)
      (Or.inr (by decide)) (Or.inr (by decide))).mpr htie
    revert hscores
    decide
  · exact (horder _ _ (by decide) (by decide) ha hb).mpr ⟨hspellings, hpath⟩
  · exact (hmap _ _ (by decide) (by decide) ha hb (by decide) _).mpr
      ⟨⟨hspellings, hpath⟩, by decide⟩
  · exact (hrules (makeRoute "a" ["foo.com"] []) _ _ (by decide) ha hb' _).mpr
      ⟨hpath, by decide⟩

end Router

end PingoraProxy
