import PingoraProxy.Foundation.Splitting
import PingoraProxy.Proxy.RoutePriority

/-!
# Host names as labels

The code compares host names by suffixes, lengths and a search for a dot.  In terms
of the labels between dots, a wildcard asks for one more label than its own and any
other pattern for the same labels.  At most one wildcard matches a host, up to the
case of letters.

Main results:

- Theorem {lit}`hostnameMatches_wildcard_iff_labels`: a wildcard matches exactly one
  extra label.
- Theorem {lit}`hostnameMatches_exact_iff_labels`: any other pattern matches exactly
  its own labels.
- Theorem {lit}`wildcard_unique`: two wildcards that match one host are the same up to
  the case of letters.
- Theorem {lit}`hostnameMatches_by_labels`: host name matching and its scores in terms of
  labels.
-/

namespace PingoraProxy

open Foundation

namespace Router

/-! ## Labels -/

/-- The labels of a host name: its parts between dots, empty ones included. -/
def labels (name : Str) : List Str :=
  name.splitOn '.'

/-- The name of an ASCII host: its lowercase text without everything from the first
colon on. -/
def hostName (host : Str) : Str :=
  Str.beforeFirst ':' (host.map Char.toLower)

/-- Two texts differ at most in the case of ASCII letters. -/
def SameUpToCase (s t : Str) : Prop :=
  s.map Char.toLower = t.map Char.toLower

instance (s t : Str) : Decidable (SameUpToCase s t) :=
  inferInstanceAs (Decidable (_ = _))

theorem labels_injective : Function.Injective labels :=
  Splitting.splitOn_injective '.'

theorem labels_eq_cons_iff {name label rest : Str} :
    labels name = label :: labels rest ↔ name = label ++ '.' :: rest ∧ '.' ∉ label :=
  Splitting.splitOn_eq_cons_iff

variable (lc : Lowercasing)

/-- It makes no difference whether the port is cut before or after lowercasing. -/
theorem normalizeHostname_of_isAscii {host : Str} (hhost : Str.IsAscii host) :
    normalizeHostname lc host = hostName host := by
  unfold normalizeHostname hostName
  rw [lc.toLowercase_ascii _ (hhost.beforeFirst ':'), Str.beforeFirst_map_toLower (by decide)]

/-- Lowercasing a wildcard lowercases what follows its start. -/
theorem toLowercase_wildcard {rest : Str} (hrest : Str.IsAscii rest) :
    lc.toLowercase (wildcardStart ++ rest) = '*' :: '.' :: rest.map Char.toLower := by
  have hascii : Str.IsAscii (wildcardStart ++ rest) :=
    Str.isAscii_append.mpr ⟨by decide, hrest⟩
  rw [lc.toLowercase_ascii _ hascii, List.map_append]
  rfl

/-! ## Matching by labels -/

/-- A wildcard matches exactly one extra label, which is not empty. -/
theorem hostnameMatches_wildcard_iff_labels {rest host : Str} (hrest : Str.IsAscii rest)
    (hhost : Str.IsAscii host) :
    hostnameMatches lc (wildcardStart ++ rest) host = true ↔
      ∃ label, label ≠ [] ∧
        labels (hostName host) = label :: labels (rest.map Char.toLower) := by
  rw [hostnameMatches_wildcard_iff lc (toLowercase_wildcard lc hrest),
    normalizeHostname_of_isAscii lc hhost]
  constructor
  · rintro ⟨label, hname, hne, hdot⟩
    exact ⟨label, hne, labels_eq_cons_iff.mpr ⟨hname, hdot⟩⟩
  · rintro ⟨label, hne, hlabels⟩
    rcases labels_eq_cons_iff.mp hlabels with ⟨hname, hdot⟩
    exact ⟨label, hname, hne, hdot⟩

/-- Any other pattern matches exactly the host with its own labels. -/
theorem hostnameMatches_exact_iff_labels {pattern host : Str} (hpattern : Str.IsAscii pattern)
    (hexact : Str.startsWith pattern wildcardStart = false) (hhost : Str.IsAscii host) :
    hostnameMatches lc pattern host = true ↔
      labels (hostName host) = labels (pattern.map Char.toLower) := by
  rw [hostnameMatches_exact_iff_of_isAscii lc hpattern hexact,
    normalizeHostname_of_isAscii lc hhost, labels_injective.eq_iff]

/-! ## The wildcard of a host -/

/-- Two wildcards that match one host are the same up to the case of letters: both are
what the first label of the host leaves. -/
theorem wildcard_unique {pattern other host : Str} (hpattern : Str.IsAscii pattern)
    (hother : Str.IsAscii other) (hwild : Str.startsWith pattern wildcardStart = true)
    (hwild' : Str.startsWith other wildcardStart = true)
    (hmatch : hostnameMatches lc pattern host = true)
    (hmatch' : hostnameMatches lc other host = true) : SameUpToCase pattern other := by
  rcases Str.startsWith_iff.mp hwild with ⟨rest, rfl⟩
  rcases Str.startsWith_iff.mp hwild' with ⟨rest', rfl⟩
  have hlower := toLowercase_wildcard lc (Str.isAscii_append.mp hpattern).2
  have hlower' := toLowercase_wildcard lc (Str.isAscii_append.mp hother).2
  rcases (hostnameMatches_wildcard_iff lc hlower).mp hmatch with ⟨label, hname, -, hdot⟩
  rcases (hostnameMatches_wildcard_iff lc hlower').mp hmatch' with ⟨label', hname', -, hdot'⟩
  have hlabels := labels_eq_cons_iff.mpr ⟨hname, hdot⟩
  have hlabels' := labels_eq_cons_iff.mpr ⟨hname', hdot'⟩
  have hsame : rest.map Char.toLower = rest'.map Char.toLower :=
    labels_injective (List.cons.inj (hlabels.symm.trans hlabels')).2
  unfold SameUpToCase
  rw [List.map_append, List.map_append, hsame]

/-- All wildcards that match one host have the same score. -/
theorem hostnameScore_wildcard {pattern host : Str} (hpattern : Str.IsAscii pattern)
    (hwild : Str.startsWith pattern wildcardStart = true)
    (hmatch : hostnameMatches lc pattern host = true) :
    hostnameScore lc pattern host =
      some (hostValue (normalizeHostname lc host) HostClass.wildcard) := by
  rw [hostnameScore_eq lc hpattern, if_pos hmatch, HostClass.ofPattern, if_pos hwild]

/-- All other patterns that match one host have the same score. -/
theorem hostnameScore_exact {pattern host : Str} (hpattern : Str.IsAscii pattern)
    (hexact : Str.startsWith pattern wildcardStart = false)
    (hmatch : hostnameMatches lc pattern host = true) :
    hostnameScore lc pattern host =
      some (hostValue (normalizeHostname lc host) HostClass.exact) := by
  rw [hostnameScore_eq lc hpattern, if_pos hmatch, HostClass.ofPattern, if_neg (by simp [hexact])]

/-- Wildcards match exactly one extra label and other patterns exactly their own labels.
So the wildcards that match one host are the same up to the case of letters and score
alike, below every other pattern that matches it. -/
theorem hostnameMatches_by_labels {host : Str} (hhost : Str.IsAscii host) :
    (∀ rest, Str.IsAscii rest →
      (hostnameMatches lc (wildcardStart ++ rest) host = true ↔
        ∃ label, label ≠ [] ∧
          labels (hostName host) = label :: labels (rest.map Char.toLower))) ∧
    (∀ pattern, Str.IsAscii pattern → Str.startsWith pattern wildcardStart = false →
      (hostnameMatches lc pattern host = true ↔
        labels (hostName host) = labels (pattern.map Char.toLower))) ∧
    ∀ pattern, Str.IsAscii pattern → Str.startsWith pattern wildcardStart = true →
      hostnameMatches lc pattern host = true →
      ∃ score, hostnameScore lc pattern host = some score ∧
        ∀ other, Str.IsAscii other → hostnameMatches lc other host = true →
          (Str.startsWith other wildcardStart = true →
            SameUpToCase other pattern ∧ hostnameScore lc other host = some score) ∧
          (Str.startsWith other wildcardStart = false →
            ∃ better, hostnameScore lc other host = some better ∧ score < better) := by
  refine ⟨fun rest hrest => hostnameMatches_wildcard_iff_labels lc hrest hhost,
    fun pattern hpattern hexact => hostnameMatches_exact_iff_labels lc hpattern hexact hhost, ?_⟩
  intro pattern hpattern hwild hmatch
  refine ⟨_, hostnameScore_wildcard lc hpattern hwild hmatch, ?_⟩
  intro other hother hmatch'
  constructor
  · intro hwild'
    exact ⟨wildcard_unique lc hother hpattern hwild' hwild hmatch' hmatch,
      hostnameScore_wildcard lc hother hwild' hmatch'⟩
  · intro hexact
    refine ⟨_, hostnameScore_exact lc hother hexact hmatch', ?_⟩
    exact hostValue_strictMono _ (HostClass.lt_iff.mpr (by decide))

/-- Both spellings of the wildcard of a host score alike. -/
theorem hostnameMatches_by_labels_subdomain :
    ∃ score,
      hostnameScore Lowercasing.ascii "*.example.com".toList "Foo.example.com:80".toList =
        some score ∧
      hostnameScore Lowercasing.ascii "*.Example.com".toList "Foo.example.com:80".toList =
        some score := by
  have hhost : Str.IsAscii "Foo.example.com:80".toList := by decide
  rcases (hostnameMatches_by_labels Lowercasing.ascii hhost).2.2 "*.example.com".toList
    (by decide) (by decide) (by decide) with ⟨score, hscore, hall⟩
  have hother := (hall "*.Example.com".toList (by decide) (by decide)).1 (by decide)
  exact ⟨score, hscore, hother.2⟩

end Router

end PingoraProxy
