import PingoraProxy.Foundation.Splitting
import PingoraProxy.Proxy.Router

/-!
# Prefix matching and path segments

A prefix is meant to match whole segments of a path.  The test for the segment
boundary uses the length of the prefix in bytes as the index of a character, so it
looks at the right place only where both positions hold the same answer.

Main results:

- Theorem {lit}`matchesSegments_iff`: matching by segments in terms of the texts.
- Theorem {lit}`prefixMatches_misses_subpath`: a prefix that is not ASCII loses its own
  sub-path.
- Theorem {lit}`respectsSegments_iff_boundaryAgrees`: for one path, prefix matching
  respects segments exactly when the byte position and the character position agree.
- Theorem {lit}`respectsSegments_iff`: it does so on every path exactly for a prefix that
  is ASCII or ends with a slash.
-/

namespace PingoraProxy

open Foundation

namespace Router

/-! ## Segments -/

/-- The segments of a text: its parts between slashes, empty ones included. -/
def segments (text : Str) : List Str :=
  text.splitOn '/'

/-- Matching by segments: the segments of the prefix begin those of the path.  After a
slash at the end of the prefix one more segment has to follow. -/
def MatchesSegments (pattern path : Str) : Prop :=
  (pattern.getLast? ≠ some '/' ∧ segments pattern <+: segments path) ∨
    (pattern.getLast? = some '/' ∧ (segments pattern).dropLast <+: segments path ∧
      (segments pattern).dropLast ≠ segments path)

/-- Prefix matching decides a prefix and a path by their segments. -/
def RespectsSegments (pattern path : Str) : Prop :=
  prefixMatches pattern path = true ↔ MatchesSegments pattern path

/-- Where a prefix without a slash at its end properly begins the path, the character
after the prefix and the one at its byte length are both a slash or both none. -/
def BoundaryAgrees (pattern path : Str) : Prop :=
  pattern <+: path → path ≠ pattern → pattern.getLast? ≠ some '/' →
    (path[Str.len pattern]? = some '/' ↔ path[pattern.length]? = some '/')

/-- A text goes on with a slash exactly when the character after it is one. -/
theorem concat_slash_isPrefix_iff {pattern path : Str} :
    pattern ++ ['/'] <+: path ↔ pattern <+: path ∧ path[pattern.length]? = some '/' := by
  constructor
  · rintro ⟨rest, rfl⟩
    exact ⟨⟨'/' :: rest, by simp⟩, by simp⟩
  · rintro ⟨⟨rest, rfl⟩, hslash⟩
    rw [List.getElem?_append_right (Nat.le_refl _), Nat.sub_self] at hslash
    cases rest with
    | nil => cases hslash
    | cons c rest =>
        rw [List.getElem?_cons_zero, Option.some.injEq] at hslash
        exact ⟨rest, by simp [hslash]⟩

/-- Matching by segments, in terms of the texts: they are equal, or the prefix begins the
path and a slash stands at its end or after it. -/
theorem matchesSegments_iff {pattern path : Str} :
    MatchesSegments pattern path ↔
      path = pattern ∨ pattern <+: path ∧
        (pattern.getLast? = some '/' ∨ path[pattern.length]? = some '/') := by
  unfold MatchesSegments segments
  by_cases hlast : pattern.getLast? = some '/'
  · rcases List.getLast?_eq_some_iff.mp hlast with ⟨init, rfl⟩
    rw [Splitting.splitOn_concat, List.dropLast_concat, Splitting.splitOn_isPrefix_iff]
    simp only [hlast, ne_eq, not_true_eq_false, false_and, false_or, true_and, true_or, and_true,
      (Splitting.splitOn_injective '/').eq_iff]
    constructor
    · rintro ⟨rfl | hbegins, hne⟩
      · exact absurd rfl hne
      · exact Or.inr hbegins
    · rintro (rfl | hbegins)
      · exact ⟨Or.inr (List.prefix_refl _), by simp⟩
      · refine ⟨Or.inr hbegins, ?_⟩
        rintro rfl
        exact absurd hbegins.length_le (by simp)
  · simp only [hlast, ne_eq, not_false_eq_true, true_and, false_and, or_false, false_or]
    rw [Splitting.splitOn_isPrefix_iff, concat_slash_isPrefix_iff]

/-- What the code tests, in terms of the texts. -/
theorem prefixMatches_iff {pattern path : Str} :
    prefixMatches pattern path = true ↔
      path = pattern ∨ pattern <+: path ∧
        (pattern.getLast? = some '/' ∨ path[Str.len pattern]? = some '/') := by
  unfold prefixMatches
  by_cases heq : path = pattern
  · simp [heq]
  · by_cases hbegins : pattern <+: path
    · by_cases hlast : pattern.getLast? = some '/'
      · simp [heq, hbegins, hlast]
      · simp [heq, hbegins, hlast]
    · have hstarts : Str.startsWith path pattern = false := by
        rw [← Bool.not_eq_true, Str.startsWith_iff]
        exact hbegins
      simp [heq, hbegins, hstarts]

/-! ## Prefix matching respects segments -/

/-- Both positions agree for an ASCII prefix. -/
theorem boundaryAgrees_of_isAscii {pattern : Str} (hascii : Str.IsAscii pattern) (path : Str) :
    BoundaryAgrees pattern path := by
  intro _ _ _
  rw [Str.len_of_isAscii hascii]

/-- A prefix that is not ASCII loses its own sub-path: the path goes on with a slash, but
the prefix is one byte longer than it has characters. -/
theorem prefixMatches_misses_subpath : ¬RespectsSegments "/é".toList "/é/x".toList := by
  intro h
  have hmatches : MatchesSegments "/é".toList "/é/x".toList :=
    matchesSegments_iff.mpr (Or.inr ⟨by decide, Or.inr (by decide)⟩)
  exact absurd (h.mpr hmatches) (by decide)

/-- For one path, prefix matching respects segments exactly when the byte position and the
character position agree on whether a slash stands there. -/
theorem respectsSegments_iff_boundaryAgrees (pattern path : Str) :
    RespectsSegments pattern path ↔ BoundaryAgrees pattern path := by
  unfold RespectsSegments BoundaryAgrees
  rw [prefixMatches_iff, matchesSegments_iff]
  by_cases heq : path = pattern
  · simp [heq]
  · by_cases hbegins : pattern <+: path
    · by_cases hlast : pattern.getLast? = some '/'
      · simp [hlast]
      · simp [heq, hbegins, hlast]
    · simp [hbegins]

/-- A prefix respects segments on every path exactly when it is ASCII or ends with a
slash: any other one loses the path that only adds a slash to it. -/
theorem respectsSegments_iff (pattern : Str) :
    (∀ path, RespectsSegments pattern path) ↔
      Str.IsAscii pattern ∨ pattern.getLast? = some '/' := by
  simp only [respectsSegments_iff_boundaryAgrees]
  constructor
  · intro hall
    by_contra hneither
    rw [not_or] at hneither
    rcases hneither with ⟨hascii, hlast⟩
    have hagrees := hall (pattern ++ ['/']) (List.prefix_append _ _) (by simp) hlast
    have hbytes := Str.length_lt_len hascii
    have hpast : (pattern ++ ['/'])[Str.len pattern]? = none := by
      rw [List.getElem?_eq_none_iff, List.length_append, List.length_singleton]
      omega
    rw [hpast] at hagrees
    exact absurd (hagrees.mpr (by simp)) (by simp)
  · rintro (hascii | hlast) path
    · exact boundaryAgrees_of_isAscii hascii path
    · exact fun _ _ hnot => absurd hlast hnot

end Router

end PingoraProxy
