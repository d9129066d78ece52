import PingoraProxy.Proxy.Gateway
import PingoraProxy.Proxy.HostLabels

/-!
# Hosts of requests

The gateway cuts the port from the host of a request and keeps an IPv6 literal in its
brackets; the router cuts at the first colon once more.  Routing therefore depends on
no port and no letter case, but a literal with colons is cut inside its brackets and
never matches its own pattern.

Main results:

- Theorem {lit}`extractHostForRouting_of_carries`: the gateway gives back the host that
  was written before the port.
- Theorem {lit}`findBackend_of_normalizeHostname`: the search depends on the host only
  through its normalized form.
- Theorem {lit}`findBackend_ignores_port_and_case`: two spellings of one host are routed
  alike.
- Theorem {lit}`reachedByOwnName_iff`: a host reaches the routes that list it exactly
  when it has no colon.
-/

namespace PingoraProxy

open Foundation

/-! ## Host values -/

/-- A host as a client writes it: a name, or an IPv6 literal in brackets. -/
inductive HostForm : Str → Prop
  | name {host : Str} (colon : ':' ∉ host) (bracket : host.head? ≠ some '[') : HostForm host
  | literal {address : Str} (bracket : ']' ∉ address) : HostForm ('[' :: (address ++ [']']))

/-- A value holds a host, alone or with a port after it. -/
inductive Carries (host : Str) : Str → Prop
  | alone : Carries host host
  | withPort {port : Str} (digits : port.all Char.isDigit = true) :
      Carries host (host ++ ':' :: port)

/-- The value the host of a request is read from: the Host header, else the authority. -/
def hostValueOf (hostHeader authority : Option Str) : Option Str :=
  hostHeader.orElse fun _ => authority

/-- A port has no colon. -/
theorem colon_notMem_of_digits {port : Str} (hdigits : port.all Char.isDigit = true) :
    ':' ∉ port := by
  intro hcolon
  exact absurd (List.all_eq_true.mp hdigits ':' hcolon) (by decide)

/-- The gateway gives back a name, with or without a port after it. -/
theorem extractHostForRouting_name {hostHeader authority : Option Str} {host raw : Str}
    (hcolon : ':' ∉ host) (hbracket : host.head? ≠ some '[') (hcarries : Carries host raw)
    (hvalue : hostValueOf hostHeader authority = some raw) :
    extractHostForRouting hostHeader authority = host := by
  unfold hostValueOf at hvalue
  have hregular : ((Str.rsplitOnce ':' raw).map Prod.fst).getD raw = host := by
    cases hcarries with
    | alone => rw [Str.rsplitOnce_of_notMem hcolon, Option.map_none, Option.getD_none]
    | withPort hdigits =>
        rw [Str.rsplitOnce_append (colon_notMem_of_digits hdigits), Option.map_some,
          Option.getD_some]
  have hstart : Str.startsWith raw ['['] = false := by
    rw [← Bool.not_eq_true, Str.startsWith_iff]
    rintro ⟨rest, hrest⟩
    cases hcarries with
    | alone => exact hbracket (by rw [← hrest]; rfl)
    | withPort hdigits =>
        cases host with
        | nil =>
            have hchar : '[' = ':' := (List.cons.inj hrest).1
            exact absurd hchar (by decide)
        | cons c host =>
            have hchar : '[' = c := (List.cons.inj hrest).1
            exact hbracket (by rw [← hchar]; rfl)
  unfold extractHostForRouting
  simp only [hvalue, Option.getD_some, hstart, Bool.false_eq_true, if_false, hregular]

/-- The gateway gives back an IPv6 literal with its brackets. -/
theorem extractHostForRouting_literal {hostHeader authority : Option Str} {address raw : Str}
    (hbracket : ']' ∉ address) (hcarries : Carries ('[' :: (address ++ [']'])) raw)
    (hvalue : hostValueOf hostHeader authority = some raw) :
    extractHostForRouting hostHeader authority = '[' :: (address ++ [']']) := by
  unfold hostValueOf at hvalue
  have hnotMem : ']' ∉ '[' :: address := by simp [hbracket]
  have hraw : ∃ rest, raw = ('[' :: address) ++ ']' :: rest := by
    cases hcarries with
    | alone => exact ⟨[], rfl⟩
    | @withPort port hdigits => exact ⟨':' :: port, by simp⟩
  rcases hraw with ⟨rest, rfl⟩
  have hstart : Str.startsWith (('[' :: address) ++ ']' :: rest) ['['] = true := by
    rw [Str.startsWith_iff]
    exact ⟨address ++ ']' :: rest, rfl⟩
  unfold extractHostForRouting
  simp only [hvalue, Option.getD_some, hstart, if_true, Str.upToFirst_append hnotMem]
  rfl

/-- The gateway gives back the host that was written before the port. -/
theorem extractHostForRouting_of_carries {hostHeader authority : Option Str} {host raw : Str}
    (hform : HostForm host) (hcarries : Carries host raw)
    (hvalue : hostValueOf hostHeader authority = some raw) :
    extractHostForRouting hostHeader authority = host := by
  cases hform with
  | name hcolon hbracket => exact extractHostForRouting_name hcolon hbracket hcarries hvalue
  | literal hbracket => exact extractHostForRouting_literal hbracket hcarries hvalue

namespace Router

/-! ## Letter case -/

/-- A spelling of ASCII text is ASCII. -/
theorem SameUpToCase.isAscii {s t : Str} (h : SameUpToCase s t) (ht : Str.IsAscii t) :
    Str.IsAscii s := by
  intro c hc
  have hlower : c.toLower ∈ t.map Char.toLower := h ▸ List.mem_map_of_mem hc
  rcases List.mem_map.mp hlower with ⟨d, hd, heq⟩
  exact Str.toNat_lt_of_toLower_eq heq.symm (ht d hd)

/-- Spellings hold the same characters that are no letters. -/
theorem SameUpToCase.mem_iff {s t : Str} (h : SameUpToCase s t) {d : Char}
    (hupper : d.toNat < 65 ∨ 90 < d.toNat) (hlower : d.toNat < 97 ∨ 122 < d.toNat) :
    d ∈ s ↔ d ∈ t := by
  rw [← Str.mem_map_toLower_iff hupper hlower, h, Str.mem_map_toLower_iff hupper hlower]

/-- A spelling of a host has the same form. -/
theorem SameUpToCase.hostForm {s t : Str} (h : SameUpToCase s t) (ht : HostForm t) :
    HostForm s := by
  unfold SameUpToCase at h
  cases ht with
  | name hcolon hbracket =>
      refine HostForm.name ?_ ?_
      · rwa [SameUpToCase.mem_iff h (by decide) (by decide)]
      · intro hhead
        have hlower : (t.map Char.toLower).head? = some '[' := by
          rw [← h, List.head?_map, hhead]
          rfl
        rw [List.head?_map, Option.map_eq_some_iff] at hlower
        rcases hlower with ⟨c, hc, heq⟩
        rw [Str.toLower_eq_iff_of_no_letter (by decide) (by decide)] at heq
        exact hbracket (heq ▸ hc)
  | @literal address hbracket =>
      rw [List.map_cons, List.map_eq_cons_iff] at h
      rcases h with ⟨first, rest, rfl, hfirst, hrest⟩
      rw [List.map_append, List.map_eq_append_iff] at hrest
      rcases hrest with ⟨middle, last, rfl, hmiddle, hlast⟩
      rw [List.map_singleton, List.map_eq_singleton_iff] at hlast
      rcases hlast with ⟨c, rfl, hc⟩
      have hopen : first = '[' :=
        (Str.toLower_eq_iff_of_no_letter (by decide) (by decide)).mp hfirst
      have hclose : c = ']' := (Str.toLower_eq_iff_of_no_letter (by decide) (by decide)).mp hc
      subst hopen hclose
      refine HostForm.literal ?_
      rwa [SameUpToCase.mem_iff hmiddle (by decide) (by decide)]

variable (lc : Lowercasing)

/-- Spellings of an ASCII host are normalized alike. -/
theorem normalizeHostname_of_sameUpToCase {s t : Str} (h : SameUpToCase s t)
    (ht : Str.IsAscii t) : normalizeHostname lc s = normalizeHostname lc t := by
  rw [normalizeHostname_of_isAscii lc (h.isAscii ht), normalizeHostname_of_isAscii lc ht]
  unfold hostName
  rw [h]

/-! ## Routing depends on the normalized host -/

theorem bestHostnameScore_of_normalizeHostname {host host' : Str}
    (h : normalizeHostname lc host = normalizeHostname lc host') (hostnames : List Str) :
    bestHostnameScore lc hostnames host = bestHostnameScore lc hostnames host' := by
  have hmatches : ∀ pattern,
      hostnameMatches lc pattern host = hostnameMatches lc pattern host' := by
    intro pattern
    unfold hostnameMatches
    rw [h]
  unfold bestHostnameScore hostnameScore
  simp only [hmatches]

/-- The search depends on the host only through its normalized form. -/
theorem findBackend_of_normalizeHostname {host host' : Str}
    (h : normalizeHostname lc host = normalizeHostname lc host') (lb : LoadBalancer)
    (routes : List HttpRoute) (path : Str) :
    findBackend lc lb routes host path = findBackend lc lb routes host' path := by
  have hroute : considerRoute lc host path = considerRoute lc host' path := by
    funext best route
    unfold considerRoute
    rw [bestHostnameScore_of_normalizeHostname lc h]
  unfold findBackend bestMatch
  rw [hroute]

/-- Two values that hold one host, up to the port and the case of letters, are routed
alike, whether they come from the Host header or from the authority. -/
theorem findBackend_ignores_port_and_case {host host' raw raw' : Str}
    {hostHeader authority hostHeader' authority' : Option Str} (hascii : Str.IsAscii host)
    (hform : HostForm host) (hcase : SameUpToCase host' host) (hcarries : Carries host raw)
    (hcarries' : Carries host' raw') (hvalue : hostValueOf hostHeader authority = some raw)
    (hvalue' : hostValueOf hostHeader' authority' = some raw') (lb : LoadBalancer)
    (routes : List HttpRoute) (path : Str) :
    findBackend lc lb routes (extractHostForRouting hostHeader authority) path =
      findBackend lc lb routes (extractHostForRouting hostHeader' authority') path := by
  rw [extractHostForRouting_of_carries hform hcarries hvalue,
    extractHostForRouting_of_carries (hcase.hostForm hform) hcarries' hvalue']
  apply findBackend_of_normalizeHostname
  exact (normalizeHostname_of_sameUpToCase lc hcase hascii).symm

/-- A name with a port in the Host header and in capitals as the authority. -/
theorem findBackend_ignores_port_and_capitals :
    (findBackend .ascii (.new (.new 3)) wildcardThenExact
        (extractHostForRouting (some "foo.example.com:8080".toList) none) "/".toList).1 =
      some (makeBackend "exact:80" 1) ∧
    findBackend .ascii (.new (.new 3)) wildcardThenExact
        (extractHostForRouting (some "foo.example.com:8080".toList) none) "/".toList =
      findBackend .ascii (.new (.new 3)) wildcardThenExact
        (extractHostForRouting none (some "FOO.Example.com".toList)) "/".toList := by
  have hform : HostForm "foo.example.com".toList := HostForm.name (by decide) (by decide)
  have hcarries : Carries "foo.example.com".toList "foo.example.com:8080".toList :=
    Carries.withPort (by decide : "8080".toList.all Char.isDigit = true)
  exact ⟨by decide, findBackend_ignores_port_and_case .ascii (by decide) hform (by decide)
    hcarries Carries.alone rfl rfl (.new (.new 3)) wildcardThenExact "/".toList⟩

/-! ## A host and its own name -/

/-- A route that lists the pattern is considered for the host: the pattern matches, and
the route has a host name score whatever else it lists. -/
def ConsideredFor (pattern host : Str) : Prop :=
  hostnameMatches lc pattern host = true ∧
    ∀ hostnames, pattern ∈ hostnames → (bestHostnameScore lc hostnames host).isSome = true

/-- A matching pattern alone decides that a route is considered. -/
theorem consideredFor_iff {pattern host : Str} :
    ConsideredFor lc pattern host ↔ hostnameMatches lc pattern host = true := by
  refine ⟨And.left, fun hmatch => ⟨hmatch, fun hostnames hmem => ?_⟩⟩
  unfold bestHostnameScore
  by_cases hempty : hostnames.isEmpty = true
  · rw [if_pos hempty]
    rfl
  · rw [if_neg hempty, isSome_max?_filterMap]
    exact ⟨pattern, hmem, by rw [isSome_hostnameScore, hmatch]⟩

/-- An exact pattern matches a spelling of itself exactly when it has no colon: the
normalized host ends before the first one. -/
theorem hostnameMatches_own_name_iff {pattern host : Str} (hascii : Str.IsAscii pattern)
    (hexact : Str.startsWith pattern wildcardStart = false) (hcase : SameUpToCase host pattern) :
    hostnameMatches lc pattern host = true ↔ ':' ∉ pattern := by
  have hcolon : ':' ∈ pattern.map Char.toLower ↔ ':' ∈ pattern :=
    Str.mem_map_toLower_iff (by decide) (by decide)
  rw [hostnameMatches_exact_iff_of_isAscii lc hascii hexact,
    normalizeHostname_of_sameUpToCase lc hcase hascii, normalizeHostname_of_isAscii lc hascii,
    ← hcolon]
  unfold hostName
  constructor
  · intro h
    rw [← h]
    exact Str.notMem_beforeFirst ':' _
  · exact Str.beforeFirst_of_notMem

/-- An IPv6 literal with a port does not reach the route that lists it. -/
theorem literal_misses_own_name :
    HostForm "[::1]".toList ∧ Carries "[::1]".toList "[::1]:8080".toList ∧
      ¬ConsideredFor .ascii "[::1]".toList
        (extractHostForRouting (some "[::1]:8080".toList) none) ∧
      (findBackend .ascii (.new (.new 3))
        [makeRoute "v6" ["[::1]"] [makeRule [] [makeBackend "10.0.0.1:80" 1]]]
        (extractHostForRouting (some "[::1]:8080".toList) none) "/".toList).1 = none := by
  have hform : HostForm ('[' :: ("::1".toList ++ [']'])) := HostForm.literal (by decide)
  have hcarries : Carries "[::1]".toList ("[::1]".toList ++ ':' :: "8080".toList) :=
    Carries.withPort (by decide)
  refine ⟨hform, hcarries, ?_, by decide⟩
  rw [consideredFor_iff]
  decide

/-- A host reaches the routes that list it, in any spelling and with any port, exactly
when it has no colon: the router cuts an IPv6 literal inside its brackets. -/
theorem reachedByOwnName_iff {host host' raw : Str} {hostHeader authority : Option Str}
    (hascii : Str.IsAscii host) (hform : HostForm host)
    (hexact : Str.startsWith host wildcardStart = false) (hcase : SameUpToCase host' host)
    (hcarries : Carries host' raw) (hvalue : hostValueOf hostHeader authority = some raw) :
    ConsideredFor lc host (extractHostForRouting hostHeader authority) ↔ ':' ∉ host := by
  rw [extractHostForRouting_of_carries (hcase.hostForm hform) hcarries hvalue,
    consideredFor_iff, hostnameMatches_own_name_iff lc hascii hexact hcase]

/-- A name reaches the routes that list it. -/
theorem reachedByOwnName_name :
    ConsideredFor .ascii "example.com".toList
      (extractHostForRouting (some "Example.com:8080".toList) none) := by
  have hform : HostForm "example.com".toList := HostForm.name (by decide) (by decide)
  have hcarries : Carries "Example.com".toList "Example.com:8080".toList :=
    Carries.withPort (by decide : "8080".toList.all Char.isDigit = true)
  exact (reachedByOwnName_iff .ascii (by decide) hform (by decide) (by decide) hcarries
    rfl).mpr (by decide)

end Router

end PingoraProxy
