import PingoraProxy.Foundation.ByteSlices
import PingoraProxy.Proxy.Gateway

/-!
# Requests at the level of bytes

The code compares strings by their bytes, cuts host names and addresses at byte offsets
that it computes itself, adds to lengths of patterns, repeats the backends by their
weights, takes a remainder by the number of positions and indexes with it.  A cut that is
not between two characters and a position outside its list stop the thread that serves
the request, and so does a list for which there is no memory.  Here the path of a request
is written once more in these operations, each with its check, and related to the
functions of the other modules, which work on characters and cannot go wrong.

A string has fewer than {lit}`2 ^ 63` bytes in the program; this is all that is asked of
the texts of the routes.  How many references to backends a list can hold depends on the
memory at hand and is a parameter; the other lists and strings are taken to fit.

Main results:

- Theorem {lit}`hostnameMatches_eq`: the slices of a wildcard test lie at characters,
  also when lowercasing changes the number of bytes.
- Theorem {lit}`next_eq`: a selection goes wrong exactly when the repeated backends do not
  fit.
- Theorem {lit}`upstreamPeer_eq`: a request gets the answer of the functions on characters,
  and goes wrong only when the repeated backends of the rule that serves it do not fit.
-/

namespace PingoraProxy

open Foundation

namespace ByteLevel

variable (lc : Lowercasing) (capacity : UInt64)

/-! ## The functions of the source -/

/-- Whether a host name matches a pattern, exactly or by a wildcard. -/
def hostnameMatches (pattern host : Str) : Checked Bool := do
  let host := Router.normalizeHostname lc host
  let pattern := lc.toLowercase pattern
  if Str.startsWithBytes pattern Router.wildcardStart then
    let suffix ← Str.sliceFrom pattern 1
    if !Str.endsWithBytes host suffix then
      pure false
    else
      let stop ← Checked.sub (Str.len host) (Str.len suffix)
      let first ← Str.sliceTo host stop
      pure (!first.isEmpty && !first.contains '.')
  else pure (Str.eqBytes host pattern)

/-- The score of a host name match. -/
def hostnameScore (pattern host : Str) : Checked (Option Nat) := do
  if !(← hostnameMatches lc pattern host) then
    pure none
  else if Str.startsWithBytes pattern Router.wildcardStart then
    pure (some (Str.len pattern))
  else
    let score ← Checked.add (Str.len pattern) 1000
    pure (some score)

/-- The best host name score of a list of patterns. -/
def bestHostnameScore (hostnames : List Str) (host : Str) : Checked (Option Nat) :=
  if hostnames.isEmpty then pure (some 0)
  else do
    let scores ← hostnames.filterMapM fun h => hostnameScore lc h host
    pure scores.max?

/-- Prefix matching that respects segment boundaries. -/
def prefixMatches (pattern path : Str) : Bool :=
  if Str.eqBytes path pattern then true
  else if Str.startsWithBytes path pattern then
    if pattern.getLast? == some '/' then true
    else path[Str.len pattern]? == some '/'
  else false

/-- Whether a path matches a pattern of the given type. -/
def pathMatches : PathMatchType → Str → Str → Bool
  | .exact, pattern, path => Str.eqBytes path pattern
  | .pathPrefix, pattern, path => prefixMatches pattern path
  | .regex, pattern, path => prefixMatches pattern path
  | .unspecified, _, _ => true

/-- The score of a path match. -/
def pathScore (matchType : PathMatchType) (pattern path : Str) : Checked (Option Nat) :=
  if !pathMatches matchType pattern path then pure none
  else
    match matchType with
    | .exact => do
        let score ← Checked.add 10000 (Str.len pattern)
        pure (some score)
    | .pathPrefix => do
        let score ← Checked.add 1000 (Str.len pattern)
        pure (some score)
    | .regex => pure (some 500)
    | .unspecified => pure (some 0)

/-- The score of the path condition of a match. -/
def pathMatchScore (routeMatch : HttpRouteMatch) (path : Str) : Checked (Option Nat) :=
  match routeMatch.path with
  | some pm => pathScore (Router.matchTypeOf pm) pm.value path
  | none => pure (some 0)

/-- The best path score of a list of matches. -/
def bestPathScore (routeMatches : List HttpRouteMatch) (path : Str) : Checked (Option Nat) :=
  if routeMatches.isEmpty then pure (some 0)
  else do
    let scores ← routeMatches.filterMapM fun m => pathMatchScore m path
    pure scores.max?

/-- The body of the loop over the rules of a route. -/
def considerRule (hostnameScore : Nat) (path : Str) (bestMatch : Router.BestMatch)
    (rule : HttpRouteRule) : Checked Router.BestMatch :=
  if rule.backends.isEmpty then pure bestMatch
  else do
    match ← bestPathScore rule.routeMatches path with
    | none => pure bestMatch
    | some pathScore =>
        match bestMatch with
        | none => pure (some (hostnameScore, pathScore, rule.backends))
        | some (hs, ps, _) =>
            if Router.isBetter (hostnameScore, pathScore) (hs, ps) then
              pure (some (hostnameScore, pathScore, rule.backends))
            else pure bestMatch

/-- The body of the loop over the routes. -/
def considerRoute (host path : Str) (bestMatch : Router.BestMatch) (route : HttpRoute) :
    Checked Router.BestMatch := do
  match ← bestHostnameScore lc route.hostnames host with
  | none => pure bestMatch
  | some hostnameScore => route.rules.foldlM (considerRule hostnameScore path) bestMatch

/-- Select the next backend, as its position in the list. -/
def next (lb : LoadBalancer) (backends : List Backend) :
    Checked (Option (Fin backends.length) × LoadBalancer) := do
  let healthy ← Checked.collect capacity (LoadBalancer.healthy lb.healthTracker backends)
  if healthy.isEmpty then pure (none, lb)
  else
    let expanded ← Checked.collect capacity
      (RoundRobin.expand (fun i => LoadBalancer.repetitions (backends.get i)) healthy)
    if expanded.isEmpty then pure (none, lb)
    else
      let idx ← Checked.rem lb.current.toNat expanded.length
      let selected ← Checked.get expanded idx
      pure (some selected, { lb with current := lb.current + 1 })

/-- Find a backend for a host and a path, given the listing of the HTTP routes. -/
def findBackend (lb : LoadBalancer) (routes : List HttpRoute) (host path : Str) :
    Checked (Option Backend × LoadBalancer) := do
  match ← routes.foldlM (considerRoute lc host path) none with
  | none => pure (none, lb)
  | some (_, _, backends) =>
      let selected ← next capacity lb backends
      pure (selected.1.map backends.get, selected.2)

/-- Extract the host for routing from the host header or the authority. -/
def extractHostForRouting (hostHeader authority : Option Str) : Checked Str :=
  let rawHost := (hostHeader.orElse fun _ => authority).getD []
  let regular := ((Str.rsplitOnce ':' rawHost).map Prod.fst).getD rawHost
  if Str.startsWith rawHost ['['] then
    match Str.findByte ']' rawHost with
    | some bracketEnd => Str.sliceTo rawHost (bracketEnd + 1)
    | none => pure regular
  else pure regular

/-- Extract the server name from a backend address. -/
def extractSni (address : Str) : Checked Str :=
  let regular := ((Str.rsplitOnce ':' address).map Prod.fst).getD address
  if Str.startsWith address ['['] then
    match Str.findByte ']' address with
    | some stop => Str.slice address 1 stop
    | none => pure regular
  else pure regular

section Hooks

variable {Addr : Type} (parse : Str → Except Str Addr)

/-- Create a peer from a backend. -/
def backendToPeer (backend : Backend) : Checked (Except PeerError (HttpPeer Addr)) :=
  match parseBackendAddress parse backend.address with
  | .error e => pure (.error (.internalError e))
  | .ok address => do
      let protocol := (BackendProtocol.tryFrom backend.protocol).getD .http
      let sni ← extractSni backend.address
      pure (.ok ⟨address, requiresTls protocol, sni⟩)

/-- Find the peer of a request: the result, the context and the load balancer. -/
def upstreamPeer (lb : LoadBalancer) (routes : List HttpRoute)
    (hostHeader authority : Option Str) (path : Str) (ctx : GatewayCtx) :
    Checked (Except PeerError (HttpPeer Addr) × GatewayCtx × LoadBalancer) := do
  let host ← extractHostForRouting hostHeader authority
  let found ← findBackend lc capacity lb routes host path
  match found.1 with
  | none =>
      pure (.error (.httpStatus 404
        ("no route for host=".toList ++ host ++ " path=".toList ++ path)), ctx, found.2)
  | some backend =>
      let peer ← backendToPeer parse backend
      pure (peer, { ctx with backendAddress := some backend.address }, found.2)

end Hooks

/-! ## Slices -/

/-- The slices of a wildcard test lie at characters, also when lowercasing changes the
number of bytes. -/
theorem hostnameMatches_eq (pattern host : Str) :
    hostnameMatches lc pattern host = .ok (Router.hostnameMatches lc pattern host) := by
  unfold hostnameMatches Router.hostnameMatches
  simp only [Str.startsWithBytes_eq, Str.endsWithBytes_eq, Str.eqBytes_eq]
  by_cases hwild : Str.startsWith (lc.toLowercase pattern) Router.wildcardStart = true
  · rw [if_pos hwild, if_pos hwild]
    rcases Str.startsWith_iff.mp hwild with ⟨rest, hrest⟩
    have hpattern : lc.toLowercase pattern = ['*'] ++ '.' :: rest := hrest.symm
    have hsuffix : Str.sliceFrom (lc.toLowercase pattern) 1 = .ok ('.' :: rest) := by
      rw [hpattern]
      exact Str.sliceFrom_append rfl
    have hdrop : (lc.toLowercase pattern).drop 1 = '.' :: rest := by
      rw [hpattern]
      rfl
    rw [hsuffix, hdrop]
    by_cases hends : Str.endsWith (Router.normalizeHostname lc host) ('.' :: rest) = true
    · rcases Str.endsWith_iff.mp hends with ⟨first, hfirst⟩
      -- what is left of the host has the bytes of the host less those of the suffix
      have hstop : Checked.sub (Str.len (Router.normalizeHostname lc host))
          (Str.len ('.' :: rest)) = .ok (Str.len first) := by
        rw [← hfirst, Str.len_append, Checked.sub_eq_ok (by omega), Nat.add_sub_cancel]
      have hslice : Str.sliceTo (Router.normalizeHostname lc host) (Str.len first) =
          .ok first := by
        rw [← hfirst]
        exact Str.sliceTo_append rfl
      have htake : (Router.normalizeHostname lc host).take
          ((Router.normalizeHostname lc host).length - ('.' :: rest).length) = first := by
        rw [← hfirst, List.length_append, Nat.add_sub_cancel]
        exact List.take_left
      simp only [hends, hstop, hslice, htake, bind, Except.bind, pure, Except.pure,
        Bool.not_true, Bool.false_eq_true, if_false]
    · simp only [hends, bind, Except.bind, pure, Except.pure, Bool.not_false, if_true]
  · rw [if_neg hwild, if_neg hwild]
    rfl

/-- The slice of an address in brackets lies at characters. -/
theorem extractSni_eq (address : Str) :
    extractSni address = .ok (PingoraProxy.extractSni address) := by
  unfold extractSni PingoraProxy.extractSni
  dsimp only
  by_cases hopen : Str.startsWith address ['['] = true
  · by_cases hclose : ']' ∈ address
    · rcases Str.startsWith_iff.mp hopen with ⟨tail, htail⟩
      have haddress : address = '[' :: tail := htail.symm
      have hmem : ']' ∈ tail := by simpa [haddress] using hclose
      rcases Str.eq_beforeFirst_append hmem with ⟨rest, hrest⟩
      have hbefore : Str.beforeFirst ']' address = '[' :: Str.beforeFirst ']' tail := by
        rw [haddress]
        rfl
      have hparts : address = ['['] ++ (Str.beforeFirst ']' tail ++ ']' :: rest) := by
        rw [haddress, ← hrest]
        rfl
      have hslice : Str.slice address 1 (Str.len ('[' :: Str.beforeFirst ']' tail)) =
          .ok (Str.beforeFirst ']' tail) := by
        rw [hparts]
        exact Str.slice_append rfl rfl
      rw [if_pos hopen, Str.findByte_of_mem hclose, if_pos (by simp [hopen, hclose])]
      dsimp only
      rw [hbefore, hslice]
      rfl
    · rw [if_pos hopen, Str.findByte_of_notMem hclose, if_neg (by simp [hclose])]
      rfl
  · rw [if_neg hopen, if_neg (by simp [hopen])]
    rfl

/-- The slice of a host in brackets lies at characters. -/
theorem extractHostForRouting_eq (hostHeader authority : Option Str) :
    extractHostForRouting hostHeader authority =
      .ok (PingoraProxy.extractHostForRouting hostHeader authority) := by
  unfold extractHostForRouting PingoraProxy.extractHostForRouting
  dsimp only
  generalize (hostHeader.orElse fun _ => authority).getD [] = rawHost
  by_cases hopen : Str.startsWith rawHost ['['] = true
  · rw [if_pos hopen, if_pos hopen]
    by_cases hclose : ']' ∈ rawHost
    · rcases Str.eq_beforeFirst_append hclose with ⟨rest, hrest⟩
      have hslice : Str.sliceTo rawHost (Str.len (Str.beforeFirst ']' rawHost) + 1) =
          .ok (Str.beforeFirst ']' rawHost ++ [']']) := by
        generalize Str.beforeFirst ']' rawHost = first at hrest ⊢
        rw [hrest, List.append_cons]
        exact Str.sliceTo_append (Str.len_append first [']'])
      have hupTo : Str.upToFirst ']' rawHost = some (Str.beforeFirst ']' rawHost ++ [']']) :=
        if_pos hclose
      rw [Str.findByte_of_mem hclose, hupTo]
      exact hslice
    · have hupTo : Str.upToFirst ']' rawHost = none := if_neg hclose
      rw [Str.findByte_of_notMem hclose, hupTo]
      rfl
  · rw [if_neg hopen, if_neg hopen]
    rfl

/-! ## Scores -/

/-- A string has fewer bytes than half the word counts. -/
def Fits (s : Str) : Prop :=
  Str.len s < 2 ^ 63

instance (s : Str) : Decidable (Fits s) :=
  inferInstanceAs (Decidable (Str.len s < 2 ^ 63))

/-- The texts of a listing that scores are computed from are strings of the program. -/
structure RoutesFit (routes : List HttpRoute) : Prop where
  hostnames : ∀ route ∈ routes, ∀ pattern ∈ route.hostnames, Fits pattern
  paths : ∀ route ∈ routes, ∀ rule ∈ route.rules, ∀ routeMatch ∈ rule.routeMatches,
    ∀ pm ∈ routeMatch.path, Fits pm.value

/-- A bonus on the length of a string fits the word. -/
theorem add_len_lt {s : Str} (h : Fits s) {bonus : Nat} (hbonus : bonus ≤ 10000) :
    bonus + Str.len s < Checked.wordSize := by
  unfold Fits at h
  unfold Checked.wordSize
  omega

theorem hostnameScore_eq_ok {pattern : Str} (hfits : Fits pattern) (host : Str) :
    hostnameScore lc pattern host = .ok (Router.hostnameScore lc pattern host) := by
  have hscore : Checked.add (Str.len pattern) 1000 = .ok (Str.len pattern + 1000) :=
    Checked.add_eq_ok (by rw [Nat.add_comm]; exact add_len_lt hfits (by decide))
  unfold hostnameScore Router.hostnameScore
  rw [hostnameMatches_eq, hscore, Str.startsWithBytes_eq]
  cases Router.hostnameMatches lc pattern host with
  | false => rfl
  | true =>
      cases Str.startsWith pattern Router.wildcardStart with
      | false => rfl
      | true => rfl

theorem bestHostnameScore_eq_ok {hostnames : List Str}
    (hfits : ∀ pattern ∈ hostnames, Fits pattern) (host : Str) :
    bestHostnameScore lc hostnames host = .ok (Router.bestHostnameScore lc hostnames host) := by
  unfold bestHostnameScore Router.bestHostnameScore
  by_cases hempty : hostnames.isEmpty = true
  · rw [if_pos hempty, if_pos hempty]
    rfl
  · rw [if_neg hempty, if_neg hempty,
      Checked.filterMapM_eq_ok fun pattern h => hostnameScore_eq_ok lc (hfits pattern h) host]
    rfl

/-- Paths are compared by their bytes as by their characters. -/
theorem pathMatches_eq (matchType : PathMatchType) (pattern path : Str) :
    pathMatches matchType pattern path = Router.pathMatches matchType pattern path := by
  have hprefix : prefixMatches pattern path = Router.prefixMatches pattern path := by
    unfold prefixMatches Router.prefixMatches
    rw [Str.eqBytes_eq, Str.startsWithBytes_eq]
  cases matchType with
  | exact => exact Str.eqBytes_eq path pattern
  | pathPrefix | regex => exact hprefix
  | unspecified => rfl

theorem pathScore_eq_ok (matchType : PathMatchType) {pattern : Str} (hfits : Fits pattern)
    (path : Str) :
    pathScore matchType pattern path = .ok (Router.pathScore matchType pattern path) := by
  unfold pathScore Router.pathScore
  rw [pathMatches_eq]
  by_cases hmatches : Router.pathMatches matchType pattern path = true
  · rw [hmatches]
    cases matchType with
    | exact =>
        dsimp only
        rw [Checked.add_eq_ok (add_len_lt hfits (by decide))]
        rfl
    | pathPrefix =>
        dsimp only
        rw [Checked.add_eq_ok (add_len_lt hfits (by decide))]
        rfl
    | regex => rfl
    | unspecified => rfl
  · rw [Bool.not_eq_true] at hmatches
    rw [hmatches]
    rfl

theorem bestPathScore_eq_ok {routeMatches : List HttpRouteMatch}
    (hfits : ∀ routeMatch ∈ routeMatches, ∀ pm ∈ routeMatch.path, Fits pm.value) (path : Str) :
    bestPathScore routeMatches path = .ok (Router.bestPathScore routeMatches path) := by
  have hscore : ∀ routeMatch ∈ routeMatches, pathMatchScore routeMatch path =
      .ok (Router.pathMatchScore routeMatch path) := by
    intro routeMatch hmem
    unfold pathMatchScore Router.pathMatchScore
    cases hpath : routeMatch.path with
    | none => rfl
    | some pm => exact pathScore_eq_ok _ (hfits routeMatch hmem pm (Option.mem_def.mpr hpath)) path
  unfold bestPathScore Router.bestPathScore
  by_cases hempty : routeMatches.isEmpty = true
  · rw [if_pos hempty, if_pos hempty]
    rfl
  · rw [if_neg hempty, if_neg hempty, Checked.filterMapM_eq_ok hscore]
    rfl

/-! ## The search for a backend -/

theorem considerRule_eq_ok {rule : HttpRouteRule}
    (hfits : ∀ routeMatch ∈ rule.routeMatches, ∀ pm ∈ routeMatch.path, Fits pm.value)
    (hostnameScore : Nat) (path : Str) (bestMatch : Router.BestMatch) :
    considerRule hostnameScore path bestMatch rule =
      .ok (Router.considerRule hostnameScore path bestMatch rule) := by
  unfold considerRule Router.considerRule
  by_cases hempty : rule.backends.isEmpty = true
  · rw [if_pos hempty, if_pos hempty]
    rfl
  · rw [if_neg hempty, if_neg hempty, bestPathScore_eq_ok hfits]
    cases Router.bestPathScore rule.routeMatches path with
    | none => rfl
    | some pathScore =>
        rcases bestMatch with _ | ⟨hs, ps, backends⟩
        · rfl
        · simp only [bind, Except.bind, pure, Except.pure]
          split_ifs <;> rfl

theorem considerRoute_eq_ok {route : HttpRoute}
    (hhosts : ∀ pattern ∈ route.hostnames, Fits pattern)
    (hpaths : ∀ rule ∈ route.rules, ∀ routeMatch ∈ rule.routeMatches, ∀ pm ∈ routeMatch.path,
      Fits pm.value) (host path : Str) (bestMatch : Router.BestMatch) :
    considerRoute lc host path bestMatch route =
      .ok (Router.considerRoute lc host path bestMatch route) := by
  unfold considerRoute Router.considerRoute
  rw [bestHostnameScore_eq_ok lc hhosts]
  cases Router.bestHostnameScore lc route.hostnames host with
  | none => rfl
  | some hs =>
      exact Checked.foldlM_eq_ok (fun rule hrule => considerRule_eq_ok (hpaths rule hrule) hs path)
        bestMatch

/-- The repeated backends of the rule that serves a request fit. -/
def SelectionFits (lb : LoadBalancer) (routes : List HttpRoute) (host path : Str) : Prop :=
  ∀ best ∈ Router.bestMatch lc routes host path,
    (LoadBalancer.expanded lb.healthTracker best.2.2).length ≤ capacity.toNat

instance (lb : LoadBalancer) (routes : List HttpRoute) (host path : Str) :
    Decidable (SelectionFits lc capacity lb routes host path) :=
  inferInstanceAs (Decidable (∀ best ∈ Router.bestMatch lc routes host path,
    (LoadBalancer.expanded lb.healthTracker best.2.2).length ≤ capacity.toNat))

/-- The expansion that a selection builds from the healthy positions. -/
theorem expand_healthy (tracker : HealthTracker) (backends : List Backend) :
    RoundRobin.expand (fun i => LoadBalancer.repetitions (backends.get i))
      (LoadBalancer.healthy tracker backends) = LoadBalancer.expanded tracker backends :=
  rfl

/-- A selection goes wrong exactly when the repeated backends do not fit: the remainder
and the position are within their bounds. -/
theorem next_eq (lb : LoadBalancer) (backends : List Backend) :
    next capacity lb backends =
      if (LoadBalancer.expanded lb.healthTracker backends).length ≤ capacity.toNat then
        .ok (lb.next backends)
      else .error .capacity := by
  have hlonger : (LoadBalancer.healthy lb.healthTracker backends).length ≤
      (LoadBalancer.expanded lb.healthTracker backends).length :=
    RoundRobin.length_le_length_expand fun i _ => LoadBalancer.repetitions_pos (backends.get i)
  unfold next
  by_cases hnil : LoadBalancer.expanded lb.healthTracker backends = []
  · have hhealthy := LoadBalancer.expanded_eq_nil_iff.mp hnil
    have hroom : ([] : List (Fin backends.length)).length ≤ capacity.toNat := Nat.zero_le _
    rw [hnil, hhealthy, if_pos hroom, Checked.collect_eq_ok hroom, LoadBalancer.next_eq,
      if_pos hnil]
    rfl
  · have hhealthy := mt LoadBalancer.expanded_eq_nil_iff.mpr hnil
    by_cases hfits : (LoadBalancer.expanded lb.healthTracker backends).length ≤ capacity.toNat
    · rcases LoadBalancer.next_eq_some hnil with ⟨i, hi, hnext⟩
      rw [if_pos hfits, Checked.collect_eq_ok (hlonger.trans hfits)]
      simp only [bind, Except.bind, expand_healthy, Checked.collect_eq_ok hfits]
      rw [if_neg (by simpa [List.isEmpty_iff] using hhealthy),
        if_neg (by simpa [List.isEmpty_iff] using hnil),
        Checked.rem_eq_ok (List.length_pos_iff.mpr hnil)]
      dsimp only
      rw [Checked.get_eq_ok hi, hnext]
      rfl
    · rw [if_neg hfits]
      by_cases hroom : (LoadBalancer.healthy lb.healthTracker backends).length ≤ capacity.toNat
      · rw [Checked.collect_eq_ok hroom]
        simp only [bind, Except.bind, expand_healthy, Checked.collect_eq_error hfits]
        rw [if_neg (by simpa [List.isEmpty_iff] using hhealthy)]
      · rw [Checked.collect_eq_error hroom]
        rfl

/-- A search for a backend goes wrong only when the repeated backends of its rule do not
fit. -/
theorem findBackend_eq {routes : List HttpRoute} (hfits : RoutesFit routes)
    (lb : LoadBalancer) (host path : Str) :
    findBackend lc capacity lb routes host path =
      if SelectionFits lc capacity lb routes host path then
        .ok (Router.findBackend lc lb routes host path)
      else .error .capacity := by
  have hloop : routes.foldlM (considerRoute lc host path) none =
      .ok (Router.bestMatch lc routes host path) :=
    Checked.foldlM_eq_ok (fun route hroute => considerRoute_eq_ok lc
      (hfits.hostnames route hroute) (hfits.paths route hroute) host path) none
  unfold findBackend Router.findBackend
  rw [hloop]
  rcases hbest : Router.bestMatch lc routes host path with _ | ⟨hs, ps, backends⟩
  · have hselection : SelectionFits lc capacity lb routes host path := by
      intro best hmem
      rw [hbest] at hmem
      cases hmem
    rw [if_pos hselection]
    rfl
  · have hselection : SelectionFits lc capacity lb routes host path ↔
        (LoadBalancer.expanded lb.healthTracker backends).length ≤ capacity.toNat := by
      simp [SelectionFits, hbest]
    simp only [bind, Except.bind, hselection, next_eq]
    split_ifs with hroom
    · rfl
    · rfl

/-! ## Requests -/

section Hooks

variable {Addr : Type} (parse : Str → Except Str Addr)

theorem backendToPeer_eq (backend : Backend) :
    backendToPeer parse backend = .ok (PingoraProxy.backendToPeer parse backend) := by
  unfold backendToPeer PingoraProxy.backendToPeer
  rw [extractSni_eq]
  cases parseBackendAddress parse backend.address with
  | error e => rfl
  | ok address => rfl

/-- Each request gets the answer of the functions on characters, and goes wrong only when
the repeated backends of the rule that serves it do not fit: every slice is taken at
characters, every sum fits, and every position is within its list. -/
theorem upstreamPeer_eq {routes : List HttpRoute} (hfits : RoutesFit routes)
    (lb : LoadBalancer) (hostHeader authority : Option Str) (path : Str) (ctx : GatewayCtx) :
    upstreamPeer lc capacity parse lb routes hostHeader authority path ctx =
      if SelectionFits lc capacity lb routes
          (PingoraProxy.extractHostForRouting hostHeader authority) path then
        .ok (PingoraProxy.upstreamPeer lc parse lb routes hostHeader authority path ctx)
      else .error .capacity := by
  unfold upstreamPeer
  rw [extractHostForRouting_eq]
  simp only [bind, Except.bind]
  rw [findBackend_eq lc capacity hfits]
  by_cases hselection : SelectionFits lc capacity lb routes
      (PingoraProxy.extractHostForRouting hostHeader authority) path
  · rw [if_pos hselection, if_pos hselection]
    dsimp only
    cases hfound : (Router.findBackend lc lb routes
        (PingoraProxy.extractHostForRouting hostHeader authority) path).1 with
    | none =>
        rw [upstreamPeer_of_none lc parse hfound]
        rfl
    | some backend =>
        rw [upstreamPeer_of_some lc parse hfound]
        dsimp only
        rw [backendToPeer_eq]
        rfl
  · rw [if_neg hselection, if_neg hselection]

end Hooks

/-- A wildcard beyond ASCII, a path and a backend at an IPv6 address with weight three. -/
def wildcardRoutes : List HttpRoute :=
  [makeRoute "wild" ["*.é.com"]
    [makeRule [makeRouteMatch (some (makePathMatch .pathPrefix "/ß"))] [makeBackend "[::1]:80" 3]]]

/-- A request for such a wildcard gets its peer, with the address without brackets as
server name, where the list can hold three references, and goes wrong where it can hold
only two. -/
theorem upstreamPeer_eq_wildcard :
    upstreamPeer .ascii 3 (fun _ => .ok ()) (.new (.new 1)) wildcardRoutes
        (some "a.é.com:80".toList) none "/ß".toList .default =
      .ok (.ok ⟨(), false, "::1".toList⟩, ⟨some "[::1]:80".toList⟩, ⟨1, .new 1⟩) ∧
    upstreamPeer .ascii 2 (fun _ => .ok ()) (.new (.new 1)) wildcardRoutes
        (some "a.é.com:80".toList) none "/ß".toList .default = .error .capacity := by
  have hfits : RoutesFit wildcardRoutes := ⟨by decide, by decide⟩
  constructor
  · rw [upstreamPeer_eq .ascii 3 (fun _ => .ok ()) hfits, if_pos (by decide)]
    rfl
  · rw [upstreamPeer_eq .ascii 2 (fun _ => .ok ()) hfits, if_neg (by decide)]

end ByteLevel

end PingoraProxy
