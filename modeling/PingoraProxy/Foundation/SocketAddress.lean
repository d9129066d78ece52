import PingoraProxy.Foundation.TextReader

/-!
# Socket addresses and their text

The text form of a socket address, as the standard library of Rust reads it: an IPv4
address of four decimal groups, or an IPv6 address in brackets, with groups left out at
one place, a trailing IPv4 part and a scope if there are any; then a colon and a port.
Nothing may follow.

Main results:

- Theorem {lit}`stopsAt_ipv4`: an IPv4 address is read up to the colon.
- Theorem {lit}`stopsAt_scopedIpv6`: an IPv6 address is read up to the closing bracket.
- Theorem {lit}`eq_of_parse`: the text of a socket address is that of its IP address
  and of its port, and each part alone reads as that part.
-/

namespace Foundation

/-- An IPv4 address. -/
structure Ipv4Addr where
  a : UInt8
  b : UInt8
  c : UInt8
  d : UInt8

/-- An IPv6 address. -/
structure Ipv6Addr where
  segments : Fin 8 → UInt16

/-- A socket address. -/
inductive SocketAddr where
  | v4 (ip : Ipv4Addr) (port : UInt16)
  | v6 (ip : Ipv6Addr) (port : UInt16) (scopeId : UInt32)

namespace SocketAddr

open TextReader

/-! ## Readers -/

/-- Read a decimal group of an IPv4 address. -/
def octet : TextReader UInt8 := do
  let value ← number 10 255 (some 3) false
  pure (UInt8.ofNat value)

/-- Read an IPv4 address. -/
def ipv4 : TextReader Ipv4Addr := do
  let a ← octet
  char '.'
  let b ← octet
  char '.'
  let c ← octet
  char '.'
  let d ← octet
  pure ⟨a, b, c, d⟩

/-- Read a hexadecimal group of an IPv6 address. -/
def segment : TextReader UInt16 := do
  let value ← number 16 65535 (some 4) true
  pure (UInt16.ofNat value)

/-- Read a group after a colon, or at once when it is the first one. -/
def separated {α : Type} (first : Bool) (inner : TextReader α) : TextReader α :=
  if first then inner
  else do
    char ':'
    inner

/-- The last two groups of an IPv6 address that are written as an IPv4 address. -/
def embedded (ip : Ipv4Addr) : List UInt16 :=
  [UInt16.ofNat (ip.a.toNat * 256 + ip.b.toNat), UInt16.ofNat (ip.c.toNat * 256 + ip.d.toNat)]

/-- Read groups of an IPv6 address while there are some, at most the given number; and
whether the last two are an IPv4 address. -/
def readGroups : Nat → Bool → TextReader (List UInt16 × Bool)
  | 0, _ => pure ([], false)
  | left + 1, first =>
      -- an IPv4 address takes the room of two groups
      (if left = 0 then fail
        else do
          let ip ← separated first ipv4
          pure (embedded ip, true)).orElse
        ((do
          let group ← separated first segment
          let others ← readGroups left false
          pure (group :: others.1, others.2)).orElse (pure ([], false)))

/-- The address whose first groups and last groups are given; the others are zero. -/
def ofGroups (head tail : List UInt16) : Ipv6Addr where
  segments i :=
    if i.val < 8 - tail.length then (head[i.val]?).getD 0
    else (tail[i.val - (8 - tail.length)]?).getD 0

/-- Read an IPv6 address. -/
def ipv6 : TextReader Ipv6Addr := do
  let head ← readGroups 8 true
  if head.1.length = 8 then
    pure (ofGroups head.1 [])
  else if head.2 then
    -- no groups are left out after an IPv4 part
    fail
  else do
    char ':'
    char ':'
    let tail ← readGroups (8 - (head.1.length + 1)) true
    pure (ofGroups head.1 tail.1)

/-- Read a scope identifier. -/
def scopeId : TextReader UInt32 := do
  char '%'
  let value ← number 10 4294967295 none true
  pure (UInt32.ofNat value)

/-- Read an IPv6 address and its scope, zero without one. -/
def scopedIpv6 : TextReader (Ipv6Addr × UInt32) := do
  let ip ← ipv6
  let scope ← scopeId.orElse (pure 0)
  pure (ip, scope)

/-- Read the number of a port. -/
def portNumber : TextReader UInt16 := do
  let value ← number 10 65535 none true
  pure (UInt16.ofNat value)

/-- Read a colon and a port. -/
def port : TextReader UInt16 := do
  char ':'
  portNumber

/-- Read a socket address. -/
def socketAddr : TextReader SocketAddr :=
  (do
    let ip ← ipv4
    let portValue ← port
    pure (SocketAddr.v4 ip portValue)).orElse
  (do
    char '['
    let ip ← scopedIpv6
    char ']'
    let portValue ← port
    pure (SocketAddr.v6 ip.1 portValue ip.2))

/-- Parse a socket address: nothing may follow it. -/
def parse (s : Str) : Except Str SocketAddr :=
  match socketAddr.run s with
  | some (addr, []) => .ok addr
  | _ => .error "invalid socket address syntax".toList

/-- The text of the IP address of a socket address, and of its scope if it has one. -/
def HasIpText (text : Str) : SocketAddr → Prop
  | .v4 ip _ => ipv4.run text = some (ip, [])
  | .v6 ip _ scopeId => scopedIpv6.run text = some ((ip, scopeId), [])

/-- The text of a socket address made from those of its IP address and of its port. -/
def join (text digits : Str) : SocketAddr → Str
  | .v4 _ _ => text ++ ':' :: digits
  | .v6 _ _ _ => '[' :: (text ++ ']' :: ':' :: digits)

/-- The port of a socket address. -/
def portOf : SocketAddr → UInt16
  | .v4 _ portValue => portValue
  | .v6 _ portValue _ => portValue

/-! ## Where the readers stop -/

theorem stopsAt_octet {c : Char} (h : toDigit 10 c = none) : octet.StopsAt c :=
  (stopsAt_number h _ _ _).bind fun _ => stopsAt_pure _

/-- An IPv4 address is read up to a character that is neither a digit nor a dot. -/
theorem stopsAt_ipv4 {c : Char} (h : toDigit 10 c = none) (hdot : c ≠ '.') :
    ipv4.StopsAt c :=
  (stopsAt_octet h).bind fun _ => (stopsAt_char hdot).bind fun _ =>
    (stopsAt_octet h).bind fun _ => (stopsAt_char hdot).bind fun _ =>
      (stopsAt_octet h).bind fun _ => (stopsAt_char hdot).bind fun _ =>
        (stopsAt_octet h).bind fun _ => stopsAt_pure _

theorem stopsAt_separated {α : Type} {c : Char} (hcolon : c ≠ ':') (first : Bool)
    {inner : TextReader α} (h : inner.StopsAt c) : (separated first inner).StopsAt c := by
  cases first with
  | true => exact h
  | false => exact (stopsAt_char hcolon).bind fun _ => h

theorem stopsAt_readGroups {c : Char} (h : toDigit 10 c = none) (hhex : toDigit 16 c = none)
    (hdot : c ≠ '.') (hcolon : c ≠ ':') (left : Nat) (first : Bool) :
    (readGroups left first).StopsAt c := by
  induction left generalizing first with
  | zero => exact stopsAt_pure _
  | succ left ih =>
      have hsegment : segment.StopsAt c :=
        (stopsAt_number hhex _ _ _).bind fun _ => stopsAt_pure _
      refine StopsAt.orElse ?_ (StopsAt.orElse ?_ (stopsAt_pure _))
      · split_ifs
        · exact stopsAt_fail
        · exact (stopsAt_separated hcolon first (stopsAt_ipv4 h hdot)).bind fun _ =>
            stopsAt_pure _
      · exact (stopsAt_separated hcolon first hsegment).bind fun _ =>
          (ih false).bind fun _ => stopsAt_pure _

/-- An IPv6 address with its scope is read up to a character that is part of neither. -/
theorem stopsAt_scopedIpv6 {c : Char} (h : toDigit 10 c = none) (hhex : toDigit 16 c = none)
    (hdot : c ≠ '.') (hcolon : c ≠ ':') (hpercent : c ≠ '%') : scopedIpv6.StopsAt c := by
  have hgroups := stopsAt_readGroups h hhex hdot hcolon
  have hscope : scopeId.StopsAt c :=
    (stopsAt_char hpercent).bind fun _ =>
      (stopsAt_number h _ _ _).bind fun _ => stopsAt_pure _
  have hipv6 : ipv6.StopsAt c := by
    refine (hgroups 8 true).bind fun head => ?_
    split_ifs
    · exact stopsAt_pure _
    · exact stopsAt_fail
    · exact (stopsAt_char hcolon).bind fun _ => (stopsAt_char hcolon).bind fun _ =>
        (hgroups _ true).bind fun _ => stopsAt_pure _
  exact hipv6.bind fun _ => (hscope.orElse (stopsAt_pure _)).bind fun _ => stopsAt_pure _

/-- The number of a port is read up to a character that is no digit. -/
theorem stopsAt_portNumber {c : Char} (h : toDigit 10 c = none) : portNumber.StopsAt c :=
  (stopsAt_number h _ _ _).bind fun _ => stopsAt_pure _

/-! ## The parts of a text -/

/-- A port is a colon and its number. -/
theorem run_port_eq_some_iff {s : Str} {p : UInt16 × Str} :
    port.run s = some p ↔ ∃ digits, s = ':' :: digits ∧ portNumber.run digits = some p := by
  unfold port
  rw [run_bind, Option.bind_eq_some_iff]
  constructor
  · rintro ⟨⟨u, digits⟩, hcolon, hdigits⟩
    exact ⟨digits, run_char_eq_some_iff.mp hcolon, hdigits⟩
  · rintro ⟨digits, rfl, hdigits⟩
    exact ⟨((), digits), run_char_eq_some_iff.mpr rfl, hdigits⟩

/-- The text of a socket address is that of its IP address and of its port, and each part
alone reads as that part. -/
theorem eq_of_parse {s : Str} {addr : SocketAddr} (h : parse s = .ok addr) :
    ∃ text digits, s = addr.join text digits ∧ addr.HasIpText text ∧
      portNumber.run digits = some (addr.portOf, []) := by
  have hrun : socketAddr.run s = some (addr, []) := by
    unfold parse at h
    split at h
    · cases h
      assumption
    · cases h
  unfold socketAddr at hrun
  rw [run_orElse, Option.or_eq_some_iff] at hrun
  rcases hrun with hv4 | ⟨-, hv6⟩
  · simp only [run_bind, Option.bind_eq_some_iff] at hv4
    rcases hv4 with ⟨⟨ip, rest⟩, hip, ⟨portValue, rest'⟩, hport, hpure⟩
    cases hpure
    rcases run_port_eq_some_iff.mp hport with ⟨digits, rfl, hdigits⟩
    rcases (stopsAt_ipv4 (by decide) (by decide)).split hip with ⟨text, rfl, htext⟩
    exact ⟨text, digits, rfl, htext, hdigits⟩
  · simp only [run_bind, Option.bind_eq_some_iff] at hv6
    rcases hv6 with ⟨⟨u, inner⟩, hopen, ⟨ip, rest⟩, hip, ⟨u', rest'⟩, hclose,
      ⟨portValue, rest''⟩, hport, hpure⟩
    cases hpure
    rcases run_port_eq_some_iff.mp hport with ⟨digits, rfl, hdigits⟩
    rcases run_char_eq_some_iff.mp hopen with rfl
    rcases run_char_eq_some_iff.mp hclose with rfl
    rcases (stopsAt_scopedIpv6 (by decide) (by decide) (by decide) (by decide)
      (by decide)).split hip with ⟨text, rfl, htext⟩
    exact ⟨text, digits, rfl, htext, hdigits⟩

end SocketAddr

end Foundation
