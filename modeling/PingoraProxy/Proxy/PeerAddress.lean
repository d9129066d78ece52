import PingoraProxy.Foundation.SocketAddress
import PingoraProxy.Proxy.Gateway

/-!
# The address and the server name of a peer

The address of a backend is parsed as a socket address, and the server name is cut out
of the same text by a separate search for brackets and colons.  The two agree: whenever
the address is accepted, the server name is the text of its IP address.

So a peer is made for IP addresses only, and its server name is never that of a host.

Main results:

- Theorem {lit}`extractSni_of_parse`: the server name of an accepted address is the text
  of its IP address.
- Theorem {lit}`upstreamPeer_names_its_address`: the server name of every peer reads as the
  IP address of the peer.
-/

namespace PingoraProxy

open Foundation TextReader

/-! ## Accepted addresses -/

/-- A decimal digit is a hexadecimal one. -/
theorem toDigit_ten_of_sixteen {c : Char} (h : toDigit 16 c = none) : toDigit 10 c = none := by
  unfold toDigit at h ⊢
  dsimp only at h ⊢
  split_ifs at h ⊢ <;> first | rfl | omega

/-- The text of an IP address holds hexadecimal digits, dots, colons and percent signs. -/
theorem mem_of_hasIpText {addr : SocketAddr} {text : Str} (h : addr.HasIpText text) {c : Char}
    (hc : c ∈ text) : (toDigit 16 c).isSome ∨ c = '.' ∨ c = ':' ∨ c = '%' := by
  by_contra hnot
  simp only [not_or, Option.not_isSome_iff_eq_none] at hnot
  rcases hnot with ⟨hhex, hdot, hcolon, hpercent⟩
  have hdigit := toDigit_ten_of_sixteen hhex
  cases addr with
  | v4 ip portValue => exact (SocketAddr.stopsAt_ipv4 hdigit hdot).notMem h hc
  | v6 ip portValue scopeId =>
      exact (SocketAddr.stopsAt_scopedIpv6 hdigit hhex hdot hcolon hpercent).notMem h hc

/-- The server name extracted from a text made of an IP address and a port is the text of
the IP address. -/
theorem extractSni_join {addr : SocketAddr} {text digits : Str} (htext : addr.HasIpText text)
    (hdigits : SocketAddr.portNumber.run digits = some (addr.portOf, [])) :
    extractSni (addr.join text digits) = text := by
  have hopen : '[' ∉ text := fun hmem => absurd (mem_of_hasIpText htext hmem) (by decide)
  have hclose : ']' ∉ text := fun hmem => absurd (mem_of_hasIpText htext hmem) (by decide)
  cases addr with
  | v4 ip portValue =>
      have hcolon : ':' ∉ digits := (SocketAddr.stopsAt_portNumber (by decide)).notMem hdigits
      have hstart : Str.startsWith (text ++ ':' :: digits) ['['] = false := by
        cases text with
        | nil => rfl
        | cons c text =>
            have hc : c ≠ '[' := fun hc => hopen (hc ▸ List.mem_cons_self)
            rw [Bool.eq_false_iff, ne_eq, Str.startsWith_iff]
            exact fun hprefix => hc (List.cons_prefix_cons.mp hprefix).1.symm
      unfold extractSni SocketAddr.join
      dsimp only
      rw [hstart, Bool.false_and, if_neg Bool.false_ne_true, Str.rsplitOnce_append hcolon]
      rfl
  | v6 ip portValue scopeId =>
      have hmem : ']' ∉ '[' :: text := by simpa using hclose
      have hbefore : Str.beforeFirst ']' ('[' :: (text ++ ']' :: ':' :: digits)) = '[' :: text :=
        Str.beforeFirst_append hmem (':' :: digits)
      unfold extractSni SocketAddr.join
      dsimp only
      rw [if_pos (by simp [Str.startsWith]), hbefore]
      rfl

/-- The server name of an accepted address is the text of its IP address, and what
remains of the address is the port. -/
theorem extractSni_of_parse {address : Str} {addr : SocketAddr}
    (h : SocketAddr.parse address = .ok addr) :
    addr.HasIpText (extractSni address) ∧ ∃ digits,
      address = addr.join (extractSni address) digits ∧
        SocketAddr.portNumber.run digits = some (addr.portOf, []) := by
  rcases SocketAddr.eq_of_parse h with ⟨text, digits, rfl, htext, hdigits⟩
  rw [extractSni_join htext hdigits]
  exact ⟨htext, digits, rfl, hdigits⟩

/-! ## Peers -/

variable (lc : Lowercasing)

/-- A peer has the address and the server name of its backend. -/
theorem address_and_sni_of_backendToPeer {Addr : Type} {parse : Str → Except Str Addr}
    {backend : Backend} {peer : HttpPeer Addr} (h : backendToPeer parse backend = .ok peer) :
    parse backend.address = .ok peer.address ∧ peer.sni = extractSni backend.address := by
  unfold backendToPeer parseBackendAddress at h
  cases hparse : parse backend.address with
  | error e =>
      rw [hparse] at h
      cases h
  | ok address =>
      rw [hparse] at h
      cases h
      exact ⟨rfl, rfl⟩

/-- The server name of every peer a request is given reads as the IP address of the peer;
together with the port of the peer it makes up the address that is kept in the context of
the request.  It holds no other characters than those of IP addresses, so it is never the
name of a host. -/
theorem upstreamPeer_names_its_address {lb : LoadBalancer} {routes : List HttpRoute}
    {hostHeader authority : Option Str} {path : Str} {ctx : GatewayCtx}
    {peer : HttpPeer SocketAddr}
    (h : (upstreamPeer lc SocketAddr.parse lb routes hostHeader authority path ctx).1 =
      .ok peer) :
    peer.address.HasIpText peer.sni ∧
      (∃ digits, SocketAddr.portNumber.run digits = some (peer.address.portOf, []) ∧
        (upstreamPeer lc SocketAddr.parse lb routes hostHeader authority path
          ctx).2.1.backendAddress = some (peer.address.join peer.sni digits)) ∧
      ∀ c ∈ peer.sni, (toDigit 16 c).isSome ∨ c = '.' ∨ c = ':' ∨ c = '%' := by
  cases hfound : (Router.findBackend lc lb routes
      (extractHostForRouting hostHeader authority) path).1 with
  | none =>
      rw [upstreamPeer_of_none lc SocketAddr.parse hfound] at h
      cases h
  | some backend =>
      rw [upstreamPeer_of_some lc SocketAddr.parse hfound] at h ⊢
      rcases address_and_sni_of_backendToPeer h with ⟨haddress, hsni⟩
      rcases extractSni_of_parse haddress with ⟨htext, digits, hjoin, hdigits⟩
      rw [hsni]
      exact ⟨htext, ⟨digits, hdigits, congrArg some hjoin⟩, fun c => mem_of_hasIpText htext⟩

/-- One backend at an IPv6 address with a scope. -/
def scopedRoutes : List HttpRoute :=
  [makeRoute "scoped" [] [makeRule [] [makeBackend "[fe80::1.2.3.4%7]:08080" 1]]]

/-- The server name of its peer reads as its address and scope. -/
theorem upstreamPeer_names_its_address_scoped :
    (SocketAddr.v6 (SocketAddr.ofGroups [0xfe80] [0x0102, 0x0304]) 8080 7).HasIpText
      "fe80::1.2.3.4%7".toList :=
  (@upstreamPeer_names_its_address .ascii (.new (.new 3)) scopedRoutes none none ['/'] .default
    ⟨_, false, _⟩ rfl).1

end PingoraProxy
