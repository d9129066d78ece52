import PingoraProxy.Foundation.RustString

/-!
# Strings and their encodings

The program compares and cuts strings as sequences of bytes.  The encoding of a character
tells where it begins and ends, so these operations on bytes are the ones on characters:
no encoding begins or ends within another one out of step.

Main results:

- Theorem {lit}`encode_isPrefix_iff`: the encoding of a string begins with that of another
  exactly when the string begins with the other.
- Theorem {lit}`encode_isSuffix_iff`: the same at the end.
- Theorem {lit}`isCharBoundary_iff`: a string can be cut at an offset exactly when it ends
  there or the byte there begins a character.
-/

namespace Foundation

namespace Str

/-- The UTF-8 encoding of a string. -/
def encode (s : Str) : List UInt8 :=
  s.flatMap String.utf8EncodeChar

@[simp]
theorem encode_nil : encode [] = [] :=
  rfl

@[simp]
theorem encode_cons (c : Char) (s : Str) :
    encode (c :: s) = String.utf8EncodeChar c ++ encode s :=
  rfl

@[simp]
theorem encode_append (s t : Str) : encode (s ++ t) = encode s ++ encode t :=
  List.flatMap_append

/-- The length of a string is that of its encoding. -/
theorem length_encode (s : Str) : (encode s).length = len s := by
  induction s with
  | nil => rfl
  | cons c s ih => rw [encode_cons, List.length_append, ih, String.length_utf8EncodeChar, len_cons]

theorem encode_eq_nil_iff {s : Str} : encode s = [] ↔ s = [] := by
  cases s with
  | nil => simp
  | cons c s => simp [String.utf8EncodeChar_ne_nil]

/-! ## Where characters begin -/

/-- The first character can be read off an encoding. -/
theorem utf8EncodeChar_append_inj {c d : Char} {x y : List UInt8}
    (h : String.utf8EncodeChar c ++ x = String.utf8EncodeChar d ++ y) : c = d ∧ x = y := by
  have hdecode : ∀ (e : Char) (z : List UInt8),
      ByteArray.utf8DecodeChar? (String.utf8EncodeChar e ++ z).toByteArray 0 = some e := by
    intro e z
    rw [List.toByteArray_append]
    exact ByteArray.utf8DecodeChar?_utf8EncodeChar_append
  have hsame : c = d := by
    have hboth := hdecode c x
    rw [h, hdecode d y] at hboth
    exact (Option.some.inj hboth).symm
  subst hsame
  exact ⟨rfl, List.append_cancel_left h⟩

/-- An encoding begins with a byte that begins a character. -/
theorem firstByte_of_encode_eq_cons {s : Str} {b : UInt8} {x : List UInt8}
    (h : encode s = b :: x) : b.IsUTF8FirstByte := by
  cases s with
  | nil => cases h
  | cons c s =>
      have hlt : 0 < (String.utf8EncodeChar c).length := by
        rw [String.length_utf8EncodeChar]
        exact c.utf8Size_pos
      have hfirst : (String.utf8EncodeChar c)[0] = b := by
        have hget := congrArg (fun l : List UInt8 => l[0]?) h
        rw [encode_cons, List.getElem?_append_left hlt, List.getElem?_eq_getElem hlt] at hget
        exact Option.some.inj hget
      rw [← hfirst]
      exact UInt8.isUTF8FirstByte_getElem_utf8EncodeChar.mpr rfl

/-- Within the encoding of a character no other one begins. -/
theorem not_firstByte_of_utf8EncodeChar_eq {c : Char} {x y : List UInt8} {b : UInt8}
    (hx : x ≠ []) (h : String.utf8EncodeChar c = x ++ b :: y) : ¬b.IsUTF8FirstByte := by
  have hlt : x.length < (String.utf8EncodeChar c).length := by
    rw [h, List.length_append, List.length_cons]
    omega
  have hget : (String.utf8EncodeChar c)[x.length] = b := by
    simp [h]
  rw [← hget, UInt8.isUTF8FirstByte_getElem_utf8EncodeChar]
  exact mt List.length_eq_zero_iff.mp hx

/-- Where a byte begins a character, the string can be cut. -/
theorem exists_append_of_firstByte {s : Str} {offset : Nat} {b : UInt8}
    (h : (encode s)[offset]? = some b) (hb : b.IsUTF8FirstByte) :
    ∃ before after, s = before ++ after ∧ len before = offset := by
  induction s generalizing offset with
  | nil => simp at h
  | cons c s ih =>
      rw [encode_cons] at h
      by_cases hlt : offset < (String.utf8EncodeChar c).length
      · rw [List.getElem?_append_left hlt, List.getElem?_eq_getElem hlt] at h
        rw [← Option.some.inj h, UInt8.isUTF8FirstByte_getElem_utf8EncodeChar] at hb
        exact ⟨[], c :: s, rfl, hb.symm⟩
      · rw [List.getElem?_append_right (Nat.not_lt.mp hlt)] at h
        rcases ih h with ⟨before, after, rfl, hlen⟩
        refine ⟨c :: before, after, rfl, ?_⟩
        rw [String.length_utf8EncodeChar] at hlt hlen
        rw [len_cons]
        omega

/-- Whether a string ends at an offset or the byte there is the first one of a character. -/
def isCharBoundary (s : Str) (offset : Nat) : Bool :=
  match (encode s)[offset]? with
  | some b => decide b.IsUTF8FirstByte
  | none => decide (offset = len s)

/-- A string can be cut at an offset exactly when it ends there or the byte there begins
a character. -/
theorem isCharBoundary_iff {s : Str} {offset : Nat} :
    isCharBoundary s offset = true ↔
      ∃ before after, s = before ++ after ∧ len before = offset := by
  unfold isCharBoundary
  constructor
  · intro h
    cases hbyte : (encode s)[offset]? with
    | none =>
        rw [hbyte] at h
        exact ⟨s, [], (List.append_nil s).symm, (of_decide_eq_true h).symm⟩
    | some b =>
        rw [hbyte] at h
        exact exists_append_of_firstByte hbyte (of_decide_eq_true h)
  · rintro ⟨before, after, rfl, rfl⟩
    have hbyte : (encode (before ++ after))[len before]? = (encode after)[0]? := by
      rw [encode_append, List.getElem?_append_right (length_encode before).le, length_encode,
        Nat.sub_self]
    rw [hbyte]
    cases hafter : encode after with
    | nil =>
        rw [encode_eq_nil_iff] at hafter
        simp [hafter]
    | cons b x => simpa using firstByte_of_encode_eq_cons hafter

/-! ## Comparisons -/

/-- The encoding of a string begins with that of another exactly when the string begins
with the other. -/
theorem encode_isPrefix_iff {s t : Str} : encode s <+: encode t ↔ s <+: t := by
  constructor
  · intro h
    induction s generalizing t with
    | nil => exact List.nil_prefix
    | cons c s ih =>
        rcases h with ⟨x, hx⟩
        cases t with
        | nil =>
            have hnil := (List.append_eq_nil_iff.mp hx).1
            rw [encode_eq_nil_iff] at hnil
            cases hnil
        | cons d t =>
            rw [encode_cons, encode_cons, List.append_assoc] at hx
            rcases utf8EncodeChar_append_inj hx with ⟨rfl, hrest⟩
            exact List.cons_prefix_cons.mpr ⟨rfl, ih ⟨x, hrest⟩⟩
  · rintro ⟨u, rfl⟩
    exact ⟨encode u, (encode_append s u).symm⟩

/-- Different strings have different encodings. -/
theorem encode_inj {s t : Str} : encode s = encode t ↔ s = t := by
  constructor
  · intro h
    have hst : s <+: t := encode_isPrefix_iff.mp ⟨[], by rw [List.append_nil, h]⟩
    refine eq_of_isPrefix_of_len_eq hst ?_
    rw [← length_encode, ← length_encode, h]
  · exact congrArg encode

/-- The encoding of a string ends with that of another exactly when the string ends with
the other. -/
theorem encode_isSuffix_iff {s t : Str} : encode s <:+ encode t ↔ s <:+ t := by
  constructor
  · rintro ⟨x, hx⟩
    induction t generalizing x with
    | nil =>
        have hnil := (List.append_eq_nil_iff.mp hx).2
        have hs : s = [] := encode_eq_nil_iff.mp hnil
        exact hs ▸ List.nil_suffix
    | cons d t ih =>
        rw [encode_cons] at hx
        rcases List.append_eq_append_iff.mp hx with ⟨y, hd, hs⟩ | ⟨y, -, ht⟩
        · -- the end begins within the first character or right before or after it
          by_cases hxnil : x = []
          · have hwhole : encode s = encode (d :: t) := by
              rw [encode_cons, hd, hxnil, hs, List.nil_append]
            exact encode_inj.mp hwhole ▸ List.suffix_refl s
          · cases y with
            | nil =>
                have hsame : encode s = encode t := hs
                rw [encode_inj.mp hsame]
                exact List.suffix_cons d t
            | cons b y =>
                exact absurd (firstByte_of_encode_eq_cons hs)
                  (not_firstByte_of_utf8EncodeChar_eq hxnil hd)
        · exact (ih y ht.symm).trans (List.suffix_cons d t)
  · rintro ⟨u, rfl⟩
    exact ⟨encode u, (encode_append u s).symm⟩

/-- Whether the bytes of a string begin with those of another. -/
def startsWithBytes (s p : Str) : Bool :=
  (encode p).isPrefixOf (encode s)

/-- Whether the bytes of a string end with those of another. -/
def endsWithBytes (s p : Str) : Bool :=
  (encode p).isSuffixOf (encode s)

/-- Whether two strings have the same bytes. -/
def eqBytes (s t : Str) : Bool :=
  encode s == encode t

@[simp]
theorem startsWithBytes_eq (s p : Str) : startsWithBytes s p = startsWith s p := by
  rw [Bool.eq_iff_iff, startsWith_iff, ← encode_isPrefix_iff]
  exact List.isPrefixOf_iff_prefix

@[simp]
theorem endsWithBytes_eq (s p : Str) : endsWithBytes s p = endsWith s p := by
  rw [Bool.eq_iff_iff, endsWith_iff, ← encode_isSuffix_iff]
  exact List.isSuffixOf_iff_suffix

@[simp]
theorem eqBytes_eq (s t : Str) : eqBytes s t = (s == t) := by
  rw [Bool.eq_iff_iff, beq_iff_eq, ← encode_inj]
  exact beq_iff_eq

end Str

end Foundation
