import Mathlib.Algebra.BigOperators.Group.List.Basic
import Mathlib.Algebra.Ring.Nat
import Mathlib.Data.List.TakeWhile

/-!
# Rust strings

A string is the sequence of its characters; its length is the number of bytes of
its UTF-8 encoding.  A comparison of encodings is a comparison of character
sequences, so prefix and suffix tests are those of lists.

Lowercasing follows the Unicode tables.  Only its effect on ASCII text is fixed
here; everything proved holds for any lowercasing with that effect.

Main results:

- Theorem {lit}`len_le_of_isPrefix`: a first part of a string has at most as many
  bytes.
- Theorems {lit}`len_of_isAscii` and {lit}`length_lt_len`: a string has one byte for each
  character exactly when it is ASCII.
- Theorem {lit}`startsWith_toLowercase`: lowercasing ASCII text keeps its
  beginnings without letters.
-/

namespace Foundation

/-- A string as its sequence of Unicode scalar values. -/
abbrev Str := List Char

namespace Str

/-! ## Lengths -/

/-- The number of bytes of the UTF-8 encoding. -/
def len (s : Str) : Nat :=
  (s.map Char.utf8Size).sum

@[simp]
theorem len_nil : len [] = 0 :=
  rfl

@[simp]
theorem len_cons (c : Char) (s : Str) : len (c :: s) = c.utf8Size + len s := by
  simp [len]

@[simp]
theorem len_append (s t : Str) : len (s ++ t) = len s + len t := by
  simp [len]

/-- A first part of a string has at most as many bytes. -/
theorem len_le_of_isPrefix {s t : Str} (h : s <+: t) : len s ≤ len t := by
  rcases h with ⟨u, rfl⟩
  simp

/-- A first part of a string that has as many bytes is the whole string. -/
theorem eq_of_isPrefix_of_len_eq {s t : Str} (h : s <+: t) (hlen : len s = len t) : s = t := by
  rcases h with ⟨u, rfl⟩
  cases u with
  | nil => exact (List.append_nil s).symm
  | cons c u =>
      have hpos : 0 < c.utf8Size := c.utf8Size_pos
      rw [len_append, len_cons] at hlen
      omega

/-- Two first parts of one string with as many bytes are the same. -/
theorem eq_of_isPrefixes_of_len_eq {s t u : Str} (hs : s <+: u) (ht : t <+: u)
    (hlen : len s = len t) : s = t := by
  rcases List.prefix_or_prefix_of_prefix hs ht with h | h
  · exact eq_of_isPrefix_of_len_eq h hlen
  · exact (eq_of_isPrefix_of_len_eq h hlen.symm).symm

/-- Every character is an ASCII character. -/
def IsAscii (s : Str) : Prop :=
  ∀ c ∈ s, c.toNat < 128

instance (s : Str) : Decidable (IsAscii s) :=
  List.decidableBAll (fun c : Char => c.toNat < 128) s

/-- An ASCII string has one byte for each character. -/
theorem len_of_isAscii {s : Str} (h : IsAscii s) : len s = s.length := by
  induction s with
  | nil => rfl
  | cons c s ih =>
      have hc : c.utf8Size = 1 := by
        rw [Char.utf8Size_eq_one_iff]
        have hlt : c.val.toNat < 128 := h c (by simp)
        exact UInt32.le_iff_toNat_le.mpr (by simpa using Nat.le_of_lt_succ hlt)
      rw [len_cons, hc, ih fun d hd => h d (by simp [hd]), List.length_cons]
      omega

/-- A string has at least one byte for each character. -/
theorem length_le_len (s : Str) : s.length ≤ len s := by
  induction s with
  | nil => exact Nat.le_refl 0
  | cons c s ih =>
      have hpos := c.utf8Size_pos
      rw [len_cons, List.length_cons]
      omega

/-- A string that is not ASCII has more bytes than characters. -/
theorem length_lt_len {s : Str} (h : ¬IsAscii s) : s.length < len s := by
  induction s with
  | nil => exact absurd (fun c hc => by cases hc) h
  | cons c s ih =>
      rw [len_cons, List.length_cons]
      by_cases hs : IsAscii s
      · -- the first character is the one that takes more than a byte
        have hc : c.utf8Size ≠ 1 := by
          intro hsize
          refine h fun d hd => ?_
          rcases List.mem_cons.mp hd with rfl | hmem
          · have hle := UInt32.le_iff_toNat_le.mp (Char.utf8Size_eq_one_iff.mp hsize)
            exact Nat.lt_succ_of_le (by simpa using hle)
          · exact hs d hmem
        have hpos := c.utf8Size_pos
        have hrest := length_le_len s
        omega
      · have hpos := c.utf8Size_pos
        have hrest := ih hs
        omega

theorem isAscii_append {s t : Str} : IsAscii (s ++ t) ↔ IsAscii s ∧ IsAscii t := by
  unfold IsAscii
  simp only [List.mem_append, or_imp, forall_and]

/-! ## Tests and splits -/

/-- The string begins with the given one. -/
def startsWith (s p : Str) : Bool :=
  p.isPrefixOf s

/-- The string ends with the given one. -/
def endsWith (s p : Str) : Bool :=
  p.isSuffixOf s

@[simp]
theorem startsWith_iff {s p : Str} : startsWith s p = true ↔ p <+: s :=
  List.isPrefixOf_iff_prefix

@[simp]
theorem endsWith_iff {s p : Str} : endsWith s p = true ↔ p <:+ s :=
  List.isSuffixOf_iff_suffix

/-- The part before the first separator, or the whole string without one. -/
def beforeFirst (sep : Char) (s : Str) : Str :=
  s.takeWhile (· ≠ sep)

/-- The parts before and after the last separator, if there is one. -/
def rsplitOnce (sep : Char) (s : Str) : Option (Str × Str) :=
  match s.reverse.dropWhile (· ≠ sep) with
  | [] => none
  | _ :: before => some (before.reverse, (s.reverse.takeWhile (· ≠ sep)).reverse)

/-- The part up to and including the first separator, if there is one. -/
def upToFirst (sep : Char) (s : Str) : Option Str :=
  if sep ∈ s then some (s.takeWhile (· ≠ sep) ++ [sep]) else none

/-- The part before the first separator holds no separator. -/
theorem notMem_beforeFirst (sep : Char) (s : Str) : sep ∉ beforeFirst sep s := by
  intro h
  simpa using List.mem_takeWhile_imp h

/-- Without a separator the whole string comes before the first one. -/
theorem beforeFirst_of_notMem {sep : Char} {s : Str} (h : sep ∉ s) : beforeFirst sep s = s := by
  refine List.takeWhile_eq_self_iff.mpr fun c hc => decide_eq_true ?_
  rintro rfl
  exact h hc

/-- The part before the first separator does not depend on what follows it. -/
theorem beforeFirst_append {sep : Char} {s : Str} (h : sep ∉ s) (t : Str) :
    beforeFirst sep (s ++ sep :: t) = s := by
  have hkeep : ∀ c ∈ s, decide (c ≠ sep) = true := by
    intro c hc
    refine decide_eq_true ?_
    rintro rfl
    exact h hc
  unfold beforeFirst
  rw [List.takeWhile_append_of_pos hkeep]
  simp

/-- What comes before the first separator of ASCII text is ASCII. -/
theorem IsAscii.beforeFirst {s : Str} (h : IsAscii s) (sep : Char) :
    IsAscii (beforeFirst sep s) :=
  fun c hc => h c ((List.takeWhile_prefix _).subset hc)

/-- A string without the separator has no last one. -/
theorem rsplitOnce_of_notMem {sep : Char} {s : Str} (h : sep ∉ s) : rsplitOnce sep s = none := by
  have hnone : s.reverse.dropWhile (· ≠ sep) = [] := by
    refine List.dropWhile_eq_nil_iff.mpr fun c hc => decide_eq_true ?_
    rintro rfl
    exact h (List.mem_reverse.mp hc)
  unfold rsplitOnce
  rw [hnone]

/-- The last separator is the one that no other follows. -/
theorem rsplitOnce_append {sep : Char} {s t : Str} (h : sep ∉ t) :
    rsplitOnce sep (s ++ sep :: t) = some (s, t) := by
  have hkeep : ∀ c ∈ t.reverse, decide (c ≠ sep) = true := by
    intro c hc
    refine decide_eq_true ?_
    rintro rfl
    exact h (List.mem_reverse.mp hc)
  have hreverse : (s ++ sep :: t).reverse = t.reverse ++ sep :: s.reverse := by simp
  have hdrop : (s ++ sep :: t).reverse.dropWhile (· ≠ sep) = sep :: s.reverse := by
    rw [hreverse, List.dropWhile_append_of_pos hkeep]
    simp
  have htake : (s ++ sep :: t).reverse.takeWhile (· ≠ sep) = t.reverse := by
    rw [hreverse, List.takeWhile_append_of_pos hkeep]
    simp
  unfold rsplitOnce
  rw [hdrop, htake]
  simp

/-- The part up to the first separator does not depend on what follows it. -/
theorem upToFirst_append {sep : Char} {s : Str} (h : sep ∉ s) (t : Str) :
    upToFirst sep (s ++ sep :: t) = some (s ++ [sep]) := by
  have hkeep : ∀ c ∈ s, decide (c ≠ sep) = true := by
    intro c hc
    refine decide_eq_true ?_
    rintro rfl
    exact h hc
  unfold upToFirst
  rw [if_pos (by simp), List.takeWhile_append_of_pos hkeep]
  simp

end Str

/-! ## Lowercasing -/

namespace Str

/-- A character that is no letter is lowercased from itself alone. -/
theorem toLower_eq_iff_of_no_letter {c d : Char} (hupper : d.toNat < 65 ∨ 90 < d.toNat)
    (hlower : d.toNat < 97 ∨ 122 < d.toNat) : c.toLower = d ↔ c = d := by
  unfold Char.toLower
  split_ifs with h
  · have hc : 65 ≤ c.toNat ∧ c.toNat ≤ 90 := by
      simpa [UInt32.le_iff_toNat_le] using h
    constructor
    · rintro rfl
      change (c.val + 32).toNat < 97 ∨ 122 < (c.val + 32).toNat at hlower
      rw [UInt32.toNat_add, Char.toNat_val] at hlower
      simp at hlower
      omega
    · rintro rfl
      omega
  · rfl

/-- A character below the letters is lowercased from itself alone. -/
theorem toLower_eq_iff {c d : Char} (hd : d.toNat < 65) : c.toLower = d ↔ c = d :=
  toLower_eq_iff_of_no_letter (by omega) (by omega)

/-- A character is ASCII when one with the same lowercase form is. -/
theorem toNat_lt_of_toLower_eq {c d : Char} (h : c.toLower = d.toLower) (hd : d.toNat < 128) :
    c.toNat < 128 := by
  by_contra hc
  have hc' : c.toLower = c := by
    unfold Char.toLower
    rw [dif_neg]
    rintro ⟨-, hle⟩
    have hnat : c.toNat ≤ 90 := by simpa [UInt32.le_iff_toNat_le] using hle
    omega
  rw [hc', eq_comm, toLower_eq_iff_of_no_letter (by omega) (by omega)] at h
  rw [h] at hd
  omega

/-- Lowercasing keeps which characters that are no letters a string has. -/
theorem mem_map_toLower_iff {d : Char} (hupper : d.toNat < 65 ∨ 90 < d.toNat)
    (hlower : d.toNat < 97 ∨ 122 < d.toNat) {s : Str} : d ∈ s.map Char.toLower ↔ d ∈ s := by
  simp only [List.mem_map, toLower_eq_iff_of_no_letter hupper hlower, exists_eq_right]

/-- Lowercasing keeps the part before the first separator that is no letter. -/
theorem beforeFirst_map_toLower {sep : Char} (hsep : sep.toNat < 65) (s : Str) :
    beforeFirst sep (s.map Char.toLower) = (beforeFirst sep s).map Char.toLower := by
  have hkeep : (fun c => decide (c ≠ sep)) ∘ Char.toLower = fun c => decide (c ≠ sep) := by
    funext c
    simp only [Function.comp_apply, ne_eq, toLower_eq_iff hsep]
  unfold beforeFirst
  rw [List.takeWhile_map, hkeep]

/-- Lowercasing does not change which beginnings without letters a string has. -/
theorem startsWith_map_toLower {s p : Str} (hp : ∀ c ∈ p, c.toNat < 65) :
    startsWith (s.map Char.toLower) p = startsWith s p := by
  unfold startsWith
  induction p generalizing s with
  | nil => simp
  | cons d p ih =>
      cases s with
      | nil => rfl
      | cons c s =>
          have hhead : (d == c.toLower) = (d == c) := by
            rw [Bool.eq_iff_iff, beq_iff_eq, beq_iff_eq, eq_comm,
              toLower_eq_iff (hp d (by simp)), eq_comm]
          simp only [List.map_cons, List.isPrefixOf, hhead, ih fun c hc => hp c (by simp [hc])]

end Str

/-- A lowercasing of strings that is the usual one on ASCII text. -/
structure Lowercasing where
  toLowercase : Str → Str
  toLowercase_ascii : ∀ s, Str.IsAscii s → toLowercase s = s.map Char.toLower

/-- Lowercasing of the ASCII letters alone. -/
def Lowercasing.ascii : Lowercasing where
  toLowercase := List.map Char.toLower
  toLowercase_ascii _ _ := rfl

namespace Lowercasing

variable (lc : Lowercasing)

/-- Lowercasing keeps the length of ASCII text. -/
theorem length_toLowercase {s : Str} (h : Str.IsAscii s) :
    (lc.toLowercase s).length = s.length := by
  rw [lc.toLowercase_ascii s h, List.length_map]

/-- Lowercasing ASCII text does not change which beginnings without letters it has. -/
theorem startsWith_toLowercase {s p : Str} (h : Str.IsAscii s) (hp : ∀ c ∈ p, c.toNat < 65) :
    Str.startsWith (lc.toLowercase s) p = Str.startsWith s p := by
  rw [lc.toLowercase_ascii s h, Str.startsWith_map_toLower hp]

end Lowercasing

end Foundation
