import PingoraProxy.Foundation.Utf8

/-!
# Byte offsets and checked operations

A slice of a string is taken at byte offsets.  It stops the program when an offset lies
past the end or within the bytes of a character, and so do a difference below zero, a
remainder by zero and a position outside a list.  A sum past the word is an error here
as well, though a build without overflow checks goes on with the wrong number.  A list
that is built for good must find the memory for its elements.

An operation that can go wrong returns the reason in place of a value.

Main results:

- Theorem {lit}`splitAtByte_eq_some_iff`: a string can be cut at an offset exactly when
  that many bytes are those of a first part of it.
- Theorems {lit}`findByte_of_mem` and {lit}`findByte_of_notMem`: the offset of a character
  is the length of what comes before the first one, if there is one.
- Theorems {lit}`sliceFrom_append`, {lit}`sliceTo_append` and {lit}`slice_append`: slices
  at the seams of a string.
- Theorems {lit}`filterMapM_eq_ok` and {lit}`foldlM_eq_ok`: loops none of whose rounds
  goes wrong.
-/

namespace Foundation

/-- What can go wrong in an operation. -/
inductive Panic where
  | offset
  | overflow
  | remainderByZero
  | outOfBounds
  | capacity
deriving DecidableEq, Repr

/-- The value of an operation, or what went wrong. -/
abbrev Checked :=
  Except Panic

namespace Checked

/-! ## Arithmetic and positions -/

/-- The size of a machine word. -/
def wordSize : Nat :=
  2 ^ 64

/-- A sum that has to fit a machine word. -/
def add (a b : Nat) : Checked Nat :=
  if a + b < wordSize then .ok (a + b) else .error .overflow

/-- A difference that must not go below zero. -/
def sub (a b : Nat) : Checked Nat :=
  if b ≤ a then .ok (a - b) else .error .overflow

/-- A remainder by a number that must not be zero. -/
def rem (a b : Nat) : Checked Nat :=
  if b = 0 then .error .remainderByZero else .ok (a % b)

/-- The element at a position that has to lie in the list. -/
def get {α : Type} (l : List α) (i : Nat) : Checked α :=
  match l[i]? with
  | some a => .ok a
  | none => .error .outOfBounds

/-- A list for which there is memory: it has at most so many elements. -/
def collect {α : Type} (capacity : UInt64) (l : List α) : Checked (List α) :=
  if l.length ≤ capacity.toNat then .ok l else .error .capacity

theorem add_eq_ok {a b : Nat} (h : a + b < wordSize) : add a b = .ok (a + b) :=
  if_pos h

theorem sub_eq_ok {a b : Nat} (h : b ≤ a) : sub a b = .ok (a - b) :=
  if_pos h

theorem rem_eq_ok {a b : Nat} (h : 0 < b) : rem a b = .ok (a % b) :=
  if_neg (Nat.ne_of_gt h)

theorem get_eq_ok {α : Type} {l : List α} {i : Nat} {a : α} (h : l[i]? = some a) :
    get l i = .ok a := by
  unfold get
  rw [h]

theorem collect_eq_ok {α : Type} {capacity : UInt64} {l : List α}
    (h : l.length ≤ capacity.toNat) : collect capacity l = .ok l :=
  if_pos h

theorem collect_eq_error {α : Type} {capacity : UInt64} {l : List α}
    (h : ¬l.length ≤ capacity.toNat) : collect capacity l = .error .capacity :=
  if_neg h

/-! ## Loops -/

/-- A filter none of whose rounds goes wrong. -/
theorem filterMapM_eq_ok {α β : Type} {f : α → Checked (Option β)} {g : α → Option β}
    {l : List α} (h : ∀ a ∈ l, f a = .ok (g a)) : l.filterMapM f = .ok (l.filterMap g) := by
  induction l with
  | nil => rfl
  | cons a l ih =>
      have hrest := ih fun b hb => h b (List.mem_cons_of_mem a hb)
      rw [List.filterMapM_cons, h a List.mem_cons_self, List.filterMap_cons, hrest]
      cases g a with
      | none => rfl
      | some b => rfl

/-- A loop none of whose rounds goes wrong. -/
theorem foldlM_eq_ok {α β : Type} {f : β → α → Checked β} {g : β → α → β} {l : List α}
    (h : ∀ a ∈ l, ∀ b, f b a = .ok (g b a)) (start : β) :
    l.foldlM f start = .ok (l.foldl g start) := by
  induction l generalizing start with
  | nil => rfl
  | cons a l ih =>
      rw [List.foldlM_cons, h a List.mem_cons_self, List.foldl_cons]
      exact ih (fun b hb => h b (List.mem_cons_of_mem a hb)) (g start a)

end Checked

namespace Str

/-! ## Cutting a string -/

/-- The characters whose encodings make up the first bytes of a string, and the others. -/
def cut : Str → Nat → Str × Str
  | s, 0 => ([], s)
  | [], _ + 1 => ([], [])
  | c :: s, n + 1 => (c :: (cut s (n + 1 - c.utf8Size)).1, (cut s (n + 1 - c.utf8Size)).2)

/-- The two parts of a string at a byte offset, if it can be cut there. -/
def splitAtByte (s : Str) (offset : Nat) : Option (Str × Str) :=
  if isCharBoundary s offset then some (cut s offset) else none

theorem cut_append (before after : Str) : cut (before ++ after) (len before) = (before, after) := by
  induction before with
  | nil =>
      cases after with
      | nil => rfl
      | cons c after => rfl
  | cons c before ih =>
      have hpos : 0 < c.utf8Size := c.utf8Size_pos
      have hlen : len (c :: before) = c.utf8Size + len before - 1 + 1 := by
        rw [len_cons]
        omega
      have hrest : c.utf8Size + len before - 1 + 1 - c.utf8Size = len before := by omega
      rw [hlen, List.cons_append, cut, hrest, ih]

/-- A string can be cut at an offset exactly when that many bytes are those of a first
part of it. -/
theorem splitAtByte_eq_some_iff {s before after : Str} {offset : Nat} :
    splitAtByte s offset = some (before, after) ↔
      s = before ++ after ∧ len before = offset := by
  unfold splitAtByte
  constructor
  · intro h
    split_ifs at h with hboundary
    rcases isCharBoundary_iff.mp hboundary with ⟨before', after', rfl, rfl⟩
    rw [cut_append] at h
    cases h
    exact ⟨rfl, rfl⟩
  · rintro ⟨rfl, rfl⟩
    rw [if_pos (isCharBoundary_iff.mpr ⟨before, after, rfl, rfl⟩), cut_append]

/-- The part of a string from a byte offset on. -/
def sliceFrom (s : Str) (start : Nat) : Checked Str :=
  match splitAtByte s start with
  | some (_, after) => .ok after
  | none => .error .offset

/-- The part of a string before a byte offset. -/
def sliceTo (s : Str) (stop : Nat) : Checked Str :=
  match splitAtByte s stop with
  | some (before, _) => .ok before
  | none => .error .offset

/-- The part of a string between two byte offsets. -/
def slice (s : Str) (start stop : Nat) : Checked Str := do
  let length ← Checked.sub stop start
  let after ← sliceFrom s start
  sliceTo after length

/-- The byte offset of the first of a character, if there is one. -/
def findByte (c : Char) : Str → Option Nat
  | [] => none
  | d :: s => if d = c then some 0 else (findByte c s).map (· + d.utf8Size)

theorem sliceFrom_append {before after : Str} {start : Nat} (h : len before = start) :
    sliceFrom (before ++ after) start = .ok after := by
  unfold sliceFrom
  rw [splitAtByte_eq_some_iff.mpr ⟨rfl, h⟩]

theorem sliceTo_append {before after : Str} {stop : Nat} (h : len before = stop) :
    sliceTo (before ++ after) stop = .ok before := by
  unfold sliceTo
  rw [splitAtByte_eq_some_iff.mpr ⟨rfl, h⟩]

theorem slice_append {before middle after : Str} {start stop : Nat} (hstart : len before = start)
    (hstop : len before + len middle = stop) :
    slice (before ++ (middle ++ after)) start stop = .ok middle := by
  have hlength : Checked.sub stop start = .ok (len middle) := by
    rw [Checked.sub_eq_ok (by omega)]
    exact congrArg Except.ok (by omega)
  unfold slice
  rw [hlength, sliceFrom_append hstart]
  exact sliceTo_append rfl

/-- Without a character there is no offset of it. -/
theorem findByte_of_notMem {c : Char} {s : Str} (h : c ∉ s) : findByte c s = none := by
  induction s with
  | nil => rfl
  | cons d s ih =>
      rw [List.mem_cons, not_or] at h
      rw [findByte, if_neg (Ne.symm h.1), ih h.2, Option.map_none]

/-- The offset of a character is the length of what comes before the first one. -/
theorem findByte_of_mem {c : Char} {s : Str} (h : c ∈ s) :
    findByte c s = some (len (beforeFirst c s)) := by
  induction s with
  | nil => cases h
  | cons d s ih =>
      unfold beforeFirst at ih ⊢
      rw [findByte]
      by_cases hd : d = c
      · rw [if_pos hd, List.takeWhile_cons_of_neg (by simpa using hd)]
        rfl
      · have hmem : c ∈ s := (List.mem_cons.mp h).resolve_left (Ne.symm hd)
        rw [if_neg hd, ih hmem, List.takeWhile_cons_of_pos (by simpa using hd), len_cons,
          Option.map_some, Nat.add_comm]

/-- A string with a separator is what comes before the first one, the separator and a
rest. -/
theorem eq_beforeFirst_append {sep : Char} {s : Str} (h : sep ∈ s) :
    ∃ rest, s = beforeFirst sep s ++ sep :: rest := by
  induction s with
  | nil => cases h
  | cons d s ih =>
      unfold beforeFirst at ih ⊢
      by_cases hd : d = sep
      · rw [List.takeWhile_cons_of_neg (by simpa using hd), hd]
        exact ⟨s, rfl⟩
      · rcases ih ((List.mem_cons.mp h).resolve_left (Ne.symm hd)) with ⟨rest, hrest⟩
        rw [List.takeWhile_cons_of_pos (by simpa using hd)]
        exact ⟨rest, congrArg (List.cons d) hrest⟩

end Str

end Foundation
