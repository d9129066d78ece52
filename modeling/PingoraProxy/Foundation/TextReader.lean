import PingoraProxy.Foundation.RustString

/-!
# Readers of text

A reader takes a value from the beginning of a text and leaves the rest, or fails and
leaves everything.  That it leaves a last part of the text is part of its definition.

A reader stops at a character when it never reads past one and never looks at what
follows it.  Such a reader can be run on the text before the character alone.

Main results:

- Theorems {lit}`StopsAt.bind` and {lit}`StopsAt.orElse`: readers made from readers that
  stop at a character do so as well.
- Theorem {lit}`stopsAt_number`: a number is read up to the first character that is no
  digit.
- Theorem {lit}`StopsAt.split`: where a reader is followed by the character it stops at,
  the text before the character is what it reads.
-/

namespace Foundation

/-- A reader of values from the beginning of a text. -/
structure TextReader (α : Type) where
  run : Str → Option (α × Str)
  suffix : ∀ {s a rest}, run s = some (a, rest) → rest <:+ s

namespace TextReader

variable {α β : Type}

/-! ## Combining readers -/

/-- Read nothing. -/
protected def pure (a : α) : TextReader α where
  run s := some (a, s)
  suffix h := by
    cases h
    exact List.suffix_refl _

/-- Read one value and then another. -/
protected def bind (r : TextReader α) (f : α → TextReader β) : TextReader β where
  run s := (r.run s).bind fun p => (f p.1).run p.2
  suffix h := by
    rcases Option.bind_eq_some_iff.mp h with ⟨p, hp, hrest⟩
    exact ((f p.1).suffix hrest).trans (r.suffix hp)

instance : Monad TextReader where
  pure := TextReader.pure
  bind := TextReader.bind

/-- Read nothing and fail. -/
def fail : TextReader α where
  run _ := none
  suffix h := by cases h

/-- Read with the first reader, or with the second one where it fails. -/
def orElse (r r' : TextReader α) : TextReader α where
  run s := (r.run s).or (r'.run s)
  suffix h := by
    rcases Option.or_eq_some_iff.mp h with h | ⟨-, h⟩
    · exact r.suffix h
    · exact r'.suffix h

/-- Read a given character. -/
def char (c : Char) : TextReader Unit where
  run s :=
    match s with
    | [] => none
    | d :: s => if d = c then some ((), s) else none
  suffix {s a rest} h := by
    cases s with
    | nil => cases h
    | cons d s =>
        dsimp only at h
        split_ifs at h
        cases h
        exact List.suffix_cons _ _

@[simp]
theorem run_pure (a : α) (s : Str) : (pure a : TextReader α).run s = some (a, s) :=
  rfl

@[simp]
theorem run_bind (r : TextReader α) (f : α → TextReader β) (s : Str) :
    (r >>= f).run s = (r.run s).bind fun p => (f p.1).run p.2 :=
  rfl

@[simp]
theorem run_orElse (r r' : TextReader α) (s : Str) :
    (r.orElse r').run s = (r.run s).or (r'.run s) :=
  rfl

/-- A given character was the first of the text. -/
theorem run_char_eq_some_iff {c : Char} {s rest : Str} {u : Unit} :
    (char c).run s = some (u, rest) ↔ s = c :: rest := by
  cases s with
  | nil => simp [char]
  | cons d s =>
      by_cases hd : d = c
      · simp [char, hd]
      · simp [char, hd]

/-! ## Numbers -/

/-- The value of a character as a digit. -/
def toDigit (radix : Nat) (c : Char) : Option Nat :=
  let value :=
    if '0' ≤ c ∧ c ≤ '9' then c.toNat - 48
    else if 'a' ≤ c ∧ c ≤ 'z' then c.toNat - 87
    else if 'A' ≤ c ∧ c ≤ 'Z' then c.toNat - 55
    else radix
  if value < radix then some value else none

/-- Read digits while there are some: the value so far and the number of digits, none
when the value or the number of digits grows too large. -/
def readDigits (radix limit : Nat) (maxDigits : Option Nat) (value count : Nat) :
    Str → Option ((Nat × Nat) × Str)
  | [] => some ((value, count), [])
  | c :: s =>
      match toDigit radix c with
      | none => some ((value, count), c :: s)
      | some d =>
          if limit < value * radix + d then none
          else if maxDigits.any (· < count + 1) then none
          else readDigits radix limit maxDigits (value * radix + d) (count + 1) s

theorem readDigits_suffix {radix limit : Nat} {maxDigits : Option Nat} {value count : Nat}
    {s rest : Str} {p : Nat × Nat}
    (h : readDigits radix limit maxDigits value count s = some (p, rest)) : rest <:+ s := by
  induction s generalizing value count with
  | nil =>
      cases h
      exact List.suffix_refl _
  | cons c s ih =>
      unfold readDigits at h
      cases hc : toDigit radix c with
      | none =>
          simp only [hc] at h
          cases h
          exact List.suffix_refl _
      | some d =>
          simp only [hc] at h
          split_ifs at h
          exact (ih h).trans (List.suffix_cons c s)

/-- Read a number up to a limit, with at most some digits and, unless allowed, without a
zero before other digits. -/
def number (radix limit : Nat) (maxDigits : Option Nat) (allowZeroPrefix : Bool) :
    TextReader Nat where
  run s :=
    match readDigits radix limit maxDigits 0 0 s with
    | none => none
    | some ((value, count), rest) =>
        if count = 0 then none
        else if !allowZeroPrefix && s.head? == some '0' && decide (1 < count) then none
        else some (value, rest)
  suffix {s a rest} h := by
    cases hdigits : readDigits radix limit maxDigits 0 0 s with
    | none =>
        rw [hdigits] at h
        cases h
    | some p =>
        rw [hdigits] at h
        dsimp only at h
        split_ifs at h
        cases h
        exact readDigits_suffix hdigits

/-! ## Readers that stop at a character -/

/-- A reader never reads past a character and never looks at what follows it. -/
def StopsAt (r : TextReader α) (c : Char) : Prop :=
  ∀ s rest, r.run (s ++ c :: rest) = (r.run s).map fun p => (p.1, p.2 ++ c :: rest)

variable {c : Char}

theorem stopsAt_pure (a : α) : (pure a : TextReader α).StopsAt c :=
  fun _ _ => rfl

theorem stopsAt_fail : (fail : TextReader α).StopsAt c :=
  fun _ _ => rfl

theorem StopsAt.bind {r : TextReader α} {f : α → TextReader β} (hr : r.StopsAt c)
    (hf : ∀ a, (f a).StopsAt c) : (r >>= f).StopsAt c := by
  intro s rest
  rw [run_bind, run_bind, hr]
  cases r.run s with
  | none => rfl
  | some p => exact hf p.1 p.2 rest

theorem StopsAt.orElse {r r' : TextReader α} (hr : r.StopsAt c) (hr' : r'.StopsAt c) :
    (r.orElse r').StopsAt c := by
  intro s rest
  rw [run_orElse, run_orElse, hr, hr']
  cases r.run s with
  | none => rfl
  | some p => rfl

theorem stopsAt_char {d : Char} (h : c ≠ d) : (char d).StopsAt c := by
  intro s rest
  cases s with
  | nil => exact if_neg h
  | cons e s =>
      by_cases he : e = d
      · simp [char, he]
      · simp [char, he]

theorem readDigits_append {radix : Nat} (h : toDigit radix c = none) (limit : Nat)
    (maxDigits : Option Nat) (value count : Nat) (s rest : Str) :
    readDigits radix limit maxDigits value count (s ++ c :: rest) =
      (readDigits radix limit maxDigits value count s).map
        fun p => (p.1, p.2 ++ c :: rest) := by
  induction s generalizing value count with
  | nil => simp [readDigits, h]
  | cons d s ih =>
      rw [List.cons_append]
      unfold readDigits
      cases hd : toDigit radix d with
      | none => rfl
      | some digit =>
          dsimp only
          split_ifs
          · rfl
          · rfl
          · exact ih _ _

/-- A number is read up to the first character that is no digit. -/
theorem stopsAt_number {radix : Nat} (h : toDigit radix c = none) (limit : Nat)
    (maxDigits : Option Nat) (allowZeroPrefix : Bool) :
    (number radix limit maxDigits allowZeroPrefix).StopsAt c := by
  intro s rest
  unfold number
  dsimp only
  rw [readDigits_append h]
  cases s with
  | nil => rfl
  | cons d s =>
      cases readDigits radix limit maxDigits 0 0 (d :: s) with
      | none => rfl
      | some p =>
          have hhead : (d :: s ++ c :: rest).head? = (d :: s).head? := rfl
          rw [hhead]
          dsimp only [Option.map_some]
          split_ifs <;> rfl

/-- A text read to its end does not hold the character. -/
theorem StopsAt.notMem {r : TextReader α} (hr : r.StopsAt c) {text : Str} {a : α}
    (h : r.run text = some (a, [])) : c ∉ text := by
  intro hmem
  rcases List.append_of_mem hmem with ⟨before, after, rfl⟩
  rw [hr] at h
  rcases Option.map_eq_some_iff.mp h with ⟨p, -, hp⟩
  exact absurd (Prod.mk.inj hp).2 (by simp)

/-- Where a reader is followed by the character it stops at, the text before the
character is what it reads. -/
theorem StopsAt.split {r : TextReader α} (hr : r.StopsAt c) {s rest : Str} {a : α}
    (h : r.run s = some (a, c :: rest)) :
    ∃ text, s = text ++ c :: rest ∧ r.run text = some (a, []) := by
  have hmem : c ∈ s := (r.suffix h).subset List.mem_cons_self
  rcases List.eq_append_cons_of_mem hmem with ⟨text, after, rfl, hbefore⟩
  rw [hr] at h
  rcases Option.map_eq_some_iff.mp h with ⟨⟨a', left⟩, hread, hleft⟩
  rcases Prod.mk.inj hleft with ⟨rfl, hrest⟩
  -- what is left of the text before the character cannot begin with it
  cases left with
  | nil =>
      cases hrest
      exact ⟨text, rfl, hread⟩
  | cons d left =>
      cases hrest
      exact absurd ((r.suffix hread).subset List.mem_cons_self) hbefore

end TextReader

end Foundation
