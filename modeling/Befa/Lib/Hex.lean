import Mathlib.Algebra.Order.Ring.Nat
import Mathlib.Data.List.Basic

/-!
# Characters and hexadecimal numbers

The character classes of regular expressions in the C locale, and how an input stream in
hexadecimal mode reads an unsigned 64-bit number.

A stream skips blanks, takes a sign and `0x` if they are there, and then the longest run of
digits.  No digit is a failure that reads zero, a number that does not fit is a failure that reads
the largest one.
-/

/-- `[0-9a-f]`. -/
def isLowerHex (c : Char) : Bool := c.isDigit || ('a' ≤ c && c ≤ 'f')

/-- `[0-9a-fA-F]`. -/
def isHexDigit (c : Char) : Bool := isLowerHex c || ('A' ≤ c && c ≤ 'F')

/-- `\w`. -/
def isWordChar (c : Char) : Bool := c.isAlphanum || c = '_'

/-- `\s`. -/
def isSpaceChar (c : Char) : Bool :=
  c = ' ' || c = '\t' || c = '\n' || c = '\r' || c = '\x0b' || c = '\x0c'

/-- The value of a hexadecimal digit. -/
def hexDigit (c : Char) : Nat :=
  if c.isDigit then c.toNat - '0'.toNat
  else if 'a' ≤ c then c.toNat - 'a'.toNat + 10
  else c.toNat - 'A'.toNat + 10

/-- The value of a run of hexadecimal digits. -/
def hexValue (digits : List Char) : Nat := digits.foldl (fun n c => 16 * n + hexDigit c) 0

/-- Drop `0x`. -/
def dropHexPrefix : List Char → List Char
  | '0' :: 'x' :: s => s
  | '0' :: 'X' :: s => s
  | s => s

/-- Split off a sign.  `true` is a minus. -/
def takeSign : List Char → Bool × List Char
  | '-' :: s => (true, s)
  | '+' :: s => (false, s)
  | s => (false, s)

/-- `stream >> std::hex >> value`: the value, and whether the stream is still good. -/
def extractHex (s : List Char) : UInt64 × Bool :=
  let (negative, s) := takeSign (s.dropWhile isSpaceChar)
  let digits := (dropHexPrefix s).takeWhile isHexDigit
  if digits.isEmpty then (0, false)
  else if hexValue digits < 2 ^ 64 then
    let value := UInt64.ofNat (hexValue digits)
    (if negative then -value else value, true)
  else (UInt64.ofNat (2 ^ 64 - 1), false)

example : extractHex "eax".toList = (0xea, true) := by decide

/-! ## Reading -/

/-- What a stream makes of a run of digits. -/
def readHex (digits : List Char) : UInt64 × Bool :=
  if digits.isEmpty then (0, false)
  else if hexValue digits < 2 ^ 64 then (UInt64.ofNat (hexValue digits), true)
  else (UInt64.ofNat (2 ^ 64 - 1), false)

/-- Leading zeros do not count. -/
theorem hexValue_zeros {zeros : List Char} (hz : ∀ c ∈ zeros, c = '0') (digits : List Char) :
    hexValue (zeros ++ digits) = hexValue digits := by
  induction zeros with
  | nil => rfl
  | cons c zeros ih =>
      obtain rfl : c = '0' := hz c (List.mem_cons_self ..)
      exact ih fun d hd => hz d (List.mem_cons_of_mem _ hd)

theorem isHexDigit_of_isLowerHex {c : Char} (h : isLowerHex c = true) : isHexDigit c = true := by
  rw [isHexDigit, h, Bool.true_or]

theorem isWordChar_of_isHexDigit {c : Char} (h : isHexDigit c = true) : isWordChar c = true := by
  have hletter : c.isUpper = true ∨ c.isLower = true → isWordChar c = true := fun h => by
    have ha : c.isAlpha = true := Bool.or_eq_true_iff.mpr h
    simp [isWordChar, Char.isAlphanum, ha]
  simp only [isHexDigit, isLowerHex, Bool.or_eq_true, Bool.and_eq_true, decide_eq_true_eq] at h
  rcases h with (h | ⟨h, h'⟩) | ⟨h, h'⟩
  · simp [isWordChar, Char.isAlphanum, h]
  · have hz : c ≤ 'z' := Char.le_trans h' (by decide)
    exact hletter (Or.inr (Bool.and_eq_true_iff.mpr ⟨decide_eq_true h, decide_eq_true hz⟩))
  · have hz : c ≤ 'Z' := Char.le_trans h' (by decide)
    exact hletter (Or.inl (decide_eq_true ⟨h, hz⟩))

theorem isSpaceChar_of_isWordChar {c : Char} (h : isWordChar c = true) : isSpaceChar c = false := by
  refine Bool.eq_false_iff.mpr fun hs => ?_
  simp only [isSpaceChar, Bool.or_eq_true, decide_eq_true_eq] at hs
  rcases hs with ((((rfl | rfl) | rfl) | rfl) | rfl) | rfl <;> exact absurd h (by decide)

/-- The sign and the digits of the number that a text starts with. -/
def signedDigits (s : List Char) : Bool × List Char :=
  ((takeSign s).1, (dropHexPrefix (takeSign s).2).takeWhile isHexDigit)

/-- A stream negates what it makes of the digits behind a minus, unless they are no number. -/
theorem extractHex_signed {s : List Char} (hs : ∀ c ∈ s.head?, isSpaceChar c = false) :
    extractHex s = (if (signedDigits s).1 && (readHex (signedDigits s).2).2 then
      -(readHex (signedDigits s).2).1 else (readHex (signedDigits s).2).1,
      (readHex (signedDigits s).2).2) := by
  have hblanks : s.dropWhile isSpaceChar = s := by
    cases s with
    | nil => rfl
    | cons c s => rw [List.dropWhile_cons, hs c rfl, if_neg Bool.false_ne_true]
  rw [extractHex, hblanks, signedDigits]
  obtain ⟨negative, s⟩ := takeSign s
  dsimp only
  generalize (dropHexPrefix s).takeWhile isHexDigit = digits
  rw [readHex]
  cases digits.isEmpty with
  | true => simp
  | false =>
      rw [if_neg Bool.false_ne_true, if_neg Bool.false_ne_true]
      by_cases hlt : hexValue digits < 2 ^ 64
      · rw [if_pos hlt, if_pos hlt, Bool.and_true]
      · rw [if_neg hlt, if_neg hlt, Bool.and_false, if_neg Bool.false_ne_true]

/-- A stream reads a text from its first character on, unless it has blanks, a sign or a prefix. -/
theorem extractHex_plain {s : List Char} (hs : ∀ c ∈ s.head?, isSpaceChar c = false)
    (hsign : takeSign s = (false, s)) (hp : dropHexPrefix s = s) :
    extractHex s = readHex (s.takeWhile isHexDigit) := by
  have hdigits : signedDigits s = (false, s.takeWhile isHexDigit) := by
    rw [signedDigits, hsign, hp]
  rw [extractHex_signed hs, hdigits, Bool.false_and, if_neg Bool.false_ne_true]

theorem takeSign_plain {s : List Char} (h : ∀ c ∈ s.head?, c ≠ '-' ∧ c ≠ '+') :
    takeSign s = (false, s) := by
  unfold takeSign
  split
  next => exact absurd rfl (h '-' rfl).1
  next => exact absurd rfl (h '+' rfl).2
  next => rfl

theorem dropHexPrefix_plain {s : List Char} (h : ∀ c ∈ s.head?, c ≠ '0') : dropHexPrefix s = s := by
  unfold dropHexPrefix
  split
  next => exact absurd rfl (h '0' rfl)
  next => exact absurd rfl (h '0' rfl)
  next => rfl

theorem dropHexPrefix_of_digits {s : List Char} (h : ∀ c ∈ s, isHexDigit c = true) :
    dropHexPrefix s = s := by
  unfold dropHexPrefix
  split
  next => exact absurd (h 'x' (by simp)) (by decide)
  next => exact absurd (h 'X' (by simp)) (by decide)
  next => rfl

/-- A stream reads a run of digits as its number. -/
theorem extractHex_digits {s : List Char} (h : ∀ c ∈ s, isHexDigit c = true) :
    extractHex s = readHex s := by
  have hword : ∀ c ∈ s.head?, isWordChar c = true := fun c hc =>
    isWordChar_of_isHexDigit (h c (List.mem_of_mem_head? hc))
  rw [extractHex_plain (fun c hc => isSpaceChar_of_isWordChar (hword c hc)) ?_
    (dropHexPrefix_of_digits h)]
  · rw [← List.append_nil s, List.takeWhile_append_of_pos h, List.takeWhile_nil]
  · refine takeSign_plain fun c hc => ⟨?_, ?_⟩ <;>
      rintro rfl <;> exact absurd (hword _ hc) (by decide)

theorem readHex_of_lt {digits : List Char} (hne : digits ≠ []) (hv : hexValue digits < 2 ^ 64) :
    readHex digits = (UInt64.ofNat (hexValue digits), true) := by
  rw [readHex, if_neg (by simpa using hne), if_pos hv]

/-- A run of digits is read as its value. -/
theorem readHex_congr {digits digits' : List Char} (hne : digits ≠ []) (hne' : digits' ≠ [])
    (h : hexValue digits = hexValue digits') : readHex digits = readHex digits' := by
  have hempty : digits.isEmpty = digits'.isEmpty := by
    rw [List.isEmpty_eq_false_iff.mpr hne, List.isEmpty_eq_false_iff.mpr hne']
  rw [readHex, readHex, hempty, h]

/-- A number is read as a value when it is that value. -/
theorem readHex_eq (digits : List Char) (v : UInt64) :
    readHex digits = (v, true) ↔ digits ≠ [] ∧ hexValue digits = v.toNat := by
  cases hempty : digits.isEmpty with
  | true =>
      rw [readHex, if_pos hempty]
      simp [List.isEmpty_iff.mp hempty]
  | false =>
      have hne : digits ≠ [] := List.isEmpty_eq_false_iff.mp hempty
      by_cases hlt : hexValue digits < 2 ^ 64
      · rw [readHex_of_lt hne hlt, Prod.mk.injEq, ← UInt64.toNat_inj,
          UInt64.toNat_ofNat_of_lt' hlt]
        simp [hne]
      · rw [readHex, hempty, if_neg Bool.false_ne_true, if_neg hlt]
        have := v.toNat_lt
        simp only [Prod.mk.injEq, Bool.false_eq_true, and_false, false_iff, not_and]
        omega

/-- A value other than zero has digits. -/
theorem readHex_eq_pos (digits : List Char) {v : UInt64} (hv : v.toNat ≠ 0) :
    readHex digits = (v, true) ↔ hexValue digits = v.toNat := by
  rw [readHex_eq]
  refine ⟨And.right, fun h => ⟨?_, h⟩⟩
  rintro rfl
  exact hv h.symm
