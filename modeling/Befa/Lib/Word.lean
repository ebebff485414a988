import Mathlib.Algebra.Order.Ring.Int

/-!
# Machine words

The order of 64-bit words, so that ordered containers can be keyed by them, and the two
conversions a C program makes of one: an offset is added modulo `2 ^ 64`, and a conversion to
`int` keeps the residue modulo `2 ^ 32` in the signed range.

An `int` is its value.  `checkInt` is the result of an operation on `int`s, which is undefined when
it overflows.
-/

instance wordLinearOrder : LinearOrder UInt64 where
  le_refl := UInt64.le_refl
  le_trans := fun _ _ _ => UInt64.le_trans
  le_antisymm := fun _ _ => UInt64.le_antisymm
  le_total := UInt64.le_total
  lt_iff_le_not_ge := by
    intro a b
    simp only [UInt64.lt_iff_toNat_lt, UInt64.le_iff_toNat_le]
    omega
  toDecidableLE := inferInstance
  toDecidableLT := inferInstance
  toDecidableEq := inferInstance

/-- A word converted to `int`. -/
def asInt (x : UInt64) : Int := Int.bmod x.toNat 4294967296

theorem asInt_lt (x : UInt64) : asInt x < 2147483648 := by
  unfold asInt
  rw [Int.bmod_def]
  omega

/-- The conversion never grows a value. -/
theorem asInt_le (x : UInt64) : asInt x ≤ x.toNat := by
  unfold asInt
  rw [Int.bmod_def]
  omega

theorem toNat_add_ofNat (a : UInt64) (n : Nat) :
    (a + UInt64.ofNat n).toNat = (a.toNat + n) % 2 ^ 64 := by
  rw [UInt64.toNat_add, UInt64.toNat_ofNat']
  omega

theorem toNat_add_ofNat_of_lt {a : UInt64} {n : Nat} (h : a.toNat + n < 2 ^ 64) :
    (a + UInt64.ofNat n).toNat = a.toNat + n := by
  rw [toNat_add_ofNat, Nat.mod_eq_of_lt h]

/-- Offsets below `2 ^ 64` name different addresses. -/
theorem add_ofNat_inj {a : UInt64} {m n : Nat} (hm : m < 2 ^ 64) (hn : n < 2 ^ 64)
    (h : a + UInt64.ofNat m = a + UInt64.ofNat n) : m = n := by
  have he := congrArg UInt64.toNat h
  have ha := a.toNat_lt
  rw [toNat_add_ofNat, toNat_add_ofNat] at he
  omega

/-! ## Signed arithmetic -/

/-- `INT_MAX`. -/
def intMax : Int := 2147483647

/-- The value of an operation on `int`s.  An overflow has none. -/
def checkInt (x : Int) : Option Int := if -intMax - 1 ≤ x ∧ x ≤ intMax then some x else none

theorem checkInt_of_le {x : Int} (h0 : 0 ≤ x) (h : x ≤ intMax) : checkInt x = some x := by
  have hmax : (0 : Int) ≤ intMax := by decide
  exact if_pos ⟨by omega, h⟩

theorem checkInt_of_lt {x : Int} (h : intMax < x) : checkInt x = none :=
  if_neg fun hx => absurd hx.2 (not_le.mpr h)

theorem checkInt_eq_some {x y : Int} (h : checkInt x = some y) : y = x := by
  rw [checkInt] at h
  split at h
  · exact (Option.some.inj h).symm
  · cases h

theorem ofInt_natCast (n : Nat) : UInt64.ofInt n = UInt64.ofNat n := by
  rw [UInt64.ofInt, ← UInt64.toNat_inj, UInt64.toNat_ofNat', UInt64.toNat_ofNat']
  omega

/-- A `size_t` below `2 ^ 31` is its value as an `int`. -/
theorem asInt_of_lt {x : UInt64} (h : x.toNat < 2147483648) : asInt x = x.toNat := by
  unfold asInt
  rw [Int.bmod_def]
  omega
