import Mathlib.Data.BitVec

/-!
# Condition flags

The flags that a processor sets when it subtracts two words or takes their bitwise conjunction,
for words of any width, and the orders that conditions read off them.

The unsigned order is the carry of a subtraction.  The signed order is the sign, corrected by the
overflow (`ofSub_less`).  The two orders agree exactly on words of one sign (`slt_eq_ult_iff`).
-/

/-- The flags of an operation. -/
structure Flags where
  /-- The subtraction borrowed. -/
  carry : Bool
  /-- The result is zero. -/
  zero : Bool
  /-- The top bit of the result. -/
  sign : Bool
  /-- The result has the wrong sign. -/
  overflow : Bool
deriving DecidableEq

namespace Flags

variable {w : Nat}

/-- The flags of `x - y`. -/
def ofSub (x y : BitVec w) : Flags where
  carry := x.ult y
  zero := x - y = 0
  sign := (x - y).msb
  overflow := x.msb != y.msb && (x - y).msb != x.msb

/-- The flags of a bitwise conjunction. -/
def ofAnd (x y : BitVec w) : Flags where
  carry := false
  zero := x &&& y = 0
  sign := (x &&& y).msb
  overflow := false

/-- The signed order. -/
def less (f : Flags) : Bool := f.sign != f.overflow

@[simp] theorem ofSub_carry (x y : BitVec w) : (ofSub x y).carry = x.ult y := rfl

@[simp] theorem ofSub_zero (x y : BitVec w) : (ofSub x y).zero = decide (x = y) :=
  decide_eq_decide.mpr sub_eq_zero

/-- Words of one sign differ by less than half of the range. -/
theorem msb_sub_of_msb_eq {x y : BitVec w} (h : x.msb = y.msb) : (x - y).msb = x.ult y := by
  cases w with
  | zero => rw [BitVec.eq_nil x, BitVec.eq_nil y]; rfl
  | succ n =>
      have hx := x.isLt
      have hy := y.isLt
      simp only [BitVec.msb_eq_decide, BitVec.ult_eq_decide, BitVec.toNat_sub, decide_eq_decide,
        Nat.add_sub_cancel, Nat.pow_succ] at h hx hy ⊢
      generalize 2 ^ n = p at h hx hy ⊢
      by_cases hlt : x.toNat < y.toNat
      · rw [Nat.mod_eq_of_lt (by omega)]
        omega
      · rw [show p * 2 - y.toNat + x.toNat = (x.toNat - y.toNat) + p * 2 by omega,
          Nat.add_mod_right, Nat.mod_eq_of_lt (by omega)]
        omega

/-- The signed order is read off the flags of a subtraction. -/
@[simp] theorem ofSub_less (x y : BitVec w) : (ofSub x y).less = x.slt y := by
  show ((x - y).msb != (x.msb != y.msb && (x - y).msb != x.msb)) = _
  by_cases h : x.msb = y.msb
  · rw [BitVec.slt_eq_ult_of_msb_eq h, msb_sub_of_msb_eq h, h]
    simp
  · rw [BitVec.slt_eq_not_ult_of_msb_neq h, BitVec.ult_eq_msb_of_msb_neq h]
    revert h
    cases x.msb <;> cases y.msb <;> cases (x - y).msb <;> decide

/-- The orders agree on words of one sign. -/
theorem slt_eq_ult_iff {x y : BitVec w} : x.slt y = x.ult y ↔ x.msb = y.msb := by
  rw [BitVec.slt_eq_ult]
  cases x.msb <;> cases y.msb <;> cases x.ult y <;> decide

end Flags
