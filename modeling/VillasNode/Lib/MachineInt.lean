import Mathlib.Algebra.Group.Nat.Defs
import Mathlib.Algebra.Group.Int.Defs

/-!
# Conversions between the integers of a machine

`int` has 32 bits and `size_t` has 64.
-/

namespace MachineInt

/-- The conversion of a `size_t` or `unsigned` to `int`. Also the `int` that is left of a result
that does not fit. -/
def toInt (n : Nat) : Int := (BitVec.ofNat 32 n).toInt

/-- The conversion to `size_t` of the `int` that is left of this number. -/
def toSize (n : Nat) : Nat := ((BitVec.ofNat 32 n).signExtend 64).toNat

variable {n : Nat}

theorem toInt_of_lt (h : n < 2 ^ 31) : toInt n = n := by
  unfold toInt
  rw [BitVec.toInt_eq_toNat_cond, BitVec.toNat_ofNat, Nat.mod_eq_of_lt (by omega),
    if_pos (by omega)]

theorem toInt_lt (n : Nat) : toInt n < 2 ^ 31 := by
  have hlt := BitVec.toInt_lt (x := BitVec.ofNat 32 n)
  exact hlt

theorem le_toInt (n : Nat) : -2 ^ 31 ≤ toInt n := by
  have hle := BitVec.le_toInt (x := BitVec.ofNat 32 n)
  exact hle

theorem toInt_ne (h : 2 ^ 31 ≤ n) : toInt n ≠ n := by
  have hlt := toInt_lt n
  omega

theorem toInt_neg (h : 2 ^ 31 ≤ n) (hlt : n < 2 ^ 32) : toInt n < 0 := by
  unfold toInt
  rw [BitVec.toInt_eq_toNat_cond, BitVec.toNat_ofNat, Nat.mod_eq_of_lt hlt, if_neg (by omega)]
  omega

theorem toInt_eq_iff : toInt n = n ↔ n < 2 ^ 31 := by
  constructor
  · intro h
    obtain hlt | hge := Nat.lt_or_ge n (2 ^ 31)
    · exact hlt
    · exact absurd h (toInt_ne hge)
  · exact toInt_of_lt

theorem toSize_of_lt (h : n < 2 ^ 31) : toSize n = n := by
  unfold toSize
  rw [BitVec.signExtend_eq_setWidth_of_msb_false, BitVec.toNat_setWidth, BitVec.toNat_ofNat]
  · omega
  · rw [BitVec.msb_eq_decide, BitVec.toNat_ofNat]
    simp only [decide_eq_false_iff_not, Nat.not_le]
    omega

theorem toSize_of_ge (h : 2 ^ 31 ≤ n) (hlt : n < 2 ^ 32) : 2 ^ 63 ≤ toSize n := by
  have hmsb : (BitVec.ofNat 32 n).msb = true := by
    rw [BitVec.msb_eq_decide, BitVec.toNat_ofNat]
    simp only [decide_eq_true_eq]
    omega
  have hext : ((BitVec.ofNat 32 n).signExtend 64).msb = true := by
    rw [BitVec.msb_signExtend, hmsb]
    rfl
  rw [BitVec.msb_eq_decide, decide_eq_true_iff] at hext
  exact hext

theorem toNat_umod_unsigned (k : Nat) (size : BitVec 32) :
    (BitVec.ofNat 64 k % size.setWidth 64).toNat = k % 2 ^ 64 % size.toNat := by
  have hsize : size.toNat < 2 ^ 64 := by omega
  rw [BitVec.toNat_umod, BitVec.toNat_ofNat, BitVec.toNat_setWidth, Nat.mod_eq_of_lt hsize]

end MachineInt
