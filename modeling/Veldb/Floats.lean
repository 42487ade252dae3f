import Veldb.Machine

/-! Doubles as the source compares and casts them, on their bit patterns.
Rounded arithmetic is not computed here. -/

namespace Veldb

namespace F64

def zero : F64 := ⟨0⟩

def one : F64 := ⟨0x3FF0000000000000⟩

def ten : F64 := ⟨0x4024000000000000⟩

def isNegative (x : F64) : Bool :=
  2 ^ 63 ≤ x.bits.toNat

/-- The bits without the sign, which order the doubles of one sign. -/
def magnitude (x : F64) : Nat :=
  x.bits.toNat % 2 ^ 63

def isNaN (x : F64) : Bool :=
  0x7FF0000000000000 < x.magnitude

def key (x : F64) : Int :=
  if x.isNegative then -x.magnitude else x.magnitude

def partialCmp (a b : F64) : Option Ordering :=
  if a.isNaN || b.isNaN then none else some (compare a.key b.key)

/-- `==` on `f64`. -/
def eq (a b : F64) : Bool :=
  a.partialCmp b == some .eq

def totalCmp (a b : F64) : Ordering :=
  let rank (x : F64) : Int := if x.isNegative then -x.magnitude - 1 else x.magnitude
  compare (rank a) (rank b)

def neg (x : F64) : F64 :=
  ⟨x.bits ^^^ 0x8000000000000000⟩

def abs (x : F64) : F64 :=
  ⟨x.bits &&& 0x7FFFFFFFFFFFFFFF⟩

/-- The integer part without its sign; an infinity stands for a number past every bound. -/
def truncated (x : F64) : Nat :=
  let exponent := x.magnitude / 2 ^ 52
  let significand := 2 ^ 52 + x.magnitude % 2 ^ 52
  if exponent < 1023 then 0
  else if exponent ≤ 1075 then significand >>> (1075 - exponent)
  else significand <<< (exponent - 1075)

/-- An `as` cast to an integer type with the bounds `lo` and `hi`. -/
def castInt (lo hi : Int) (x : F64) : Int :=
  if x.isNaN then 0
  else
    let n : Int := if x.isNegative then -x.truncated else x.truncated
    if n < lo then lo else if hi < n then hi else n

def toI64 (x : F64) : Int64 :=
  Int64.ofInt (x.castInt (-2 ^ 63) (2 ^ 63 - 1))

def toI32 (x : F64) : Int32 :=
  Int32.ofInt (x.castInt (-2 ^ 31) (2 ^ 31 - 1))

def toUsize (x : F64) : Nat :=
  (x.castInt 0 (2 ^ 64 - 1)).toNat

section Integers

variable {m : Nat} {n : Int64}

theorem bitsOfNat_eq (h0 : m ≠ 0) (hm : m.log2 ≤ 52) :
    bitsOfNat m = (m.log2 + 1023) * 2 ^ 52 + (m * 2 ^ (52 - m.log2) - 2 ^ 52) := by
  simp only [bitsOfNat, if_neg h0, if_pos hm, Nat.shiftLeft_eq]

/-- Below `2 ^ 53` the digits of a number fill the significand from the top. -/
theorem significand_bounds (h0 : m ≠ 0) (hm : m < 2 ^ 53) :
    m.log2 ≤ 52 ∧ 2 ^ 52 ≤ m * 2 ^ (52 - m.log2) ∧ m * 2 ^ (52 - m.log2) < 2 ^ 53 := by
  have hlog : m.log2 ≤ 52 := Nat.lt_succ_iff.mp ((Nat.log2_lt h0).mpr hm)
  refine ⟨hlog, ?_, ?_⟩
  · calc 2 ^ 52 = 2 ^ m.log2 * 2 ^ (52 - m.log2) := by rw [← pow_add, Nat.add_sub_cancel' hlog]
      _ ≤ m * 2 ^ (52 - m.log2) := Nat.mul_le_mul_right _ (Nat.log2_self_le h0)
  · calc m * 2 ^ (52 - m.log2) < 2 ^ (m.log2 + 1) * 2 ^ (52 - m.log2) :=
          Nat.mul_lt_mul_of_pos_right Nat.lt_log2_self (Nat.two_pow_pos _)
      _ = 2 ^ 53 := by rw [← pow_add]; congr 1; omega

theorem bitsOfNat_fields (h0 : m ≠ 0) (hm : m < 2 ^ 53) :
    bitsOfNat m / 2 ^ 52 = m.log2 + 1023 ∧
      bitsOfNat m % 2 ^ 52 = m * 2 ^ (52 - m.log2) - 2 ^ 52 := by
  obtain ⟨hlog, hlow, hhigh⟩ := significand_bounds h0 hm
  rw [bitsOfNat_eq h0 hlog]
  omega

theorem bitsOfNat_lt (hm : m ≤ 2 ^ 53) : bitsOfNat m < 0x7FF0000000000000 := by
  by_cases h0 : m = 0
  · subst h0
    decide
  by_cases htop : m = 2 ^ 53
  · subst htop
    decide +kernel
  · obtain ⟨hlog, hlow, hhigh⟩ := significand_bounds h0 (by omega)
    rw [bitsOfNat_eq h0 hlog]
    omega

theorem ofI64_magnitude (hn : n.toInt.natAbs ≤ 2 ^ 53) :
    (F64.ofI64 n).magnitude = bitsOfNat n.toInt.natAbs := by
  have hfinite := bitsOfNat_lt hn
  by_cases hneg : n.toInt < 0
  · rw [ofI64, if_pos hneg, magnitude, UInt64.toNat_ofNat']
    omega
  · rw [ofI64, if_neg hneg, magnitude, UInt64.toNat_ofNat']
    omega

theorem ofI64_isNegative (hn : n.toInt.natAbs ≤ 2 ^ 53) :
    (F64.ofI64 n).isNegative = decide (n.toInt < 0) := by
  have hfinite := bitsOfNat_lt hn
  refine decide_eq_decide.mpr ?_
  by_cases hneg : n.toInt < 0
  · rw [ofI64, if_pos hneg, UInt64.toNat_ofNat']
    omega
  · rw [ofI64, if_neg hneg, UInt64.toNat_ofNat']
    omega

theorem ofI64_truncated (hn : n.toInt.natAbs ≤ 2 ^ 53) :
    (F64.ofI64 n).truncated = n.toInt.natAbs := by
  rw [truncated, ofI64_magnitude hn]
  generalize n.toInt.natAbs = m at hn
  by_cases h0 : m = 0
  · subst h0
    decide
  by_cases htop : m = 2 ^ 53
  · subst htop
    decide +kernel
  · obtain ⟨hlog, hlow, hhigh⟩ := significand_bounds h0 (by omega)
    obtain ⟨hquot, hrem⟩ := bitsOfNat_fields h0 (by omega)
    have hshift : 1075 - (m.log2 + 1023) = 52 - m.log2 := by omega
    simp only [hquot, hrem]
    rw [if_neg (by omega), if_pos (by omega), Nat.add_sub_cancel' hlow, hshift,
      Nat.shiftRight_eq_div_pow, Nat.mul_div_cancel _ (Nat.two_pow_pos _)]

/-- An integer of at most 53 digits comes back from its double. -/
theorem toI64_ofI64 (hn : n.toInt.natAbs ≤ 2 ^ 53) : (F64.ofI64 n).toI64 = n := by
  have hnan : ¬ (F64.ofI64 n).isNaN = true := by
    have hfinite := bitsOfNat_lt hn
    rw [isNaN, ofI64_magnitude hn, decide_eq_true_iff]
    omega
  have hcast : (F64.ofI64 n).castInt (-2 ^ 63) (2 ^ 63 - 1) = n.toInt := by
    rw [castInt, if_neg hnan, ofI64_truncated hn, ofI64_isNegative hn]
    by_cases hneg : n.toInt < 0
    · simp only [hneg, decide_true, if_true]
      split_ifs <;> omega
    · simp only [hneg, decide_false, Bool.false_eq_true, if_false]
      split_ifs <;> omega
  rw [toI64, hcast, Int64.ofInt_toInt]

end Integers

end F64

namespace F32

def eq (a b : F32) : Bool :=
  let magnitude (x : F32) : Nat := x.bits.toNat % 2 ^ 31
  if 0x7F800000 < magnitude a || 0x7F800000 < magnitude b then false
  else a.bits == b.bits || (magnitude a == 0 && magnitude b == 0)

def neg (x : F32) : F32 :=
  ⟨x.bits ^^^ 0x80000000⟩

end F32

end Veldb
