import Mathlib.Tactic.IntervalCases
import Mathlib.Data.Nat.Bitwise

/-!
# A set of small numbers in a byte array

A `bytearray` used as a set, most significant bit first: number `i` is the bit `128 >> (i % 8)`
of byte `i // 8`. `Bitmap.set` is `bm[i // 8] |= 128 >> (i % 8)` and `Bitmap.test` is
`bool(bm[i // 8] & (128 >> (i % 8)))`. Setting a bit inside the array adds exactly that number
(`test_set`), and nothing is in a fresh array (`test_zeros`).
-/

namespace Swift

namespace Bitmap

/-- `bytearray(n)`. -/
def zeros (n : Nat) : List UInt8 := List.replicate n 0

/-- `128 >> (i % 8)`. -/
def mask (i : Nat) : UInt8 := 128 >>> (i % 8).toUInt8

/-- `bm[i // 8] |= 128 >> (i % 8)`. -/
def set (bm : List UInt8) (i : Nat) : List UInt8 := bm.modify (i / 8) (· ||| mask i)

/-- `bool(bm[i // 8] & (128 >> (i % 8)))`. -/
def test (bm : List UInt8) (i : Nat) : Bool := (bm.getD (i / 8) 0 &&& mask i) != 0

theorem toNat_mask (i : Nat) : (mask i).toNat = 2 ^ (7 - i % 8) := by
  have hk : i % 8 < 8 := Nat.mod_lt i (by decide)
  unfold mask
  generalize i % 8 = k at hk ⊢
  interval_cases k <;> decide

/-- A byte holds the number `i` when the bit of `i` is set in it. -/
theorem and_mask_ne_zero (b : UInt8) (i : Nat) :
    (b &&& mask i != 0) = b.toNat.testBit (7 - i % 8) := by
  have hand : (b &&& mask i).toNat = (b.toNat.testBit (7 - i % 8)).toNat * 2 ^ (7 - i % 8) := by
    rw [UInt8.toNat_and, toNat_mask, Nat.and_two_pow]
  cases h : b.toNat.testBit (7 - i % 8)
  · rw [h, Bool.toNat_false, zero_mul] at hand
    simp [← UInt8.toNat_inj, hand]
  · rw [h, Bool.toNat_true, one_mul] at hand
    have hpos : (b &&& mask i).toNat ≠ 0 := by
      rw [hand]
      exact (Nat.two_pow_pos _).ne'
    simpa [← UInt8.toNat_inj] using hpos

@[simp] theorem length_set (bm : List UInt8) (i : Nat) : (set bm i).length = bm.length :=
  List.length_modify ..

@[simp] theorem test_zeros (n i : Nat) : test (zeros n) i = false := by
  have hbyte : (zeros n).getD (i / 8) 0 = 0 := by
    rw [zeros, List.getD_eq_getElem?_getD, List.getElem?_replicate]
    split <;> rfl
  rw [test, hbyte, UInt8.zero_and]
  rfl

/-- Setting a number inside the array adds it and keeps every other. -/
theorem test_set {bm : List UInt8} {i : Nat} (hi : i / 8 < bm.length) (j : Nat) :
    test (set bm i) j = (decide (i = j) || test bm j) := by
  unfold test set
  by_cases hbyte : i / 8 = j / 8
  · -- the same byte: the two numbers differ in their bit unless they are equal
    have hget : (bm.modify (i / 8) (· ||| mask i)).getD (j / 8) 0 = bm.getD (j / 8) 0 ||| mask i := by
      rw [← hbyte, List.getD_eq_getElem?_getD, List.getElem?_modify, List.getD_eq_getElem?_getD,
        List.getElem?_eq_getElem hi]
      simp
    rw [hget, and_mask_ne_zero, and_mask_ne_zero, UInt8.toNat_or, toNat_mask, Nat.testBit_or,
      Nat.testBit_two_pow, Bool.or_comm]
    congr 1
    have hi8 : i % 8 < 8 := Nat.mod_lt i (by decide)
    have hj8 : j % 8 < 8 := Nat.mod_lt j (by decide)
    have hdiv := Nat.div_add_mod i 8
    have hdivj := Nat.div_add_mod j 8
    exact decide_eq_decide.mpr (by omega)
  · -- another byte is left as it was
    have hne : i ≠ j := fun h => hbyte (h ▸ rfl)
    rw [List.getD_eq_getElem?_getD, List.getElem?_modify_ne _ _ hbyte, ← List.getD_eq_getElem?_getD]
    simp [hne]

/-- Setting a bit keeps every number that was in. -/
theorem test_set_of_test {bm : List UInt8} {j : Nat} (h : test bm j = true) (i : Nat) :
    test (set bm i) j = true := by
  by_cases hi : i / 8 < bm.length
  · rw [test_set hi, h, Bool.or_true]
  · -- past the end, `set` changes nothing
    rwa [set, List.modify_eq_self (Nat.le_of_not_lt hi)]

end Bitmap

end Swift
