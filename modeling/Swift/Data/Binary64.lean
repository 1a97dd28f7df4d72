import Mathlib.Data.Int.Log
import Mathlib.Data.Rat.Floor
import Mathlib.Tactic.FieldSimp
import Mathlib.Tactic.Linarith
import Mathlib.Tactic.Positivity

/-!
# Double-precision rounding

The doubles, as rationals, and the operations on them that Python's `float` performs: every
result is the exact one rounded to 53 significant bits, to the nearest, ties to even
(`roundToDouble`). `float(n)` of an int raises `OverflowError` from the first integer that rounds
to `2 ^ 1024` on (`ofInt?`), and division raises `ZeroDivisionError` on a zero divisor (`div?`).

Below `2 ^ -1022` the format keeps fewer than 53 bits; `roundToDouble` rounds there as it does
above. The two differ only on values below `2 ^ -1022`, and the only uses of such values in this
development are their ceiling, which is `1` for both, and adding `1` to them, which gives `1` for
both.

The two facts the callers need are that the integers below `2 ^ 53` are doubles
(`roundToDouble_intCast`) and that rounding moves a value by at most `2 ^ -53` of itself
(`abs_roundToDouble_sub_le`). From them, `⌈d / s⌉` and `⌈d / s + 1⌉` computed in floats are
the exact ones for small enough naturals (`ceil_roundToDouble_div`,
`ceil_roundToDouble_div_add_one`).
-/

namespace Swift

namespace Binary64

/-! ### Rounding -/

/-- The integer nearest to `m`, the even one at a tie. -/
def roundHalfEven (m : ℚ) : ℤ :=
  let f := ⌊m⌋
  if m - f < 1 / 2 then f
  else if 1 / 2 < m - f then f + 1
  else if f % 2 = 0 then f else f + 1

/-- The weight of the last of the 53 significant bits of a positive `q`. -/
def ulp (q : ℚ) : ℚ := 2 ^ (Int.log 2 q - 52)

/-- `q` rounded to the nearest double, ties to even; a negative value rounds as its absolute
value does. -/
def roundToDouble (q : ℚ) : ℚ :=
  if 0 < q then roundHalfEven (q / ulp q) * ulp q
  else if q < 0 then -(roundHalfEven (-q / ulp (-q)) * ulp (-q))
  else 0

/-- The least integer that `float` rounds to `2 ^ 1024`: the midpoint between the largest double,
`(2 ^ 53 - 1) * 2 ^ 971`, and `2 ^ 1024`, where the tie goes to the even `2 ^ 1024`. -/
def overflowBound : ℕ := 2 ^ 1024 - 2 ^ 970

/-- `float(n)` for an int; `none` where it raises `OverflowError`. -/
def ofInt? (n : ℤ) : Option ℚ :=
  if n.natAbs < overflowBound then some (roundToDouble n) else none

/-- `a / b` for doubles; `none` where it raises `ZeroDivisionError`. -/
def div? (a b : ℚ) : Option ℚ := if b = 0 then none else some (roundToDouble (a / b))

/-- `a + b` for doubles. -/
def add (a b : ℚ) : ℚ := roundToDouble (a + b)

theorem abs_roundHalfEven_sub_le (m : ℚ) : |(roundHalfEven m : ℚ) - m| ≤ 1 / 2 := by
  have hlo := Int.floor_le m
  have hhi := Int.lt_floor_add_one m
  rw [roundHalfEven]
  split_ifs <;> push_cast <;> rw [abs_le] <;> constructor <;> linarith

theorem roundHalfEven_intCast (n : ℤ) : roundHalfEven n = n := by
  simp [roundHalfEven]

theorem ulp_pos (q : ℚ) : 0 < ulp q := zpow_pos (by norm_num) _

/-- Half an `ulp` is at most `2 ^ -53` of the value. -/
theorem ulp_le {q : ℚ} (hq : 0 < q) : ulp q / 2 ≤ q / 2 ^ 53 := by
  have hlog : (2 : ℚ) ^ Int.log 2 q ≤ q := Int.zpow_log_le_self (by norm_num) hq
  have hulp : ulp q = 2 ^ Int.log 2 q / 2 ^ 52 := by
    rw [ulp, zpow_sub₀ (by norm_num)]
    norm_num
  rw [hulp, div_div, show (2 : ℚ) ^ 52 * 2 = 2 ^ 53 by norm_num]
  exact div_le_div_of_nonneg_right hlog (by positivity)

theorem abs_roundToDouble_sub_le_of_pos {q : ℚ} (hq : 0 < q) :
    |roundToDouble q - q| ≤ q / 2 ^ 53 := by
  have hu := ulp_pos q
  have hscaled : |(roundHalfEven (q / ulp q) : ℚ) * ulp q - q| =
      |(roundHalfEven (q / ulp q) : ℚ) - q / ulp q| * ulp q := by
    rw [← abs_of_pos hu, ← abs_mul, abs_of_pos hu]
    congr 1
    field_simp
  rw [roundToDouble, if_pos hq, hscaled]
  calc |(roundHalfEven (q / ulp q) : ℚ) - q / ulp q| * ulp q ≤ 1 / 2 * ulp q :=
        mul_le_mul_of_nonneg_right (abs_roundHalfEven_sub_le _) hu.le
    _ = ulp q / 2 := by ring
    _ ≤ q / 2 ^ 53 := ulp_le hq

/-- Rounding moves a value by at most `2 ^ -53` of its size. -/
theorem abs_roundToDouble_sub_le (q : ℚ) : |roundToDouble q - q| ≤ |q| / 2 ^ 53 := by
  rcases lt_trichotomy q 0 with hneg | rfl | hpos
  · have h := abs_roundToDouble_sub_le_of_pos (neg_pos.mpr hneg)
    rw [roundToDouble, if_pos (neg_pos.mpr hneg)] at h
    rw [roundToDouble, if_neg (not_lt.mpr hneg.le), if_pos hneg, abs_of_neg hneg,
      ← abs_neg, neg_sub, sub_neg_eq_add, add_comm]
    simpa [sub_eq_add_neg] using h
  · simp [roundToDouble]
  · rw [abs_of_pos hpos]
    exact abs_roundToDouble_sub_le_of_pos hpos

theorem roundToDouble_neg (q : ℚ) : roundToDouble (-q) = -roundToDouble q := by
  rcases lt_trichotomy q 0 with hneg | rfl | hpos
  · rw [roundToDouble, if_pos (neg_pos.mpr hneg), roundToDouble, if_neg (not_lt.mpr hneg.le),
      if_pos hneg, neg_neg]
  · simp [roundToDouble]
  · rw [roundToDouble, if_neg (by linarith), if_pos (by linarith), neg_neg, roundToDouble,
      if_pos hpos]

/-- A positive integer below `2 ^ 53` is a multiple of its `ulp`. -/
theorem roundToDouble_natCast {n : ℕ} (hn : n < 2 ^ 53) : roundToDouble n = n := by
  rcases Nat.eq_zero_or_pos n with rfl | hpos
  · simp [roundToDouble]
  have hq : (0 : ℚ) < n := by exact_mod_cast hpos
  have hlog : Int.log 2 (n : ℚ) ≤ 52 := by
    rw [Int.log_natCast]
    have : Nat.log 2 n < 53 := Nat.log_lt_of_lt_pow (by omega) hn
    omega
  -- the `ulp` of `n` is `2 ^ -k` for a natural `k`, so `n / ulp n` is an integer
  have hulp : ulp (n : ℚ) = ((2 : ℚ) ^ (52 - Int.log 2 (n : ℚ)).toNat)⁻¹ := by
    rw [ulp, ← zpow_natCast, Int.toNat_of_nonneg (by omega), ← zpow_neg, neg_sub]
  have hscaled : (n : ℚ) / ulp n = ((n * 2 ^ (52 - Int.log 2 (n : ℚ)).toNat : ℕ) : ℤ) := by
    rw [hulp, div_inv_eq_mul]
    push_cast
    rfl
  rw [roundToDouble, if_pos hq, hscaled, roundHalfEven_intCast, ← hscaled,
    div_mul_cancel₀ _ (ulp_pos _).ne']

theorem roundToDouble_intCast {n : ℤ} (hn : n.natAbs < 2 ^ 53) : roundToDouble n = n := by
  obtain ⟨m, rfl | rfl⟩ := Int.eq_nat_or_neg n
  · rw [Int.natAbs_natCast] at hn
    exact_mod_cast roundToDouble_natCast hn
  · rw [Int.natAbs_neg, Int.natAbs_natCast] at hn
    push_cast
    rw [roundToDouble_neg, roundToDouble_natCast hn]

/-- `float(n)` is `n` itself below `2 ^ 53`. -/
theorem ofInt?_of_lt {n : ℤ} (hn : n.natAbs < 2 ^ 53) : ofInt? n = some (n : ℚ) := by
  have hbound : n.natAbs < overflowBound := by
    have h53 : 2 ^ 53 ≤ 2 ^ 970 := by
      apply Nat.pow_le_pow_right <;> norm_num
    have h971 : 2 ^ 970 * 2 ≤ 2 ^ 1024 := by
      rw [← Nat.pow_succ]
      apply Nat.pow_le_pow_right <;> norm_num
    rw [overflowBound]
    omega
  rw [ofInt?, if_pos hbound, roundToDouble_intCast hn]

theorem div?_of_ne_zero (a : ℚ) {b : ℚ} (hb : b ≠ 0) : div? a b = some (roundToDouble (a / b)) :=
  if_neg hb

/-! ### Ceilings of quotients -/

/-- `⌈d / s⌉ = n` for `(n - 1) s < d ≤ n s`. -/
theorem ceil_div_eq_of_lt_of_le {d s n : ℕ} (hs : 0 < s) (hlo : (n - 1) * s < d)
    (hhi : d ≤ n * s) : ⌈(d : ℚ) / s⌉ = n := by
  have hsq : (0 : ℚ) < s := by exact_mod_cast hs
  have hn : 0 < n := by
    rcases Nat.eq_zero_or_pos n with rfl | hn
    · simp at hhi
      omega
    · exact hn
  have hlo' : ((n - 1 : ℕ) : ℚ) * s < d := by exact_mod_cast hlo
  have hhi' : (d : ℚ) ≤ n * s := by exact_mod_cast hhi
  rw [Int.ceil_eq_iff, lt_div_iff₀ hsq, div_le_iff₀ hsq]
  push_cast [Nat.cast_sub (Nat.one_le_iff_ne_zero.mpr hn.ne')] at hlo' ⊢
  exact ⟨hlo', hhi'⟩

/-- A value closer than `δ` to a point at least `δ` inside `(k, k + 1)` has the ceiling
`k + 1`. -/
theorem ceil_eq_of_abs_sub_lt {q x δ : ℚ} {k : ℕ} (hlo : (k : ℚ) + δ ≤ q)
    (hhi : q ≤ k + 1 - δ) (hx : |x - q| < δ) : ⌈x⌉ = (k : ℤ) + 1 := by
  rw [abs_lt] at hx
  rw [Int.ceil_eq_iff]
  push_cast
  constructor <;> linarith

section Ceil

variable {d s : ℕ}

/-- `d / s`, as its quotient and the fraction of its remainder. -/
theorem div_eq_quotient_add (hs : 0 < s) :
    (d : ℚ) / s = ((d / s : ℕ) : ℚ) + ((d % s : ℕ) : ℚ) / s := by
  have hsq : (s : ℚ) ≠ 0 := by exact_mod_cast hs.ne'
  have hdiv : (d : ℚ) = s * ((d / s : ℕ) : ℚ) + ((d % s : ℕ) : ℚ) := by
    exact_mod_cast (Nat.div_add_mod d s).symm
  rw [hdiv]
  field_simp

/-- A quotient that is not an integer lies at least `1 / s` inside the interval between its
floor and its ceiling. -/
theorem div_mem_interior (hs : 0 < s) (hr : 0 < d % s) :
    ((d / s : ℕ) : ℚ) + 1 / s ≤ d / s ∧ (d : ℚ) / s ≤ ((d / s : ℕ) : ℚ) + 1 - 1 / s := by
  have hsq : (0 : ℚ) < s := by exact_mod_cast hs
  have hr1 : (1 : ℚ) ≤ (d % s : ℕ) := by exact_mod_cast hr
  have hrs1 : ((d % s : ℕ) : ℚ) + 1 ≤ s := by exact_mod_cast Nat.mod_lt d hs
  rw [div_eq_quotient_add hs]
  constructor
  · have : 1 / (s : ℚ) ≤ (d % s : ℕ) / s := div_le_div_of_nonneg_right hr1 hsq.le
    linarith
  · have : ((d % s : ℕ) : ℚ) / s ≤ 1 - 1 / s := by
      rw [one_sub_div hsq.ne']
      exact div_le_div_of_nonneg_right (by linarith) hsq.le
    linarith

theorem ceil_div_of_mod_pos (hs : 0 < s) (hr : 0 < d % s) :
    ⌈(d : ℚ) / s⌉ = ((d / s : ℕ) : ℤ) + 1 := by
  have hint := div_mem_interior hs hr
  have hsq : (0 : ℚ) < s := by exact_mod_cast hs
  exact ceil_eq_of_abs_sub_lt hint.1 hint.2 (by rw [sub_self, abs_zero]; positivity)

/-- `d / s` is the quotient when `s` divides `d`. -/
theorem div_eq_of_mod_eq_zero (hs : 0 < s) (hr : d % s = 0) :
    (d : ℚ) / s = ((d / s : ℕ) : ℚ) := by
  rw [div_eq_quotient_add hs, hr, Nat.cast_zero, zero_div, add_zero]

/-- The rounding error of `d / s` is below `1 / s` when `d < 2 ^ 53`. -/
theorem abs_roundToDouble_div_sub_lt (hs : 0 < s) (hd : d < 2 ^ 53) :
    |roundToDouble ((d : ℚ) / s) - d / s| < 1 / s := by
  have hsq : (0 : ℚ) < s := by exact_mod_cast hs
  have hdq : (d : ℚ) < 2 ^ 53 := by exact_mod_cast hd
  calc |roundToDouble ((d : ℚ) / s) - d / s| ≤ |(d : ℚ) / s| / 2 ^ 53 :=
        abs_roundToDouble_sub_le _
    _ = d / 2 ^ 53 / s := by
        rw [abs_of_nonneg (by positivity)]
        ring
    _ < 1 / s := div_lt_div_of_pos_right ((div_lt_one (by positivity)).mpr hdq) hsq

/-- `math.ceil(float(d) / s)` is `⌈d / s⌉` for `d < 2 ^ 53`. -/
theorem ceil_roundToDouble_div (hs : 0 < s) (hd : d < 2 ^ 53) :
    ⌈roundToDouble ((d : ℚ) / s)⌉ = ⌈(d : ℚ) / s⌉ := by
  rcases Nat.eq_zero_or_pos (d % s) with hr | hr
  · have hq : d / s < 2 ^ 53 := lt_of_le_of_lt (Nat.div_le_self d s) hd
    rw [div_eq_of_mod_eq_zero hs hr, roundToDouble_natCast hq]
  · rw [ceil_div_of_mod_pos hs hr]
    have hint := div_mem_interior hs hr
    exact ceil_eq_of_abs_sub_lt hint.1 hint.2 (abs_roundToDouble_div_sub_lt hs hd)

/-- Both roundings of `float(d) / s + 1` together move it by less than `1 / s`, for `d` and `s`
below `2 ^ 51`. -/
theorem abs_roundToDouble_div_add_one_sub_lt (hs : 0 < s) (hd : d < 2 ^ 51) (hs51 : s < 2 ^ 51) :
    |roundToDouble (roundToDouble ((d : ℚ) / s) + 1) - ((d : ℚ) / s + 1)| < 1 / s := by
  have hsq : (0 : ℚ) < s := by exact_mod_cast hs
  have hq0 : (0 : ℚ) ≤ d / s := by positivity
  have hfirst := abs_roundToDouble_sub_le ((d : ℚ) / s)
  have hsecond := abs_roundToDouble_sub_le (roundToDouble ((d : ℚ) / s) + 1)
  rw [abs_of_nonneg hq0, abs_le] at hfirst
  have hshrink : (d : ℚ) / s / 2 ^ 53 ≤ d / s := div_le_self hq0 (by norm_num)
  have hpos : 0 ≤ roundToDouble ((d : ℚ) / s) + 1 := by linarith [hfirst.1]
  rw [abs_of_nonneg hpos, abs_le] at hsecond
  -- the sum of the two errors is at most `(3 d / s + 1) / 2 ^ 53`, below `1 / s`
  have hsmall : (3 * ((d : ℚ) / s) + 1) / 2 ^ 53 < 1 / s := by
    rw [div_lt_div_iff₀ (by positivity) hsq,
      show (3 * ((d : ℚ) / s) + 1) * s = 3 * d + s by field_simp]
    have : 3 * d + s < 2 ^ 53 := by omega
    have : (3 * d + s : ℚ) < 2 ^ 53 := by exact_mod_cast this
    linarith
  rw [abs_lt]
  constructor <;> linarith

/-- `math.ceil(float(d) / s + 1)` is `⌈d / s⌉ + 1` for `d` and `s` below `2 ^ 51`. -/
theorem ceil_roundToDouble_div_add_one (hs : 0 < s) (hd : d < 2 ^ 51) (hs51 : s < 2 ^ 51) :
    ⌈roundToDouble (roundToDouble ((d : ℚ) / s) + 1)⌉ = ⌈(d : ℚ) / s⌉ + 1 := by
  rcases Nat.eq_zero_or_pos (d % s) with hr | hr
  · have hq : d / s + 1 < 2 ^ 53 := by
      have := Nat.div_le_self d s
      omega
    rw [div_eq_of_mod_eq_zero hs hr, roundToDouble_natCast (by omega),
      show ((d / s : ℕ) : ℚ) + 1 = ((d / s + 1 : ℕ) : ℚ) by push_cast; ring,
      roundToDouble_natCast hq, Int.ceil_natCast, Int.ceil_natCast]
    push_cast
    ring
  · have hint := div_mem_interior hs hr
    rw [ceil_div_of_mod_pos hs hr,
      ceil_eq_of_abs_sub_lt (k := d / s + 1) (q := (d : ℚ) / s + 1) (by push_cast; linarith)
        (by push_cast; linarith) (abs_roundToDouble_div_add_one_sub_lt hs hd hs51)]
    push_cast
    ring

end Ceil

end Binary64

end Swift
