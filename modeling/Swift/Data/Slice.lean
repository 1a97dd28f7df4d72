import Mathlib.Data.List.Basic

/-!
# Inclusive slices with integer bounds

HTTP byte ranges name their first and last byte, and code that walks a list of pieces keeps both
as integers that go negative once the walk is past the start. `sliceInclusive l first last` is
the part of `l` from `first` to `last`, both included: a negative `first` counts as `0`, and the
slice is empty when `last` is below it.

The point of the integer bounds is `sliceInclusive_append`: a slice of `l ++ r` is a slice of `l`
followed by the slice of `r` at the bounds shifted by the length of `l`, with no case split on
where the bounds fall. A walk over pieces that subtracts each piece's length from both bounds
is then an induction with that lemma as its step.
-/

namespace Swift

variable {α : Type*}

/-- The elements of `l` from index `first` to index `last`, both included. -/
def sliceInclusive (l : List α) (first last : Int) : List α :=
  (l.drop first.toNat).take (last + 1 - first.toNat).toNat

theorem sliceInclusive_append (l r : List α) (first last : Int) :
    sliceInclusive (l ++ r) first last =
      sliceInclusive l first last ++ sliceInclusive r (first - l.length) (last - l.length) := by
  simp only [sliceInclusive, List.drop_append, List.take_append, List.length_drop]
  have hdrop : first.toNat - l.length = (first - l.length).toNat := by omega
  have htake : (last + 1 - first.toNat).toNat - (l.length - first.toNat) =
      (last - l.length + 1 - (first - l.length).toNat).toNat := by omega
  rw [hdrop, htake]

theorem sliceInclusive_of_neg (l : List α) (first : Int) {last : Int} (h : last < 0) :
    sliceInclusive l first last = [] := by
  rw [sliceInclusive, show (last + 1 - first.toNat).toNat = 0 by omega, List.take_zero]

theorem sliceInclusive_of_length_le {l : List α} {first : Int} (h : (l.length : Int) ≤ first)
    (last : Int) : sliceInclusive l first last = [] := by
  rw [sliceInclusive, List.drop_eq_nil_of_le (by omega), List.take_nil]

@[simp] theorem sliceInclusive_nil (first last : Int) :
    sliceInclusive ([] : List α) first last = [] := by
  rw [sliceInclusive, List.drop_nil, List.take_nil]

/-- Bounds clamped to the list, `max(0, first)` and `min(len - 1, last)`, select the same
slice. -/
theorem sliceInclusive_clamp (l : List α) (first last : Int) :
    sliceInclusive l (max 0 first) (min ((l.length : Int) - 1) last) =
      sliceInclusive l first last := by
  simp only [sliceInclusive, show (max 0 first).toNat = first.toNat by omega]
  rw [List.take_eq_take_iff, List.length_drop]
  omega

/-- A slice of the part `rangeStart .. rangeEnd` of `u` is a slice of `u` at the bounds moved
by `rangeStart` and capped at `rangeEnd`. -/
theorem sliceInclusive_drop_take (u : List α) {rangeStart rangeEnd : Nat}
    (hrange : rangeStart ≤ rangeEnd + 1) (first last : Int) :
    sliceInclusive ((u.drop rangeStart).take (rangeEnd + 1 - rangeStart)) first last =
      sliceInclusive u (rangeStart + first.toNat) (min (rangeEnd : Int) (rangeStart + last)) := by
  simp only [sliceInclusive, List.drop_take, List.drop_drop, List.take_take,
    show ((rangeStart : Int) + first.toNat).toNat = rangeStart + first.toNat by omega]
  rw [List.take_eq_take_iff]
  omega

/-- With natural-number bounds it is the usual `take` of a `drop`. -/
theorem sliceInclusive_natCast (l : List α) (first last : Nat) :
    sliceInclusive l first last = (l.drop first).take (last + 1 - first) := by
  rw [sliceInclusive, Int.toNat_natCast]
  congr 1
  omega

end Swift
