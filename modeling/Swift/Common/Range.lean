import Mathlib.Data.List.Basic

/-!
# Range headers

`swift.common.swob.Range`: the byte-range-specs of a `Range` header, and what they select of a
body of a given length (`ranges_for_length`). A spec is `(start, end)` with either bound absent:
`first-last`, `first-` and the suffix `-last`; the constructor refuses a spec with neither bound
or with `end < start`. The header text itself is not modelled: a `Range` is built from its specs
(`Range.ofBounds?` is the constructor on the text `"bytes=%s-%s"` that `_actual_range` writes).

`ranges_for_length` turns each spec into a half-open `(begin, end)` of the body, drops those it
cannot satisfy, and gives up on headers it calls egregious: more than fifty ranges, more than two
overlapping pairs, or eight or more ranges out of order.
-/

namespace Swift

namespace Swob

/-- `MAX_RANGES`. -/
def maxRanges : Nat := 50

/-- `MAX_RANGE_OVERLAPS`. -/
def maxRangeOverlaps : Nat := 2

/-- `MAX_NONASCENDING_RANGES`. -/
def maxNonascendingRanges : Nat := 8

/-- A parsed `Range` header: its specs, in header order. -/
structure Range where
  ranges : List (Option Nat × Option Nat)
  deriving DecidableEq, Repr

namespace Range

/-- `Range("bytes=%s-%s" % (start or '', end or ''))`; `none` where it raises `ValueError`: no
bound at all, or an end before the start. -/
def ofBounds? (start stop : Option Nat) : Option Range :=
  match start, stop with
  | none, none => none
  | some b, some e => if e < b then none else some ⟨[(some b, some e)]⟩
  | b, e => some ⟨[(b, e)]⟩

/-- The half-open part of a body of `length` bytes one spec selects, as the loop of
`ranges_for_length` computes it; `none` for a spec it skips. -/
def rangeForLength (length : Nat) : Option Nat × Option Nat → Option (Nat × Nat)
  -- `bytes=-0`
  | (none, some 0) => none
  -- a suffix longer than the body is the whole body
  | (none, some e) => if length < e then some (0, length) else some (length - e, length)
  | (some b, none) => if b < length then some (b, length) else none
  | (some b, some e) => if b < length then some (b, min (e + 1) length) else none
  -- the constructor never keeps a spec without bounds
  | (none, none) => none

/-- A suffix of `e ≠ 0` bytes is the last `e` bytes; the whole of a shorter body starts at `0`,
which is where `length - e` stops on `Nat`. -/
theorem rangeForLength_suffix {e : Nat} (he : e ≠ 0) (length : Nat) :
    rangeForLength length (none, some e) = some (length - e, length) := by
  obtain ⟨k, rfl⟩ := Nat.exists_eq_succ_of_ne_zero he
  show (if length < k + 1 then some (0, length) else some (length - (k + 1), length)) = _
  split
  · rw [Nat.sub_eq_zero_of_le (by omega)]
  · rfl

/-- What a spec is clipped to, whichever kind it is: a first byte inside the body begins the
range, which ends after the last byte or with the body; a suffix of `n ≠ 0` bytes is the last
`n` bytes of the body. -/
theorem rangeForLength_eq_some {length : Nat} {start stop : Option Nat} {range : Nat × Nat}
    (h : rangeForLength length (start, stop) = some range) :
    (∃ b, start = some b ∧ b < length ∧
      range = (b, (stop.map fun e => min (e + 1) length).getD length)) ∨
    (∃ n, start = none ∧ stop = some n ∧ n ≠ 0 ∧ range = (length - n, length)) := by
  rcases start with _ | b <;> rcases stop with _ | n
  case none.none => cases h
  case none.some =>
    -- `bytes=-0` is skipped
    have hn : n ≠ 0 := by
      rintro rfl
      cases h
    rw [rangeForLength_suffix hn] at h
    exact .inr ⟨n, rfl, rfl, hn, (Option.some.inj h).symm⟩
  all_goals
    simp only [rangeForLength] at h
    split at h
    · cases h
      exact .inl ⟨b, rfl, ‹_›, rfl⟩
    · cases h

/-- The two ranges of a pair overlap, as `ranges_for_length` tests it. -/
def overlaps (p : (Nat × Nat) × (Nat × Nat)) : Bool :=
  let ((start1, end1), (start2, end2)) := p
  (start1 < start2 && start2 < end1) || (start1 < end2 && end2 < end1) ||
    (start2 < start1 && start1 < end2) || (start2 < end1 && end1 < end2)

/-- `utils.pairs(items)`: every pair of an item and a later one. -/
def pairs {α : Type*} : List α → List (α × α)
  | [] => []
  | item :: rest => rest.map (item, ·) ++ pairs rest

/-- No range is greater than the next one, comparing `(begin, end)` tuples as Python does. -/
def ascending : List (Nat × Nat) → Bool
  | r₁ :: r₂ :: rest =>
    decide (r₁.1 < r₂.1 ∨ r₁.1 = r₂.1 ∧ r₁.2 ≤ r₂.2) && ascending (r₂ :: rest)
  | _ => true

/-- `Range.ranges_for_length(length)`: `none` for a header to ignore, `some []` for one that
cannot be satisfied, and otherwise the half-open ranges to send. -/
def rangesForLength (r : Range) (length : Nat) : Option (List (Nat × Nat)) :=
  if r.ranges = [] then none
  else
    let allRanges := r.ranges.filterMap (rangeForLength length)
    if maxRanges < allRanges.length then some []
    else if maxRangeOverlaps < ((pairs allRanges).filter overlaps).length then some []
    else if !ascending allRanges && maxNonascendingRanges ≤ allRanges.length then some []
    else some allRanges

/-- Every range a spec selects ends within the body. -/
theorem rangeForLength_le {length : Nat} {spec : Option Nat × Option Nat} {range : Nat × Nat}
    (h : rangeForLength length spec = some range) : range.2 ≤ length := by
  obtain ⟨start, stop⟩ := spec
  rcases rangeForLength_eq_some h with ⟨b, -, -, rfl⟩ | ⟨n, -, -, -, rfl⟩
  · cases stop with
    | none => exact Nat.le_refl _
    | some e => exact Nat.min_le_right _ _
  · exact Nat.le_refl _

/-- What `ranges_for_length` sends ends within the body, one range at most per spec. -/
theorem rangesForLength_le {r : Range} {length : Nat} {ranges : List (Nat × Nat)}
    (h : r.rangesForLength length = some ranges) :
    ranges.length ≤ r.ranges.length ∧ ∀ range ∈ ranges, range.2 ≤ length := by
  have hsent : ranges = [] ∨ ranges = r.ranges.filterMap (rangeForLength length) := by
    unfold rangesForLength at h
    dsimp only at h
    -- no header, three egregious ones that send nothing, and the ranges themselves
    split_ifs at h <;> cases h <;> simp
  rcases hsent with rfl | rfl
  · simp
  · refine ⟨List.length_filterMap_le _ _, fun range hrange => ?_⟩
    obtain ⟨spec, -, hspec⟩ := List.mem_filterMap.mp hrange
    exact rangeForLength_le hspec

/-- A header of one spec selects what that spec does. -/
theorem rangesForLength_singleton (spec : Option Nat × Option Nat) (length : Nat) :
    rangesForLength ⟨[spec]⟩ length = some (rangeForLength length spec).toList := by
  cases h : rangeForLength length spec <;>
    simp [rangesForLength, h, pairs, ascending, maxRanges, maxNonascendingRanges]

end Range

end Swob

end Swift
