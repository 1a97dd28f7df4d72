import Swift.Common.Range
import Mathlib.Data.Nat.Choose.Basic

/-!
# What `ranges_for_length` sends, and what its guard counts

`Range.ranges_for_length` clips each spec of a `Range` header to the body and then refuses, with
`[]` (a 416), headers it calls egregious. One of its three tests counts overlapping pairs of
ranges: more than `MAX_RANGE_OVERLAPS` of them and the header is refused. The test is written
as four strict betweenness conditions rather than as the intersection of two intervals.

This module states what a spec asks for (`Selects`) and what a range sends (`Sends`), proves that
the clipping sends exactly the bytes of the body the spec asks for, and compares the source's
overlap test with sharing a byte.

## Main results

* `sends_rangeForLength_iff` — a spec's range sends exactly the bytes of the body it asks for
* `overlaps_iff_sharesByte` — on ranges that send something, the source's test is "share a byte
  and are not the same range"
* `filter_overlaps_pairs_eq` — so the guard counts the pairs of different ranges that share a
  byte, for every header `Range.__init__` accepts
* `rangesForLength_selects_and_counts_overlaps` — the three together
* `rangesForLength_sends_repeats` — a range repeated up to fifty times is never refused, however
  many of the repeats share every byte
-/

namespace Swift

namespace Swob

namespace Range

/-! ### What a spec asks for, and what a range sends -/

/-- Byte `i` of a body of `length` bytes is one a spec asks for: `first-last`, `first-`, or one
of the last `n` bytes for `-n`. -/
def Selects (length : Nat) : Option Nat × Option Nat → Nat → Prop
  | (some b, some e), i => b ≤ i ∧ i ≤ e
  | (some b, none), i => b ≤ i
  | (none, some n), i => length ≤ i + n
  | (none, none), _ => False

/-- A half-open range `(begin, end)` sends byte `i`. -/
def Sends (range : Nat × Nat) (i : Nat) : Prop := range.1 ≤ i ∧ i < range.2

/-- The range a spec is clipped to sends exactly the bytes of the body that the spec asks for;
a spec clipped to nothing asks for none of them. -/
theorem sends_rangeForLength_iff (length : Nat) (spec : Option Nat × Option Nat) (i : Nat) :
    (∃ range, rangeForLength length spec = some range ∧ Sends range i) ↔
      i < length ∧ Selects length spec i := by
  rcases spec with ⟨_ | b, _ | n⟩
  case none.none => simp [rangeForLength, Selects]
  case none.some =>
    cases n with
    | zero => simp [rangeForLength, Selects]
    | succ n =>
      -- a suffix longer than the body is the whole body
      rw [rangeForLength_suffix (Nat.succ_ne_zero n)]
      simp [Sends, Selects]
      omega
  case some.none =>
    simp only [rangeForLength, Selects]
    split <;> simp [Sends] <;> omega
  case some.some =>
    simp only [rangeForLength, Selects]
    split <;> simp [Sends] <;> omega

/-- A spec `Range.__init__` keeps: a bound at least, and no end before the start. -/
def validSpec : Option Nat × Option Nat → Bool
  | (none, none) => false
  | (some b, some e) => decide (b ≤ e)
  | _ => true

/-- A header `Range.__init__` accepts: at least one spec, each of them valid. -/
def Accepted (r : Range) : Prop := r.ranges ≠ [] ∧ ∀ spec ∈ r.ranges, validSpec spec = true

/-- Of a body that is not empty, a valid spec's range sends something. -/
theorem lt_of_rangeForLength {length : Nat} {spec : Option Nat × Option Nat} {range : Nat × Nat}
    (hspec : validSpec spec = true) (hlen : 0 < length) (h : rangeForLength length spec = some range) :
    range.1 < range.2 := by
  obtain ⟨start, stop⟩ := spec
  rcases rangeForLength_eq_some h with ⟨b, rfl, hb, rfl⟩ | ⟨n, -, -, hn, rfl⟩
  · cases stop with
    | none => simpa using hb
    | some e =>
      -- `Range.__init__` keeps no end before the start
      have hbe : b ≤ e := by simpa [validSpec] using hspec
      simp only [Option.map_some, Option.getD_some]
      omega
  · simp only
    omega

/-! ### The overlap test -/

/-- Two ranges send a byte in common. -/
def sharesByte (p : (Nat × Nat) × (Nat × Nat)) : Bool :=
  decide (max p.1.1 p.2.1 < min p.1.2 p.2.2)

theorem sharesByte_iff (p : (Nat × Nat) × (Nat × Nat)) :
    sharesByte p = true ↔ ∃ i, Sends p.1 i ∧ Sends p.2 i := by
  simp only [sharesByte, decide_eq_true_eq, Sends]
  constructor
  · intro h
    exact ⟨max p.1.1 p.2.1, by omega⟩
  · rintro ⟨i, h₁, h₂⟩
    omega

/-- On two ranges that each send something, the test `ranges_for_length` makes is that they
share a byte and are not the same range: a range repeated is not counted as overlapping itself. -/
theorem overlaps_iff_sharesByte {r₁ r₂ : Nat × Nat} (h₁ : r₁.1 < r₁.2) (h₂ : r₂.1 < r₂.2) :
    overlaps (r₁, r₂) = true ↔ sharesByte (r₁, r₂) = true ∧ r₁ ≠ r₂ := by
  obtain ⟨s₁, e₁⟩ := r₁
  obtain ⟨s₂, e₂⟩ := r₂
  simp only at h₁ h₂
  simp only [overlaps, sharesByte, Bool.or_eq_true, Bool.and_eq_true, decide_eq_true_eq, ne_eq,
    Prod.mk.injEq]
  omega

theorem mem_of_mem_pairs {α : Type*} {l : List α} {p : α × α} (h : p ∈ pairs l) :
    p.1 ∈ l ∧ p.2 ∈ l := by
  induction l with
  | nil => cases h
  | cons a l ih =>
    rcases List.mem_append.mp h with h | h
    · obtain ⟨b, hb, rfl⟩ := List.mem_map.mp h
      exact ⟨List.mem_cons_self, List.mem_cons_of_mem _ hb⟩
    · obtain ⟨h₁, h₂⟩ := ih h
      exact ⟨List.mem_cons_of_mem _ h₁, List.mem_cons_of_mem _ h₂⟩

/-- For every header `Range.__init__` accepts and every body that is not empty, the guard counts
the pairs of different ranges that share a byte. -/
theorem filter_overlaps_pairs_eq {r : Range} (hr : r.Accepted) {length : Nat} (hlen : 0 < length) :
    (pairs (r.ranges.filterMap (rangeForLength length))).filter overlaps =
      (pairs (r.ranges.filterMap (rangeForLength length))).filter
        fun p => sharesByte p && p.1 != p.2 := by
  apply List.filter_congr
  rintro ⟨r₁, r₂⟩ hp
  -- both ranges of a pair come from specs of the header, so both send something
  have hsend : ∀ range ∈ r.ranges.filterMap (rangeForLength length), range.1 < range.2 := by
    intro range hrange
    obtain ⟨spec, hspec, hsome⟩ := List.mem_filterMap.mp hrange
    exact lt_of_rangeForLength (hr.2 spec hspec) hlen hsome
  obtain ⟨hmem₁, hmem₂⟩ := mem_of_mem_pairs hp
  have hiff := overlaps_iff_sharesByte (hsend r₁ hmem₁) (hsend r₂ hmem₂)
  rw [Bool.eq_iff_iff, hiff]
  simp

/-- For every header `Range.__init__` accepts and every body that is not empty: each spec's
range sends exactly the bytes of the body it asks for, every range clipped from the header sends
something and ends within the body, and the overlap guard of `ranges_for_length` counts the pairs
of different ranges that send a byte in common. -/
theorem rangesForLength_selects_and_counts_overlaps {r : Range} (hr : r.Accepted) {length : Nat}
    (hlen : 0 < length) :
    (∀ spec ∈ r.ranges, ∀ i, (∃ range, rangeForLength length spec = some range ∧ Sends range i) ↔
      i < length ∧ Selects length spec i) ∧
    (∀ range ∈ r.ranges.filterMap (rangeForLength length), range.1 < range.2 ∧ range.2 ≤ length) ∧
    (pairs (r.ranges.filterMap (rangeForLength length))).filter overlaps =
      (pairs (r.ranges.filterMap (rangeForLength length))).filter
        (fun p => sharesByte p && p.1 != p.2) ∧
    ∀ p, sharesByte p = true ↔ ∃ i, Sends p.1 i ∧ Sends p.2 i := by
  refine ⟨fun spec _ i => sends_rangeForLength_iff length spec i, fun range hrange => ?_,
    filter_overlaps_pairs_eq hr hlen, sharesByte_iff⟩
  obtain ⟨spec, hspec, hsome⟩ := List.mem_filterMap.mp hrange
  exact ⟨lt_of_rangeForLength (hr.2 spec hspec) hlen hsome, rangeForLength_le hsome⟩

/-- `bytes=0-4,2-` of a ten-byte body: the ranges `0-4` and `2-9` share bytes `2` to `4`. -/
theorem rangesForLength_selects_and_counts_overlaps_twoSpecs :
    Accepted ⟨[(some 0, some 4), (some 2, none)]⟩ ∧ 0 < 10 ∧
    (∀ spec ∈ [(some 0, some 4), (some 2, none)], ∀ i,
      (∃ range, rangeForLength 10 spec = some range ∧ Sends range i) ↔
        i < 10 ∧ Selects 10 spec i) ∧
    (∀ range ∈ [((some 0, some 4) : Option Nat × Option Nat), (some 2, none)].filterMap
        (rangeForLength 10), range.1 < range.2 ∧ range.2 ≤ 10) ∧
    (pairs ([((some 0, some 4) : Option Nat × Option Nat), (some 2, none)].filterMap
        (rangeForLength 10))).filter overlaps =
      (pairs ([((some 0, some 4) : Option Nat × Option Nat), (some 2, none)].filterMap
        (rangeForLength 10))).filter (fun p => sharesByte p && p.1 != p.2) ∧
    ∀ p, sharesByte p = true ↔ ∃ i, Sends p.1 i ∧ Sends p.2 i := by
  have hr : Accepted ⟨[(some 0, some 4), (some 2, none)]⟩ := ⟨List.cons_ne_nil _ _, by decide⟩
  exact ⟨hr, by decide, rangesForLength_selects_and_counts_overlaps hr (by decide)⟩

/-! ### Repeated ranges -/

theorem pairs_replicate {α : Type*} (n : Nat) (a : α) :
    pairs (List.replicate n a) = List.replicate (n.choose 2) (a, a) := by
  induction n with
  | zero => rfl
  | succ n ih =>
    rw [List.replicate_succ, pairs, ih, List.map_replicate, List.replicate_append_replicate,
      Nat.choose_succ_succ, Nat.choose_one_right]

theorem ascending_replicate (n : Nat) (range : Nat × Nat) :
    ascending (List.replicate n range) = true := by
  induction n with
  | zero => rfl
  | succ n ih =>
    cases n with
    | zero => rfl
    | succ n =>
      rw [List.replicate_succ, List.replicate_succ, ascending, ← List.replicate_succ, ih]
      simp

/-- `bytes=0-,0-,...` with up to `MAX_RANGES` copies is never refused, whatever the length of
the body: each copy is the whole body, every pair of copies shares every byte, and the guard
counts none of them, so a client gets the body as many times as it asks. -/
theorem rangesForLength_sends_repeats {length n : Nat} (hlen : 0 < length) (hn : 3 ≤ n)
    (hmax : n ≤ maxRanges) :
    maxRangeOverlaps < ((pairs (List.replicate n (0, length))).filter sharesByte).length ∧
    rangesForLength ⟨List.replicate n (some 0, none)⟩ length =
      some (List.replicate n (0, length)) := by
  have hwhole : rangeForLength length (some 0, none) = some (0, length) := by
    simp [rangeForLength, hlen]
  have hall : (List.replicate n (some 0, none)).filterMap (rangeForLength length) =
      List.replicate n (0, length) := by
    rw [List.filterMap_replicate, hwhole]
  have hshares : sharesByte ((0, length), (0, length)) = true := by simp [sharesByte, hlen]
  have hcount : n.choose 2 ≥ 3 := by
    calc n.choose 2 ≥ (3 : Nat).choose 2 := Nat.choose_le_choose 2 hn
      _ = 3 := rfl
  refine ⟨?_, ?_⟩
  · rw [pairs_replicate, List.filter_replicate, if_pos hshares, List.length_replicate]
    simp only [maxRangeOverlaps]
    omega
  · have hoverlaps : overlaps ((0, length), (0, length)) = false := by simp [overlaps]
    have hne : List.replicate n ((some 0, none) : Option Nat × Option Nat) ≠ [] := by
      simp only [ne_eq, List.replicate_eq_nil_iff]
      omega
    simp only [rangesForLength, hne, if_false, hall, List.length_replicate, pairs_replicate,
      List.filter_replicate, hoverlaps, ascending_replicate]
    -- not too many ranges, no overlapping pair counted, and in order
    have hfew : ¬maxRanges < n := Nat.not_lt.mpr hmax
    simp [hfew, maxRangeOverlaps]

theorem rangesForLength_sends_repeats_three :
    0 < 100 ∧ 3 ≤ 3 ∧ 3 ≤ maxRanges ∧
    maxRangeOverlaps < ((pairs (List.replicate 3 (0, 100))).filter sharesByte).length ∧
    rangesForLength ⟨List.replicate 3 (some 0, none)⟩ 100 = some (List.replicate 3 (0, 100)) :=
  ⟨by decide, by decide, by decide, rangesForLength_sends_repeats (by decide) (by decide) (by decide)⟩

end Range

end Swob

end Swift
