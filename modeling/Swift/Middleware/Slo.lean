import Swift.Data.ExceptMapM
import Swift.Data.Slice

/-!
# SLO byte-range listings

`swift.common.middleware.slo`: a static large object is a manifest, a list of segments, each of
them an object, a byte range `N-M` of an object, inline data, or another manifest (a sub-SLO).
For a ranged GET, `SloGetContext._byterange_listing_iterator` walks the manifest tree and lists,
for each object or inline segment it needs, the bytes `first_byte .. last_byte` of it to send;
`SegmentedIterable` then reads those slices one after another.

The walk keeps the range relative to the segment it is at: both bounds drop by each segment's
`segment_length` as it passes, so once it is past the start `first_byte` is negative and is
clamped to `0`, and the walk stops when `last_byte` is. A sub-SLO's part is listed by the same
walk over its segments, from `range_start + max(0, first_byte)` to
`min(range_end, range_start + last_byte)`.

The model takes the manifest tree as fetched: a sub-SLO segment carries the segments that
`cached_fetch_sub_slo_segments` returns for its name. The tree's content is `manifestContent`,
what the segments stand for laid end to end, and `segment_length`, which `_annotate_segments`
computes from the segment's own fields, is taken to be the length of that content (`Sized`).
Under that hypothesis every walk lists exactly the bytes asked for
(`byterangeListingIterator_read`); the slices are non-empty and inside their objects when, as
SLO's PUT validation requires, no segment but the last of a manifest is empty
(`byterangeListingIterator_inBounds`). An empty segment further in yields the empty slice
`0 .. -1` (`byterangeListing_zeroLengthSegment`).
-/

namespace Swift

namespace Slo

/-- A manifest segment, as `_annotate_segments` leaves it: inline data decoded to `raw_data`, an
object of `bytes` bytes with an optional `range` `N-M`, or a sub-SLO with the segments of its own
manifest. -/
inductive Segment (α : Type) where
  | rawData (data : List α)
  | object (name : String) (bytes : Nat) (range : Option (Nat × Nat))
  | subSlo (name : String) (bytes : Nat) (range : Option (Nat × Nat)) (segments : List (Segment α))
  deriving Repr

variable {α : Type}

/-- The `segment_length` `_annotate_segments` gives a segment with a `bytes` key: from its range
`N-M`, `(M - N) + 1`, and otherwise `bytes`. -/
def rangeLength (bytes : Nat) : Option (Nat × Nat) → Int
  | some (rangeStart, rangeEnd) => ((rangeEnd : Int) - rangeStart) + 1
  | none => bytes

/-- `seg_dict['segment_length']`. -/
def Segment.segmentLength : Segment α → Int
  | .rawData data => data.length
  | .object _ bytes range => rangeLength bytes range
  | .subSlo _ bytes range _ => rangeLength bytes range

/-- `range_start, range_end`: the segment's range, or the whole segment. -/
def rangeBounds (segLength : Int) : Option (Nat × Nat) → Int × Int
  | some (rangeStart, rangeEnd) => (rangeStart, rangeEnd)
  | none => (0, segLength - 1)

/-- What a listed segment is read from: inline data, or the object of that name. -/
inductive Source (α : Type) where
  | rawData (data : List α)
  | object (name : String)
  deriving Repr, DecidableEq

/-- A segment dict the listing yields: `dict(seg_dict, first_byte=..., last_byte=...)`, of
which `SegmentedIterable` reads the source and the two bounds. -/
structure SegInfo (α : Type) where
  source : Source α
  firstByte : Int
  lastByte : Int
  deriving Repr, DecidableEq

/-- The `ListingIterError` raised past `max_slo_recursion_depth`. -/
def maxDepthError (path : String) : String :=
  "While processing manifest '" ++ path ++ "', max recursion depth was exceeded"

mutual

/-- The body of the loop of `_byterange_listing_iterator` for a segment it neither skips nor
stops at. -/
def segmentListing (maxSloRecursionDepth : Nat) (path : String) (recursionDepth : Nat)
    (firstByte lastByte : Int) : Segment α → Except String (List (SegInfo α))
  | .rawData data =>
    .ok [⟨.rawData data, max 0 firstByte, min ((data.length : Int) - 1) lastByte⟩]
  | .object name bytes range =>
    let (rangeStart, rangeEnd) := rangeBounds (rangeLength bytes range) range
    .ok [⟨.object name, max 0 firstByte + rangeStart, min rangeEnd (rangeStart + lastByte)⟩]
  | .subSlo _ bytes range segments =>
    let (rangeStart, rangeEnd) := rangeBounds (rangeLength bytes range) range
    -- checked before the sub-manifest is fetched
    if maxSloRecursionDepth ≤ recursionDepth then .error (maxDepthError path)
    else
      byterangeListingIterator maxSloRecursionDepth path (recursionDepth + 1)
        (rangeStart + max 0 firstByte) (min rangeEnd (rangeStart + lastByte)) segments

/-- `_byterange_listing_iterator(req, ..., segments, first_byte, last_byte, ...,
recursion_depth)`: the segment dicts, or the error it raises. -/
def byterangeListingIterator (maxSloRecursionDepth : Nat) (path : String) (recursionDepth : Nat)
    (firstByte lastByte : Int) : List (Segment α) → Except String (List (SegInfo α))
  | [] => .ok []
  | seg :: rest =>
    if seg.segmentLength ≤ firstByte then
      -- don't need any bytes from this segment
      byterangeListingIterator maxSloRecursionDepth path recursionDepth
        (firstByte - seg.segmentLength) (lastByte - seg.segmentLength) rest
    -- no bytes are needed from this or any future segment
    else if lastByte < 0 then .ok []
    else do
      let here ← segmentListing maxSloRecursionDepth path recursionDepth firstByte lastByte seg
      let after ← byterangeListingIterator maxSloRecursionDepth path recursionDepth
        (firstByte - seg.segmentLength) (lastByte - seg.segmentLength) rest
      pure (here ++ after)

end

/-! ### What a manifest stands for -/

/-- The part of `u` a segment's range `N-M` selects, or all of it. -/
def applyRange (u : List α) : Option (Nat × Nat) → List α
  | some (rangeStart, rangeEnd) => (u.drop rangeStart).take (rangeEnd + 1 - rangeStart)
  | none => u

mutual

/-- The bytes a segment stands for, given the bodies of the objects by name. -/
def Segment.content (objects : String → List α) : Segment α → List α
  | .rawData data => data
  | .object name _ range => applyRange (objects name) range
  | .subSlo _ _ range segments => applyRange (manifestContent objects segments) range

/-- A manifest's flattened content: its segments' contents laid end to end. -/
def manifestContent (objects : String → List α) : List (Segment α) → List α
  | [] => []
  | seg :: rest => seg.content objects ++ manifestContent objects rest

end

mutual

/-- Every `segment_length` in the tree is the length of what its segment stands for. -/
def Segment.Sized (objects : String → List α) : Segment α → Prop
  | .rawData _ => True
  | .object name bytes range => rangeLength bytes range = (applyRange (objects name) range).length
  | .subSlo _ bytes range segments =>
    rangeLength bytes range = (applyRange (manifestContent objects segments) range).length ∧
      ManifestSized objects segments

/-- `Segment.Sized` for each segment of a manifest. -/
def ManifestSized (objects : String → List α) : List (Segment α) → Prop
  | [] => True
  | seg :: rest => seg.Sized objects ∧ ManifestSized objects rest

end

mutual

/-- The manifests under a segment: none for an object or inline data. -/
def Segment.depth : Segment α → Nat
  | .subSlo _ _ _ segments => manifestDepth segments
  | _ => 0

/-- The levels of manifests in a tree, counting its own. -/
def manifestDepth : List (Segment α) → Nat
  | [] => 1
  | seg :: rest => max (seg.depth + 1) (manifestDepth rest)

end

mutual

/-- The sub-manifests under a segment keep SLO's rule on empty segments. -/
def Segment.NonemptyInner : Segment α → Prop
  | .subSlo _ _ _ segments => ManifestNonempty segments
  | _ => True

/-- SLO's PUT validation: "each segment must be at least 1 byte", except the last one of a
manifest, and inline data is never empty; the same down the tree. -/
def ManifestNonempty : List (Segment α) → Prop
  | [] => True
  | seg :: rest => (rest ≠ [] → 0 < seg.segmentLength) ∧ seg.NonemptyInner ∧ ManifestNonempty rest

end

/-- The bytes of a listed segment's source. -/
def Source.bytes (objects : String → List α) : Source α → List α
  | .rawData data => data
  | .object name => objects name

/-- What `SegmentedIterable` reads for a listed segment: `raw_data[first_byte:last_byte + 1]`, or
the object's bytes `first_byte-last_byte`. -/
def SegInfo.read (objects : String → List α) (info : SegInfo α) : List α :=
  sliceInclusive (info.source.bytes objects) info.firstByte info.lastByte

/-- A listed slice that is non-empty and inside its source. -/
def SegInfo.InBounds (objects : String → List α) (info : SegInfo α) : Prop :=
  0 ≤ info.firstByte ∧ info.firstByte ≤ info.lastByte ∧
    info.lastByte < (info.source.bytes objects).length

/-! ### One step of the walk -/

section Walk

variable {maxSloRecursionDepth : Nat} {path : String} {recursionDepth : Nat} {firstByte lastByte : Int}
  {seg : Segment α} {rest : List (Segment α)}

theorem byterangeListingIterator_skip (h : seg.segmentLength ≤ firstByte) :
    byterangeListingIterator maxSloRecursionDepth path recursionDepth firstByte lastByte
        (seg :: rest) =
      byterangeListingIterator maxSloRecursionDepth path recursionDepth
        (firstByte - seg.segmentLength) (lastByte - seg.segmentLength) rest := by
  rw [byterangeListingIterator, if_pos h]

theorem byterangeListingIterator_stop (hfirst : firstByte < seg.segmentLength)
    (hlast : lastByte < 0) :
    byterangeListingIterator maxSloRecursionDepth path recursionDepth firstByte lastByte
      (seg :: rest) = .ok [] := by
  rw [byterangeListingIterator, if_neg (by omega), if_pos hlast]

theorem byterangeListingIterator_yield (hfirst : firstByte < seg.segmentLength)
    (hlast : 0 ≤ lastByte) :
    byterangeListingIterator maxSloRecursionDepth path recursionDepth firstByte lastByte
        (seg :: rest) =
      (do
        let here ← segmentListing maxSloRecursionDepth path recursionDepth firstByte lastByte seg
        let after ← byterangeListingIterator maxSloRecursionDepth path recursionDepth
          (firstByte - seg.segmentLength) (lastByte - seg.segmentLength) rest
        pure (here ++ after)) := by
  rw [byterangeListingIterator, if_neg (by omega), if_neg (by omega)]

end Walk

/-! ### Sizes and depths -/

theorem Segment.Sized.segmentLength_eq {objects : String → List α} :
    ∀ {seg : Segment α}, seg.Sized objects → seg.segmentLength = (seg.content objects).length
  | .rawData _, _ => rfl
  | .object _ _ _, h => h
  | .subSlo _ _ _ _, h => h.1

theorem length_manifestContent_cons (objects : String → List α) (seg : Segment α)
    (rest : List (Segment α)) :
    (manifestContent objects (seg :: rest)).length =
      (seg.content objects).length + (manifestContent objects rest).length := by
  rw [manifestContent, List.length_append]

theorem one_le_manifestDepth : ∀ segments : List (Segment α), 1 ≤ manifestDepth segments
  | [] => Nat.le_refl 1
  | seg :: _ => Nat.le_trans (Nat.le_add_left 1 seg.depth) (Nat.le_max_left _ _)

/-- Where a segment's range lies in what it is cut from: it starts at or after `0`, ends
`segment_length - 1` bytes later, and, for a segment that is not empty, inside. -/
theorem rangeBounds_inside {u : List α} {bytes : Nat} {range : Option (Nat × Nat)}
    (hsized : rangeLength bytes range = (applyRange u range).length)
    (hpos : 0 < rangeLength bytes range) :
    0 ≤ (rangeBounds (rangeLength bytes range) range).1 ∧
      (rangeBounds (rangeLength bytes range) range).2 =
        (rangeBounds (rangeLength bytes range) range).1 + rangeLength bytes range - 1 ∧
      (rangeBounds (rangeLength bytes range) range).2 < u.length := by
  cases range with
  | none =>
    simp only [rangeBounds, rangeLength, applyRange] at hsized hpos ⊢
    omega
  | some r =>
    obtain ⟨rangeStart, rangeEnd⟩ := r
    simp only [rangeBounds, rangeLength, applyRange, List.length_take, List.length_drop] at hsized hpos ⊢
    omega

/-- The slice the walk lists of a segment's source, `max(0, first_byte) + range_start` to
`min(range_end, range_start + last_byte)`, is the slice of the segment's own bytes. -/
theorem sliceInclusive_rangeBounds {u : List α} {bytes : Nat} {range : Option (Nat × Nat)}
    (hsized : rangeLength bytes range = (applyRange u range).length) (firstByte lastByte : Int) :
    sliceInclusive u (max 0 firstByte + (rangeBounds (rangeLength bytes range) range).1)
        (min (rangeBounds (rangeLength bytes range) range).2
          ((rangeBounds (rangeLength bytes range) range).1 + lastByte)) =
      sliceInclusive (applyRange u range) firstByte lastByte := by
  cases range with
  | none =>
    simp only [rangeBounds, rangeLength, applyRange] at hsized ⊢
    rw [Int.add_zero, Int.zero_add, hsized, sliceInclusive_clamp]
  | some r =>
    obtain ⟨rangeStart, rangeEnd⟩ := r
    simp only [rangeBounds, rangeLength, applyRange, List.length_take, List.length_drop] at hsized ⊢
    rw [sliceInclusive_drop_take u (by omega),
      show max 0 firstByte + rangeStart = rangeStart + firstByte.toNat by omega]

/-! ### The walk lists exactly the bytes asked for -/

section Read

variable (objects : String → List α) (maxSloRecursionDepth : Nat) (path : String)

mutual

/-- A segment the walk stops at lists the slice `first_byte .. last_byte` of its bytes. -/
theorem segmentListing_read : ∀ (seg : Segment α) (recursionDepth : Nat) (firstByte lastByte : Int),
    seg.Sized objects → recursionDepth + seg.depth ≤ maxSloRecursionDepth →
    ∃ infos, segmentListing maxSloRecursionDepth path recursionDepth firstByte lastByte seg =
        .ok infos ∧
      (infos.map (SegInfo.read objects)).flatten =
        sliceInclusive (seg.content objects) firstByte lastByte
  | .rawData data, _, firstByte, lastByte, _, _ => by
    refine ⟨_, rfl, ?_⟩
    rw [List.map_singleton, List.flatten_singleton, SegInfo.read, Source.bytes, Segment.content,
      sliceInclusive_clamp]
  | .object name bytes range, _, firstByte, lastByte, hsized, _ => by
    refine ⟨_, rfl, ?_⟩
    rw [List.map_singleton, List.flatten_singleton, SegInfo.read, Source.bytes, Segment.content]
    exact sliceInclusive_rangeBounds hsized firstByte lastByte
  | .subSlo name bytes range segments, recursionDepth, firstByte, lastByte, ⟨hsized, hsub⟩,
      hdepth => by
    have hone := one_le_manifestDepth segments
    simp only [Segment.depth] at hdepth
    rw [Segment.content, ← sliceInclusive_rangeBounds hsized firstByte lastByte, segmentListing]
    generalize rangeBounds (rangeLength bytes range) range = bounds
    obtain ⟨rangeStart, rangeEnd⟩ := bounds
    dsimp only
    -- the sub-manifest is one level further down, and still within the limit
    rw [if_neg (by omega), Int.add_comm (max 0 firstByte)]
    exact byterangeListingIterator_read segments (recursionDepth + 1) _ _ hsub (by omega)

/-- The walk from `first_byte` to `last_byte` over a manifest lists the slice of its content
between them. -/
theorem byterangeListingIterator_read : ∀ (segments : List (Segment α)) (recursionDepth : Nat)
    (firstByte lastByte : Int), ManifestSized objects segments →
    recursionDepth + manifestDepth segments ≤ maxSloRecursionDepth + 1 →
    ∃ infos, byterangeListingIterator maxSloRecursionDepth path recursionDepth firstByte lastByte
        segments = .ok infos ∧
      (infos.map (SegInfo.read objects)).flatten =
        sliceInclusive (manifestContent objects segments) firstByte lastByte
  | [], _, _, _, _, _ => ⟨[], rfl, by rw [manifestContent, sliceInclusive_nil]; rfl⟩
  | seg :: rest, recursionDepth, firstByte, lastByte, ⟨hseg, hrest⟩, hdepth => by
    simp only [manifestDepth] at hdepth
    have hlength := hseg.segmentLength_eq
    obtain ⟨after, hafter, hread⟩ := byterangeListingIterator_read rest recursionDepth
      (firstByte - seg.segmentLength) (lastByte - seg.segmentLength) hrest (by omega)
    rw [manifestContent, sliceInclusive_append, ← hlength, ← hread]
    by_cases hskip : seg.segmentLength ≤ firstByte
    · -- nothing of this segment is asked for
      refine ⟨after, by rw [byterangeListingIterator_skip hskip, hafter], ?_⟩
      rw [sliceInclusive_of_length_le (hlength ▸ hskip), List.nil_append]
    by_cases hstop : lastByte < 0
    · -- nothing of this segment or a later one is asked for
      refine ⟨[], byterangeListingIterator_stop (by omega) hstop, ?_⟩
      rw [sliceInclusive_of_neg _ _ hstop, List.nil_append, hread,
        sliceInclusive_of_neg _ _ (by omega)]
      rfl
    · obtain ⟨here, hhere, hhead⟩ := segmentListing_read seg recursionDepth firstByte lastByte
        hseg (by omega)
      refine ⟨here ++ after, ?_, ?_⟩
      · rw [byterangeListingIterator_yield (by omega) (by omega), hhere, hafter]
        rfl
      · rw [List.map_append, List.flatten_append, hhead]

end

end Read

/-! ### The slices are non-empty and inside their sources -/

section InBounds

variable (objects : String → List α) (maxSloRecursionDepth : Nat) (path : String)

mutual

/-- A non-empty segment the walk stops at, with `first_byte` before its end and `last_byte` not
before `first_byte` or `0`, lists non-empty slices inside their sources. -/
theorem segmentListing_inBounds : ∀ (seg : Segment α) {recursionDepth : Nat}
    {firstByte lastByte : Int} {infos : List (SegInfo α)},
    seg.Sized objects → seg.NonemptyInner → 0 < seg.segmentLength →
    firstByte < seg.segmentLength → 0 ≤ lastByte → firstByte ≤ lastByte →
    segmentListing maxSloRecursionDepth path recursionDepth firstByte lastByte seg = .ok infos →
    ∀ info ∈ infos, info.InBounds objects
  | .rawData data, _, firstByte, lastByte, _, _, _, hpos, hfirst, hlast, hle, hrun => by
    simp only [Segment.segmentLength] at hpos hfirst
    cases hrun
    intro info hinfo
    rw [List.mem_singleton] at hinfo
    subst hinfo
    refine ⟨?_, ?_, ?_⟩ <;> dsimp only [Source.bytes] <;> omega
  | .object name bytes range, _, firstByte, lastByte, _, hsized, _, hpos, hfirst, hlast, hle,
      hrun => by
    simp only [Segment.segmentLength] at hpos hfirst
    have hinside := rangeBounds_inside hsized hpos
    rw [segmentListing] at hrun
    generalize rangeBounds (rangeLength bytes range) range = bounds at hrun hinside
    obtain ⟨rangeStart, rangeEnd⟩ := bounds
    cases hrun
    intro info hinfo
    rw [List.mem_singleton] at hinfo
    subst hinfo
    dsimp only at hinside
    refine ⟨?_, ?_, ?_⟩ <;> dsimp only [Source.bytes] <;> omega
  | .subSlo name bytes range segments, _, firstByte, lastByte, _, ⟨hsized, hsub⟩, hne, hpos,
      hfirst, hlast, hle, hrun => by
    simp only [Segment.segmentLength] at hpos hfirst
    have hinside := rangeBounds_inside hsized hpos
    rw [segmentListing] at hrun
    generalize rangeBounds (rangeLength bytes range) range = bounds at hrun hinside
    obtain ⟨rangeStart, rangeEnd⟩ := bounds
    dsimp only at hrun hinside
    split at hrun
    · cases hrun
    -- the sub-manifest's walk is asked for a non-empty part of it
    · exact byterangeListingIterator_inBounds segments hsub hne (by omega) (by omega) hrun

/-- The walk over a manifest that keeps SLO's rule on empty segments, asked for a non-empty
range that ends inside it, lists non-empty slices inside their sources. -/
theorem byterangeListingIterator_inBounds : ∀ (segments : List (Segment α)) {recursionDepth : Nat}
    {firstByte lastByte : Int} {infos : List (SegInfo α)},
    ManifestSized objects segments → ManifestNonempty segments → firstByte ≤ lastByte →
    lastByte < (manifestContent objects segments).length →
    byterangeListingIterator maxSloRecursionDepth path recursionDepth firstByte lastByte segments =
      .ok infos →
    ∀ info ∈ infos, info.InBounds objects
  | [], _, _, _, _, _, _, _, _, hrun => by
    cases hrun
    intro _ hinfo
    cases hinfo
  | seg :: rest, _, firstByte, lastByte, _, ⟨hseg, hrest⟩, ⟨hlastNonempty, hinner, hne⟩, hle,
      hlt, hrun => by
    have hlength := hseg.segmentLength_eq
    rw [length_manifestContent_cons] at hlt
    by_cases hskip : seg.segmentLength ≤ firstByte
    · rw [byterangeListingIterator_skip hskip] at hrun
      exact byterangeListingIterator_inBounds rest hrest hne (by omega) (by omega) hrun
    by_cases hstop : lastByte < 0
    · rw [byterangeListingIterator_stop (by omega) hstop] at hrun
      cases hrun
      intro _ hinfo
      cases hinfo
    rw [byterangeListingIterator_yield (by omega) (by omega)] at hrun
    obtain ⟨here, hhere, hrun⟩ := MapM.bind_eq_ok.mp hrun
    obtain ⟨after, hafter, hrun⟩ := MapM.bind_eq_ok.mp hrun
    cases hrun
    -- the segment is not empty: a later one follows it, or it holds the last byte asked for
    have hpos : 0 < seg.segmentLength := by
      cases rest with
      | nil =>
        rw [manifestContent, List.length_nil] at hlt
        omega
      | cons _ _ => exact hlastNonempty (List.cons_ne_nil _ _)
    intro info hinfo
    rcases List.mem_append.mp hinfo with hinfo | hinfo
    · exact segmentListing_inBounds seg hseg hinner hpos (by omega) (by omega) hle hhere info hinfo
    · exact byterangeListingIterator_inBounds rest hrest hne (by omega) (by omega) hafter info hinfo

end

end InBounds

/-! ### A ranged GET of an SLO -/

/-- The segment dicts listed for the bytes `first .. last` of an SLO whose manifest tree keeps
SLO's rule on empty segments and is no deeper than `max_slo_recursion_depth` read, one after
another, as exactly those bytes of its content, and each is a non-empty slice inside its
source. -/
theorem byterangeListing_reads_range (objects : String → List α) (maxSloRecursionDepth : Nat)
    (path : String) {segments : List (Segment α)} (hsized : ManifestSized objects segments)
    (hne : ManifestNonempty segments) (hdepth : manifestDepth segments ≤ maxSloRecursionDepth)
    {first last : Nat} (hle : first ≤ last)
    (hlast : last < (manifestContent objects segments).length) :
    ∃ infos, byterangeListingIterator maxSloRecursionDepth path 1 first last segments = .ok infos ∧
      (infos.map (SegInfo.read objects)).flatten =
        ((manifestContent objects segments).drop first).take (last + 1 - first) ∧
      ∀ info ∈ infos, info.InBounds objects := by
  obtain ⟨infos, hrun, hread⟩ :=
    byterangeListingIterator_read objects maxSloRecursionDepth path segments 1 first last hsized
      (by omega)
  refine ⟨infos, hrun, ?_, ?_⟩
  · rw [hread, sliceInclusive_natCast]
  · exact byterangeListingIterator_inBounds objects maxSloRecursionDepth path segments hsized hne
      (by omega) (by omega) hrun

/-- A two-level tree: inline data, then bytes `1-3` of a sub-SLO of two objects. -/
theorem byterangeListing_reads_range_subSlo :
    ∃ infos, byterangeListingIterator 10 "/v1/AUTH_test/c/m" 1 (1 : Nat) (3 : Nat)
        [.rawData ['a', 'b'],
          .subSlo "c/sub" 4 (some (1, 3)) [.object "c/x" 2 none, .object "c/y" 2 none]] =
        .ok infos ∧
      (infos.map (SegInfo.read fun name => if name = "c/x" then ['w', 'x'] else ['y', 'z'])).flatten =
        ((manifestContent (fun name => if name = "c/x" then ['w', 'x'] else ['y', 'z'])
          [.rawData ['a', 'b'],
            .subSlo "c/sub" 4 (some (1, 3)) [.object "c/x" 2 none, .object "c/y" 2 none]]).drop
            1).take (3 + 1 - 1) ∧
      ∀ info ∈ infos,
        info.InBounds fun name => if name = "c/x" then ['w', 'x'] else ['y', 'z'] :=
  byterangeListing_reads_range _ 10 "/v1/AUTH_test/c/m"
    (by simp [ManifestSized, Segment.Sized, rangeLength, applyRange, manifestContent,
      Segment.content])
    (by simp [ManifestNonempty, Segment.NonemptyInner, Segment.segmentLength, rangeLength])
    (by decide) (by decide) (by decide)

/-- An empty object segment in the middle of a manifest, which SLO's PUT refuses, is listed as
the empty slice `0 .. -1`. -/
theorem byterangeListing_zeroLengthSegment :
    ManifestSized (fun name => if name = "c/a" then ['a'] else if name = "c/b" then ['b'] else [])
        [.object "c/a" 1 none, .object "c/z" 0 none, .object "c/b" 1 none] ∧
      manifestDepth [(.object "c/a" 1 none : Segment Char), .object "c/z" 0 none,
        .object "c/b" 1 none] ≤ 10 ∧
      byterangeListingIterator 10 "/v1/AUTH_test/c/m" 1 0 1
          [(.object "c/a" 1 none : Segment Char), .object "c/z" 0 none, .object "c/b" 1 none] =
        .ok [⟨.object "c/a", 0, 0⟩, ⟨.object "c/z", 0, -1⟩, ⟨.object "c/b", 0, 0⟩] ∧
      ¬ SegInfo.InBounds
        (fun name => if name = "c/a" then ['a'] else if name = "c/b" then ['b'] else [])
        ⟨.object "c/z", 0, -1⟩ := by
  refine ⟨?_, by decide, by decide, ?_⟩
  · simp [ManifestSized, Segment.Sized, rangeLength, applyRange]
  · simp [SegInfo.InBounds]

end Slo

end Swift
