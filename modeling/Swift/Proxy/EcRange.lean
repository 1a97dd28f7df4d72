import Swift.Common.Range
import Swift.Data.Binary64

/-!
# Ranged GETs of erasure-coded objects

An EC object is stored as fragment archives: the body is cut into segments of
`ec_segment_size` bytes (the last one shorter), and every segment is encoded into one fragment of
`fragment_size` bytes in each archive. A client's byte range is served in three coordinate
systems (`ECObjectController._convert_range`):

* the client range itself, `first-last`, `first-` or the suffix `-last`;
* the segment range, widened to whole segments (`client_range_to_segment_range`); a suffix is
  widened by one extra segment, since the object's length is not known yet;
* the fragment range sent to the object servers (`segment_range_to_fragment_range`).

Once the object's length is known, `ECAppIter._fill_out_range_specs_from_obj_length` computes
what will actually be delivered, and `_iter_one_range` cuts the decoded segments down to the
client's bytes: it skips whole segments and trims the first one by the start overrun, and trims
the last one by the end overrun.

Two of these steps compute in floats: the suffix widening, `ceil(float(client_end) /
segment_size + 1)`, and the number of segments, `ceil(float(segment_end + 1 - segment_start) /
segment_size)`. They are modelled with `Binary64`, so `float(client_end)` raises for a suffix
of `2 ^ 1024` bytes or more (`convertRange_raises_on_long_suffix`).

The segments `_iter_one_range` is given are the decoding of the fragments the object servers
return, which is pyeclib's and `ECFragGetter`'s business: they are taken here to be the object's
segments from the one that starts at `resp_segment_start` to the one holding
`resp_segment_end`.
-/

namespace Swift

namespace Proxy

/-- The two sizes of an EC policy that ranged GETs use; both are positive, as
`ECStoragePolicy` checks for the segment size and pyeclib guarantees for the fragment size. -/
structure EcPolicy where
  ecSegmentSize : Nat
  fragmentSize : Nat
  ecSegmentSize_pos : 0 < ecSegmentSize
  fragmentSize_pos : 0 < fragmentSize

/-! ### Converting the client's ranges -/

/-- `client_range_to_segment_range(client_start, client_end, segment_size)`: the first byte of
the first segment and the last byte of the last one; `none` where `float(client_end)` raises
`OverflowError`. -/
def clientRangeToSegmentRange (clientStart clientEnd : Option Nat) (segmentSize : Nat) :
    Option (Option Nat × Option Nat) :=
  let segmentStart := clientStart.map fun s => s / segmentSize * segmentSize
  match clientEnd, clientStart with
  | none, _ => some (segmentStart, none)
  | some e, some _ => some (segmentStart, some ((e / segmentSize + 1) * segmentSize - 1))
  -- bytes -N: `int(math.ceil((float(client_end) / segment_size) + 1)) * segment_size`, a
  -- positive number of segments
  | some e, none => do
    let x ← Binary64.ofInt? e
    let y ← Binary64.ofInt? segmentSize
    let q ← Binary64.div? x y
    some (segmentStart, some (⌈Binary64.add q 1⌉.toNat * segmentSize))

/-- `segment_range_to_fragment_range(segment_start, segment_end, segment_size, fragment_size)`.
The `- 1` of a bounded range never goes below zero: its `segment_end + 1` is a positive multiple
of the segment size. -/
def segmentRangeToFragmentRange (segmentStart segmentEnd : Option Nat)
    (segmentSize fragmentSize : Nat) : Option Nat × Option Nat :=
  let fragmentStart := segmentStart.map fun s => s / segmentSize * fragmentSize
  let fragmentEnd :=
    match segmentEnd, segmentStart with
    | none, _ => none
    -- unbounded on the left: the last `N` bytes, so no `- 1`
    | some e, none => some ((e + 1) / segmentSize * fragmentSize)
    | some e, some _ => some ((e + 1) / segmentSize * fragmentSize - 1)
  (fragmentStart, fragmentEnd)

/-- One range spec of `_convert_range`, as it leaves it. -/
structure RangeSpec where
  reqClientStart : Option Nat
  reqClientEnd : Option Nat
  reqSegmentStart : Option Nat
  reqSegmentEnd : Option Nat
  reqFragmentStart : Option Nat
  reqFragmentEnd : Option Nat
  deriving DecidableEq, Repr

/-- `ECObjectController._convert_range(req, policy)` on the client's ranges; `none` where it
raises. The rewritten `Range` header it leaves on the request lists the specs' fragment
ranges. -/
def convertRange (policy : EcPolicy) (ranges : List (Option Nat × Option Nat)) :
    Option (List RangeSpec) :=
  ranges.mapM fun (clientStart, clientEnd) => do
    let (segmentStart, segmentEnd) ←
      clientRangeToSegmentRange clientStart clientEnd policy.ecSegmentSize
    let (fragmentStart, fragmentEnd) := segmentRangeToFragmentRange segmentStart segmentEnd
      policy.ecSegmentSize policy.fragmentSize
    pure ⟨clientStart, clientEnd, segmentStart, segmentEnd, fragmentStart, fragmentEnd⟩

/-- A suffix from `float`'s overflow bound on cannot be converted: `float(client_end)` raises. -/
theorem convertRange_suffix_of_overflow (policy : EcPolicy) {e : Nat}
    (he : Binary64.overflowBound ≤ e) : convertRange policy [(none, some e)] = none := by
  have hoverflow : Binary64.ofInt? (e : Int) = none := by
    rw [Binary64.ofInt?, if_neg (by rw [Int.natAbs_natCast]; omega)]
  simp [convertRange, clientRangeToSegmentRange, hoverflow]

/-- A suffix of `2 ^ 1024` bytes is a spec `swob.Range` accepts and, on a one-byte object,
selects the whole object; converting it raises, since `float(2 ** 1024)` overflows. -/
theorem convertRange_raises_on_long_suffix :
    Swob.Range.ofBounds? none (some (2 ^ 1024)) = some ⟨[(none, some (2 ^ 1024))]⟩ ∧
      Swob.Range.rangesForLength ⟨[(none, some (2 ^ 1024))]⟩ 1 = some [(0, 1)] ∧
      convertRange ⟨1, 1, Nat.one_pos, Nat.one_pos⟩ [(none, some (2 ^ 1024))] = none := by
  -- the suffix is only ever compared, never computed
  generalize hN : (2 : Nat) ^ 1024 = N
  have hbound : Binary64.overflowBound ≤ N := by
    rw [← hN, Binary64.overflowBound]
    exact Nat.sub_le _ _
  have hpos : 1 < N := by
    rw [← hN]
    apply Nat.one_lt_two_pow
    norm_num
  refine ⟨rfl, ?_, convertRange_suffix_of_overflow _ hbound⟩
  rw [Swob.Range.rangesForLength_singleton, Swob.Range.rangeForLength_suffix (by omega),
    Nat.sub_eq_zero_of_le hpos.le]
  rfl

/-! ### What is delivered -/

/-- `ECAppIter._actual_range(req_start, req_end, entity_length)`: the first and last byte that
will be delivered, and whether the range is satisfiable. -/
def actualRange (reqStart reqEnd : Option Nat) (entityLength : Nat) :
    Option Nat × Option Nat × Bool :=
  match Swob.Range.ofBounds? reqStart reqEnd with
  | none => (none, none, false)
  | some rng =>
    match rng.rangesForLength entityLength with
    | some ((first, stop) :: _) =>
      -- the last `N > 0` bytes of an empty object are nothing, and that is satisfiable
      if entityLength = 0 then (none, none, true) else (some first, some (stop - 1), true)
    | _ => (none, none, false)

/-! `_actual_range` on the three kinds of spec, for a range that overlaps the object. -/

theorem actualRange_bounded {b e objLength : Nat} (hbe : b ≤ e) (hb : b < objLength) :
    actualRange (some b) (some e) objLength = (some b, some (min (e + 1) objLength - 1), true) := by
  rw [actualRange, Swob.Range.ofBounds?, if_neg (by omega)]
  simp only [Swob.Range.rangesForLength_singleton, Swob.Range.rangeForLength, if_pos hb,
    Option.toList_some, if_neg (show objLength ≠ 0 by omega)]

theorem actualRange_from {b objLength : Nat} (hb : b < objLength) :
    actualRange (some b) none objLength = (some b, some (objLength - 1), true) := by
  simp only [actualRange, Swob.Range.ofBounds?, Swob.Range.rangesForLength_singleton,
    Swob.Range.rangeForLength, if_pos hb, Option.toList_some,
    if_neg (show objLength ≠ 0 by omega)]

theorem actualRange_suffix {e objLength : Nat} (he : e ≠ 0) (hlength : 0 < objLength) :
    actualRange none (some e) objLength = (some (objLength - e), some (objLength - 1), true) := by
  simp [actualRange, Swob.Range.ofBounds?, Swob.Range.rangesForLength_singleton,
    Swob.Range.rangeForLength_suffix he, show objLength ≠ 0 by omega]

/-- A range spec once `_fill_out_range_specs_from_obj_length` has added what will be delivered
of it. -/
structure FilledRangeSpec extends RangeSpec where
  respClientStart : Option Nat
  respClientEnd : Option Nat
  satisfiable : Bool
  respSegmentStart : Option Nat
  respSegmentEnd : Option Nat
  deriving DecidableEq, Repr

/-- The fields `_fill_out_range_specs_from_obj_length` adds to one spec. -/
def fillOutRangeSpec (policy : EcPolicy) (objLength : Nat) (spec : RangeSpec) : FilledRangeSpec :=
  let client := actualRange spec.reqClientStart spec.reqClientEnd objLength
  let segment := actualRange spec.reqSegmentStart spec.reqSegmentEnd objLength
  -- a suffix's segment start is rounded up, not down, to a segment boundary: the partial
  -- fragments before it are trimmed off what the object servers return
  let segmentStart :=
    match spec.reqSegmentStart, segment.1 with
    | none, some s =>
      if s % policy.ecSegmentSize ≠ 0 then some (s + (policy.ecSegmentSize - s % policy.ecSegmentSize))
      else some s
    | _, s => s
  { spec with
    respClientStart := client.1
    respClientEnd := client.2.1
    satisfiable := client.2.2
    respSegmentStart := segmentStart
    respSegmentEnd := segment.2.1 }

/-- `_fill_out_range_specs_from_obj_length(range_specs)`. -/
def fillOutRangeSpecsFromObjLength (policy : EcPolicy) (objLength : Nat)
    (rangeSpecs : List RangeSpec) : List FilledRangeSpec :=
  rangeSpecs.map (fillOutRangeSpec policy objLength)

/-! ### Trimming the decoded segments -/

section Trim

variable {α : Type}

/-- `s[:stop]` for an integer `stop`: from the end when it is negative. -/
def sliceTo (s : List α) (stop : Int) : List α :=
  if 0 ≤ stop then s.take stop.toNat else s.take (s.length - stop.natAbs)

/-- The end trim of `_iter_one_range`: `next_seg[:-end_overrun]` on the last segment. -/
def trimEnd (numSegments endOverrun : Int) (i : Nat) (nextSeg : List α) : List α :=
  if (i : Int) = numSegments - 1 ∧ endOverrun ≠ 0 then sliceTo nextSeg (-endOverrun) else nextSeg

/-- The loop of `_iter_one_range` over `enumerate(segment_iter)`, from index `i` with the start
overrun still to trim. -/
def trimSegments (numSegments endOverrun : Int) : Nat → Int → List (List α) → List (List α)
  | _, _, [] => []
  | i, startOverrun, nextSeg :: rest =>
    if 0 < startOverrun then
      -- a start overrun of more than one segment happens for suffix requests
      if (nextSeg.length : Int) ≤ startOverrun then
        trimSegments numSegments endOverrun (i + 1) (startOverrun - nextSeg.length) rest
      else
        trimEnd numSegments endOverrun i (nextSeg.drop startOverrun.toNat) ::
          trimSegments numSegments endOverrun (i + 1) 0 rest
    else trimEnd numSegments endOverrun i nextSeg ::
      trimSegments numSegments endOverrun (i + 1) startOverrun rest

/-- `min(end, self.obj_length - 1) if end is not None else self.obj_length - 1`: the client may
have asked for bytes past the end of the object. -/
def clampedEnd (stop : Option Nat) (objLength : Nat) : Int :=
  match stop with
  | some e => min (e : Int) (objLength - 1)
  | none => objLength - 1

theorem clampedEnd_of_lt {e objLength : Nat} (h : e < objLength) :
    clampedEnd (some e) objLength = e := by
  rw [clampedEnd]
  omega

/-- `ECAppIter._iter_one_range(range_spec, segment_iter)`: the pieces it yields; `none` where
it raises. -/
def iterOneRange (policy : EcPolicy) (objLength : Nat) (spec : FilledRangeSpec)
    (segments : List (List α)) : Option (List (List α)) :=
  let segmentEnd := clampedEnd spec.respSegmentEnd objLength
  let clientEnd := clampedEnd spec.respClientEnd objLength
  match spec.respSegmentStart with
  | none => some (trimSegments 0 0 0 0 segments)
  | some segmentStart => do
    let clientStart ← spec.respClientStart
    -- `int(math.ceil(float(segment_end + 1 - segment_start) / self.policy.ec_segment_size))`
    let d ← Binary64.ofInt? (segmentEnd + 1 - segmentStart)
    let s ← Binary64.ofInt? policy.ecSegmentSize
    let q ← Binary64.div? d s
    some (trimSegments ⌈q⌉ (segmentEnd - clientEnd) 0 ((clientStart : Int) - segmentStart)
      segments)

/-! The loop yields the concatenation of its segments less the start overrun and the end
overrun, when the end overrun lies inside the last segment and the loop is told the true number
of segments. A step either skips a whole segment, shortening the overrun, or yields one. -/

theorem trimSegments_skip {numSegments endOverrun : Int} {i so : Nat} {seg : List α}
    {rest : List (List α)} (hpos : 0 < so) (hle : seg.length ≤ so) :
    trimSegments numSegments endOverrun i so (seg :: rest) =
      trimSegments numSegments endOverrun (i + 1) (so - seg.length : Nat) rest := by
  rw [trimSegments, if_pos (by omega), if_pos (by omega)]
  congr 1
  omega

theorem trimSegments_yield {numSegments endOverrun : Int} {i so : Nat} {seg : List α}
    {rest : List (List α)} (hskip : ¬(0 < so ∧ seg.length ≤ so)) :
    trimSegments numSegments endOverrun i so (seg :: rest) =
      trimEnd numSegments endOverrun i (seg.drop so) ::
        trimSegments numSegments endOverrun (i + 1) 0 rest := by
  by_cases hso : so = 0
  · subst hso
    rw [trimSegments, if_neg (by omega), List.drop_zero]
    rfl
  · rw [trimSegments, if_pos (by omega), if_neg (by omega)]
    rfl

theorem trimEnd_of_ne {numSegments endOverrun : Int} {i : Nat} (h : (i : Int) ≠ numSegments - 1)
    (seg : List α) : trimEnd numSegments endOverrun i seg = seg := by
  rw [trimEnd, if_neg (fun h' => h h'.1)]

/-- On the last segment, the end trim keeps all but the last `e` bytes. -/
theorem trimEnd_last {numSegments : Int} {i e : Nat} (h : (i : Int) = numSegments - 1)
    (seg : List α) : trimEnd numSegments e i seg = seg.take (seg.length - e) := by
  rw [trimEnd]
  split
  next he =>
    rw [sliceTo, if_neg (by omega), Int.natAbs_neg, Int.natAbs_natCast]
  next he =>
    have he0 : e = 0 := by omega
    rw [he0, Nat.sub_zero, List.take_length]

/-- Dropping into the first of two lists and taking past its end. -/
theorem take_drop_append {l₁ l₂ : List α} {so : Nat} (hso : so ≤ l₁.length) (n : Nat) :
    ((l₁ ++ l₂).drop so).take (l₁.length + n - so) = l₁.drop so ++ l₂.take n := by
  rw [List.drop_append_of_le_length hso, List.take_append, List.length_drop,
    List.take_of_length_le (by rw [List.length_drop]; omega),
    show l₁.length + n - so - (l₁.length - so) = n by omega]

theorem flatten_trimSegments (segs : List (List α)) (i so e : Nat)
    (hlast : ∀ last ∈ segs.getLast?, e < last.length) (hso : so + e < segs.flatten.length) :
    (trimSegments ((i + segs.length : Nat) : Int) e i so segs).flatten =
      (segs.flatten.drop so).take (segs.flatten.length - so - e) := by
  induction segs generalizing i so with
  | nil => simp at hso
  | cons seg rest ih =>
    have hcount : i + (seg :: rest).length = i + 1 + rest.length := by
      rw [List.length_cons]
      omega
    rw [hcount, List.flatten_cons]
    rw [List.flatten_cons, List.length_append] at hso
    by_cases hskip : 0 < so ∧ seg.length ≤ so
    · -- the whole segment is overrun: the rest is read with a shorter overrun
      have hrest : rest ≠ [] := by
        rintro rfl
        simp at hso
        omega
      have hlast' : ∀ last ∈ rest.getLast?, e < last.length := by
        rwa [List.getLast?_cons_of_ne_nil hrest] at hlast
      rw [trimSegments_skip hskip.1 hskip.2, ih (i + 1) (so - seg.length) hlast' (by omega),
        List.drop_append, List.drop_eq_nil_of_le hskip.2, List.nil_append, List.length_append]
      congr 1
      omega
    · rw [trimSegments_yield hskip]
      cases rest with
      | nil =>
        -- the only segment left is the last: both overruns come off it
        simp only [List.flatten_nil, List.append_nil, List.length_nil, Nat.add_zero] at hso ⊢
        rw [trimEnd_last (by push_cast; omega), trimSegments, List.flatten_cons, List.flatten_nil,
          List.append_nil, List.length_drop]
      | cons next more =>
        -- the first segment is yielded whole after the start trim, the rest keeps the end trim
        have hlastEq := List.getLast?_eq_some_getLast (List.cons_ne_nil next more)
        generalize (next :: more).getLast (List.cons_ne_nil next more) = last at hlastEq
        have hlast' : ∀ l ∈ (next :: more).getLast?, e < l.length := by
          rwa [← List.getLast?_cons_cons (a := seg)]
        have he : e < last.length := hlast' last (by rw [hlastEq]; rfl)
        have hle : last.length ≤ (next :: more).flatten.length :=
          (List.sublist_flatten_of_mem (List.mem_of_getLast? hlastEq)).length_le
        have hso' : so ≤ seg.length := by omega
        have hrest := ih (i + 1) 0 hlast' (by omega)
        rw [Nat.cast_zero] at hrest
        rw [trimEnd_of_ne (by rw [List.length_cons]; push_cast; omega), List.flatten_cons,
          hrest, List.drop_zero, Nat.sub_zero, List.length_append,
          show seg.length + (next :: more).flatten.length - so - e =
            seg.length + ((next :: more).flatten.length - e) - so by omega,
          take_drop_append hso']

end Trim

/-! ### The decoded segments -/

section Segments

variable {α : Type}

/-- `count` of the object's segments from the one at index `first`: the `segmentSize` bytes from
`(first + j) * segmentSize` on, the last one of the object shorter. -/
def segmentsFrom (body : List α) (segmentSize first count : Nat) : List (List α) :=
  (List.range count).map fun j => (body.drop ((first + j) * segmentSize)).take segmentSize

theorem length_segmentsFrom (body : List α) (segmentSize first count : Nat) :
    (segmentsFrom body segmentSize first count).length = count := by
  simp [segmentsFrom]

/-- Consecutive segments are the bytes from the first one's start on. -/
theorem flatten_segmentsFrom (body : List α) (segmentSize first count : Nat) :
    (segmentsFrom body segmentSize first count).flatten =
      (body.drop (first * segmentSize)).take (count * segmentSize) := by
  induction count with
  | zero => simp [segmentsFrom]
  | succ count ih =>
    rw [segmentsFrom, List.range_succ, List.map_append, List.flatten_append, ← segmentsFrom, ih,
      Nat.succ_mul, List.take_add, List.drop_drop, ← Nat.add_mul]
    simp

theorem getLast?_segmentsFrom (body : List α) (segmentSize first count : Nat) :
    (segmentsFrom body segmentSize first (count + 1)).getLast? =
      some ((body.drop ((first + count) * segmentSize)).take segmentSize) := by
  rw [segmentsFrom, List.range_succ, List.map_append, List.getLast?_append]
  simp

/-- The bytes `first .. last` of a window of segments that starts at segment `a`. -/
theorem take_drop_segments (body : List α) {S a n cs ce : Nat} (hcs : a * S ≤ cs) (hce : cs ≤ ce)
    (hlen : ce + 1 - a * S ≤ n * S) :
    (((body.drop (a * S)).take (n * S)).drop (cs - a * S)).take (ce + 1 - cs) =
      (body.drop cs).take (ce + 1 - cs) := by
  rw [List.drop_take, List.take_take, List.drop_drop, Nat.add_sub_cancel' hcs]
  congr 1
  omega

end Segments

/-! ### Cutting a window of segments down to the client's bytes -/

section Window

variable {α : Type} {policy : EcPolicy} {body : List α} {f : FilledRangeSpec} {S a cs se ce : Nat}

/-- The number of segments `_iter_one_range` computes in floats for a window from segment `a`
to the byte `se` is the number of segments the window touches. -/
theorem numSegments_eq (hS : 0 < S) (hse53 : se + 1 < 2 ^ 53) (ha : a * S ≤ se) :
    ⌈Binary64.roundToDouble (((se + 1 - a * S : Nat) : ℚ) / S)⌉ = ((se / S + 1 - a : Nat) : Int) := by
  have hq := Nat.div_mul_le_self se S
  have hq' := Nat.lt_div_mul_add (a := se) hS
  have haq : a * S ≤ se / S * S :=
    Nat.mul_le_mul_right S ((Nat.le_div_iff_mul_le hS).mpr ha)
  -- the window holds `se / S + 1 - a` segments: more than that less one, at most that many
  have hlo : (se / S + 1 - a - 1) * S = se / S * S - a * S := by
    rw [show se / S + 1 - a - 1 = se / S - a by omega, Nat.sub_mul]
  have hhi : (se / S + 1 - a) * S = se / S * S + S - a * S := by
    rw [Nat.sub_mul, Nat.add_mul, Nat.one_mul]
  rw [Binary64.ceil_roundToDouble_div hS (by omega)]
  exact Binary64.ceil_div_eq_of_lt_of_le hS (by rw [hlo]; omega) (by rw [hhi]; omega)

theorem flatten_iterOneRange (hSdef : policy.ecSegmentSize = S) (hS53 : S < 2 ^ 53)
    (hL : body.length < 2 ^ 53) (hss : f.respSegmentStart = some (a * S))
    (hcs : f.respClientStart = some cs) (hse : clampedEnd f.respSegmentEnd body.length = se)
    (hce : clampedEnd f.respClientEnd body.length = ce) (hstart : a * S ≤ cs) (hcsce : cs ≤ ce)
    (hcese : ce ≤ se) (hseL : se < body.length) (hlastSeg : se / S * S ≤ ce)
    (hend : se + 1 = body.length ∨ se + 1 = (se / S + 1) * S) :
    (iterOneRange policy body.length f (segmentsFrom body S a (se / S + 1 - a))).map
        List.flatten = some ((body.drop cs).take (ce + 1 - cs)) := by
  have hS : 0 < S := hSdef ▸ policy.ecSegmentSize_pos
  have hSq : (S : ℚ) ≠ 0 := by exact_mod_cast hS.ne'
  have hd : (se : Int) + 1 - (a * S : Nat) = ((se + 1 - a * S : Nat) : Int) := by omega
  simp only [iterOneRange, hss, hcs, hse, hce, hSdef, Option.bind_eq_bind, Option.bind_some, hd]
  rw [Binary64.ofInt?_of_lt (by rw [Int.natAbs_natCast]; omega), Option.bind_some,
    Binary64.ofInt?_of_lt (by rw [Int.natAbs_natCast]; omega), Option.bind_some,
    Binary64.div?_of_ne_zero _ (by exact_mod_cast hSq), Option.bind_some, Int.cast_natCast,
    Int.cast_natCast, numSegments_eq hS (by omega) (by omega), Option.map_some]
  -- the window's arithmetic: it starts at `a * S`, holds `n` segments, ends at `se`
  have hq := Nat.div_mul_le_self se S
  have hq' := Nat.lt_div_mul_add (a := se) hS
  have ha : a ≤ se / S := (Nat.le_div_iff_mul_le hS).mpr (by omega)
  have haq : a * S ≤ se / S * S := Nat.mul_le_mul_right S ha
  have hnS : (se / S + 1 - a) * S = se / S * S + S - a * S := by
    rw [Nat.sub_mul, Nat.add_mul, Nat.one_mul]
  rw [Nat.add_mul, Nat.one_mul] at hend
  have hflat := flatten_segmentsFrom body S a (se / S + 1 - a)
  have hlength : (segmentsFrom body S a (se / S + 1 - a)).flatten.length = se + 1 - a * S := by
    rw [hflat, List.length_take, List.length_drop, hnS]
    omega
  -- the end overrun lies inside the last segment, the one at `se / S`
  have hlast : ∀ last ∈ (segmentsFrom body S a (se / S + 1 - a)).getLast?,
      se - ce < last.length := by
    rw [show se / S + 1 - a = se / S - a + 1 by omega, getLast?_segmentsFrom,
      show a + (se / S - a) = se / S by omega]
    intro last hmem
    rw [← Option.mem_some_iff.mp hmem, List.length_take, List.length_drop]
    omega
  rw [show (se : Int) - ce = ((se - ce : Nat) : Int) by omega,
    show (cs : Int) - (a * S : Nat) = ((cs - a * S : Nat) : Int) by omega,
    show ((se / S + 1 - a : Nat) : Int) = ((0 + (segmentsFrom body S a (se / S + 1 - a)).length : Nat) : Int) by
      rw [length_segmentsFrom, Nat.zero_add],
    flatten_trimSegments _ 0 (cs - a * S) (se - ce) hlast (by omega), hlength, hflat,
    show se + 1 - a * S - (cs - a * S) - (se - ce) = ce + 1 - cs by omega]
  exact congrArg some (take_drop_segments body hstart hcsce (by rw [hnS]; omega))

/-- The segments the fragments of a filled range spec decode to: from the one that starts at
`resp_segment_start` to the one that holds the last byte `_iter_one_range` keeps of the segment
range. -/
def decodedSegments (policy : EcPolicy) (body : List α) (f : FilledRangeSpec) : List (List α) :=
  let segmentStart := f.respSegmentStart.getD 0
  let segmentEnd := (clampedEnd f.respSegmentEnd body.length).toNat
  segmentsFrom body policy.ecSegmentSize (segmentStart / policy.ecSegmentSize)
    (segmentEnd / policy.ecSegmentSize + 1 - segmentStart / policy.ecSegmentSize)

/-- `_iter_one_range` on the decoded segments of a window that starts on a segment boundary
at or before the client's first byte, and ends at the object's end or a segment boundary, in
the segment that holds the client's last byte. -/
theorem flatten_iterOneRange_decoded (hSdef : policy.ecSegmentSize = S) (hS53 : S < 2 ^ 53)
    (hL : body.length < 2 ^ 53) (hss : f.respSegmentStart = some (a * S))
    (hcs : f.respClientStart = some cs) (hse : clampedEnd f.respSegmentEnd body.length = se)
    (hce : clampedEnd f.respClientEnd body.length = ce) (hstart : a * S ≤ cs) (hcsce : cs ≤ ce)
    (hcese : ce ≤ se) (hseL : se < body.length) (hlastSeg : se / S * S ≤ ce)
    (hend : se + 1 = body.length ∨ se + 1 = (se / S + 1) * S) :
    (iterOneRange policy body.length f (decodedSegments policy body f)).map List.flatten =
      some ((body.drop cs).take (ce + 1 - cs)) := by
  have hS : 0 < S := hSdef ▸ policy.ecSegmentSize_pos
  rw [decodedSegments, hss, hse, Option.getD_some, Int.toNat_natCast, hSdef,
    Nat.mul_div_cancel _ hS]
  exact flatten_iterOneRange hSdef hS53 hL hss hcs hse hce hstart hcsce hcese hseL hlastSeg hend

end Window


/-! ### Each kind of spec is delivered exactly -/

section Delivered

variable {α : Type} {policy : EcPolicy} {body : List α}

/-- A bounded range `first-last` that starts inside the object: the client gets the bytes from
`first` to `last` or to the end of the object. -/
theorem iterOneRange_bounded (hS53 : policy.ecSegmentSize < 2 ^ 53) (hL : body.length < 2 ^ 53)
    {first last : Nat} (hle : first ≤ last) (hfirst : first < body.length) :
    ∃ rs, convertRange policy [(some first, some last)] = some [rs] ∧
      (fillOutRangeSpec policy body.length rs).satisfiable = true ∧
      (fillOutRangeSpec policy body.length rs).respClientStart = some first ∧
      (fillOutRangeSpec policy body.length rs).respClientEnd =
        some (min (last + 1) body.length - 1) ∧
      (iterOneRange policy body.length (fillOutRangeSpec policy body.length rs)
          (decodedSegments policy body (fillOutRangeSpec policy body.length rs))).map
          List.flatten = some ((body.drop first).take (min (last + 1) body.length - first)) := by
  have hS := policy.ecSegmentSize_pos
  generalize hSdef : policy.ecSegmentSize = S at hS hS53
  -- the segment range: from the segment of `first` to the end of the segment of `last`
  have hq := Nat.div_mul_le_self first S
  have hq' := Nat.lt_div_mul_add (a := last) hS
  have hlastq := Nat.div_mul_le_self last S
  have hsegEnd : (last / S + 1) * S - 1 + 1 = last / S * S + S := by
    rw [Nat.add_mul, Nat.one_mul]
    omega
  have hclient := actualRange_bounded hle hfirst
  have hsegment := actualRange_bounded
    (show first / S * S ≤ (last / S + 1) * S - 1 by omega) (show first / S * S < body.length by omega)
  refine ⟨⟨some first, some last, some (first / S * S), some ((last / S + 1) * S - 1),
    (segmentRangeToFragmentRange (some (first / S * S)) (some ((last / S + 1) * S - 1)) S
      policy.fragmentSize).1,
    (segmentRangeToFragmentRange (some (first / S * S)) (some ((last / S + 1) * S - 1)) S
      policy.fragmentSize).2⟩, ?_, ?_⟩
  · simp [convertRange, clientRangeToSegmentRange, hSdef]
  simp only [fillOutRangeSpec, hclient, hsegment, hsegEnd, true_and]
  -- the window ends at the end of the segment of `last`, or at the end of the object
  have hseg : (min (last / S * S + S) body.length - 1) / S * S ≤ min (last + 1) body.length - 1 ∧
      (min (last / S * S + S) body.length - 1 + 1 = body.length ∨
        min (last / S * S + S) body.length - 1 + 1 =
          ((min (last / S * S + S) body.length - 1) / S + 1) * S) := by
    by_cases hfits : last / S * S + S ≤ body.length
    · have hdiv : (last / S * S + S - 1) / S = last / S :=
        Nat.div_eq_of_lt_le (by omega) (by rw [Nat.add_mul, Nat.one_mul]; omega)
      rw [min_eq_left hfits, hdiv, Nat.add_mul, Nat.one_mul]
      omega
    · have hdiv : (body.length - 1) / S ≤ last / S :=
        Nat.lt_succ_iff.mp ((Nat.div_lt_iff_lt_mul hS).mpr (by rw [Nat.succ_mul]; omega))
      have hmul := Nat.mul_le_mul_right S hdiv
      have hself := Nat.div_mul_le_self (body.length - 1) S
      rw [min_eq_right (by omega)]
      omega
  rw [flatten_iterOneRange_decoded hSdef hS53 hL rfl rfl (clampedEnd_of_lt (by omega))
    (clampedEnd_of_lt (by omega)) hq (by omega) (by omega) (by omega) hseg.1 hseg.2]
  congr 3
  omega

/-- An open range `first-` that starts inside the object: the client gets the bytes from
`first` to the end. -/
theorem iterOneRange_from (hS53 : policy.ecSegmentSize < 2 ^ 53) (hL : body.length < 2 ^ 53)
    {first : Nat} (hfirst : first < body.length) :
    ∃ rs, convertRange policy [(some first, none)] = some [rs] ∧
      (fillOutRangeSpec policy body.length rs).satisfiable = true ∧
      (fillOutRangeSpec policy body.length rs).respClientStart = some first ∧
      (fillOutRangeSpec policy body.length rs).respClientEnd = some (body.length - 1) ∧
      (iterOneRange policy body.length (fillOutRangeSpec policy body.length rs)
          (decodedSegments policy body (fillOutRangeSpec policy body.length rs))).map
          List.flatten = some ((body.drop first).take (body.length - first)) := by
  have hS := policy.ecSegmentSize_pos
  generalize hSdef : policy.ecSegmentSize = S at hS hS53
  have hq := Nat.div_mul_le_self first S
  have hclient := actualRange_from hfirst
  have hsegment := actualRange_from (show first / S * S < body.length by omega)
  refine ⟨⟨some first, none, some (first / S * S), none,
    (segmentRangeToFragmentRange (some (first / S * S)) none S policy.fragmentSize).1, none⟩,
    ?_, ?_⟩
  · simp [convertRange, clientRangeToSegmentRange, segmentRangeToFragmentRange, hSdef]
  simp only [fillOutRangeSpec, hclient, hsegment, true_and]
  rw [flatten_iterOneRange_decoded hSdef hS53 hL rfl rfl (clampedEnd_of_lt (by omega))
    (clampedEnd_of_lt (by omega)) hq (by omega) le_rfl (by omega)
    (Nat.div_mul_le_self _ _) (.inl (by omega))]
  congr 3
  omega

/-- The number of segments a suffix is widened to, `ceil(float(n) / S + 1)`, is the number of
segments that hold `n` bytes, plus one. -/
theorem ceil_suffixSegments {n S : Nat} (hS : 0 < S) (hn : 0 < n) (hn51 : n < 2 ^ 51)
    (hS51 : S < 2 ^ 51) :
    ⌈Binary64.add (Binary64.roundToDouble ((n : ℚ) / S)) 1⌉ = (((n + S - 1) / S + 1 : Nat) : Int) := by
  have hm := Nat.div_mul_le_self (n + S - 1) S
  have hm' := Nat.lt_div_mul_add (a := n + S - 1) hS
  have hceil : ⌈(n : ℚ) / S⌉ = (((n + S - 1) / S : Nat) : Int) :=
    Binary64.ceil_div_eq_of_lt_of_le hS (by rw [Nat.sub_mul, Nat.one_mul]; omega) (by omega)
  rw [Binary64.add, Binary64.ceil_roundToDouble_div_add_one hS hn51 hS51, hceil]
  push_cast
  ring

/-- `sstart += seg_size - (sstart % seg_size)` when `sstart` is off a boundary: rounding up to a
multiple of the segment size. -/
theorem roundUp_eq {s S : Nat} (hS : 0 < S) :
    (if s % S ≠ 0 then s + (S - s % S) else s) = (s + S - 1) / S * S := by
  have hdiv := Nat.div_add_mod s S
  have hmod := Nat.mod_lt s hS
  split
  next hoff =>
    have hup : (s + S - 1) / S = s / S + 1 :=
      Nat.div_eq_of_lt_le (by rw [Nat.add_mul, Nat.one_mul, Nat.mul_comm]; omega)
        (by rw [Nat.add_mul, Nat.add_mul, Nat.one_mul, Nat.mul_comm]; omega)
    rw [hup, Nat.add_mul, Nat.one_mul, Nat.mul_comm]
    omega
  next hon =>
    have hup : (s + S - 1) / S = s / S :=
      Nat.div_eq_of_lt_le (by rw [Nat.mul_comm]; omega)
        (by rw [Nat.add_mul, Nat.one_mul, Nat.mul_comm]; omega)
    rw [hup, Nat.mul_comm]
    omega

/-- A suffix `-n` of a non-empty object: the client gets its last `n` bytes, or all of it. -/
theorem iterOneRange_suffix (hS51 : policy.ecSegmentSize < 2 ^ 51) (hL : body.length < 2 ^ 53)
    (hbody : 0 < body.length) {n : Nat} (hn : 0 < n) (hn51 : n < 2 ^ 51) :
    ∃ rs, convertRange policy [(none, some n)] = some [rs] ∧
      (fillOutRangeSpec policy body.length rs).satisfiable = true ∧
      (fillOutRangeSpec policy body.length rs).respClientStart = some (body.length - n) ∧
      (fillOutRangeSpec policy body.length rs).respClientEnd = some (body.length - 1) ∧
      (iterOneRange policy body.length (fillOutRangeSpec policy body.length rs)
          (decodedSegments policy body (fillOutRangeSpec policy body.length rs))).map
          List.flatten =
        some ((body.drop (body.length - n)).take (body.length - (body.length - n))) := by
  have hS := policy.ecSegmentSize_pos
  generalize hSdef : policy.ecSegmentSize = S at hS hS51
  have hSq : (S : ℚ) ≠ 0 := by exact_mod_cast hS.ne'
  -- the suffix is widened to `m + 1` segments, `m` the segments that hold `n` bytes
  have hm := Nat.div_mul_le_self (n + S - 1) S
  have hm' := Nat.lt_div_mul_add (a := n + S - 1) hS
  generalize hmdef : (n + S - 1) / S = m at hm hm'
  have hmul : (m + 1) * S = m * S + S := by rw [Nat.add_mul, Nat.one_mul]
  have hconv : clientRangeToSegmentRange none (some n) S = some (none, some ((m + 1) * S)) := by
    simp only [clientRangeToSegmentRange, Option.map_none, Option.bind_eq_bind]
    rw [Binary64.ofInt?_of_lt (by rw [Int.natAbs_natCast]; omega), Option.bind_some,
      Binary64.ofInt?_of_lt (by rw [Int.natAbs_natCast]; omega), Option.bind_some,
      Binary64.div?_of_ne_zero _ (by exact_mod_cast hSq), Option.bind_some, Int.cast_natCast,
      Int.cast_natCast, ceil_suffixSegments hS hn hn51 hS51, hmdef, Int.toNat_natCast]
  have hclient := actualRange_suffix (Nat.pos_iff_ne_zero.mp hn) hbody
  have hsegment := actualRange_suffix (e := (m + 1) * S) (by rw [hmul]; omega) hbody
  refine ⟨⟨none, some n, none, some ((m + 1) * S), none,
    (segmentRangeToFragmentRange none (some ((m + 1) * S)) S policy.fragmentSize).2⟩, ?_, ?_⟩
  · simp [convertRange, hSdef, hconv, segmentRangeToFragmentRange]
  simp only [fillOutRangeSpec, hclient, hsegment, true_and, hSdef]
  generalize hs0 : body.length - (m + 1) * S = s0
  have hss : (if s0 % S ≠ 0 then some (s0 + (S - s0 % S)) else some s0) =
      some ((s0 + S - 1) / S * S) := by
    rw [← roundUp_eq hS]
    split <;> rfl
  -- the segment start, rounded up, is still at or before the client's first byte
  have hstart : (s0 + S - 1) / S * S ≤ body.length - n := by
    rcases Nat.lt_or_ge body.length ((m + 1) * S) with hshort | hlong
    · rw [← hs0, Nat.sub_eq_zero_of_le hshort.le, Nat.zero_add, Nat.div_eq_of_lt (by omega),
        Nat.zero_mul]
      exact Nat.zero_le _
    · have hup := Nat.div_mul_le_self (s0 + S - 1) S
      omega
  rw [flatten_iterOneRange_decoded hSdef (by omega) hL hss rfl (clampedEnd_of_lt (by omega))
    (clampedEnd_of_lt (by omega)) hstart (by omega) le_rfl (by omega)
    (Nat.div_mul_le_self _ _) (.inl (by omega))]
  rw [Nat.sub_add_cancel hbody]

/-- A GET of one range spec from a non-empty EC object delivers exactly the bytes
`swob.Range.ranges_for_length` selects for the spec, whichever of the three kinds it is: the
segment widening, the fragment request and the trimming of `_iter_one_range` cancel out. -/
theorem iterOneRange_delivers_rangeForLength (hS51 : policy.ecSegmentSize < 2 ^ 51)
    (hL : body.length < 2 ^ 53) (hbody : 0 < body.length) {start stop : Option Nat}
    {rng : Swob.Range} (hrange : Swob.Range.ofBounds? start stop = some rng)
    (hsuffix : ∀ n, start = none → stop = some n → n < 2 ^ 51) {a b : Nat}
    (hsel : Swob.Range.rangeForLength body.length (start, stop) = some (a, b)) :
    ∃ rs, convertRange policy [(start, stop)] = some [rs] ∧
      (fillOutRangeSpec policy body.length rs).satisfiable = true ∧
      (fillOutRangeSpec policy body.length rs).respClientStart = some a ∧
      (fillOutRangeSpec policy body.length rs).respClientEnd = some (b - 1) ∧
      (iterOneRange policy body.length (fillOutRangeSpec policy body.length rs)
          (decodedSegments policy body (fillOutRangeSpec policy body.length rs))).map
          List.flatten = some ((body.drop a).take (b - a)) := by
  have hS53 : policy.ecSegmentSize < 2 ^ 53 := lt_trans hS51 (by decide)
  rcases Swob.Range.rangeForLength_eq_some hsel with
    ⟨first, rfl, hfirst, hab⟩ | ⟨n, rfl, rfl, hn, hab⟩
  · obtain ⟨rfl, rfl⟩ := Prod.mk.inj hab.symm
    cases stop with
    | none => exact iterOneRange_from hS53 hL hfirst
    | some last =>
      -- `Range.__init__` refused an end before the start
      have hle : first ≤ last := by
        by_contra hlt
        simp [Swob.Range.ofBounds?, show last < first by omega] at hrange
      exact iterOneRange_bounded hS53 hL hle hfirst
  · -- a suffix `-n`: the last `n` bytes, or the whole of a shorter body
    obtain ⟨rfl, rfl⟩ := Prod.mk.inj hab.symm
    exact iterOneRange_suffix hS51 hL hbody (Nat.pos_of_ne_zero hn) (hsuffix n rfl rfl)

end Delivered

/-- Segments of four bytes, encoded into fragments of two. -/
def fourByteSegments : EcPolicy := ⟨4, 2, Nat.succ_pos 3, Nat.succ_pos 1⟩

/-- `bytes=3-6` of a ten-byte object spans the segments `0-3` and `4-7`. -/
theorem iterOneRange_delivers_rangeForLength_threeToSix :
    fourByteSegments.ecSegmentSize < 2 ^ 51 ∧ (List.range 10).length < 2 ^ 53 ∧
    0 < (List.range 10).length ∧
    Swob.Range.ofBounds? (some 3) (some 6) = some ⟨[(some 3, some 6)]⟩ ∧
    (∀ n, (some 3 : Option Nat) = none → some 6 = some n → n < 2 ^ 51) ∧
    Swob.Range.rangeForLength (List.range 10).length (some 3, some 6) = some (3, 7) ∧
    ∃ rs, convertRange fourByteSegments [(some 3, some 6)] = some [rs] ∧
      (fillOutRangeSpec fourByteSegments (List.range 10).length rs).satisfiable = true ∧
      (fillOutRangeSpec fourByteSegments (List.range 10).length rs).respClientStart = some 3 ∧
      (fillOutRangeSpec fourByteSegments (List.range 10).length rs).respClientEnd =
        some (7 - 1) ∧
      (iterOneRange fourByteSegments (List.range 10).length
          (fillOutRangeSpec fourByteSegments (List.range 10).length rs)
          (decodedSegments fourByteSegments (List.range 10)
            (fillOutRangeSpec fourByteSegments (List.range 10).length rs))).map
          List.flatten = some (((List.range 10).drop 3).take (7 - 3)) :=
  ⟨by decide, by decide, by decide, rfl, fun _ h => (Option.some_ne_none 3 h).elim, rfl,
    iterOneRange_delivers_rangeForLength (by decide) (by decide) (by decide) rfl
      (fun _ h => (Option.some_ne_none 3 h).elim) rfl⟩

end Proxy

end Swift
