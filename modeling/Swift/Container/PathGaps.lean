import Swift.Container.FindPaths
import Swift.Common.FindNamespace
import Swift.Data.PySort
import Swift.Data.Text

/-!
# `find_paths_with_gaps`: the namespace no path covers

`find_paths_with_gaps` looks for the parts of the namespace that the paths of `find_paths` leave
uncovered. It adds two null paths, each covering no namespace, one at `MIN` and one at `MAX`, and
walks from `MIN`. At each start, `_find_discontinuity` takes the path from the start that reaches
furthest, and among the paths that reach further still, the one that begins nearest the start of
the namespace (the longest of those). When that path begins at or beyond the first one's end,
the namespace between the two is a gap. Either way the walk moves to where it begins.

The start only moves forward, and strictly: a path that begins before the start ends no later
than some path from the start (`GapsInv.reach`). Each pass therefore leaves one path fewer that
begins beyond the start, and the loop ends. Up to the start, the namespace is covered by the gaps
found and the ranges on the paths (`GapsInv.covered`). A gap is chosen so that every path
reaching past its lower bound begins at or after its upper bound (`GapOk.beyond`). Every range
that is not `SHRINKING` lies on a path of `find_paths`, so none overlaps a gap.

## Main results

* `findDiscontinuity_cases` — what `_find_discontinuity` returns
* `GapsInv.gapsLoop_succ` — one pass of the loop keeps its invariant, or ends it
* `gapsLoop_isSome`, `gapsLoop_eq_some` — the loop returns, and what it returns
* `findPathsWithGaps_reports_gaps` — on ranges whose lower bounds are below their upper bounds,
  the gaps within the entire namespace are not empty, do not overlap one another or any range
  that is not `SHRINKING`, and with those ranges cover the whole namespace
-/

namespace Swift

namespace Sharder

/-- `ShardRange.FOUND`, the state of a new shard range. -/
def found : Nat := 10

namespace ShardRangeList

/-- `ShardRangeList.lower`: the lower bound of the first range, `MIN` for an empty list. -/
def lower : List ShardRange → Bound
  | [] => .minBound
  | r :: _ => r.lower

/-- `ShardRangeList.upper`: the upper bound of the last range, `MIN` for an empty list. -/
def upper (path : List ShardRange) : Bound :=
  match path.getLast? with
  | none => .minBound
  | some r => r.upper

end ShardRangeList

open ShardRangeList PySort

/-- `_find_discontinuity(paths, start)`: the path from `start` that reaches furthest, and, if
some path reaches further, the one of those that begins first, the longest of them. -/
def findDiscontinuity (paths : List (List ShardRange)) (start : Bound) :
    Except String (List ShardRange × Option (List ShardRange)) :=
  match (sortByKey upper (paths.filter fun path => lower path = start)).getLast? with
  | none => .error "list index out of range"
  | some longestStartPath =>
    match sortByKey lower (paths.filter fun path => upper longestStartPath < upper path) with
    | [] => .ok (longestStartPath, none)
    | first :: rest =>
      match (sortByKey upper
          ((first :: rest).filter fun path => lower path = lower first)).getLast? with
      | none => .error "list index out of range"
      | some longestEndPath => .ok (longestStartPath, some longestEndPath)

/-- `ShardRange('gap/index_%06d' % index, timestamp, lower=lower, upper=upper)`, in the default
state `FOUND`; the setters accept the bounds, which are in order. -/
def gapRange (index : Nat) (lower upper : Bound) (h : lower ≤ upper) : ShardRange :=
  ⟨⟨"gap/index_" ++ String.ofList (Text.zeroPad 6 (Nat.toDigits 10 index)), lower, upper, h⟩,
    found⟩

/-- A gap with the paths leading to it and from it: `(start_path, gap_range, end_path)`. -/
abbrev PathGap := List ShardRange × ShardRange × List ShardRange

/-- The `while True` loop of `find_paths_with_gaps` from `start`, with the gaps found so far;
`none` when the fuel runs out. -/
def gapsLoop (paths : List (List ShardRange)) (withinRange : Namespace) :
    Nat → Bound → List PathGap → Option (Except String (List PathGap))
  | 0, _, _ => none
  | fuel + 1, start, pathsWithGaps =>
    match findDiscontinuity paths start with
    | .error err => some (.error err)
    -- end of namespace reached
    | .ok (_, none) => some (.ok pathsWithGaps)
    | .ok (startPath, some endPath) =>
      if h : lower endPath < upper startPath then
        -- overlap
        gapsLoop paths withinRange fuel (lower endPath) pathsWithGaps
      else
        let gap := gapRange pathsWithGaps.length (upper startPath) (lower endPath) (not_lt.mp h)
        gapsLoop paths withinRange fuel (lower endPath)
          (if gap.toNamespace.overlaps withinRange then
            pathsWithGaps ++ [(startPath, gap, endPath)]
          else pathsWithGaps)

/-- `null_start`: a range covering no namespace, at `MIN`. -/
def nullStart : ShardRange := ⟨⟨"null/start", .minBound, .minBound, le_rfl⟩, found⟩

/-- `null_end`: a range covering no namespace, at `MAX`. -/
def nullEnd : ShardRange := ⟨⟨"null/end", .maxBound, .maxBound, le_rfl⟩, found⟩

/-- `ShardRange('entire/namespace', timestamp)`, the default `within_range`. -/
def entireNamespace : Namespace :=
  ⟨"entire/namespace", .minBound, .maxBound, Bound.minBound_le _⟩

/-- The paths of `find_paths`, as lists of ranges, extended with the null paths. -/
def withNullPaths (paths : List (List Edge)) : List (List ShardRange) :=
  paths.map (·.map Prod.fst) ++ [[nullStart], [nullEnd]]

/-- `find_paths_with_gaps(shard_ranges, within_range)`. The fuel bounds each walk of
`find_paths` and the loop here. -/
def findPathsWithGaps (shardRanges : List ShardRange) (withinRange : Option Namespace)
    (fuel : Nat) : Option (Except String (List PathGap)) :=
  (findPaths shardRanges fuel).bind fun paths =>
    gapsLoop (withNullPaths paths) (withinRange.getD entireNamespace) fuel nullStart.lower []

/-! ### The namespace a path spans -/

section Spans

variable {path : List ShardRange}

theorem upper_cons (r : ShardRange) (rest : List ShardRange) :
    upper (r :: rest) = ((r :: rest).getLast (List.cons_ne_nil _ _)).upper := by
  rw [upper, List.getLast?_eq_some_getLast (List.cons_ne_nil _ _)]

theorem le_lower_of_mem (h : Tiling.Tiles (path.map fun r => r.bounds)) {r : ShardRange}
    (hr : r ∈ path) : lower path ≤ r.lower := by
  cases path with
  | nil => cases hr
  | cons first rest =>
    have hmem : r.bounds ∈ (first :: rest).map fun r : ShardRange => r.bounds :=
      List.mem_map_of_mem hr
    exact h.fst_le_of_mem hmem

theorem upper_le_of_mem (h : Tiling.Tiles (path.map fun r => r.bounds)) {r : ShardRange}
    (hr : r ∈ path) : r.upper ≤ upper path := by
  cases path with
  | nil => cases hr
  | cons first rest =>
    have hle := h.snd_le_getLast (by simp) (List.mem_map_of_mem hr)
    rw [List.getLast_map] at hle
    rw [upper_cons]
    exact hle

theorem lower_le_upper_of_tiles (h : Tiling.Tiles (path.map fun r => r.bounds)) :
    lower path ≤ upper path := by
  cases path with
  | nil => exact le_rfl
  | cons first rest => exact first.lower_le_upper.trans (upper_le_of_mem h List.mem_cons_self)

/-- A path covers what it spans with its own ranges. -/
theorem exists_mem_of_tiles (h : Tiling.Tiles (path.map fun r => r.bounds)) {x : Bound}
    (hx : x ∈ Set.Ioc (lower path) (upper path)) : ∃ r ∈ path, x ∈ Set.Ioc r.lower r.upper := by
  cases path with
  | nil => exact absurd (hx.1.trans_le hx.2) (lt_irrefl _)
  | cons first rest =>
    have hhi : x ≤ (((first :: rest).map fun r : ShardRange => r.bounds).getLast (by simp)).2 := by
      rw [List.getLast_map]
      rw [upper_cons] at hx
      exact hx.2
    obtain ⟨b, hb, hxb⟩ := h.exists_mem_Ioc hx.1 hhi
    have hb' : b ∈ (first :: rest).map fun r : ShardRange => r.bounds := hb
    obtain ⟨r, hr, rfl⟩ := List.mem_map.mp hb'
    exact ⟨r, hr, hxb⟩

theorem tiles_singleton (r : ShardRange) : Tiling.Tiles ([r].map fun r => r.bounds) := by
  refine ⟨fun iv hiv => ?_, List.isChain_singleton _⟩
  rw [List.map_singleton, List.mem_singleton] at hiv
  rw [hiv]
  exact r.lower_le_upper

/-- A path of `find_paths` tiles the namespace it spans. -/
theorem tiles_of_pathOf {edges c : List Edge} (h : PathOf edges c) :
    Tiling.Tiles ((c.map Prod.fst).map fun r => r.bounds) := by
  refine ⟨fun iv hiv => ?_, ?_⟩
  · obtain ⟨r, -, rfl⟩ := List.mem_map.mp hiv
    exact r.lower_le_upper
  · rw [List.map_map, List.isChain_map]
    exact h.2.imp fun _ _ hab => hab.symm

end Spans

/-! ### `_find_discontinuity` -/

/-- What `_find_discontinuity` chose at `start`: `startPath`, from `start` and reaching furthest,
and `endPath`, reaching beyond it and beginning first. -/
structure Discontinuity (paths : List (List ShardRange)) (start : Bound)
    (startPath endPath : List ShardRange) : Prop where
  startPath_mem : startPath ∈ paths
  startPath_lower : lower startPath = start
  furthest : ∀ path ∈ paths, lower path = start → upper path ≤ upper startPath
  endPath_mem : endPath ∈ paths
  beyond : upper startPath < upper endPath
  first : ∀ path ∈ paths, upper startPath < upper path → lower endPath ≤ lower path

/-- When a path begins at `start`, `_find_discontinuity` returns: either no path reaches beyond
the furthest path from `start`, or it returns that path and the first path beyond it. -/
theorem findDiscontinuity_cases {paths : List (List ShardRange)} {start : Bound}
    (hstart : ∃ path ∈ paths, lower path = start) :
    (∃ startPath ∈ paths, lower startPath = start ∧
        findDiscontinuity paths start = .ok (startPath, none) ∧
        ∀ path ∈ paths, upper path ≤ upper startPath) ∨
      ∃ startPath endPath, findDiscontinuity paths start = .ok (startPath, some endPath) ∧
        Discontinuity paths start startPath endPath := by
  obtain ⟨path₀, hpath₀, hlow₀⟩ := hstart
  -- `start_paths[-1]`: the start paths hold `path₀`
  have hne : (paths.filter fun path => lower path = start) ≠ [] :=
    List.ne_nil_of_mem (List.mem_filter.mpr ⟨hpath₀, by simpa using hlow₀⟩)
  obtain ⟨startPath, hsp⟩ : ∃ startPath,
      (sortByKey upper (paths.filter fun path => lower path = start)).getLast? = some startPath :=
    Option.isSome_iff_exists.mp (List.getLast?_isSome.mpr (sortByKey_ne_nil hne))
  obtain ⟨hspmem, hspmax⟩ := le_of_getLast?_sortByKey hsp
  obtain ⟨hsp_in, hsp_low⟩ := List.mem_filter.mp hspmem
  have hfurthest : ∀ path ∈ paths, lower path = start → upper path ≤ upper startPath :=
    fun path hpath hlow => hspmax path (List.mem_filter.mpr ⟨hpath, by simpa using hlow⟩)
  cases hend : sortByKey lower (paths.filter fun path => upper startPath < upper path) with
  | nil =>
    -- no path reaches beyond the start path
    refine .inl ⟨startPath, hsp_in, by simpa using hsp_low, by simp only [findDiscontinuity, hsp, hend],
      fun path hpath => not_lt.mp fun hlt => ?_⟩
    have hmem : path ∈ sortByKey lower (paths.filter fun path => upper startPath < upper path) :=
      mem_sortByKey.mpr (List.mem_filter.mpr ⟨hpath, by simpa using hlt⟩)
    rw [hend] at hmem
    cases hmem
  | cons first rest =>
    obtain ⟨-, hfirst_min⟩ := le_of_sortByKey_eq_cons hend
    -- `end_paths[-1]`: the end paths beginning where the first begins hold the first
    have hne' : ((first :: rest).filter fun path => lower path = lower first) ≠ [] :=
      List.ne_nil_of_mem (List.mem_filter.mpr ⟨List.mem_cons_self, by simp⟩)
    obtain ⟨endPath, hep⟩ : ∃ endPath, (sortByKey upper
        ((first :: rest).filter fun path => lower path = lower first)).getLast? = some endPath :=
      Option.isSome_iff_exists.mp (List.getLast?_isSome.mpr (sortByKey_ne_nil hne'))
    obtain ⟨hepmem, -⟩ := le_of_getLast?_sortByKey hep
    obtain ⟨hep_in, hep_low⟩ := List.mem_filter.mp hepmem
    have hep_end : endPath ∈ paths.filter fun path => upper startPath < upper path :=
      mem_sortByKey.mp (hend ▸ hep_in)
    obtain ⟨hep_paths, hep_up⟩ := List.mem_filter.mp hep_end
    have hep_first : lower endPath = lower first := by simpa using hep_low
    refine .inr ⟨startPath, endPath, by simp only [findDiscontinuity, hsp, hend, hep],
      ⟨hsp_in, by simpa using hsp_low, hfurthest, hep_paths, by simpa using hep_up,
        fun path hpath hup => ?_⟩⟩
    rw [hep_first]
    exact hfirst_min path (List.mem_filter.mpr ⟨hpath, by simpa using hup⟩)

/-- Past the discontinuity, a path that begins before the end path ends no later than it. -/
theorem Discontinuity.reach {paths : List (List ShardRange)} {start : Bound}
    {startPath endPath : List ShardRange} (hd : Discontinuity paths start startPath endPath) :
    ∀ path ∈ paths, lower path < lower endPath →
      ∃ path' ∈ paths, lower path' = lower endPath ∧ upper path ≤ upper path' := by
  intro path hpath hlt
  refine ⟨endPath, hd.endPath_mem, rfl, not_lt.mp fun hgt => ?_⟩
  -- a path reaching beyond the end path reaches beyond the start path, so begins no earlier
  exact absurd (hd.first path hpath (hd.beyond.trans hgt)) (not_le.mpr hlt)

/-! ### The loop -/

/-- `x` lies in a gap found, or in a range of a path. -/
def Covered (paths : List (List ShardRange)) (gaps : List PathGap) (x : Bound) : Prop :=
  (∃ g ∈ gaps, x ∈ Set.Ioc g.2.1.lower g.2.1.upper) ∨
    ∃ path ∈ paths, ∃ r ∈ path, x ∈ Set.Ioc r.lower r.upper

theorem Covered.append {paths : List (List ShardRange)} {gaps : List PathGap} {x : Bound}
    (h : Covered paths gaps x) (more : List PathGap) : Covered paths (gaps ++ more) x := by
  rcases h with ⟨g, hg, hx⟩ | h
  · exact .inl ⟨g, List.mem_append_left _ hg, hx⟩
  · exact .inr h

/-- A gap the loop reports: it is not empty, its start path ends at its lower bound and its end
path begins at its upper bound, and every path reaching past its lower bound begins at or after
its upper bound. -/
structure GapOk (paths : List (List ShardRange)) (g : PathGap) : Prop where
  nonempty : g.2.1.lower < g.2.1.upper
  startPath_upper : upper g.1 = g.2.1.lower
  endPath_lower : lower g.2.2 = g.2.1.upper
  beyond : ∀ path ∈ paths, g.2.1.lower < upper path → g.2.1.upper ≤ lower path

/-- The invariant of the loop at `start`, with the gaps found so far. -/
structure GapsInv (paths : List (List ShardRange)) (within : Namespace) (start : Bound)
    (gaps : List PathGap) : Prop where
  start_mem : ∃ path ∈ paths, lower path = start
  /-- A path that begins before the start ends no later than some path from the start. -/
  reach : ∀ path ∈ paths, lower path < start →
    ∃ path' ∈ paths, lower path' = start ∧ upper path ≤ upper path'
  covered : ∀ x ∈ Set.Ioc Bound.minBound start, x ∈ Set.Ioc within.lower within.upper →
    Covered paths gaps x
  gap_ok : ∀ g ∈ gaps, GapOk paths g
  le_start : ∀ g ∈ gaps, g.2.1.upper ≤ start
  sorted : gaps.Pairwise fun g g' => g.2.1.upper ≤ g'.2.1.lower

/-- What the loop returns: gaps as `GapOk` says, in order, covering with the paths' ranges what
`within` holds. -/
structure GapsDone (paths : List (List ShardRange)) (within : Namespace) (gaps : List PathGap) :
    Prop where
  gap_ok : ∀ g ∈ gaps, GapOk paths g
  sorted : gaps.Pairwise fun g g' => g.2.1.upper ≤ g'.2.1.lower
  covered : ∀ x, Bound.minBound < x → x ∈ Set.Ioc within.lower within.upper →
    Covered paths gaps x

section Loop

variable {paths : List (List ShardRange)} {within : Namespace} {start : Bound}
  {gaps : List PathGap} {startPath endPath : List ShardRange}

theorem gapsInv_init (hnull : [nullStart] ∈ paths) : GapsInv paths within .minBound [] where
  start_mem := ⟨[nullStart], hnull, rfl⟩
  reach _ _ hlt := absurd hlt (not_lt.mpr (Bound.minBound_le _))
  covered _ hx := absurd (hx.1.trans_le hx.2) (lt_irrefl _)
  gap_ok _ hg := by cases hg
  le_start _ hg := by cases hg
  sorted := List.Pairwise.nil

/-- The walk moves forward: the end path begins beyond the start. -/
theorem GapsInv.lt_lower (hinv : GapsInv paths within start gaps)
    (hd : Discontinuity paths start startPath endPath) : start < lower endPath := by
  rcases lt_trichotomy (lower endPath) start with hlt | heq | hgt
  · -- a path from before the start ends no later than some path from the start
    obtain ⟨path', hpath', hlow', hup'⟩ := hinv.reach endPath hd.endPath_mem hlt
    exact absurd (hd.beyond.trans_le (hup'.trans (hd.furthest path' hpath' hlow'))) (lt_irrefl _)
  · exact absurd (hd.beyond.trans_le (hd.furthest endPath hd.endPath_mem heq)) (lt_irrefl _)
  · exact hgt

/-- Up to the end of a path from the start, the namespace is covered. -/
theorem GapsInv.covered_upper (htiles : ∀ path ∈ paths, Tiling.Tiles (path.map fun r => r.bounds))
    (hinv : GapsInv paths within start gaps) (hsp : startPath ∈ paths)
    (hlow : lower startPath = start) :
    ∀ x ∈ Set.Ioc Bound.minBound (upper startPath),
      x ∈ Set.Ioc within.lower within.upper → Covered paths gaps x := by
  intro x hx hwithin
  by_cases hle : x ≤ start
  · exact hinv.covered x ⟨hx.1, hle⟩ hwithin
  · -- beyond the start, the ranges of the path from it cover `x`
    have hbeyond : lower startPath < x := by
      rw [hlow]
      exact not_le.mp hle
    obtain ⟨r, hr, hxr⟩ := exists_mem_of_tiles (htiles startPath hsp) ⟨hbeyond, hx.2⟩
    exact .inr ⟨startPath, hsp, r, hr, hxr⟩

/-- An overlap moves the start to the end path, with no gap. -/
theorem GapsInv.overlap (htiles : ∀ path ∈ paths, Tiling.Tiles (path.map fun r => r.bounds))
    (hinv : GapsInv paths within start gaps) (hd : Discontinuity paths start startPath endPath)
    (hover : lower endPath < upper startPath) : GapsInv paths within (lower endPath) gaps where
  start_mem := ⟨endPath, hd.endPath_mem, rfl⟩
  reach := hd.reach
  covered x hx := hinv.covered_upper htiles hd.startPath_mem hd.startPath_lower x
    ⟨hx.1, hx.2.trans hover.le⟩
  gap_ok := hinv.gap_ok
  le_start g hg := (hinv.le_start g hg).trans (hinv.lt_lower hd).le
  sorted := hinv.sorted

/-- The gap between the start path and the end path, kept when it overlaps `within`. -/
theorem GapsInv.gap (htiles : ∀ path ∈ paths, Tiling.Tiles (path.map fun r => r.bounds))
    (hinv : GapsInv paths within start gaps) (hd : Discontinuity paths start startPath endPath)
    (hle : upper startPath ≤ lower endPath) :
    GapsInv paths within (lower endPath)
      (if (gapRange gaps.length (upper startPath) (lower endPath) hle).toNamespace.overlaps
          within then
        gaps ++ [(startPath, gapRange gaps.length (upper startPath) (lower endPath) hle, endPath)]
      else gaps) := by
  have hcovered := hinv.covered_upper htiles hd.startPath_mem hd.startPath_lower
  have hle_start : ∀ g ∈ gaps, g.2.1.upper ≤ lower endPath :=
    fun g hg => (hinv.le_start g hg).trans (hinv.lt_lower hd).le
  split
  next hover =>
    refine ⟨⟨endPath, hd.endPath_mem, rfl⟩, hd.reach, fun x hx hw => ?_, fun g hg => ?_,
      fun g hg => ?_, ?_⟩
    · by_cases hx' : x ≤ upper startPath
      · exact (hcovered x ⟨hx.1, hx'⟩ hw).append _
      · -- beyond the start path, `x` lies in the new gap
        exact .inl ⟨_, List.mem_append_right _ (List.mem_singleton_self _), not_le.mp hx', hx.2⟩
    · rcases List.mem_append.mp hg with hg | hg
      · exact hinv.gap_ok g hg
      · rw [List.mem_singleton.mp hg]
        obtain ⟨x, hx, -⟩ := (Namespace.overlaps_iff _ _).mp hover
        exact ⟨hx.1.trans_le hx.2, rfl, rfl, hd.first⟩
    · rcases List.mem_append.mp hg with hg | hg
      · exact hle_start g hg
      · rw [List.mem_singleton.mp hg]
        exact le_rfl
    · -- the earlier gaps end by the start, where the start path begins
      refine List.pairwise_append.mpr ⟨hinv.sorted, List.pairwise_singleton _ _, ?_⟩
      intro g hg g' hg'
      rw [List.mem_singleton.mp hg']
      calc g.2.1.upper ≤ start := hinv.le_start g hg
        _ = lower startPath := hd.startPath_lower.symm
        _ ≤ upper startPath := lower_le_upper_of_tiles (htiles startPath hd.startPath_mem)
  next hnot =>
    refine ⟨⟨endPath, hd.endPath_mem, rfl⟩, hd.reach, fun x hx hw => ?_, hinv.gap_ok, hle_start,
      hinv.sorted⟩
    by_cases hx' : x ≤ upper startPath
    · exact hcovered x ⟨hx.1, hx'⟩ hw
    · -- a point of the gap within `within` would make the gap overlap it
      exact absurd ((Namespace.overlaps_iff _ _).mpr ⟨x, ⟨not_le.mp hx', hx.2⟩, hw⟩) hnot

theorem length_filter_lower_lt {start start' : Bound} (hlt : start < start') {path₀ : List ShardRange}
    (hpath₀ : path₀ ∈ paths) (hlow : lower path₀ = start') :
    (paths.filter fun path => start' < lower path).length <
      (paths.filter fun path => start < lower path).length := by
  have hsub : (paths.filter fun path => start' < lower path) =
      (paths.filter fun path => start < lower path).filter fun path => start' < lower path := by
    rw [List.filter_filter]
    refine List.filter_congr fun path _ => ?_
    by_cases h : start' < lower path
    · simp [h, hlt.trans h]
    · simp [h]
  rw [hsub]
  exact List.length_filter_lt_length_iff_exists.mpr
    ⟨path₀, List.mem_filter.mpr ⟨hpath₀, by simpa [hlow] using hlt⟩, by simp [hlow]⟩

/-- One pass of the loop: it ends with the gaps found so far, or it moves the start forward to
where the invariant holds again. -/
theorem GapsInv.gapsLoop_succ (htiles : ∀ path ∈ paths, Tiling.Tiles (path.map fun r => r.bounds))
    (hnull : [nullEnd] ∈ paths) (hinv : GapsInv paths within start gaps) (fuel : Nat) :
    (gapsLoop paths within (fuel + 1) start gaps = some (.ok gaps) ∧ GapsDone paths within gaps) ∨
      ∃ start' gaps', start < start' ∧ GapsInv paths within start' gaps' ∧
        gapsLoop paths within (fuel + 1) start gaps = gapsLoop paths within fuel start' gaps' := by
  rcases findDiscontinuity_cases hinv.start_mem with ⟨sp, hsp, hlow, hfd, hmax⟩ | ⟨sp, ep, hfd, hd⟩
  · -- no path reaches beyond the start path, which ends at `MAX`: the end of the namespace
    have hmaxBound : upper sp = .maxBound := le_antisymm (Bound.le_maxBound _) (hmax _ hnull)
    refine .inl ⟨by rw [gapsLoop, hfd], hinv.gap_ok, hinv.sorted, fun x hx hw => ?_⟩
    exact hinv.covered_upper htiles hsp hlow x ⟨hx, hmaxBound ▸ Bound.le_maxBound x⟩ hw
  · refine .inr ?_
    rw [gapsLoop, hfd]
    dsimp only
    split
    next hover => exact ⟨_, _, hinv.lt_lower hd, hinv.overlap htiles hd hover, rfl⟩
    next hle => exact ⟨_, _, hinv.lt_lower hd, hinv.gap htiles hd (not_lt.mp hle), rfl⟩

/-- With one pass more than the paths beginning beyond the start, the loop returns. -/
theorem gapsLoop_isSome (htiles : ∀ path ∈ paths, Tiling.Tiles (path.map fun r => r.bounds))
    (hnull : [nullEnd] ∈ paths) :
    ∀ fuel {start gaps}, GapsInv paths within start gaps →
      (paths.filter fun path => start < lower path).length < fuel →
      (gapsLoop paths within fuel start gaps).isSome := by
  intro fuel
  induction fuel with
  | zero => intro start gaps _ hfuel; omega
  | succ fuel ih =>
    intro start gaps hinv hfuel
    rcases hinv.gapsLoop_succ htiles hnull fuel with ⟨heq, -⟩ | ⟨start', gaps', hlt, hinv', heq⟩
    · rw [heq]
      rfl
    · -- the path the start moved to no longer begins beyond it
      obtain ⟨path₀, hpath₀, hlow₀⟩ := hinv'.start_mem
      have hfewer := length_filter_lower_lt hlt hpath₀ hlow₀
      rw [heq]
      exact ih hinv' (by omega)

/-- Whenever the loop returns, it returns gaps as `GapsDone` says. -/
theorem gapsLoop_eq_some (htiles : ∀ path ∈ paths, Tiling.Tiles (path.map fun r => r.bounds))
    (hnull : [nullEnd] ∈ paths) :
    ∀ fuel {start gaps result}, GapsInv paths within start gaps →
      gapsLoop paths within fuel start gaps = some result →
      ∃ gaps', result = .ok gaps' ∧ GapsDone paths within gaps' := by
  intro fuel
  induction fuel with
  | zero => intro start gaps result _ h; cases h
  | succ fuel ih =>
    intro start gaps result hinv h
    rcases hinv.gapsLoop_succ htiles hnull fuel with ⟨heq, hdone⟩ | ⟨start', gaps', -, hinv', heq⟩
    · rw [heq] at h
      cases h
      exact ⟨gaps, rfl, hdone⟩
    · rw [heq] at h
      exact ih hinv' h

end Loop

/-! ### `find_paths_with_gaps` -/

section Spec

variable {shardRanges : List ShardRange} {paths : List (List Edge)}

theorem nullStart_mem_withNullPaths : [nullStart] ∈ withNullPaths paths :=
  List.mem_append_right _ List.mem_cons_self

theorem nullEnd_mem_withNullPaths : [nullEnd] ∈ withNullPaths paths :=
  List.mem_append_right _ (List.mem_cons_of_mem _ List.mem_cons_self)

theorem tiles_withNullPaths {edges : List Edge} (hpaths : ∀ c ∈ paths, PathOf edges c) :
    ∀ path ∈ withNullPaths paths, Tiling.Tiles (path.map fun r => r.bounds) := by
  intro path hpath
  rcases List.mem_append.mp hpath with hpath | hpath
  · obtain ⟨c, hc, rfl⟩ := List.mem_map.mp hpath
    exact tiles_of_pathOf (hpaths c hc)
  · simp only [List.mem_cons, List.not_mem_nil, or_false] at hpath
    rcases hpath with rfl | rfl
    · exact tiles_singleton _
    · exact tiles_singleton _

/-- A range on a path that holds a bound is an input range that is not `SHRINKING`: the null
ranges hold none. -/
theorem viable_of_mem_withNullPaths (hpaths : ∀ c ∈ paths, PathOf (viableEdges shardRanges) c)
    {path : List ShardRange} (hpath : path ∈ withNullPaths paths) {r : ShardRange} (hr : r ∈ path)
    {x : Bound} (hx : x ∈ Set.Ioc r.lower r.upper) : r ∈ shardRanges ∧ r.state ≠ shrinking := by
  rcases List.mem_append.mp hpath with hpath | hpath
  · obtain ⟨c, hc, rfl⟩ := List.mem_map.mp hpath
    obtain ⟨e, he, rfl⟩ := List.mem_map.mp hr
    have hedge := (hpaths c hc).1 e he
    exact ⟨mem_of_mem_viableEdges hedge, by simpa using (List.mem_filter.mp hedge).2⟩
  · simp only [List.mem_cons, List.not_mem_nil, or_false] at hpath
    rcases hpath with rfl | rfl <;> rw [List.mem_singleton.mp hr] at hx
    · exact absurd (hx.1.trans_le hx.2) (lt_irrefl _)
    · exact absurd (hx.1.trans_le hx.2) (lt_irrefl _)

/-- No range that is not `SHRINKING` overlaps a gap: it lies on a path of `find_paths`, which
reaches past the gap's lower bound only by beginning at or after its upper bound. -/
theorem overlaps_eq_false_of_gapOk (hlt : ∀ r ∈ shardRanges, r.lower < r.upper) {fuel : Nat}
    (hfind : findPaths shardRanges fuel = some paths) {g : PathGap}
    (hg : GapOk (withNullPaths paths) g) {r : ShardRange} (hr : r ∈ shardRanges)
    (hstate : r.state ≠ shrinking) : g.2.1.toNamespace.overlaps r.toNamespace = false := by
  obtain ⟨hchain, hcover⟩ := findPaths_paths hlt hfind
  obtain ⟨i, hedge⟩ := exists_mem_viableEdges hr hstate
  obtain ⟨c, hc, hec⟩ := hcover _ hedge
  have hpath : c.map Prod.fst ∈ withNullPaths paths :=
    List.mem_append_left _ (List.mem_map_of_mem hc)
  have hr' : r ∈ c.map Prod.fst := List.mem_map_of_mem hec
  have htiles := tiles_of_pathOf (hchain c hc)
  refine Bool.eq_false_iff.mpr fun hover => ?_
  obtain ⟨x, hxg, hxr⟩ := (Namespace.overlaps_iff _ _).mp hover
  have hreach : g.2.1.lower < upper (c.map Prod.fst) :=
    hxg.1.trans_le (hxr.2.trans (upper_le_of_mem htiles hr'))
  have hbegin := hg.beyond _ hpath hreach
  -- the path begins at or after the gap's upper bound, so after `x`
  exact absurd (hxr.1.trans_le hxg.2) (not_lt.mpr (hbegin.trans (le_lower_of_mem htiles hr')))

theorem findPathsWithGaps_reports_gaps (shardRanges : List ShardRange)
    (hlt : ∀ r ∈ shardRanges, r.lower < r.upper) :
    (∃ fuel, (findPathsWithGaps shardRanges none fuel).isSome) ∧
    ∀ fuel result, findPathsWithGaps shardRanges none fuel = some result →
      ∃ gaps, result = .ok gaps ∧
        (∀ g ∈ gaps, g.2.1.lower < g.2.1.upper ∧ ShardRangeList.upper g.1 = g.2.1.lower ∧
          ShardRangeList.lower g.2.2 = g.2.1.upper) ∧
        gaps.Pairwise (fun g g' => g.2.1.toNamespace.overlaps g'.2.1.toNamespace = false) ∧
        (∀ g ∈ gaps, ∀ r ∈ shardRanges, r.state ≠ shrinking →
          g.2.1.toNamespace.overlaps r.toNamespace = false) ∧
        ∀ x, Bound.minBound < x → (∃ g ∈ gaps, x ∈ Set.Ioc g.2.1.lower g.2.1.upper) ∨
          ∃ r ∈ shardRanges, r.state ≠ shrinking ∧ x ∈ Set.Ioc r.lower r.upper := by
  refine ⟨?_, fun fuel result h => ?_⟩
  · -- enough fuel for `find_paths`, and one pass more than the paths for the loop
    obtain ⟨bound, hbound⟩ := findPaths_isSome hlt
    obtain ⟨paths, hfind⟩ := Option.isSome_iff_exists.mp (hbound bound le_rfl)
    have htiles := tiles_withNullPaths (findPaths_paths hlt hfind).1
    refine ⟨max bound ((withNullPaths paths).length + 1), ?_⟩
    rw [findPathsWithGaps, findPaths_mono hfind (le_max_left _ _), Option.bind_some]
    exact gapsLoop_isSome htiles nullEnd_mem_withNullPaths _ (gapsInv_init nullStart_mem_withNullPaths)
      (((List.length_filter_le _ _).trans_lt (Nat.lt_succ_self _)).trans_le (le_max_right _ _))
  · obtain ⟨paths, hfind, hloop⟩ := Option.bind_eq_some_iff.mp h
    have hpaths := findPaths_paths hlt hfind
    obtain ⟨gaps, rfl, hdone⟩ := gapsLoop_eq_some (tiles_withNullPaths hpaths.1)
      nullEnd_mem_withNullPaths _ (gapsInv_init nullStart_mem_withNullPaths) hloop
    refine ⟨gaps, rfl, fun g hg => ?_, ?_, fun g hg r hr hstate => ?_, fun x hx => ?_⟩
    · obtain ⟨hne, hsp, hep, -⟩ := hdone.gap_ok g hg
      exact ⟨hne, hsp, hep⟩
    · -- a gap ends before any later one begins
      refine hdone.sorted.imp fun {g g'} hle => Bool.eq_false_iff.mpr fun hover => ?_
      obtain ⟨x, hxg, hxg'⟩ := (Namespace.overlaps_iff _ _).mp hover
      exact absurd (hxg.2.trans hle) (not_le.mpr hxg'.1)
    · exact overlaps_eq_false_of_gapOk hlt hfind (hdone.gap_ok g hg) hr hstate
    · rcases hdone.covered x hx ⟨hx, Bound.le_maxBound x⟩ with hgap | ⟨path, hpath, r, hr, hxr⟩
      · exact .inl hgap
      · obtain ⟨hmem, hstate⟩ := viable_of_mem_withNullPaths hpaths.1 hpath hr hxr
        exact .inr ⟨r, hmem, hstate, hxr⟩

theorem name_m_ne_empty : "m" ≠ "" := by decide

theorem name_p_ne_empty : "p" ≠ "" := by decide

/-- Two active ranges (state `40`) with the namespace between `m` and `p` uncovered. -/
def rangesWithGap : List ShardRange :=
  [⟨⟨".shards_a/c-1", .minBound, .name "m" name_m_ne_empty, Bound.minBound_le _⟩, 40⟩,
    ⟨⟨".shards_a/c-2", .name "p" name_p_ne_empty, .maxBound, Bound.le_maxBound _⟩, 40⟩]

theorem findPathsWithGaps_reports_gaps_rangesWithGap :
    (∀ r ∈ rangesWithGap, r.lower < r.upper) ∧
      ∃ fuel, (findPathsWithGaps rangesWithGap none fuel).isSome :=
  ⟨by decide, (findPathsWithGaps_reports_gaps rangesWithGap (by decide)).1⟩

-- `(MIN, m]` and `(p, MAX]` leave one gap, `(m, p]`
example : ((findPathsWithGaps
    [⟨⟨".shards_a/c-1", .minBound, .name "m" (by decide), Bound.minBound_le _⟩, 40⟩,
      ⟨⟨".shards_a/c-2", .name "p" (by decide), .maxBound, Bound.le_maxBound _⟩, 40⟩] none 4).map
    fun result => result.map fun gaps => gaps.map fun g => (g.2.1.lower, g.2.1.upper)) =
    some (.ok [(.name "m" (by decide), .name "p" (by decide))]) := by
  decide

end Spec

end Sharder

end Swift
