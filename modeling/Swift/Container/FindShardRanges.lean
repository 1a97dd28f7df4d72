import Swift.Container.PathGaps
import Swift.Container.ShardRange
import Swift.Order.Tiling

/-!
# `find_shard_ranges`: where a container is cut into shards

`ContainerBroker.find_shard_ranges` scans the object table of a container in name order and
cuts it into shard ranges of `shard_size` rows. Each shard point comes from
`_get_next_shard_range_upper`, the name `shard_size` rows beyond the last one. The scan starts at
the upper bound of the existing shard ranges, or at the container's own lower bound, and stops
after `limit` ranges or when the namespace is used up. The last range is then cut at the
container's own upper bound. While the rows counted so far leave fewer than
`shard_size + minimum_shard_size` to go, no more shard points are looked up, so the last range
may hold up to `shard_size + minimum_shard_size - 1` rows.

## The model

The table is the list of the names of its undeleted rows, in any order; names are never empty.
`object_count` comes from `get_info` and is a separate input, which need not match the table.
The existing shard ranges are the rows of the shard-range table. Whether the query raises is a
function of the bound it starts from.

## Main definitions

* `getNextShardRangeUpper` — `_get_next_shard_range_upper`
* `findShardRangesLoop`, `findShardRanges` — the loop and the method
* `Laid` — what the loop keeps on every table: the ranges found are laid end to end
* `Counted`, `Sized` — what the loop keeps, and ends with, on a table that `object_count` counts

## Main results

* `findShardRanges_tiles` — on every table, the ranges found are laid end to end from where the
  scan starts, none is empty, and when the scan is done they reach the container's upper bound
* `findShardRanges_sizes` — on a table whose rows all lie in the container's namespace and are
  counted by `object_count`, the scan finishes, every range's `object_count` is the number of
  rows it holds, every range but the last holds `shard_size` rows, the last holds between
  `minimum_shard_size` and `shard_size + minimum_shard_size - 1`, and the counts add up to the
  rows of the table
* `findShardRanges_misplaced` — with rows beyond the upper bound, the counts need not add up to
  `object_count`, whatever the comment in the source says
-/

namespace Swift

namespace Container

open Tiling PySort

/-! ### The shard point query -/

/-- An object name as the `object` table holds it: never empty. -/
abbrev ObjectName := {s : String // s ≠ ""}

/-- An object name as a namespace bound. -/
def ObjectName.bound (n : ObjectName) : Bound := .name n.1 n.2

/-- The undeleted rows that the query of `_get_next_shard_range_upper` selects: `name > ?` when
`last_upper` is an object name, and every row when it is an outer bound, which is falsy. -/
def rowsAbove (objects : List ObjectName) : Bound → List ObjectName
  | .name s _ => objects.filter fun n => s < n.1
  | _ => objects

/-- `_get_next_shard_range_upper(shard_size, last_upper)`: the name `shard_size` rows beyond
`last_upper` in name order (`ORDER BY name LIMIT 1 OFFSET shard_size - 1`); SQLite reads a
negative offset as `0`. -/
def getNextShardRangeUpper (objects : List ObjectName) (shardSize : Int) (lastUpper : Bound) :
    Option ObjectName :=
  (sortByKey Subtype.val (rowsAbove objects lastUpper))[(shardSize - 1).toNat]?

/-- The rows in a range `(lower, upper]`. -/
def rowCount (objects : List ObjectName) (bounds : Bound × Bound) : Nat :=
  objects.countP fun n => bounds.1 < n.bound ∧ n.bound ≤ bounds.2

theorem rowsAbove_eq_filter (objects : List ObjectName) {b : Bound} (hb : b ≠ .maxBound) :
    rowsAbove objects b = objects.filter fun n => b < n.bound := by
  cases b with
  | minBound =>
    symm
    simp [rowsAbove, ObjectName.bound]
  | name s hs => simp [rowsAbove, ObjectName.bound]
  | maxBound => exact absurd rfl hb

theorem mem_rowsAbove_of_getNextShardRangeUpper {objects : List ObjectName} {shardSize : Int}
    {b : Bound} {n : ObjectName} (h : getNextShardRangeUpper objects shardSize b = some n) :
    n ∈ rowsAbove objects b :=
  mem_sortByKey.mp (List.mem_of_getElem? h)

/-- A shard point leaves fewer rows above it than above the last one. -/
theorem length_rowsAbove_lt {objects : List ObjectName} {b : Bound} {n : ObjectName}
    (h : n ∈ rowsAbove objects b) :
    (rowsAbove objects n.bound).length < (rowsAbove objects b).length := by
  -- the rows above `n` are rows above `b`, and `n` is not one of them
  have hsub : rowsAbove objects n.bound = (rowsAbove objects b).filter fun m => n.1 < m.1 := by
    cases b with
    | name s hs =>
      have hsn : s < n.1 := by simpa [rowsAbove] using (List.mem_filter.mp h).2
      simp only [rowsAbove, ObjectName.bound, List.filter_filter]
      congr 1
      funext m
      by_cases hm : n.1 < m.1
      · simp [hm, lt_trans hsn hm]
      · simp [hm]
    | minBound | maxBound => rfl
  rw [hsub]
  exact List.length_filter_lt_length_iff_exists.mpr ⟨n, h, by simp⟩

/-- Over distinct names, the shard point `shard_size` rows beyond `b` closes a range of exactly
`shard_size` rows (one, if `shard_size` is not positive). -/
theorem rowCount_getNextShardRangeUpper {objects : List ObjectName}
    (hnodup : (objects.map Subtype.val).Nodup) {shardSize : Int} {b : Bound} (hb : b ≠ .maxBound)
    {n : ObjectName} (h : getNextShardRangeUpper objects shardSize b = some n) :
    rowCount objects (b, n.bound) = (shardSize - 1).toNat + 1 := by
  obtain ⟨hj, hn⟩ := List.getElem?_eq_some_iff.mp h
  have hnodup' : ((rowsAbove objects b).map Subtype.val).Nodup := by
    rw [rowsAbove_eq_filter objects hb]
    exact hnodup.sublist (List.filter_sublist.map _)
  have hcount := countP_le_getElem_sortByKey hnodup' hj
  rw [hn] at hcount
  rw [rowCount, ← hcount, rowsAbove_eq_filter objects hb, List.countP_filter]
  congr 1
  funext m
  rw [Bool.decide_and, Bool.and_comm]
  congr 1
  exact decide_eq_decide.mpr Bound.name_le_name

theorem getNextShardRangeUpper_isSome {objects : List ObjectName} {shardSize : Int} {b : Bound}
    (h : (shardSize - 1).toNat < (rowsAbove objects b).length) :
    (getNextShardRangeUpper objects shardSize b).isSome := by
  have hlen : (sortByKey Subtype.val (rowsAbove objects b)).length = (rowsAbove objects b).length :=
    (perm_sortByKey _).length_eq
  rw [getNextShardRangeUpper, List.getElem?_eq_getElem (hlen ▸ h)]
  rfl

/-! ### The loop -/

/-- A found shard range, the dict `{'index', 'lower', 'upper', 'object_count'}`, with its bounds
as `str` prints them. -/
structure FoundShardRange where
  index : Nat
  lower : String
  upper : String
  objectCount : Int
  deriving DecidableEq, Repr

/-- The bounds of a found range, as the `lower` and `upper` setters of a shard range read
them. -/
def FoundShardRange.bounds (r : FoundShardRange) : Bound × Bound :=
  (Bound.ofLower r.lower, Bound.ofUpper r.upper)

/-- The next shard point of the loop: `some none` when the rows counted so far leave fewer than
`shard_size + minimum_shard_size` to go, so that no query is made; the answer of the query
otherwise; and `none` when the query raises (`sqlite3.OperationalError` or `LockTimeout`). Whether
it raises is a given of the run, read as a function of the bound the query starts from, which the
loop never repeats. -/
def nextShardUpper (objects : List ObjectName) (queryFails : Bound → Bool)
    (objectCount progress shardSize minimumShardSize : Int) (lastShardUpper : Bound) :
    Option (Option ObjectName) :=
  if progress + shardSize + minimumShardSize > objectCount then some none
  else if queryFails lastShardUpper then none
  else some (getNextShardRangeUpper objects shardSize lastShardUpper)

/-- What the next shard point can be: no query, or the answer of the query. -/
theorem nextShardUpper_eq_some {objects : List ObjectName} {queryFails : Bound → Bool}
    {objectCount progress shardSize minimumShardSize : Int} {b : Bound} {next : Option ObjectName}
    (h : nextShardUpper objects queryFails objectCount progress shardSize minimumShardSize b =
      some next) :
    (objectCount < progress + shardSize + minimumShardSize ∧ next = none) ∨
      (progress + shardSize + minimumShardSize ≤ objectCount ∧
        getNextShardRangeUpper objects shardSize b = next) := by
  rw [nextShardUpper] at h
  split at h
  · exact .inl ⟨by assumption, (Option.some.inj h).symm⟩
  · split at h
    · cases h
    · exact .inr ⟨not_lt.mp (by assumption), Option.some.inj h⟩

theorem queryFails_of_nextShardUpper_eq_none {objects : List ObjectName}
    {queryFails : Bound → Bool} {objectCount progress shardSize minimumShardSize : Int} {b : Bound}
    (h : nextShardUpper objects queryFails objectCount progress shardSize minimumShardSize b =
      none) :
    queryFails b = true := by
  rw [nextShardUpper] at h
  split at h
  · cases h
  · split at h
    · assumption
    · cases h

theorem mem_rowsAbove_of_nextShardUpper {objects : List ObjectName} {queryFails : Bound → Bool}
    {objectCount progress shardSize minimumShardSize : Int} {b : Bound} {n : ObjectName}
    (h : nextShardUpper objects queryFails objectCount progress shardSize minimumShardSize b =
      some (some n)) :
    n ∈ rowsAbove objects b := by
  rcases nextShardUpper_eq_some h with ⟨-, h⟩ | ⟨-, h⟩
  · cases h
  · exact mem_rowsAbove_of_getNextShardRangeUpper h

/-- The `while` loop of `find_shard_ranges`, from `last_shard_upper` with `progress` rows counted,
the next `index`, and the ranges found so far. A shard point beyond the container's upper bound,
or none, cuts the last range at the upper bound, counted as the rows left when `progress` is
reliable. A query that raises is logged and ends the loop. -/
def findShardRangesLoop (objects : List ObjectName) (queryFails : Bound → Bool)
    (objectCount : Int) (ownUpper : Bound) (shardSize minimumShardSize : Int)
    (limit : Option Int) (progressReliable : Bool) (foundRanges : List FoundShardRange)
    (progress : Int) (lastShardUpper : Bound) (index : Nat) : List FoundShardRange × Bool :=
  if limit.all fun l => l < 0 || (foundRanges.length : Int) < l then
    let finalRange : FoundShardRange := ⟨index, lastShardUpper.toStr, ownUpper.toStr,
      if progressReliable then objectCount - progress else shardSize⟩
    match h : nextShardUpper objects queryFails objectCount progress shardSize minimumShardSize
        lastShardUpper with
    | none => (foundRanges, false)
    | some none => (foundRanges ++ [finalRange], true)
    | some (some n) =>
      if ownUpper < n.bound then (foundRanges ++ [finalRange], true)
      else
        let foundRanges := foundRanges ++ [⟨index, lastShardUpper.toStr, n.1, shardSize⟩]
        if n.bound = ownUpper then (foundRanges, true)
        else
          findShardRangesLoop objects queryFails objectCount ownUpper shardSize minimumShardSize
            limit progressReliable foundRanges (progress + shardSize) n.bound (index + 1)
  else (foundRanges, false)
termination_by (rowsAbove objects lastShardUpper).length
decreasing_by exact length_rowsAbove_lt (mem_rowsAbove_of_nextShardUpper h)

/-- `find_shard_ranges(shard_size, limit, existing_ranges, minimum_shard_size)` on a table with
these rows, `object_count` and own shard range bounds. -/
def findShardRanges (objects : List ObjectName) (queryFails : Bound → Bool) (objectCount : Int)
    (ownLower ownUpper : Bound) (shardSize : Int) (limit : Option Int)
    (existingRanges : List ShardRange) (minimumShardSize : Int) : List FoundShardRange × Bool :=
  let minimumShardSize := max minimumShardSize 1
  if shardSize + minimumShardSize > objectCount then ([], false)
  else
    match existingRanges.getLast? with
    | none =>
      findShardRangesLoop objects queryFails objectCount ownUpper shardSize minimumShardSize limit
        true [] 0 ownLower 0
    | some last =>
      let progressReliable := existingRanges.all (·.state == Sharder.found)
      let progress := if progressReliable then (existingRanges.map (·.objectCount)).sum else 0
      if ownUpper ≤ Bound.ofUpper last.upper then ([], true)
      else
        findShardRangesLoop objects queryFails objectCount ownUpper shardSize minimumShardSize
          limit progressReliable [] progress (Bound.ofUpper last.upper) existingRanges.length

/-! ### The ranges are laid end to end -/

theorem ne_maxBound_of_lt {a b : Bound} (h : a < b) : a ≠ .maxBound := by
  rintro rfl
  exact not_lt.mpr (Bound.le_maxBound b) h

theorem ne_minBound_of_lt {a b : Bound} (h : a < b) : b ≠ .minBound := by
  rintro rfl
  exact not_lt.mpr (Bound.minBound_le a) h

@[simp] theorem ofUpper_val (n : ObjectName) : Bound.ofUpper n.1 = n.bound := by
  simp [Bound.ofUpper, n.2, ObjectName.bound]

theorem lt_of_mem_rowsAbove {objects : List ObjectName} {b : Bound} (hb : b ≠ .maxBound)
    {n : ObjectName} (h : n ∈ rowsAbove objects b) : b < n.bound := by
  rw [rowsAbove_eq_filter objects hb] at h
  simpa using (List.mem_filter.mp h).2

/-- The bounds of a range cut at `upper`, as the setters read them back. -/
theorem bounds_mk_toStr (index : Nat) {lower upper : Bound} (hl : lower ≠ .maxBound)
    (hu : upper ≠ .minBound) (objectCount : Int) :
    (⟨index, lower.toStr, upper.toStr, objectCount⟩ : FoundShardRange).bounds = (lower, upper) := by
  simp [FoundShardRange.bounds, Bound.ofLower_toStr hl, Bound.ofUpper_toStr hu]

/-- The bounds of a range cut at a shard point. -/
theorem bounds_mk_val (index : Nat) {lower : Bound} (hl : lower ≠ .maxBound) (n : ObjectName)
    (objectCount : Int) :
    (⟨index, lower.toStr, n.1, objectCount⟩ : FoundShardRange).bounds = (lower, n.bound) := by
  simp [FoundShardRange.bounds, Bound.ofLower_toStr hl]

/-- Where the scan has got to: the upper bound of the last range found, or `start`. -/
def scannedTo (start : Bound) (found : List FoundShardRange) : Bound :=
  (found.getLast?.map fun f => f.bounds.2).getD start

@[simp] theorem scannedTo_nil (start : Bound) : scannedTo start [] = start := rfl

@[simp] theorem scannedTo_concat (start : Bound) (found : List FoundShardRange)
    (f : FoundShardRange) : scannedTo start (found ++ [f]) = f.bounds.2 := by
  simp [scannedTo]

/-- What the loop keeps of the ranges it finds: they are laid end to end from `start`, none is
empty, none ends above `upper`, and their indices count up from `index₀`. -/
structure Laid (start upper : Bound) (index₀ : Nat) (found : List FoundShardRange) : Prop where
  tiles : Tiles (found.map FoundShardRange.bounds)
  nonempty : ∀ f ∈ found, f.bounds.1 < f.bounds.2
  le : ∀ f ∈ found, f.bounds.2 ≤ upper
  head : ∀ f ∈ found.head?, f.bounds.1 = start
  indices : found.map FoundShardRange.index = List.range' index₀ found.length

theorem Laid.nil (start upper : Bound) (index₀ : Nat) : Laid start upper index₀ [] :=
  ⟨⟨by simp, List.isChain_nil⟩, by simp, by simp, by simp, rfl⟩

/-- One more range, from where the scan has got to, to a bound above it. -/
theorem Laid.append {start upper : Bound} {index₀ : Nat} {found : List FoundShardRange}
    (h : Laid start upper index₀ found) {f : FoundShardRange} {u : Bound}
    (hf : f.bounds = (scannedTo start found, u)) (hlt : scannedTo start found < u)
    (hle : u ≤ upper) (hindex : f.index = index₀ + found.length) :
    Laid start upper index₀ (found ++ [f]) := by
  have hlast : ∀ l ∈ (found.map FoundShardRange.bounds).getLast?, l.2 = scannedTo start found := by
    intro l hl
    rw [List.getLast?_map, Option.mem_map] at hl
    obtain ⟨g, hg, rfl⟩ := hl
    simp [scannedTo, Option.mem_def.mp hg]
  refine ⟨?_, ?_, ?_, ?_, ?_⟩
  · rw [List.map_append, List.map_singleton, hf]
    exact h.tiles.append_singleton hlast hlt.le
  · intro g hg
    rcases List.mem_append.mp hg with hg | hg
    · exact h.nonempty g hg
    · rw [List.mem_singleton.mp hg, hf]
      exact hlt
  · intro g hg
    rcases List.mem_append.mp hg with hg | hg
    · exact h.le g hg
    · rw [List.mem_singleton.mp hg, hf]
      exact hle
  · intro g hg
    cases found with
    | nil =>
      obtain rfl : f = g := by simpa using hg
      simp [hf]
    | cons f₀ found => exact h.head g (by simpa using hg)
  · rw [List.map_append, h.indices, List.length_append, List.length_singleton,
      List.range'_1_concat, List.map_singleton, hindex]

/-- The range the loop ends with, cut at the upper bound. -/
theorem Laid.appendFinal {start upper : Bound} {index₀ : Nat} {found : List FoundShardRange}
    (h : Laid start upper index₀ found) (hlt : scannedTo start found < upper) (c : Int) :
    let f : FoundShardRange :=
      ⟨index₀ + found.length, (scannedTo start found).toStr, upper.toStr, c⟩
    Laid start upper index₀ (found ++ [f]) ∧ scannedTo start (found ++ [f]) = upper := by
  intro f
  have hf : f.bounds = (scannedTo start found, upper) :=
    bounds_mk_toStr _ (ne_maxBound_of_lt hlt) (ne_minBound_of_lt hlt) c
  exact ⟨h.append hf hlt le_rfl rfl, by rw [scannedTo_concat, hf]⟩

/-- A range cut at a shard point, a row above where the scan has got to. -/
theorem Laid.appendShard {start upper : Bound} {index₀ : Nat} {found : List FoundShardRange}
    {objects : List ObjectName} (h : Laid start upper index₀ found)
    (hlt : scannedTo start found < upper) {n : ObjectName}
    (hn : n ∈ rowsAbove objects (scannedTo start found)) (hle : n.bound ≤ upper) (c : Int) :
    let f : FoundShardRange := ⟨index₀ + found.length, (scannedTo start found).toStr, n.1, c⟩
    Laid start upper index₀ (found ++ [f]) ∧ scannedTo start (found ++ [f]) = n.bound := by
  intro f
  have hf : f.bounds = (scannedTo start found, n.bound) :=
    bounds_mk_val _ (ne_maxBound_of_lt hlt) n c
  have hnlt := lt_of_mem_rowsAbove (ne_maxBound_of_lt hlt) hn
  exact ⟨h.append hf hnlt hle rfl, by rw [scannedTo_concat, hf]⟩

section Loop

variable {objects : List ObjectName} {queryFails : Bound → Bool} {objectCount : Int}
  {ownUpper : Bound} {shardSize minimumShardSize : Int} {limit : Option Int}
  {progressReliable : Bool}

/-- The loop, from any point it reaches below the upper bound, lays its ranges end to end, and
when it is done they reach the upper bound. -/
theorem laid_findShardRangesLoop {start : Bound} {index₀ : Nat}
    {foundRanges : List FoundShardRange} {progress : Int} {lastShardUpper : Bound} {index : Nat}
    (hlaid : Laid start ownUpper index₀ foundRanges)
    (hlast : scannedTo start foundRanges = lastShardUpper) (hlt : lastShardUpper < ownUpper)
    (hindex : index = index₀ + foundRanges.length) :
    let r := findShardRangesLoop objects queryFails objectCount ownUpper shardSize
      minimumShardSize limit progressReliable foundRanges progress lastShardUpper index
    Laid start ownUpper index₀ r.1 ∧ (r.2 = true → scannedTo start r.1 = ownUpper) := by
  -- one case per exit of the loop body; only the shard points below the upper bound go round
  fun_induction findShardRangesLoop objects queryFails objectCount ownUpper shardSize
    minimumShardSize limit progressReliable foundRanges progress lastShardUpper index with
  | case1 | case6 => exact ⟨hlaid, fun h => nomatch h⟩
  | case2 found progress last index | case3 found progress last index =>
    subst hlast hindex
    obtain ⟨hlaid', hlast'⟩ := hlaid.appendFinal hlt _
    exact ⟨hlaid', fun _ => hlast'⟩
  | case4 found progress last index _ n hnext hle _ heq =>
    subst hlast hindex
    obtain ⟨hlaid', hlast'⟩ :=
      hlaid.appendShard hlt (mem_rowsAbove_of_nextShardUpper hnext) (not_lt.mp hle) _
    exact ⟨hlaid', fun _ => hlast'.trans heq⟩
  | case5 found progress last index _ n hnext hle found' hne ih =>
    subst hlast hindex
    obtain ⟨hlaid', hlast'⟩ :=
      hlaid.appendShard hlt (mem_rowsAbove_of_nextShardUpper hnext) (not_lt.mp hle) _
    refine ih hlaid' hlast' (lt_of_le_of_ne (not_lt.mp hle) hne) ?_
    simp [found', Nat.add_assoc]

end Loop


/-! ### The counts, on a table that `object_count` counts -/

theorem mem_of_mem_rowsAbove {objects : List ObjectName} {b : Bound} {n : ObjectName}
    (h : n ∈ rowsAbove objects b) : n ∈ objects := by
  cases b with
  | name s hs => exact (List.mem_filter.mp h).1
  | minBound | maxBound => exact h

theorem rowsAbove_of_forall_lt {objects : List ObjectName} {b : Bound}
    (h : ∀ n ∈ objects, b < n.bound) : rowsAbove objects b = objects := by
  cases b with
  | name s hs => simpa [rowsAbove, ObjectName.bound] using h
  | minBound | maxBound => rfl

/-- The rows above `b` are those of `(b, c]` and those above `c`. -/
theorem length_rowsAbove_eq (objects : List ObjectName) {b c : Bound} (hb : b ≠ .maxBound)
    (hc : c ≠ .maxBound) (hbc : b ≤ c) :
    (rowsAbove objects b).length = rowCount objects (b, c) + (rowsAbove objects c).length := by
  have hsplit := List.length_eq_countP_add_countP (fun n : ObjectName => decide (n.bound ≤ c))
    (l := objects.filter fun n => b < n.bound)
  rw [List.countP_filter, List.countP_filter] at hsplit
  rw [rowsAbove_eq_filter objects hb, rowsAbove_eq_filter objects hc, hsplit, rowCount,
    ← List.countP_eq_length_filter]
  congr 1
  · exact List.countP_congr fun m _ => by simp [and_comm]
  · exact List.countP_congr fun m _ => by simpa using fun h => hbc.trans_lt h

/-- When no row lies above `u`, the rows of `(b, u]` are those above `b`. -/
theorem rowCount_eq_length_rowsAbove {objects : List ObjectName} {b u : Bound} (hb : b ≠ .maxBound)
    (hupper : ∀ n ∈ objects, n.bound ≤ u) :
    rowCount objects (b, u) = (rowsAbove objects b).length := by
  rw [rowsAbove_eq_filter objects hb, ← List.countP_eq_length_filter, rowCount]
  exact List.countP_congr fun m hm => by simp [hupper m hm]

/-- What the loop keeps on a table whose rows all lie at or below the container's upper bound and
are counted by `object_count`: the ranges found hold `progress` rows, `shard_size` each, and are
counted so; the other rows lie above `last`, and at least `minimum_shard_size` of them are left. -/
structure Counted (objects : List ObjectName) (shardSize minimumShardSize : Int)
    (found : List FoundShardRange) (progress : Int) (last : Bound) : Prop where
  rows : progress + (rowsAbove objects last).length = objects.length
  sum : (found.map FoundShardRange.objectCount).sum = progress
  counts : ∀ f ∈ found, f.objectCount = shardSize ∧ f.objectCount = rowCount objects f.bounds
  room : progress + minimumShardSize ≤ objects.length

/-- The ranges a scan of such a table ends with: each is counted at the rows it holds, each but
the last at `shard_size` rows, the last at between `minimum_shard_size` and
`shard_size + minimum_shard_size - 1`, and the counts add up to the rows of the table. -/
structure Sized (objects : List ObjectName) (shardSize minimumShardSize : Int)
    (found : List FoundShardRange) : Prop where
  counts : ∀ f ∈ found, f.objectCount = rowCount objects f.bounds
  body : ∀ f ∈ found.dropLast, f.objectCount = shardSize
  last : ∀ f ∈ found.getLast?,
    minimumShardSize ≤ f.objectCount ∧ f.objectCount < shardSize + minimumShardSize
  sum : (found.map FoundShardRange.objectCount).sum = objects.length

section Counted

variable {objects : List ObjectName} {shardSize minimumShardSize : Int}
  {found : List FoundShardRange} {progress : Int} {last : Bound}

/-- A range cut at the shard point `shard_size` rows above `last`. -/
theorem Counted.appendShard (h : Counted objects shardSize minimumShardSize found progress last)
    (hnodup : (objects.map Subtype.val).Nodup) (hsize : 1 ≤ shardSize) (hb : last ≠ .maxBound)
    {n : ObjectName} (hn : getNextShardRangeUpper objects shardSize last = some n)
    (hroom : progress + shardSize + minimumShardSize ≤ objects.length) (index : Nat) :
    Counted objects shardSize minimumShardSize
      (found ++ [⟨index, last.toStr, n.1, shardSize⟩]) (progress + shardSize) n.bound := by
  have hrange : (rowCount objects (last, n.bound) : Int) = shardSize := by
    rw [rowCount_getNextShardRangeUpper hnodup hb hn]
    omega
  have hsplit := length_rowsAbove_eq objects hb (by simp [ObjectName.bound])
    (lt_of_mem_rowsAbove hb (mem_rowsAbove_of_getNextShardRangeUpper hn)).le
  refine ⟨?_, ?_, ?_, ?_⟩
  · have := h.rows
    omega
  · simp [h.sum]
  · intro f hf
    rcases List.mem_append.mp hf with hf | hf
    · exact h.counts f hf
    · rw [List.mem_singleton.mp hf, bounds_mk_val _ hb n]
      exact ⟨rfl, hrange.symm⟩
  · omega

/-- The range the scan ends with, counted at the rows left, when fewer than
`shard_size + minimum_shard_size` are. -/
theorem Counted.close (h : Counted objects shardSize minimumShardSize found progress last)
    {upper : Bound} (hlt : last < upper) (hupper : ∀ n ∈ objects, n.bound ≤ upper)
    (hover : objects.length < progress + shardSize + minimumShardSize) (index : Nat) :
    Sized objects shardSize minimumShardSize
      (found ++ [⟨index, last.toStr, upper.toStr, objects.length - progress⟩]) := by
  have hrange : (rowCount objects (last, upper) : Int) = objects.length - progress := by
    rw [rowCount_eq_length_rowsAbove (ne_maxBound_of_lt hlt) hupper]
    have := h.rows
    omega
  refine ⟨?_, ?_, ?_, ?_⟩
  · intro f hf
    rcases List.mem_append.mp hf with hf | hf
    · exact (h.counts f hf).2
    · rw [List.mem_singleton.mp hf,
        bounds_mk_toStr _ (ne_maxBound_of_lt hlt) (ne_minBound_of_lt hlt)]
      exact hrange.symm
  · intro f hf
    rw [List.dropLast_concat] at hf
    exact (h.counts f hf).1
  · intro f hf
    rw [List.getLast?_concat, Option.mem_some_iff] at hf
    subst hf
    have := h.room
    constructor <;> dsimp only <;> omega
  · simp [h.sum]

end Counted

theorem rowsAbove_eq_nil {objects : List ObjectName} {b : Bound} (hb : b ≠ .maxBound)
    (hupper : ∀ n ∈ objects, n.bound ≤ b) : rowsAbove objects b = [] := by
  rw [rowsAbove_eq_filter objects hb, List.filter_eq_nil_iff]
  intro n hn
  simpa using hupper n hn

theorem limit_all_of_neg {limit : Option Int} (hlimit : ∀ l ∈ limit, l < 0) (k : Int) :
    (limit.all fun l => l < 0 || k < l) = true := by
  cases limit with
  | none => rfl
  | some l => simpa using Or.inl (hlimit l rfl)

section Sized

variable {objects : List ObjectName} {queryFails : Bound → Bool} {ownUpper : Bound}
  {shardSize minimumShardSize : Int} {limit : Option Int}

/-- On a table whose rows lie at or below the upper bound and are counted by `object_count`, with
no limit and no query that raises, the loop runs to the upper bound and counts each range right. -/
theorem sized_findShardRangesLoop (hnodup : (objects.map Subtype.val).Nodup)
    (hupper : ∀ n ∈ objects, n.bound ≤ ownUpper) (hfails : ∀ b, queryFails b = false)
    (hlimit : ∀ l ∈ limit, l < 0) (hsize : 1 ≤ shardSize) (hmin : 1 ≤ minimumShardSize)
    {foundRanges : List FoundShardRange} {progress : Int} {lastShardUpper : Bound} {index : Nat}
    (h : Counted objects shardSize minimumShardSize foundRanges progress lastShardUpper)
    (hlt : lastShardUpper < ownUpper) :
    let r := findShardRangesLoop objects queryFails objects.length ownUpper shardSize
      minimumShardSize limit true foundRanges progress lastShardUpper index
    r.2 = true ∧ Sized objects shardSize minimumShardSize r.1 := by
  fun_induction findShardRangesLoop objects queryFails objects.length ownUpper shardSize
    minimumShardSize limit true foundRanges progress lastShardUpper index with
  | case1 found progress last index _ hnext =>
    -- no query raises
    have := queryFails_of_nextShardUpper_eq_none hnext
    simp [hfails] at this
  | case6 found progress last index hno => exact absurd (limit_all_of_neg hlimit _) hno
  | case2 found progress last index _ finalRange hnext =>
    rcases nextShardUpper_eq_some hnext with ⟨hover, -⟩ | ⟨hroom, hnone⟩
    · exact ⟨rfl, h.close hlt hupper hover index⟩
    · -- the query finds a row: at least `shard_size` are left above `last`
      have hleft : (shardSize - 1).toNat < (rowsAbove objects last).length := by
        have := h.rows
        omega
      have := getNextShardRangeUpper_isSome hleft
      rw [hnone] at this
      cases this
  | case3 found progress last index _ finalRange n hnext hbeyond =>
    exact absurd (hupper n (mem_of_mem_rowsAbove (mem_rowsAbove_of_nextShardUpper hnext)))
      (not_le.mpr hbeyond)
  | case4 found progress last index _ n hnext hle found' heq =>
    -- a shard point at the upper bound would leave no row above it, but `minimum_shard_size` are
    rcases nextShardUpper_eq_some hnext with ⟨-, hnone⟩ | ⟨hroom, hn⟩
    · cases hnone
    have h' := h.appendShard hnodup hsize (ne_maxBound_of_lt hlt) hn hroom index
    have hnil : rowsAbove objects n.bound = [] :=
      rowsAbove_eq_nil (by simp [ObjectName.bound]) (heq ▸ hupper)
    have := h'.rows
    rw [hnil] at this
    simp at this
    omega
  | case5 found progress last index _ n hnext hle found' hne ih =>
    rcases nextShardUpper_eq_some hnext with ⟨-, hnone⟩ | ⟨hroom, hn⟩
    · cases hnone
    exact ih (h.appendShard hnodup hsize (ne_maxBound_of_lt hlt) hn hroom index)
      (lt_of_le_of_ne (not_lt.mp hle) hne)

end Sized

/-! ### `find_shard_ranges` -/

/-- On every table, whatever `object_count` says and whichever queries raise: the ranges found
are laid end to end from where the scan starts (the upper bound of the last existing range, or
the container's lower bound), none is empty, none ends above the container's upper bound, their
indices count on from the existing ranges, and when the scan is done it has reached the upper
bound. -/
theorem findShardRanges_tiles (objects : List ObjectName) (queryFails : Bound → Bool)
    (objectCount : Int) (ownLower ownUpper : Bound) (hown : ownLower < ownUpper)
    (shardSize : Int) (limit : Option Int) (existingRanges : List ShardRange)
    (minimumShardSize : Int) :
    let start := (existingRanges.getLast?.map fun last => Bound.ofUpper last.upper).getD ownLower
    let r := findShardRanges objects queryFails objectCount ownLower ownUpper shardSize limit
      existingRanges minimumShardSize
    Laid start ownUpper existingRanges.length r.1 ∧
      (r.2 = true → ownUpper ≤ scannedTo start r.1) := by
  intro start r
  simp only [r, findShardRanges]
  split
  · exact ⟨Laid.nil _ _ _, fun h => nomatch h⟩
  split
  · -- a first scan, from the container's lower bound
    rename_i hnone
    have hstart : start = ownLower := by simp [start, hnone]
    have hlen : existingRanges.length = 0 := by simpa using List.getLast?_eq_none_iff.mp hnone
    rw [hstart, hlen]
    obtain ⟨hlaid, hdone⟩ := laid_findShardRangesLoop (Laid.nil ownLower ownUpper 0) rfl hown rfl
    exact ⟨hlaid, fun h => (hdone h).ge⟩
  · -- a scan resumed from the last existing range
    rename_i last hlast
    have hstart : start = Bound.ofUpper last.upper := by simp [start, hlast]
    rw [hstart]
    split
    · rename_i hreached
      exact ⟨Laid.nil _ _ _, fun _ => hreached⟩
    · rename_i hbelow
      obtain ⟨hlaid, hdone⟩ := laid_findShardRangesLoop
        (Laid.nil (Bound.ofUpper last.upper) ownUpper existingRanges.length) rfl
        (not_le.mp hbelow) (Nat.add_zero _).symm
      exact ⟨hlaid, fun h => (hdone h).ge⟩

/-- A first scan of a container of three rows, one row a shard. -/
theorem findShardRanges_tiles_threeRows :
    let r := findShardRanges [⟨"a", by decide⟩, ⟨"b", by decide⟩, ⟨"c", by decide⟩]
      (fun _ => false) 3 .minBound .maxBound 1 none [] 1
    Laid .minBound .maxBound 0 r.1 ∧ (r.2 = true → .maxBound ≤ scannedTo .minBound r.1) :=
  findShardRanges_tiles _ _ 3 .minBound .maxBound
    ((Bound.minBound_lt_name (show "a" ≠ "" by decide)).trans (Bound.name_lt_maxBound _))
    1 none [] 1

/-- A first scan of a table whose rows all lie in the container's namespace and are counted by
`object_count`, with no limit and no query that raises, finishes; each range is counted at the
rows it holds, each but the last at `shard_size`, the last at between `minimum_shard_size` and
`shard_size + minimum_shard_size - 1`, and the counts add up to the rows of the table. -/
theorem findShardRanges_sizes (objects : List ObjectName)
    (hnodup : (objects.map Subtype.val).Nodup) (queryFails : Bound → Bool)
    (hfails : ∀ b, queryFails b = false) (ownLower ownUpper : Bound)
    (hrows : ∀ n ∈ objects, ownLower < n.bound ∧ n.bound ≤ ownUpper) (shardSize : Int)
    (hsize : 1 ≤ shardSize) (limit : Option Int) (hlimit : ∀ l ∈ limit, l < 0)
    (minimumShardSize : Int) (henough : shardSize + max minimumShardSize 1 ≤ objects.length) :
    let r := findShardRanges objects queryFails objects.length ownLower ownUpper shardSize limit []
      minimumShardSize
    r.2 = true ∧ Sized objects shardSize (max minimumShardSize 1) r.1 := by
  intro r
  have hmin : 1 ≤ max minimumShardSize 1 := le_max_right _ _
  -- the table has a row, so the namespace is not empty
  obtain ⟨n, hn⟩ : ∃ n, n ∈ objects := by
    cases objects with
    | nil => simp at henough; omega
    | cons n _ => exact ⟨n, List.mem_cons_self⟩
  have hown : ownLower < ownUpper := (hrows n hn).1.trans_le (hrows n hn).2
  have hstart : Counted objects shardSize (max minimumShardSize 1) [] 0 ownLower := by
    refine ⟨?_, rfl, by simp, by omega⟩
    rw [rowsAbove_of_forall_lt fun n hn => (hrows n hn).1]
    simp
  simp only [r, findShardRanges, if_neg (not_lt.mpr henough)]
  exact sized_findShardRangesLoop hnodup (fun n hn => (hrows n hn).2) hfails hlimit hsize hmin
    hstart hown

/-- The same container, scanned to the end. -/
theorem findShardRanges_sizes_threeRows :
    let r := findShardRanges [⟨"a", by decide⟩, ⟨"b", by decide⟩, ⟨"c", by decide⟩]
      (fun _ => false) 3 .minBound .maxBound 1 none [] 1
    r.2 = true ∧ Sized [⟨"a", by decide⟩, ⟨"b", by decide⟩, ⟨"c", by decide⟩] 1 (max 1 1) r.1 :=
  findShardRanges_sizes _ (by decide) _ (fun _ => rfl) .minBound .maxBound
    (fun n _ => ⟨Bound.minBound_lt_name n.2, Bound.le_maxBound _⟩) 1 le_rfl none
    (fun _ h => nomatch h) 1 (by decide)

/-- A row beyond the container's upper bound: the shard point `b` falls on the upper bound, the
only range is counted at `shard_size`, and the counts fall short of `object_count`, although the
source's comment has it that "the sum of shard sizes will equal the unsharded object_count". -/
theorem findShardRanges_misplaced :
    let r := findShardRanges [⟨"a", by decide⟩, ⟨"b", by decide⟩, ⟨"c", by decide⟩]
      (fun _ => false) 3 .minBound (.name "b" (by decide)) 2 none [] 1
    r = ([⟨0, "", "b", 2⟩], true) ∧ (r.1.map FoundShardRange.objectCount).sum ≠ 3 := by
  have hnext : nextShardUpper [⟨"a", by decide⟩, ⟨"b", by decide⟩, ⟨"c", by decide⟩]
      (fun _ => false) 3 0 2 (max 1 1) .minBound = some (some ⟨"b", by decide⟩) := by
    decide
  have hr : findShardRanges [⟨"a", by decide⟩, ⟨"b", by decide⟩, ⟨"c", by decide⟩]
      (fun _ => false) 3 .minBound (.name "b" (by decide)) 2 none [] 1 =
        ([⟨0, "", "b", 2⟩], true) := by
    have hsmall : ¬ (2 : Int) + max 1 1 > 3 := by decide
    rw [findShardRanges]
    simp only [hsmall, if_false, List.getLast?_nil]
    rw [findShardRangesLoop]
    simp only [Option.all_none, if_true]
    split
    next hm => rw [hnext] at hm; cases hm
    next hm => rw [hnext] at hm; cases hm
    next n hm =>
      rw [hnext] at hm
      obtain rfl := Option.some.inj (Option.some.inj hm)
      decide
  refine ⟨hr, ?_⟩
  rw [hr]
  decide

end Container


end Swift
