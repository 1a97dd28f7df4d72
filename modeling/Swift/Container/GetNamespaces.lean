import Swift.Common.Namespace
import Swift.Container.ShardRange
import Swift.Data.ExceptMapM
import Mathlib.Data.List.Sort

/-!
# `ContainerBroker.get_namespaces`

The namespaces a container database lists to whoever asks for its shard ranges in namespace
format: the rows of the `shard_range` table that the query selects, sorted by
`ShardRange.sort_key_order`, each read back as a `Namespace`; with `includes`, only the first of
them; otherwise, with `fill_gaps`, followed by a copy of the broker's own shard range that covers
what is left of its namespace after the last one found (`_make_filler_shard_range`).

## The model

The query is a filter on the table's rows by its `WHERE` clause. Python's `list.sort` is stable,
and so is `List.insertionSort`, so both leave the selected rows in the same order. Reading a row
back as a `Namespace` runs the bound setters, which raise when the upper bound is below the lower
one; the comprehension that does it is a `mapM` in `Except`.

Markers are strings, with `''` for `None`: the source only tests their truth and compares them
with strings and bounds. The early return for a marker equal to `Namespace.MAX` (or an end marker
equal to `Namespace.MIN`) tests a string against a bound singleton, which never holds, and is
left out.

## Main results

* `Container.mem_queryNamespaces_includes`: the namespaces the query finds with `includes=obj`
  are those it finds without, that hold `obj`.
* `Container.tiles_append_filler`: namespaces tiling from `MIN`, completed by the filler of the
  root's own shard range, tile from `MIN` to `MAX`.
* `Container.printable_of_getNamespaces`: every namespace `get_namespaces` lists prints to strings
  that read back as itself.
-/

namespace Swift

namespace Container

open Tiling

/-! ### The query -/

/-- `ShardRange.sort_key_order(name, lower, upper, state)`: by upper bound, `''` being
`Namespace.MAX`, then by state, lower bound and name. -/
def sortKeyOrder (r : ShardRange) : Bound ×ₗ (ℕ ×ₗ (String ×ₗ String)) :=
  toLex (Bound.ofUpper r.upper, toLex (r.state, toLex (r.lower, r.name)))

/-- The conditions of the query on the row itself: `deleted = 0`, `name != ?` for the broker's
own path, and `state in (...)` when states are given. -/
def rowClause (path : String) (states : List Nat) (r : ShardRange) : Bool :=
  !r.deleted && r.name != path && (states.isEmpty || states.contains r.state)

/-- The conditions of the query on the row's namespace: with `includes`, `lower < ?` and
`(upper = '' OR upper >= ?)`; otherwise `lower < ?` for an end marker and
`(upper = '' OR upper > ?)` for a marker. -/
def rangeClause (marker endMarker : String) (includes : Option String) (r : ShardRange) : Bool :=
  match includes with
  | none =>
    (endMarker == "" || decide (r.lower < endMarker)) &&
      (marker == "" || r.upper == "" || decide (marker < r.upper))
  | some i => decide (r.lower < i) && (r.upper == "" || decide (i ≤ r.upper))

/-- The `WHERE` clause of the query. -/
def whereClause (path : String) (states : List Nat) (marker endMarker : String)
    (includes : Option String) (r : ShardRange) : Bool :=
  rowClause path states r && rangeClause marker endMarker includes r

/-- The rows the query selects, after `namespaces.sort(key=sort_key)`. -/
def sortedRows (rows : List ShardRange) (path : String) (states : List Nat)
    (marker endMarker : String) (includes : Option String) : List ShardRange :=
  (rows.filter (whereClause path states marker endMarker includes)).insertionSort
    fun a b => sortKeyOrder a ≤ sortKeyOrder b

/-- `Namespace(row[0], row[1], row[2])`. -/
def rowNamespace (r : ShardRange) : Except String Namespace :=
  Namespace.make r.name r.lower r.upper

/-- The query and the conversion of its rows to namespaces. -/
def queryNamespaces (rows : List ShardRange) (path : String) (states : List Nat)
    (marker endMarker : String) (includes : Option String) : Except String (List Namespace) :=
  (sortedRows rows path states marker endMarker includes).mapM rowNamespace

/-! ### `get_namespaces` -/

/-- The filler `_make_filler_shard_range` builds: the broker's own shard range with its bounds
set to `lower` and `upper`; `None` when that namespace would be empty. -/
def fillerShardRange (own : Namespace) (lower upper : Bound) : Option Namespace :=
  if h : lower < upper then some ⟨own.name, lower, upper, h.le⟩ else none

/-- `_make_filler_shard_range`: a copy of the broker's own shard range, from the upper bound of
the last namespace found (or from the marker, if none was found) to the end of its own
namespace (or to the end marker); `None` if the last namespace found reaches `MAX`. -/
def makeFillerShardRange (own : Namespace) (namespaces : List Namespace)
    (marker endMarker : String) : Option Namespace :=
  if namespaces.getLast?.map Namespace.upper = some .maxBound then none
  else
    let lastUpper := match namespaces.getLast? with
      | some last => last.upper
      | none => max (Bound.ofLower marker) own.lower
    let requiredUpper := min (Bound.ofUpper endMarker) own.upper
    fillerShardRange own lastUpper requiredUpper

/-- `ContainerBroker.get_namespaces(marker, end_marker, includes, reverse, states, fill_gaps)`
on a broker with path `path` and own shard range `own`. -/
def getNamespaces (rows : List ShardRange) (path : String) (own : Namespace)
    (marker endMarker : String) (includes : Option String) (reverse : Bool) (states : List Nat)
    (fillGaps : Bool) : Except String (List Namespace) :=
  let (marker, endMarker) := if reverse then (endMarker, marker) else (marker, endMarker)
  if marker ≠ "" ∧ endMarker ≠ "" ∧ endMarker ≤ marker then .ok []
  else do
    let namespaces ← queryNamespaces rows path states marker endMarker includes
    if includes.getD "" ≠ "" then return namespaces.take 1
    let namespaces :=
      if fillGaps then namespaces ++ (makeFillerShardRange own namespaces marker endMarker).toList
      else namespaces
    return if reverse then namespaces.reverse else namespaces

/-- `SHARD_UPDATE_STATES`: `CREATED`, `CLEAVED`, `ACTIVE` and `SHARDING`, the states of a shard
range that takes object updates. -/
def shardUpdateStates : List Nat := [20, 30, 40, 60]

/-- The own shard range of a root container, as `get_own_shard_range` makes it: the whole
namespace, under the root's path. -/
def rootShardRange (path : String) : Namespace := ⟨path, .minBound, .maxBound, Bound.minBound_le _⟩

/-- `ContainerController.update_shard_record` in namespace format: `dict(namespace)`, that is
the name and the two bounds as strings. -/
def shardRecord (ns : Namespace) : String × String × String :=
  (ns.name, ns.lower.toStr, ns.upper.toStr)

/-! ### What the query selects -/

section Query

variable {rows : List ShardRange} {path : String} {states : List Nat}

theorem mem_sortedRows {marker endMarker : String} {includes : Option String} {r : ShardRange} :
    r ∈ sortedRows rows path states marker endMarker includes ↔
      r ∈ rows ∧ whereClause path states marker endMarker includes r = true := by
  rw [sortedRows, List.mem_insertionSort, List.mem_filter]

/-- With `includes` the markers play no part, and the range condition is membership of the
name in the row's namespace. -/
theorem rangeClause_includes {marker endMarker obj : String} (hobj : obj ≠ "") (r : ShardRange) :
    rangeClause marker endMarker (some obj) r = true ↔
      Bound.name obj hobj ∈ Set.Ioc (Bound.ofLower r.lower) (Bound.ofUpper r.upper) := by
  have hlo := Bound.lt_iff_ofLower_lt r.lower hobj
  have hup := Bound.le_ofUpper_iff r.upper hobj
  simp only [rangeClause, Bool.and_eq_true, Bool.or_eq_true, beq_iff_eq, decide_eq_true_eq]
  rw [hlo, hup]
  rfl

theorem rangeClause_unbounded (r : ShardRange) : rangeClause "" "" none r = true := by
  simp [rangeClause]

/-- The rows found with `includes=obj` are the rows found without it whose namespace holds
`obj`. -/
theorem mem_sortedRows_includes {obj : String} (hobj : obj ≠ "") {r : ShardRange} :
    r ∈ sortedRows rows path states "" "" (some obj) ↔
      r ∈ sortedRows rows path states "" "" none ∧
        Bound.name obj hobj ∈ Set.Ioc (Bound.ofLower r.lower) (Bound.ofUpper r.upper) := by
  simp only [mem_sortedRows, whereClause, Bool.and_eq_true, rangeClause_unbounded,
    rangeClause_includes hobj, and_true, and_assoc]

/-- The namespace read from a row is the row's name and bounds. -/
theorem rowNamespace_eq_ok {r : ShardRange} {ns : Namespace} (h : rowNamespace r = .ok ns) :
    ns.name = r.name ∧ ns.lower = Bound.ofLower r.lower ∧ ns.upper = Bound.ofUpper r.upper :=
  Namespace.make_eq_ok h

/-- If the query without `includes` goes through, so does the query with it, and it finds the
namespaces of the first that hold `obj`. -/
theorem mem_queryNamespaces_includes {obj : String} (hobj : obj ≠ "") {N : List Namespace}
    (hN : queryNamespaces rows path states "" "" none = .ok N) :
    ∃ U, queryNamespaces rows path states "" "" (some obj) = .ok U ∧
      ∀ ns, ns ∈ U ↔ ns ∈ N ∧ Bound.name obj hobj ∈ Set.Ioc ns.lower ns.upper := by
  -- every row found with `includes` is found without it, where it was read back
  have hread : ∀ r ∈ sortedRows rows path states "" "" (some obj),
      ∃ ns ∈ N, rowNamespace r = .ok ns := fun r hr =>
    MapM.exists_of_mapM_eq_ok hN ((mem_sortedRows_includes hobj).mp hr).1
  obtain ⟨U, hU⟩ := MapM.exists_mapM_eq_ok fun r hr =>
    (hread r hr).imp fun _ h => h.2
  refine ⟨U, hU, fun ns => ⟨fun hns => ?_, fun ⟨hns, hmem⟩ => ?_⟩⟩
  · obtain ⟨r, hr, hrns⟩ := MapM.exists_of_mem_of_mapM_eq_ok hU hns
    obtain ⟨ns', hns', hrns'⟩ := hread r hr
    rw [hrns] at hrns'
    cases hrns'
    obtain ⟨-, hlo, hup⟩ := rowNamespace_eq_ok hrns
    rw [hlo, hup]
    exact ⟨hns', ((mem_sortedRows_includes hobj).mp hr).2⟩
  · obtain ⟨r, hr, hrns⟩ := MapM.exists_of_mem_of_mapM_eq_ok hN hns
    obtain ⟨-, hlo, hup⟩ := rowNamespace_eq_ok hrns
    rw [hlo, hup] at hmem
    obtain ⟨ns', hns', hrns'⟩ := MapM.exists_of_mapM_eq_ok hU
      ((mem_sortedRows_includes hobj).mpr ⟨hr, hmem⟩)
    rw [hrns] at hrns'
    cases hrns'
    exact hns'

/-- Every namespace the query finds prints back to its row. -/
theorem printable_of_queryNamespaces {marker endMarker : String} {includes : Option String}
    {N : List Namespace} (hN : queryNamespaces rows path states marker endMarker includes = .ok N)
    {ns : Namespace} (hns : ns ∈ N) : ns.Printable := by
  obtain ⟨r, -, hr⟩ := MapM.exists_of_mem_of_mapM_eq_ok hN hns
  exact Namespace.printable_of_make_eq_ok hr

end Query

/-! ### The filler -/

section Filler

variable {own : Namespace} {N : List Namespace} {marker endMarker : String}

theorem fillerShardRange_eq_some {lower upper : Bound} {f : Namespace}
    (h : fillerShardRange own lower upper = some f) :
    f.name = own.name ∧ f.lower = lower ∧ f.upper = upper ∧ lower < upper := by
  unfold fillerShardRange at h
  split at h
  next hlt => cases h; exact ⟨rfl, rfl, rfl, hlt⟩
  next => cases h

theorem exists_fillerShardRange {f : Namespace}
    (h : makeFillerShardRange own N marker endMarker = some f) :
    ∃ lower upper, fillerShardRange own lower upper = some f := by
  unfold makeFillerShardRange at h
  split at h
  next => cases h
  next => exact ⟨_, _, h⟩

theorem makeFillerShardRange_name {f : Namespace}
    (h : makeFillerShardRange own N marker endMarker = some f) : f.name = own.name := by
  obtain ⟨lower, upper, hf⟩ := exists_fillerShardRange h
  exact (fillerShardRange_eq_some hf).1

/-- The filler is never empty, so it prints back to itself. -/
theorem makeFillerShardRange_printable {f : Namespace}
    (h : makeFillerShardRange own N marker endMarker = some f) : f.Printable := by
  obtain ⟨lower, upper, hf⟩ := exists_fillerShardRange h
  obtain ⟨-, hlo, hup, hlt⟩ := fillerShardRange_eq_some hf
  rw [Namespace.Printable, hlo, hup]
  exact ⟨ne_of_lt (lt_of_lt_of_le hlt (Bound.le_maxBound _)),
    ne_of_gt (lt_of_le_of_lt (Bound.minBound_le _) hlt)⟩

theorem makeFillerShardRange_of_getLast_max {last : Namespace} (hlast : N.getLast? = some last)
    (hmax : last.upper = .maxBound) : makeFillerShardRange own N "" "" = none := by
  simp [makeFillerShardRange, hlast, hmax]

variable (hup : own.upper = .maxBound)
include hup

/-- For the root, after a last namespace short of `MAX`, the filler runs from its upper bound
to `MAX`. -/
theorem makeFillerShardRange_of_getLast {last : Namespace} (hlast : N.getLast? = some last)
    (hmax : last.upper ≠ .maxBound) :
    makeFillerShardRange own N "" "" =
      some ⟨own.name, last.upper, .maxBound, Bound.le_maxBound _⟩ := by
  have hmin : min (Bound.ofUpper "") own.upper = .maxBound := by
    rw [hup]
    exact min_self _
  have hlt : last.upper < .maxBound := lt_of_le_of_ne (Bound.le_maxBound _) hmax
  simp only [makeFillerShardRange, hlast, Option.map_some, Option.some.injEq, hmax, if_false, hmin,
    fillerShardRange]
  rw [dif_pos hlt]

variable (hlo : own.lower = .minBound)
include hlo

/-- For the root, with nothing found the filler is the whole namespace. -/
theorem makeFillerShardRange_nil :
    makeFillerShardRange own [] "" "" =
      some ⟨own.name, .minBound, .maxBound, Bound.minBound_le _⟩ := by
  have hmax : max (Bound.ofLower "") own.lower = .minBound := by
    rw [hlo]
    exact max_self _
  have hmin : min (Bound.ofUpper "") own.upper = .maxBound := by
    rw [hup]
    exact min_self _
  simp only [makeFillerShardRange, List.getLast?_nil, Option.map_none, reduceCtorEq,
    if_false, hmax, hmin, fillerShardRange]
  rw [dif_pos (by simp [Bound.lt_def, Bound.key, Prod.Lex.toLex_lt_toLex])]

/-- Namespaces tiling from `MIN`, completed by the root's filler, tile the whole namespace. -/
theorem tiles_append_filler (hT : Tiles (N.map Namespace.bounds))
    (hmin : ∀ ns ∈ N.head?, ns.lower = .minBound) :
    let C := N ++ (makeFillerShardRange own N "" "").toList
    ∃ hne : C ≠ [], Tiles (C.map Namespace.bounds) ∧ (C.head hne).lower = .minBound ∧
      (C.getLast hne).upper = .maxBound := by
  intro C
  cases hlast : N.getLast? with
  | none =>
    -- nothing found: the filler alone is `(MIN, MAX]`
    obtain rfl : N = [] := List.getLast?_eq_none_iff.mp hlast
    have hC : C = [⟨own.name, .minBound, .maxBound, Bound.minBound_le _⟩] := by
      simp only [C, makeFillerShardRange_nil hup hlo, Option.toList_some, List.nil_append]
    rw [hC]
    refine ⟨List.cons_ne_nil _ _, ⟨?_, List.isChain_singleton _⟩, rfl, rfl⟩
    intro iv hiv
    rw [List.map_singleton, List.mem_singleton] at hiv
    rw [hiv]
    exact Bound.minBound_le _
  | some last =>
    have hne : N ≠ [] := by
      rintro rfl
      cases hlast
    have hget : N.getLast hne = last :=
      Option.some.inj ((List.getLast?_eq_some_getLast hne).symm.trans hlast)
    have hhead : (N.head hne).lower = .minBound := hmin _ (List.head?_eq_some_head hne)
    by_cases hmax : last.upper = .maxBound
    · -- the last namespace reaches `MAX`: no filler
      have hC : C = N := by
        simp only [C, makeFillerShardRange_of_getLast_max hlast hmax, Option.toList_none,
          List.append_nil]
      rw [hC]
      exact ⟨hne, hT, hhead, hget ▸ hmax⟩
    · -- the filler runs on from the last namespace to `MAX`
      let f : Namespace := ⟨own.name, last.upper, .maxBound, Bound.le_maxBound _⟩
      have hC : C = N ++ [f] := by
        simp only [C, makeFillerShardRange_of_getLast hup hlast hmax, Option.toList_some, f]
      rw [hC]
      have hT' : Tiles ((N ++ [f]).map Namespace.bounds) := by
        rw [List.map_append, List.map_singleton]
        refine hT.append_singleton (fun l hl => ?_) (Bound.le_maxBound _)
        rw [List.getLast?_map, hlast, Option.map_some, Option.mem_some_iff] at hl
        rw [← hl]
        rfl
      refine ⟨by simp, hT', ?_, by simp [f]⟩
      rw [List.head_append_of_ne_nil hne]
      exact hhead

end Filler

/-! ### What `get_namespaces` returns -/

section GetNamespaces

variable {rows : List ShardRange} {path : String} {own : Namespace} {states : List Nat}

/-- With `includes=obj`, the first of the namespaces the query finds. -/
theorem getNamespaces_includes {obj : String} (hobj : obj ≠ "") {fillGaps : Bool}
    {U : List Namespace} (hU : queryNamespaces rows path states "" "" (some obj) = .ok U) :
    getNamespaces rows path own "" "" (some obj) false states fillGaps = .ok (U.take 1) := by
  simp [getNamespaces, hU, hobj, bind, Except.bind, pure, Except.pure]

/-- With `fill_gaps` and no `includes`, the namespaces the query finds and the filler. -/
theorem getNamespaces_fillGaps {N : List Namespace}
    (hN : queryNamespaces rows path states "" "" none = .ok N) :
    getNamespaces rows path own "" "" none false states true =
      .ok (N ++ (makeFillerShardRange own N "" "").toList) := by
  simp [getNamespaces, hN, bind, Except.bind, pure, Except.pure]

/-- Every namespace `get_namespaces` lists prints to strings that read back as itself: the
namespaces read from rows do, and so does the filler. -/
theorem printable_of_getNamespaces {marker endMarker : String} {includes : Option String}
    {reverse fillGaps : Bool} {L : List Namespace}
    (hL : getNamespaces rows path own marker endMarker includes reverse states fillGaps = .ok L) :
    ∀ ns ∈ L, ns.Printable := by
  -- whichever branch returns, its namespaces come from the query or are the filler
  have hfound : ∀ {m e : String} {N : List Namespace},
      queryNamespaces rows path states m e includes = .ok N →
      ∀ ns ∈ N ++ (makeFillerShardRange own N m e).toList, ns.Printable := by
    intro m e N hN ns hns
    rcases List.mem_append.mp hns with hns | hns
    · exact printable_of_queryNamespaces hN hns
    · exact makeFillerShardRange_printable (Option.mem_toList.mp hns)
  unfold getNamespaces at hL
  split at hL
  next m e hm =>
    split at hL
    next => cases hL; simp
    next =>
      cases hN : queryNamespaces rows path states m e includes with
      | error err => simp [hN, bind, Except.bind] at hL
      | ok N =>
        simp only [hN, bind, Except.bind, pure, Except.pure] at hL
        intro ns hns
        split at hL
        next => cases hL; exact hfound hN ns (List.mem_append_left _ (List.mem_of_mem_take hns))
        next =>
          cases hL
          -- `reverse` only reorders the list, and without `fill_gaps` there is no filler
          have hfill : ns ∈ if fillGaps then N ++ (makeFillerShardRange own N m e).toList else N := by
            by_cases hr : reverse = true
            · rwa [if_pos hr, List.mem_reverse] at hns
            · rwa [if_neg hr] at hns
          by_cases hf : fillGaps = true
          · rw [if_pos hf] at hfill
            exact hfound hN ns hfill
          · rw [if_neg hf] at hfill
            exact hfound hN ns (List.mem_append_left _ hfill)

end GetNamespaces

end Container

end Swift
