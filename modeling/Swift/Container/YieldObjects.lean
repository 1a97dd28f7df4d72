import Swift.Db.Listing
import Swift.Common.FindNamespace
import Swift.Container.FindPaths
import Swift.Data.PySort

/-!
# Reading the rows of a namespace in batches

`ContainerSharder.yield_objects` reads the rows of a namespace from a container DB a batch at a
time: `get_objects(limit=batch_size, marker, end_marker)` returns the next rows in name order,
and the next query starts from the last name of the batch before. It reads the undeleted rows
first, then the deleted ones. Cleaving a shard range and moving misplaced objects both read the
rows they copy this way.

`yield_objects_to_shard_range` walks the destinations in order: the rows below a destination
and above the last one go with no destination, the rows of the source a destination holds go with
it, and the rows above the last destination go with none. Each part is read by `yield_objects`
over a copy of the source with new bounds, and a copy whose upper bound is below its lower one
raises.

The next query asks for `name > marker`. Rows of one name in two storage policies, which the
object table keeps apart until the reconciler moves one of them, are then a hazard: a batch that
ends between them makes the next query skip the rest.

## The model

A row is a `Listing.ObjectRow`; `get_objects` is `Listing.listObjectsIter` with no prefix and no
delimiter, over all policies. The loop carries a fuel, `rows.length + 1`: each full batch moves
the marker past at least one row, so the fuel runs out only where Python would loop forever, on
a row with an empty name.

## Main results

* `getObjects_eq` — a query is the first `limit` rows in its window, in name order
* `yieldObjects_flatten` — on a table whose names are distinct, the batches hold exactly the rows
  of the namespace, undeleted ones then deleted ones, each in name order
* `yieldObjects_skips_policy_duplicate` — with two rows of one name, a batch of one row skips the
  second
* `routeLoop_places`, `routeLoop_covers` — the loop over the destinations yields each row of the
  source above its marker, and each with a destination that holds it, or with none
* `yieldObjectsToShardRange_routes` — `yield_objects_to_shard_range` routes every row of the source
  namespace and no other
-/

namespace Swift

namespace Sharder

open Listing PySort

/-! ### `get_objects` -/

/-- The row of an entry; `get_objects` lists no sub-directories. -/
def rowOf? : Entry ObjectRow → Option ObjectRow
  | .row r => some r
  | .subdir _ => none

/-- `ContainerBroker.get_objects(limit, marker, end_marker, include_deleted, since_row)`: a
listing of every policy, reserved names allowed, each row as its dict. -/
def getObjects (rows : List ObjectRow) (limit : Nat) (marker endMarker : List Char)
    (includeDeleted : Option Bool) (sinceRow : Option Nat) : Option (List ObjectRow) :=
  (listObjectsIter rows limit marker endMarker none [] none 0 false includeDeleted sinceRow true
    true).map fun entries => entries.filterMap rowOf?

/-- The range conditions of a query: `name > marker` unless the marker is empty, and
`name < end_marker` unless the end marker is. -/
def inWindow (marker endMarker name : List Char) : Bool :=
  (marker.isEmpty || decide (marker < name)) && (endMarker.isEmpty || decide (name < endMarker))

/-- The rows a query with these conditions returns, without its `LIMIT`: the kept rows in the
window, in name order. -/
def window (rows : List ObjectRow) (marker endMarker : List Char) (includeDeleted : Option Bool)
    (sinceRow : Option Nat) : List ObjectRow :=
  sortByKey ObjectRow.name (rows.filter fun r =>
    objectKeep includeDeleted sinceRow 0 true r && inWindow marker endMarker r.name)

/-- With no prefix, the conditions of the first query are the window of the markers. -/
theorem admits_eq_inWindow (limit : Nat) (prefixEnd delimiter : List Char)
    (path : Option (List Char)) (reverse : Bool) (origMarker : List Char)
    (results : List (Entry ObjectRow)) (marker endMarker name : List Char) :
    ((Setup.mk limit none prefixEnd delimiter path reverse true origMarker).queryFor
      ⟨results, marker, endMarker, false⟩).admits true name = inWindow marker endMarker name := by
  cases marker <;> cases endMarker <;>
    simp [Query.admits, Setup.queryFor, inWindow, Bool.and_comm]

@[simp] theorem filterMap_rowOf?_map_row (l : List ObjectRow) :
    (l.map Entry.row).filterMap rowOf? = l := by
  induction l with
  | nil => rfl
  | cons r l ih => simp [rowOf?, ih]

/-- `get_objects` with no prefix or delimiter is one query: the first `limit` rows of its
window. -/
theorem getObjects_eq (rows : List ObjectRow) (limit : Nat) (marker endMarker : List Char)
    (includeDeleted : Option Bool) (sinceRow : Option Nat) :
    getObjects rows limit marker endMarker includeDeleted sinceRow =
      some ((window rows marker endMarker includeDeleted sinceRow).take limit) := by
  unfold getObjects listObjectsIter setupListing
  cases limit with
  | zero => simp [listingLoop]
  | succ n =>
    simp [listingLoop, selectRows, window, sortByKey, admits_eq_inWindow]
    rw [← List.map_take, filterMap_rowOf?_map_row]

/-! ### Windows and namespaces -/

/-- `Namespace.end_marker`: `upper_str + '\x00'` when the upper bound is truthy, else `''`. -/
def endMarkerOf : Bound → List Char
  | .name s _ => s.toList ++ ['\x00']
  | _ => []

/-- `'\x00'` is the least character, so `name < s + '\x00'` is `name <= s`. -/
theorem lt_append_nul_iff (l s : List Char) : l < s ++ ['\x00'] ↔ l ≤ s := by
  induction s generalizing l with
  | nil =>
    cases l with
    | nil => simp
    | cons c l => simp [List.cons_lt_cons_iff, Char.lt_def]
  | cons a s ih =>
    cases l with
    | nil => exact ⟨fun _ => nil_le _, fun _ => List.nil_lt_cons _ _⟩
    | cons c l => rw [List.cons_append, List.cons_lt_cons_iff, cons_le_cons_iff, ih]

/-- Between the markers of a namespace are the names it holds. -/
theorem inWindow_eq_contains (src : Namespace) (hl : src.lower ≠ .maxBound)
    (hu : src.upper ≠ .minBound) {name : List Char} (hn : name ≠ []) :
    inWindow src.lower.toStr.toList (endMarkerOf src.upper) name =
      src.contains (String.ofList name) := by
  have hne : String.ofList name ≠ "" := by
    rw [Ne, ← String.toList_eq_nil_iff, String.toList_ofList]
    exact hn
  -- the marker decides `lower < name`, the end marker `name <= upper`
  have hlower : (src.lower.toStr.toList.isEmpty || decide (src.lower.toStr.toList < name)) =
      decide (src.lower < .name (String.ofList name) hne) := by
    cases h : src.lower with
    | minBound => simp [Bound.toStr]
    | name s hs =>
      have hs' : s.toList.isEmpty = false := by
        rw [List.isEmpty_eq_false_iff, Ne, String.toList_eq_nil_iff]
        exact hs
      simp only [Bound.toStr, hs', Bool.false_or]
      exact decide_eq_decide.mpr
        (by rw [Bound.name_lt_name, String.lt_iff_toList_lt, String.toList_ofList])
    | maxBound => exact absurd h hl
  have hupper : ((endMarkerOf src.upper).isEmpty || decide (name < endMarkerOf src.upper)) =
      decide (Bound.name (String.ofList name) hne ≤ src.upper) := by
    cases h : src.upper with
    | minBound => exact absurd h hu
    | name s hs => simp [endMarkerOf, lt_append_nul_iff, String.le_iff_toList_le]
    | maxBound => simp [endMarkerOf]
  rw [inWindow, hlower, hupper, Namespace.contains, dif_neg hne, Bool.decide_and]

/-- The rows of a namespace that are deleted or not as `deleted` says, and newer than
`since_row`, in name order: what the loops of `yield_objects` are meant to read. -/
def namespaceRows (rows : List ObjectRow) (src : Namespace) (deleted : Bool)
    (sinceRow : Option Nat) : List ObjectRow :=
  sortByKey ObjectRow.name (rows.filter fun r =>
    objectKeep (some deleted) sinceRow 0 true r && src.contains (String.ofList r.name))

/-! ### `yield_objects` -/

/-- One `while True` loop of `yield_objects`, from `marker`, over the undeleted rows or over the
deleted ones: the batches it yields; `none` where it raises (`objects[-1]` of an empty batch,
when `batch_size` is not positive) or runs out of fuel. -/
def yieldObjectsLoop (rows : List ObjectRow) (batchSize : Nat) (endMarker : List Char)
    (includeDeleted : Bool) (sinceRow : Option Nat) :
    Nat → List Char → Option (List (List ObjectRow))
  | 0, _ => none
  | fuel + 1, marker =>
    (getObjects rows batchSize marker endMarker (some includeDeleted) sinceRow).bind
      fun objects =>
        let yielded := if objects.isEmpty then [] else [objects]
        if objects.length < batchSize then some yielded
        else objects.getLast?.bind fun last =>
          (yieldObjectsLoop rows batchSize endMarker includeDeleted sinceRow fuel last.name).map
            (yielded ++ ·)

/-- `yield_objects(broker, src_shard_range, since_row, batch_size)` on a table with these rows:
the batches of undeleted rows of the namespace, then those of deleted rows. -/
def yieldObjects (rows : List ObjectRow) (batchSize : Nat) (src : Namespace)
    (sinceRow : Option Nat) : Option (List (List ObjectRow)) :=
  if src.lower = .maxBound ∨ src.upper = .minBound then some []
  else
    let loop := yieldObjectsLoop rows batchSize (endMarkerOf src.upper)
    (loop false sinceRow (rows.length + 1) src.lower.toStr.toList).bind fun undeleted =>
      (loop true sinceRow (rows.length + 1) src.lower.toStr.toList).map (undeleted ++ ·)

/-! ### Batches on distinct names -/

/-- The window of the last name of a batch, within the window of `m`: the names above it. -/
theorem inWindow_of_mem {m m' e : List Char} (hm' : m' ≠ []) (hin : inWindow m e m' = true)
    (n : List Char) : inWindow m' e n = (inWindow m e n && decide (m' < n)) := by
  have hm : m.isEmpty = true ∨ m < m' := by
    simpa [inWindow] using (Bool.and_eq_true_iff.mp hin).1
  have hm'e : m'.isEmpty = false := List.isEmpty_eq_false_iff.mpr hm'
  by_cases hlt : m' < n
  · -- a name above `m'` is above `m`
    have hmn : (m.isEmpty || decide (m < n)) = true := by
      rcases hm with hm | hm
      · simp [hm]
      · simp [hm.trans hlt]
    simp [inWindow, hm'e, hlt, hmn]
  · simp [inWindow, hm'e, hlt]

/-- Batches as `yield_objects` yields them: none empty, none longer than `batch_size`, and
together the rows `l`. -/
structure Batched (batchSize : Nat) (batches : List (List ObjectRow)) (l : List ObjectRow) :
    Prop where
  ne_nil : ∀ b ∈ batches, b ≠ []
  length_le : ∀ b ∈ batches, b.length ≤ batchSize
  flatten_eq : batches.flatten = l

/-- The last query of a loop: what it returns is yielded when it is not empty. -/
theorem Batched.last {batchSize : Nat} {l : List ObjectRow} (h : l.length ≤ batchSize) :
    Batched batchSize (if l.isEmpty then [] else [l]) l := by
  by_cases hl : l.isEmpty
  · rw [if_pos hl, List.isEmpty_iff.mp hl]
    exact ⟨by simp, by simp, rfl⟩
  · rw [if_neg hl]
    refine ⟨fun b hb => ?_, fun b hb => ?_, List.flatten_singleton⟩
    · rw [List.mem_singleton.mp hb]
      simpa using hl
    · rw [List.mem_singleton.mp hb]
      exact h

theorem Batched.cons {batchSize : Nat} {b : List ObjectRow} {batches : List (List ObjectRow)}
    {l : List ObjectRow} (hb : b ≠ []) (hlen : b.length ≤ batchSize)
    (h : Batched batchSize batches l) : Batched batchSize (b :: batches) (b ++ l) := by
  refine ⟨fun b' hb' => ?_, fun b' hb' => ?_, by rw [List.flatten_cons, h.flatten_eq]⟩
  · rcases List.mem_cons.mp hb' with rfl | hb'
    · exact hb
    · exact h.ne_nil b' hb'
  · rcases List.mem_cons.mp hb' with rfl | hb'
    · exact hlen
    · exact h.length_le b' hb'

theorem Batched.append {batchSize : Nat} {xs ys : List (List ObjectRow)} {l₁ l₂ : List ObjectRow}
    (h₁ : Batched batchSize xs l₁) (h₂ : Batched batchSize ys l₂) :
    Batched batchSize (xs ++ ys) (l₁ ++ l₂) := by
  refine ⟨fun b hb => ?_, fun b hb => ?_, by rw [List.flatten_append, h₁.flatten_eq, h₂.flatten_eq]⟩
  · rcases List.mem_append.mp hb with hb | hb
    · exact h₁.ne_nil b hb
    · exact h₂.ne_nil b hb
  · rcases List.mem_append.mp hb with hb | hb
    · exact h₁.length_le b hb
    · exact h₂.length_le b hb

section Distinct

variable {rows : List ObjectRow} (hnames : (rows.map ObjectRow.name).Nodup)
include hnames

theorem pairwise_window (marker endMarker : List Char) (includeDeleted : Option Bool)
    (sinceRow : Option Nat) :
    (window rows marker endMarker includeDeleted sinceRow).Pairwise
      fun a b => a.name < b.name :=
  pairwise_lt_sortByKey (hnames.sublist (List.filter_sublist.map _))

/-- After a full batch, the next query's window is the rest of the window. -/
theorem window_getElem_name (hne : ∀ r ∈ rows, r.name ≠ []) {marker endMarker : List Char}
    {includeDeleted : Option Bool} {sinceRow : Option Nat} {j : Nat}
    (hj : j < (window rows marker endMarker includeDeleted sinceRow).length) :
    window rows (window rows marker endMarker includeDeleted sinceRow)[j].name endMarker
        includeDeleted sinceRow =
      (window rows marker endMarker includeDeleted sinceRow).drop (j + 1) := by
  have hmem := List.mem_filter.mp (mem_sortByKey.mp (List.getElem_mem hj))
  have hin := (Bool.and_eq_true_iff.mp hmem.2).2
  have hfilter : (rows.filter fun r => objectKeep includeDeleted sinceRow 0 true r &&
        inWindow (window rows marker endMarker includeDeleted sinceRow)[j].name endMarker r.name) =
      (rows.filter fun r => objectKeep includeDeleted sinceRow 0 true r &&
        inWindow marker endMarker r.name).filter
          fun r => decide ((window rows marker endMarker includeDeleted sinceRow)[j].name < r.name) := by
    rw [List.filter_filter]
    refine List.filter_congr fun r _ => ?_
    rw [inWindow_of_mem (hne _ hmem.1) hin]
    cases objectKeep includeDeleted sinceRow 0 true r <;> simp [Bool.and_comm]
  conv_lhs => rw [window, hfilter, sortByKey_filter (hnames.sublist (List.filter_sublist.map _))]
  -- the two `<` on names differ only in their decidability instances
  convert filter_lt_getElem_of_pairwise (pairwise_window hnames _ _ _ _) j hj
  rfl

/-- A loop of `yield_objects` from any marker reads its window, a batch of at most `batch_size`
rows at a time, when the fuel outlasts the window. -/
theorem yieldObjectsLoop_spec (hne : ∀ r ∈ rows, r.name ≠ []) {batchSize : Nat}
    (hbatch : 0 < batchSize) (endMarker : List Char) (includeDeleted : Bool)
    (sinceRow : Option Nat) (fuel : Nat) (marker : List Char)
    (hfuel : (window rows marker endMarker (some includeDeleted) sinceRow).length < fuel) :
    ∃ batches, yieldObjectsLoop rows batchSize endMarker includeDeleted sinceRow fuel marker =
        some batches ∧
      Batched batchSize batches (window rows marker endMarker (some includeDeleted) sinceRow) := by
  -- induction on the fuel; each full batch leaves a shorter window
  induction fuel generalizing marker with
  | zero => exact absurd hfuel (Nat.not_lt_zero _)
  | succ fuel ih =>
    simp only [yieldObjectsLoop, getObjects_eq, Option.bind_some]
    by_cases hshort : (window rows marker endMarker (some includeDeleted) sinceRow).length < batchSize
    · -- the last batch is the rest of the window
      rw [List.take_of_length_le hshort.le, if_pos hshort]
      exact ⟨_, rfl, Batched.last hshort.le⟩
    · -- a full batch: the next query starts from its last name
      have hj : batchSize - 1 < (window rows marker endMarker (some includeDeleted) sinceRow).length :=
        by omega
      have hlen : ((window rows marker endMarker (some includeDeleted) sinceRow).take
          batchSize).length = batchSize := by simp; omega
      have hlast : ((window rows marker endMarker (some includeDeleted) sinceRow).take
          batchSize).getLast? = some (window rows marker endMarker (some includeDeleted) sinceRow)[batchSize - 1] := by
        rw [List.getLast?_take, if_neg (by omega), List.getElem?_eq_getElem hj]
        rfl
      have hnext := window_getElem_name hnames hne hj
      rw [Nat.sub_add_cancel hbatch] at hnext
      obtain ⟨batches, hrun, hbatched⟩ := ih
        (window rows marker endMarker (some includeDeleted) sinceRow)[batchSize - 1].name
        (by rw [hnext, List.length_drop]; omega)
      have hne' : ((window rows marker endMarker (some includeDeleted) sinceRow).take
          batchSize).isEmpty = false := by
        rw [List.isEmpty_eq_false_iff, ← List.length_pos_iff, hlen]
        exact hbatch
      rw [if_neg (by omega), hlast, Option.bind_some, hrun]
      refine ⟨_, rfl, ?_⟩
      rw [hne', if_neg Bool.false_ne_true]
      dsimp only
      rw [List.singleton_append]
      have hcons := Batched.cons (List.isEmpty_eq_false_iff.mp hne') hlen.le hbatched
      rwa [hnext, List.take_append_drop] at hcons

end Distinct

/-- Between the markers of a namespace, a query reads the rows of the namespace. -/
theorem window_eq_namespaceRows {rows : List ObjectRow} (hne : ∀ r ∈ rows, r.name ≠ [])
    {src : Namespace} (hl : src.lower ≠ .maxBound) (hu : src.upper ≠ .minBound) (deleted : Bool)
    (sinceRow : Option Nat) :
    window rows src.lower.toStr.toList (endMarkerOf src.upper) (some deleted) sinceRow =
      namespaceRows rows src deleted sinceRow := by
  rw [window, namespaceRows]
  congr 1
  exact List.filter_congr fun r hr => by rw [inWindow_eq_contains src hl hu (hne r hr)]

/-- A namespace with a lower bound of `MAX` or an upper bound of `MIN` holds no row. -/
theorem namespaceRows_eq_nil (rows : List ObjectRow) {src : Namespace}
    (h : src.lower = .maxBound ∨ src.upper = .minBound) (deleted : Bool)
    (sinceRow : Option Nat) : namespaceRows rows src deleted sinceRow = [] := by
  have hnil : (rows.filter fun r => objectKeep (some deleted) sinceRow 0 true r &&
      src.contains (String.ofList r.name)) = [] := by
    refine List.filter_eq_nil_iff.mpr fun r _ => ?_
    have hout : src.contains (String.ofList r.name) = false := by
      unfold Namespace.contains
      split
      · rfl
      · rcases h with h | h
        · simp [h, not_lt.mpr (Bound.le_maxBound _)]
        · simp [h, not_le.mpr (Bound.minBound_lt_name _)]
    simp [hout]
  rw [namespaceRows, hnil]
  rfl

theorem length_window_le (rows : List ObjectRow) (marker endMarker : List Char)
    (includeDeleted : Option Bool) (sinceRow : Option Nat) :
    (window rows marker endMarker includeDeleted sinceRow).length ≤ rows.length := by
  rw [window, sortByKey, List.length_insertionSort]
  exact List.length_filter_le _ _

/-- `yield_objects` over a namespace reads, batch by batch, its undeleted rows and then its
deleted ones. -/
theorem yieldObjects_batched {rows : List ObjectRow} (hnames : (rows.map ObjectRow.name).Nodup)
    (hne : ∀ r ∈ rows, r.name ≠ []) {batchSize : Nat} (hbatch : 0 < batchSize)
    (src : Namespace) (sinceRow : Option Nat) :
    ∃ batches, yieldObjects rows batchSize src sinceRow = some batches ∧
      Batched batchSize batches
        (namespaceRows rows src false sinceRow ++ namespaceRows rows src true sinceRow) := by
  by_cases hout : src.lower = .maxBound ∨ src.upper = .minBound
  · refine ⟨[], by simp [yieldObjects, hout], ?_⟩
    rw [namespaceRows_eq_nil rows hout, namespaceRows_eq_nil rows hout]
    exact ⟨by simp, by simp, rfl⟩
  · obtain ⟨hl, hu⟩ := not_or.mp hout
    -- each loop reads its window, which the fuel outlasts
    obtain ⟨undeleted, hrun₁, hbatched₁⟩ := yieldObjectsLoop_spec hnames hne hbatch
      (endMarkerOf src.upper) false sinceRow (rows.length + 1) src.lower.toStr.toList
      (Nat.lt_succ_of_le (length_window_le _ _ _ _ _))
    obtain ⟨deleted, hrun₂, hbatched₂⟩ := yieldObjectsLoop_spec hnames hne hbatch
      (endMarkerOf src.upper) true sinceRow (rows.length + 1) src.lower.toStr.toList
      (Nat.lt_succ_of_le (length_window_le _ _ _ _ _))
    refine ⟨undeleted ++ deleted, by simp [yieldObjects, hout, hrun₁, hrun₂], ?_⟩
    rw [← window_eq_namespaceRows hne hl hu, ← window_eq_namespaceRows hne hl hu]
    exact hbatched₁.append hbatched₂

/-- On a table whose names are distinct and not empty, with a positive batch size,
`yield_objects` yields batches of at most `batch_size` rows, none of them empty, which hold
exactly the rows of the namespace newer than `since_row`: the undeleted ones in name order, then
the deleted ones in name order. -/
theorem yieldObjects_flatten (rows : List ObjectRow) (hnames : (rows.map ObjectRow.name).Nodup)
    (hne : ∀ r ∈ rows, r.name ≠ []) (batchSize : Nat) (hbatch : 0 < batchSize)
    (src : Namespace) (sinceRow : Option Nat) :
    ∃ batches, yieldObjects rows batchSize src sinceRow = some batches ∧
      (∀ b ∈ batches, b ≠ [] ∧ b.length ≤ batchSize) ∧
      batches.flatten =
        namespaceRows rows src false sinceRow ++ namespaceRows rows src true sinceRow := by
  obtain ⟨batches, hrun, hbatched⟩ := yieldObjects_batched hnames hne hbatch src sinceRow
  exact ⟨batches, hrun, fun b hb => ⟨hbatched.ne_nil b hb, hbatched.length_le b hb⟩,
    hbatched.flatten_eq⟩

/-- Three rows of distinct names, one of them deleted, read two at a time. -/
theorem yieldObjects_flatten_threeRows :
    ∃ batches, yieldObjects [⟨1, "b".toList, false, 0⟩, ⟨2, "a".toList, true, 0⟩,
        ⟨3, "c".toList, false, 0⟩] 2 ⟨"a/c", .minBound, .maxBound, Bound.minBound_le _⟩ none =
        some batches ∧ (∀ b ∈ batches, b ≠ [] ∧ b.length ≤ 2) ∧
      batches.flatten =
        namespaceRows [⟨1, "b".toList, false, 0⟩, ⟨2, "a".toList, true, 0⟩,
            ⟨3, "c".toList, false, 0⟩] ⟨"a/c", .minBound, .maxBound, Bound.minBound_le _⟩ false
            none ++
          namespaceRows [⟨1, "b".toList, false, 0⟩, ⟨2, "a".toList, true, 0⟩,
            ⟨3, "c".toList, false, 0⟩] ⟨"a/c", .minBound, .maxBound, Bound.minBound_le _⟩ true
            none :=
  yieldObjects_flatten _ (by decide) (by decide) 2 (by decide) _ none

/-- Two rows of one name in two storage policies. A batch of one row ends between them, and the
next query, `name > 'a'`, skips the second: it is in the namespace and never yielded. -/
theorem yieldObjects_skips_policy_duplicate :
    yieldObjects [⟨1, "a".toList, false, 0⟩, ⟨2, "a".toList, false, 1⟩] 1
        ⟨"a/c", .minBound, .maxBound, Bound.minBound_le _⟩ none =
      some [[⟨1, "a".toList, false, 0⟩]] ∧
    namespaceRows [⟨1, "a".toList, false, 0⟩, ⟨2, "a".toList, false, 1⟩]
        ⟨"a/c", .minBound, .maxBound, Bound.minBound_le _⟩ false none =
      [⟨1, "a".toList, false, 0⟩, ⟨2, "a".toList, false, 1⟩] :=
  ⟨by decide, by decide⟩

/-! ### `yield_objects_to_shard_range` -/

/-- `src_shard_range.copy(lower=lower, upper=upper)`: the `upper` setter raises `ValueError` when
the new upper bound is below the new lower one. -/
def copyBounds (src : Namespace) (lower upper : Bound) : Option Namespace :=
  if h : lower ≤ upper then some ⟨src.name, lower, upper, h⟩ else none

/-- `for objs, info in self.yield_objects(broker, sub_src_range): yield objs, dest, info`. -/
def yieldTo (rows : List ObjectRow) (batchSize : Nat) (sub : Option Namespace)
    (dest : Option ShardRange) : Option (List (List ObjectRow × Option ShardRange)) :=
  sub.bind fun sub => (yieldObjects rows batchSize sub none).map fun batches =>
    batches.map (·, dest)

/-- The `for dest_shard_range in dest_shard_range_iter` loop, from `src_shard_range_marker`:
each destination takes the rows of the source it holds, the rows in a gap below it go with none,
and when the destinations run out before the source's upper bound, so do the rows left. -/
def routeLoop (rows : List ObjectRow) (batchSize : Nat) (src : Namespace) :
    List ShardRange → Bound → Option (List (List ObjectRow × Option ShardRange))
  | [], marker => yieldTo rows batchSize (copyBounds src marker src.upper) none
  | dest :: dests, marker =>
    if dest.upper ≤ src.lower then routeLoop rows batchSize src dests marker
    else
      let gap := if marker < dest.lower then
        yieldTo rows batchSize (copyBounds src marker dest.lower) none else some []
      let within := yieldTo rows batchSize
        (copyBounds src (max dest.lower src.lower) (min dest.upper src.upper)) (some dest)
      gap.bind fun gap => within.bind fun within =>
        -- "the entire source namespace has been traversed"
        if src.upper ≤ dest.upper then some (gap ++ within)
        else (routeLoop rows batchSize src dests dest.upper).map (gap ++ within ++ ·)

/-- `for _ in self.yield_objects(broker, src_shard_range, batch_size=1): break`: whether the
generator yields at all, that is its first query of undeleted rows, or else its first of deleted
ones, finds a row. -/
def yieldsAny (rows : List ObjectRow) (src : Namespace) : Bool :=
  !(decide (src.lower = .maxBound ∨ src.upper = .minBound)) &&
    [false, true].any fun deleted =>
      (getObjects rows 1 src.lower.toStr.toList (endMarkerOf src.upper) (some deleted) none).any
        fun objects => !objects.isEmpty

/-- `yield_objects_to_shard_range(broker, src_shard_range, dest_shard_ranges)`, the destinations
being what `dest_shard_ranges()` returns; `none` where it raises. -/
def yieldObjectsToShardRange (rows : List ObjectRow) (batchSize : Nat) (src : Namespace)
    (dests : List ShardRange) : Option (List (List ObjectRow × Option ShardRange)) :=
  if yieldsAny rows src then routeLoop rows batchSize src dests src.lower else some []

/-! ### What the routing yields -/

/-- A row's name as a bound: names are never empty, and `''` would read as `MAX`. -/
def rowBound (r : ObjectRow) : Bound := Bound.ofUpper (String.ofList r.name)

theorem contains_iff_rowBound (ns : Namespace) {r : ObjectRow} (hr : r.name ≠ []) :
    ns.contains (String.ofList r.name) = true ↔ ns.lower < rowBound r ∧ rowBound r ≤ ns.upper := by
  have hne : String.ofList r.name ≠ "" := by
    rw [Ne, ← String.toList_eq_nil_iff, String.toList_ofList]
    exact hr
  have hbound : rowBound r = .name (String.ofList r.name) hne := by
    simp [rowBound, Bound.ofUpper, hne]
  rw [ns.contains_iff hne, hbound, Set.mem_Ioc]

theorem mem_namespaceRows {rows : List ObjectRow} {src : Namespace} {deleted : Bool}
    {r : ObjectRow} :
    r ∈ namespaceRows rows src deleted none ↔
      r ∈ rows ∧ r.deleted = deleted ∧ src.contains (String.ofList r.name) = true := by
  simp [namespaceRows, mem_sortByKey, objectKeep]

theorem copyBounds_eq_some {src sub : Namespace} {lower upper : Bound}
    (h : copyBounds src lower upper = some sub) : sub.lower = lower ∧ sub.upper = upper := by
  unfold copyBounds at h
  split at h
  · cases h
    exact ⟨rfl, rfl⟩
  · cases h

theorem copyBounds_le {src sub : Namespace} {lower upper : Bound}
    (h : copyBounds src lower upper = some sub) : lower ≤ upper := by
  obtain ⟨hl, hu⟩ := copyBounds_eq_some h
  exact hl ▸ hu ▸ sub.lower_le_upper

theorem copyBounds_isSome {src : Namespace} {lower upper : Bound} (h : lower ≤ upper) :
    (copyBounds src lower upper).isSome := by
  simp [copyBounds, h]

/-- What the loop does with one destination: passes over it when it ends at or below the
source, or yields its gap, then its own rows, and goes on past it unless it reaches the source's
upper bound. -/
theorem routeLoop_cons_eq_some {rows : List ObjectRow} {batchSize : Nat} {src : Namespace}
    {d : ShardRange} {dests : List ShardRange}
    {marker : Bound} {ts : List (List ObjectRow × Option ShardRange)}
    (h : routeLoop rows batchSize src (d :: dests) marker = some ts) :
    (d.upper ≤ src.lower ∧ routeLoop rows batchSize src dests marker = some ts) ∨
      (src.lower < d.upper ∧ ∃ gap within,
        (if marker < d.lower then yieldTo rows batchSize (copyBounds src marker d.lower) none
          else some []) = some gap ∧
        yieldTo rows batchSize (copyBounds src (max d.lower src.lower) (min d.upper src.upper))
          (some d) = some within ∧
        ((src.upper ≤ d.upper ∧ ts = gap ++ within) ∨
          (d.upper < src.upper ∧ ∃ rest, routeLoop rows batchSize src dests d.upper = some rest ∧
            ts = gap ++ within ++ rest))) := by
  rw [routeLoop] at h
  split at h
  · exact .inl ⟨by assumption, h⟩
  rename_i hbelow
  obtain ⟨gap, hgap, h⟩ := Option.bind_eq_some_iff.mp h
  obtain ⟨within, hwithin, h⟩ := Option.bind_eq_some_iff.mp h
  refine .inr ⟨not_le.mp hbelow, gap, within, hgap, hwithin, ?_⟩
  split at h
  · exact .inl ⟨by assumption, (Option.some.inj h).symm⟩
  · obtain ⟨rest, hrest, rfl⟩ := Option.map_eq_some_iff.mp h
    exact .inr ⟨not_le.mp (by assumption), rest, hrest, rfl⟩

theorem snd_of_yieldTo {rows : List ObjectRow} {batchSize : Nat} {sub : Option Namespace}
    {dest : Option ShardRange} {ts : List (List ObjectRow × Option ShardRange)}
    (h : yieldTo rows batchSize sub dest = some ts) : ∀ t ∈ ts, t.2 = dest := by
  intro t ht
  obtain ⟨sub, -, h⟩ := Option.bind_eq_some_iff.mp h
  obtain ⟨batches, -, rfl⟩ := Option.map_eq_some_iff.mp h
  obtain ⟨b, -, rfl⟩ := List.mem_map.mp ht
  rfl

/-- Where a batch of the loop comes from: the loop past a destination below the source, the gap
below a destination, the destination's own part of the source, or the loop from its upper
bound. -/
theorem mem_routeLoop_cons {rows : List ObjectRow} {batchSize : Nat} {src : Namespace}
    {d : ShardRange} {dests : List ShardRange} {marker : Bound}
    {ts : List (List ObjectRow × Option ShardRange)}
    (h : routeLoop rows batchSize src (d :: dests) marker = some ts)
    {t : List ObjectRow × Option ShardRange} (ht : t ∈ ts) :
    (∃ ts', routeLoop rows batchSize src dests marker = some ts' ∧ t ∈ ts') ∨
      (∃ gap, yieldTo rows batchSize (copyBounds src marker d.lower) none = some gap ∧ t ∈ gap) ∨
      (∃ within, yieldTo rows batchSize
        (copyBounds src (max d.lower src.lower) (min d.upper src.upper)) (some d) = some within ∧
          t ∈ within) ∨
      (src.lower < d.upper ∧ ∃ rest, routeLoop rows batchSize src dests d.upper = some rest ∧
        t ∈ rest) := by
  rcases routeLoop_cons_eq_some h with ⟨-, h⟩ | ⟨habove, gap, within, hgap, hwithin, hts⟩
  · exact .inl ⟨ts, h, ht⟩
  have hgapMem : t ∈ gap → ∃ gap, yieldTo rows batchSize (copyBounds src marker d.lower) none =
      some gap ∧ t ∈ gap := by
    intro htgap
    split at hgap
    · exact ⟨gap, hgap, htgap⟩
    · cases hgap
      cases htgap
  rcases hts with ⟨-, rfl⟩ | ⟨-, rest, hrest, rfl⟩
  · rcases List.mem_append.mp ht with ht | ht
    · exact .inr (.inl (hgapMem ht))
    · exact .inr (.inr (.inl ⟨within, hwithin, ht⟩))
  · rcases List.mem_append.mp ht with ht | ht
    · rcases List.mem_append.mp ht with ht | ht
      · exact .inr (.inl (hgapMem ht))
      · exact .inr (.inr (.inl ⟨within, hwithin, ht⟩))
    · exact .inr (.inr (.inr ⟨habove, rest, hrest, ht⟩))

/-- The loop yields batches with the destinations it is given, or with none. -/
theorem routeLoop_dest_mem {rows : List ObjectRow} {batchSize : Nat} {src : Namespace}
    {dests : List ShardRange} {marker : Bound} {ts : List (List ObjectRow × Option ShardRange)}
    (h : routeLoop rows batchSize src dests marker = some ts) :
    ∀ t ∈ ts, ∀ d ∈ t.2, d ∈ dests := by
  induction dests generalizing marker ts with
  | nil =>
    intro t ht d hd
    rw [snd_of_yieldTo h t ht] at hd
    cases hd
  | cons d₀ dests ih =>
    intro t ht d hd
    rcases mem_routeLoop_cons h ht with ⟨ts', h', ht'⟩ | ⟨gap, hgap, ht'⟩ |
      ⟨within, hwithin, ht'⟩ | ⟨-, rest, hrest, ht'⟩
    · exact List.mem_cons_of_mem _ (ih h' t ht' d hd)
    · rw [snd_of_yieldTo hgap t ht'] at hd
      cases hd
    · rw [snd_of_yieldTo hwithin t ht', Option.mem_some_iff] at hd
      rw [hd]
      exact List.mem_cons_self
    · exact List.mem_cons_of_mem _ (ih hrest t ht' d hd)

/-- The probe of `yield_objects_to_shard_range` finds nothing only when the namespace holds no
row. -/
theorem not_contains_of_yieldsAny_eq_false {rows : List ObjectRow} (hne : ∀ r ∈ rows, r.name ≠ [])
    {src : Namespace} (h : yieldsAny rows src = false)
    {r : ObjectRow} (hr : r ∈ rows) : src.contains (String.ofList r.name) = false := by
  -- the row would be in the namespace's rows of its own `deleted`, which the probe reads
  have hnil : namespaceRows rows src r.deleted none = [] := by
    by_cases hout : src.lower = .maxBound ∨ src.upper = .minBound
    · exact namespaceRows_eq_nil rows hout r.deleted none
    obtain ⟨hl, hu⟩ := not_or.mp hout
    obtain ⟨hundeleted, hdeleted⟩ :
        window rows src.lower.toStr.toList (endMarkerOf src.upper) (some false) none = [] ∧
          window rows src.lower.toStr.toList (endMarkerOf src.upper) (some true) none = [] := by
      simpa [yieldsAny, hout, getObjects_eq] using h
    rw [← window_eq_namespaceRows hne hl hu]
    cases r.deleted
    · exact hundeleted
    · exact hdeleted
  by_contra hin
  have hmem : r ∈ namespaceRows rows src r.deleted none :=
    mem_namespaceRows.mpr ⟨hr, rfl, Bool.not_eq_false _ ▸ hin⟩
  rw [hnil] at hmem
  cases hmem

/-- What `yield_objects_to_shard_range` yields: batches of rows of the source namespace, none of
them empty, each with one of the destinations that holds its rows or with none. Every row of the
source is in a batch, and a destination that gets a batch gets every row it shares with the
source. -/
structure Routed (rows : List ObjectRow) (src : Namespace) (dests : List ShardRange)
    (ts : List (List ObjectRow × Option ShardRange)) : Prop where
  ne_nil : ∀ t ∈ ts, t.1 ≠ []
  mem_rows : ∀ t ∈ ts, ∀ r ∈ t.1, r ∈ rows
  src_contains : ∀ t ∈ ts, ∀ r ∈ t.1, src.contains (String.ofList r.name) = true
  dest_mem : ∀ t ∈ ts, ∀ d ∈ t.2, d ∈ dests
  dest_contains : ∀ t ∈ ts, ∀ d ∈ t.2, ∀ r ∈ t.1, d.contains (String.ofList r.name) = true
  covers : ∀ r ∈ rows, src.contains (String.ofList r.name) = true → ∃ t ∈ ts, r ∈ t.1
  within : ∀ d : ShardRange, (∃ t ∈ ts, t.2 = some d) → ∀ r ∈ rows,
    src.contains (String.ofList r.name) = true → d.contains (String.ofList r.name) = true →
      ∃ t ∈ ts, t.2 = some d ∧ r ∈ t.1

section Distinct

variable {rows : List ObjectRow} (hnames : (rows.map ObjectRow.name).Nodup)
  (hne : ∀ r ∈ rows, r.name ≠ []) {batchSize : Nat} (hbatch : 0 < batchSize)
include hnames hne hbatch

/-- With no `since_row`, `yield_objects` over a namespace yields the rows it holds. -/
theorem mem_flatten_yieldObjects {src : Namespace} {batches : List (List ObjectRow)}
    (h : yieldObjects rows batchSize src none = some batches) (r : ObjectRow) :
    r ∈ batches.flatten ↔ r ∈ rows ∧ src.contains (String.ofList r.name) = true := by
  obtain ⟨batches', hrun, hbatched⟩ := yieldObjects_batched hnames hne hbatch src none
  rw [h, Option.some.injEq] at hrun
  rw [hrun, hbatched.flatten_eq, List.mem_append, mem_namespaceRows, mem_namespaceRows]
  cases r.deleted <;> simp

theorem yieldObjects_isSome (src : Namespace) :
    (yieldObjects rows batchSize src none).isSome := by
  obtain ⟨batches, hrun, -⟩ := yieldObjects_batched hnames hne hbatch src none
  rw [hrun]
  rfl

/-- The batches for one sub-namespace of the source go with one destination, and hold the rows
between its bounds. -/
theorem mem_yieldTo {src : Namespace} {lower upper : Bound} {dest : Option ShardRange}
    {ts : List (List ObjectRow × Option ShardRange)}
    (h : yieldTo rows batchSize (copyBounds src lower upper) dest = some ts) :
    (∀ t ∈ ts, t.2 = dest) ∧ ∀ r,
      (∃ t ∈ ts, r ∈ t.1) ↔ r ∈ rows ∧ lower < rowBound r ∧ rowBound r ≤ upper := by
  refine ⟨snd_of_yieldTo h, fun r => ?_⟩
  obtain ⟨sub, hsub, h⟩ := Option.bind_eq_some_iff.mp h
  obtain ⟨batches, hrun, rfl⟩ := Option.map_eq_some_iff.mp h
  obtain ⟨hl, hu⟩ := copyBounds_eq_some hsub
  have hflat := mem_flatten_yieldObjects hnames hne hbatch hrun r
  rw [List.mem_flatten] at hflat
  constructor
  · rintro ⟨t, ht, hr⟩
    obtain ⟨b, hb, rfl⟩ := List.mem_map.mp ht
    obtain ⟨hrow, hin⟩ := hflat.mp ⟨b, hb, hr⟩
    rw [contains_iff_rowBound sub (hne r hrow), hl, hu] at hin
    exact ⟨hrow, hin⟩
  · rintro ⟨hrow, hin⟩
    rw [← hl, ← hu, ← contains_iff_rowBound sub (hne r hrow)] at hin
    obtain ⟨b, hb, hr⟩ := hflat.mpr ⟨hrow, hin⟩
    exact ⟨(b, dest), List.mem_map.mpr ⟨b, hb, rfl⟩, hr⟩

theorem yieldTo_isSome {src : Namespace} {lower upper : Bound} (h : lower ≤ upper)
    (dest : Option ShardRange) :
    (yieldTo rows batchSize (copyBounds src lower upper) dest).isSome := by
  obtain ⟨sub, hsub⟩ := Option.isSome_iff_exists.mp
    (copyBounds_isSome h : (copyBounds src lower upper).isSome)
  obtain ⟨batches, hrun⟩ := Option.isSome_iff_exists.mp (yieldObjects_isSome hnames hne hbatch sub)
  simp [yieldTo, hsub, hrun]

theorem ne_nil_of_yieldTo {sub : Option Namespace} {dest : Option ShardRange}
    {ts : List (List ObjectRow × Option ShardRange)}
    (h : yieldTo rows batchSize sub dest = some ts) : ∀ t ∈ ts, t.1 ≠ [] := by
  intro t ht
  obtain ⟨sub, -, h⟩ := Option.bind_eq_some_iff.mp h
  obtain ⟨batches, hrun, rfl⟩ := Option.map_eq_some_iff.mp h
  obtain ⟨b, hb, rfl⟩ := List.mem_map.mp ht
  obtain ⟨batches', hrun', hbatched⟩ := yieldObjects_batched hnames hne hbatch sub none
  rw [hrun, Option.some.injEq] at hrun'
  exact hbatched.ne_nil b (hrun' ▸ hb)

/-- The gap below a destination: the rows above the marker up to the destination's lower bound,
with no destination. -/
theorem mem_gap {src : Namespace} {d : ShardRange} {marker : Bound}
    {gap : List (List ObjectRow × Option ShardRange)}
    (h : (if marker < d.lower then yieldTo rows batchSize (copyBounds src marker d.lower) none
      else some []) = some gap) :
    (∀ t ∈ gap, t.2 = none) ∧ ∀ r,
      (∃ t ∈ gap, r ∈ t.1) ↔ r ∈ rows ∧ marker < rowBound r ∧ rowBound r ≤ d.lower := by
  split at h
  · exact mem_yieldTo hnames hne hbatch h
  · rename_i hge
    cases h
    refine ⟨by simp, fun r => ⟨by simp, ?_⟩⟩
    rintro ⟨-, hlo, hhi⟩
    exact absurd (hlo.trans_le hhi) hge

/-- Every row the loop yields lies in the source, and in its destination if it has one. -/
theorem routeLoop_places {src : Namespace} {dests : List ShardRange} {marker : Bound}
    {ts : List (List ObjectRow × Option ShardRange)}
    (h : routeLoop rows batchSize src dests marker = some ts) (hm : src.lower ≤ marker) :
    ∀ t ∈ ts, ∀ r ∈ t.1, r ∈ rows ∧ src.lower < rowBound r ∧ rowBound r ≤ src.upper ∧
      ∀ d ∈ t.2, d.lower < rowBound r ∧ rowBound r ≤ d.upper := by
  induction dests generalizing marker ts with
  | nil =>
    intro t ht r hr
    obtain ⟨hdest, hmem⟩ := mem_yieldTo hnames hne hbatch h
    obtain ⟨hrow, hlo, hhi⟩ := (hmem r).mp ⟨t, ht, hr⟩
    rw [hdest t ht]
    exact ⟨hrow, hm.trans_lt hlo, hhi, fun _ hd => nomatch hd⟩
  | cons d dests ih =>
    rcases routeLoop_cons_eq_some h with ⟨-, h⟩ | ⟨hbelow, gap, within, hgap,
      hwithin, hts⟩
    · exact ih h hm
    -- the destination's part of the source is not empty, or the copy would have raised
    obtain ⟨sub, hsub, -⟩ := Option.bind_eq_some_iff.mp hwithin
    have hle := copyBounds_le hsub
    have hgapPlaces : ∀ t ∈ gap, ∀ r ∈ t.1, r ∈ rows ∧ src.lower < rowBound r ∧
        rowBound r ≤ src.upper ∧ ∀ d ∈ t.2, d.lower < rowBound r ∧ rowBound r ≤ d.upper := by
      intro t ht r hr
      obtain ⟨hdest, hmem⟩ := mem_gap hnames hne hbatch hgap
      obtain ⟨hrow, hlo, hhi⟩ := (hmem r).mp ⟨t, ht, hr⟩
      rw [hdest t ht]
      exact ⟨hrow, hm.trans_lt hlo,
        hhi.trans ((le_max_left _ _).trans (hle.trans (min_le_right _ _))), fun _ hd => nomatch hd⟩
    have hwithinPlaces : ∀ t ∈ within, ∀ r ∈ t.1, r ∈ rows ∧ src.lower < rowBound r ∧
        rowBound r ≤ src.upper ∧ ∀ d ∈ t.2, d.lower < rowBound r ∧ rowBound r ≤ d.upper := by
      intro t ht r hr
      obtain ⟨hdest, hmem⟩ := mem_yieldTo hnames hne hbatch hwithin
      obtain ⟨hrow, hlo, hhi⟩ := (hmem r).mp ⟨t, ht, hr⟩
      rw [hdest t ht]
      refine ⟨hrow, (le_max_right _ _).trans_lt hlo, hhi.trans (min_le_right _ _), ?_⟩
      intro d' hd'
      rw [Option.mem_some_iff] at hd'
      subst hd'
      exact ⟨(le_max_left _ _).trans_lt hlo, hhi.trans (min_le_left _ _)⟩
    intro t ht
    rcases hts with ⟨-, rfl⟩ | ⟨-, rest, hrest, rfl⟩
    · rcases List.mem_append.mp ht with ht | ht
      · exact hgapPlaces t ht
      · exact hwithinPlaces t ht
    · rcases List.mem_append.mp ht with ht | ht
      · rcases List.mem_append.mp ht with ht | ht
        · exact hgapPlaces t ht
        · exact hwithinPlaces t ht
      · exact ih hrest hbelow.le t ht

/-- Every row of the source above the marker is yielded. -/
theorem routeLoop_covers {src : Namespace} {dests : List ShardRange} {marker : Bound}
    {ts : List (List ObjectRow × Option ShardRange)}
    (h : routeLoop rows batchSize src dests marker = some ts) {r : ObjectRow} (hr : r ∈ rows)
    (hsrc : src.lower < rowBound r) (hlo : marker < rowBound r) (hhi : rowBound r ≤ src.upper) :
    ∃ t ∈ ts, r ∈ t.1 := by
  induction dests generalizing marker ts with
  | nil => exact ((mem_yieldTo hnames hne hbatch h).2 r).mpr ⟨hr, hlo, hhi⟩
  | cons d dests ih =>
    rcases routeLoop_cons_eq_some h with ⟨-, h⟩ | ⟨-, gap, within, hgap,
      hwithin, hts⟩
    · exact ih h hlo
    -- the row is in the gap, in the destination, or past it
    have hcover : (∃ t ∈ gap ++ within, r ∈ t.1) ∨ (d.upper < rowBound r) := by
      by_cases hgapRow : rowBound r ≤ d.lower
      · obtain ⟨t, ht, hrt⟩ := ((mem_gap hnames hne hbatch hgap).2 r).mpr ⟨hr, hlo, hgapRow⟩
        exact .inl ⟨t, List.mem_append_left _ ht, hrt⟩
      by_cases hdestRow : rowBound r ≤ d.upper
      · obtain ⟨t, ht, hrt⟩ := ((mem_yieldTo hnames hne hbatch hwithin).2 r).mpr
          ⟨hr, max_lt (not_le.mp hgapRow) hsrc, le_min hdestRow hhi⟩
        exact .inl ⟨t, List.mem_append_right _ ht, hrt⟩
      · exact .inr (not_le.mp hdestRow)
    rcases hts with ⟨hend, rfl⟩ | ⟨-, rest, hrest, rfl⟩
    · rcases hcover with hcover | hpast
      · exact hcover
      · exact absurd (hend.trans_lt hpast) (not_lt.mpr hhi)
    · rcases hcover with ⟨t, ht, hrt⟩ | hpast
      · exact ⟨t, List.mem_append_left _ ht, hrt⟩
      · obtain ⟨t, ht, hrt⟩ := ih hrest hpast
        exact ⟨t, List.mem_append_right _ ht, hrt⟩

/-- The loop does not raise when every destination starts at or below the source's upper
bound. -/
theorem routeLoop_isSome {src : Namespace} {dests : List ShardRange}
    (hdests : ∀ d ∈ dests, d.lower ≤ src.upper) {marker : Bound} (hm : marker ≤ src.upper) :
    (routeLoop rows batchSize src dests marker).isSome := by
  induction dests generalizing marker with
  | nil => exact yieldTo_isSome hnames hne hbatch hm none
  | cons d dests ih =>
    have hd := hdests d List.mem_cons_self
    have hrest : ∀ {marker : Bound}, marker ≤ src.upper →
        (routeLoop rows batchSize src dests marker).isSome :=
      ih fun d' hd' => hdests d' (List.mem_cons_of_mem _ hd')
    rw [routeLoop]
    split
    · exact hrest hm
    rename_i hbelow
    -- neither copy raises: the gap is below the destination, and the destination meets the source
    have hmeet : max d.lower src.lower ≤ min d.upper src.upper :=
      max_le (le_min d.lower_le_upper hd) (le_min (not_le.mp hbelow).le src.lower_le_upper)
    obtain ⟨gap, hgap⟩ : ∃ gap, (if marker < d.lower then
        yieldTo rows batchSize (copyBounds src marker d.lower) none else some []) = some gap := by
      split
      · exact Option.isSome_iff_exists.mp (yieldTo_isSome hnames hne hbatch (le_of_lt ‹_›) none)
      · exact ⟨[], rfl⟩
    obtain ⟨within, hwithin⟩ := Option.isSome_iff_exists.mp
      (yieldTo_isSome hnames hne hbatch hmeet (some d) :
        (yieldTo rows batchSize (copyBounds src (max d.lower src.lower) (min d.upper src.upper))
          (some d)).isSome)
    simp only [hgap, hwithin, Option.bind_some]
    split
    · rfl
    · simpa using hrest (le_of_lt (not_le.mp ‹_›))

theorem routeLoop_ne_nil {src : Namespace} {dests : List ShardRange} {marker : Bound}
    {ts : List (List ObjectRow × Option ShardRange)}
    (h : routeLoop rows batchSize src dests marker = some ts) : ∀ t ∈ ts, t.1 ≠ [] := by
  induction dests generalizing marker ts with
  | nil => exact ne_nil_of_yieldTo hnames hne hbatch h
  | cons d dests ih =>
    intro t ht
    rcases mem_routeLoop_cons h ht with ⟨ts', h', ht'⟩ | ⟨gap, hgap, ht'⟩ |
      ⟨within, hwithin, ht'⟩ | ⟨-, rest, hrest, ht'⟩
    · exact ih h' t ht'
    · exact ne_nil_of_yieldTo hnames hne hbatch hgap t ht'
    · exact ne_nil_of_yieldTo hnames hne hbatch hwithin t ht'
    · exact ih hrest t ht'

/-- A destination the loop yields a batch with gets every row it shares with the source. -/
theorem routeLoop_within {src : Namespace} {dests : List ShardRange} {marker : Bound}
    {ts : List (List ObjectRow × Option ShardRange)}
    (h : routeLoop rows batchSize src dests marker = some ts) {d : ShardRange}
    (hd : ∃ t ∈ ts, t.2 = some d) {r : ObjectRow} (hr : r ∈ rows)
    (hsrc : src.lower < rowBound r ∧ rowBound r ≤ src.upper)
    (hdest : d.lower < rowBound r ∧ rowBound r ≤ d.upper) :
    ∃ t ∈ ts, t.2 = some d ∧ r ∈ t.1 := by
  induction dests generalizing marker ts with
  | nil =>
    obtain ⟨t, ht, htd⟩ := hd
    rw [snd_of_yieldTo h t ht] at htd
    cases htd
  | cons d₀ dests ih =>
    rcases routeLoop_cons_eq_some h with ⟨-, h⟩ | ⟨-, gap, within, hgap, hwithin, hts⟩
    · exact ih h hd
    -- a batch with `d` here is of the destination's own part, which holds the row
    have hown : (∃ t ∈ within, t.2 = some d) → ∃ t ∈ within, t.2 = some d ∧ r ∈ t.1 := by
      rintro ⟨t, ht, htd⟩
      obtain ⟨hsnd, hmem⟩ := mem_yieldTo hnames hne hbatch hwithin
      have hd₀ : d₀ = d := Option.some.inj ((hsnd t ht).symm.trans htd)
      subst hd₀
      obtain ⟨t', ht', hrt'⟩ := (hmem r).mpr ⟨hr, max_lt hdest.1 hsrc.1, le_min hdest.2 hsrc.2⟩
      exact ⟨t', ht', hsnd t' ht', hrt'⟩
    have hgapNone : ∀ t ∈ gap, t.2 = none := (mem_gap hnames hne hbatch hgap).1
    obtain ⟨t, ht, htd⟩ := hd
    rcases hts with ⟨-, rfl⟩ | ⟨-, rest, hrest, rfl⟩
    · rcases List.mem_append.mp ht with ht | ht
      · rw [hgapNone t ht] at htd
        cases htd
      · obtain ⟨t', ht', h'⟩ := hown ⟨t, ht, htd⟩
        exact ⟨t', List.mem_append_right _ ht', h'⟩
    · rcases List.mem_append.mp ht with ht | ht
      · rcases List.mem_append.mp ht with ht | ht
        · rw [hgapNone t ht] at htd
          cases htd
        · obtain ⟨t', ht', h'⟩ := hown ⟨t, ht, htd⟩
          exact ⟨t', List.mem_append_left _ (List.mem_append_right _ ht'), h'⟩
      · obtain ⟨t', ht', h'⟩ := ih hrest ⟨t, ht, htd⟩
        exact ⟨t', List.mem_append_right _ ht', h'⟩

theorem routed_yieldObjectsToShardRange {src : Namespace} {dests : List ShardRange}
    {ts : List (List ObjectRow × Option ShardRange)}
    (h : yieldObjectsToShardRange rows batchSize src dests = some ts) :
    Routed rows src dests ts := by
  unfold yieldObjectsToShardRange at h
  split at h
  · have hplaces := routeLoop_places hnames hne hbatch h le_rfl
    refine ⟨routeLoop_ne_nil hnames hne hbatch h, fun t ht r hr => (hplaces t ht r hr).1,
      fun t ht r hr => ?_, routeLoop_dest_mem h, fun t ht d hd r hr => ?_, fun r hr hin => ?_,
      fun d hd r hr hin hind => ?_⟩
    · obtain ⟨hrow, hlo, hhi, -⟩ := hplaces t ht r hr
      exact (contains_iff_rowBound src (hne r hrow)).mpr ⟨hlo, hhi⟩
    · obtain ⟨hrow, -, -, hdest⟩ := hplaces t ht r hr
      exact (contains_iff_rowBound d.toNamespace (hne r hrow)).mpr (hdest d hd)
    · obtain ⟨hlo, hhi⟩ := (contains_iff_rowBound src (hne r hr)).mp hin
      exact routeLoop_covers hnames hne hbatch h hr hlo hlo hhi
    · exact routeLoop_within hnames hne hbatch h hd hr
        ((contains_iff_rowBound src (hne r hr)).mp hin)
        ((contains_iff_rowBound d.toNamespace (hne r hr)).mp hind)
  · -- the probe found nothing, so neither is there anything to route
    rename_i hany
    cases h
    refine ⟨by simp, by simp, by simp, by simp, by simp, fun r hr hin => ?_, fun d hd => ?_⟩
    · rw [not_contains_of_yieldsAny_eq_false hne (Bool.eq_false_iff.mpr hany) hr] at hin
      cases hin
    · obtain ⟨t, ht, -⟩ := hd
      cases ht

theorem yieldObjectsToShardRange_isSome {src : Namespace} {dests : List ShardRange}
    (hdests : ∀ d ∈ dests, d.lower ≤ src.upper) :
    (yieldObjectsToShardRange rows batchSize src dests).isSome := by
  unfold yieldObjectsToShardRange
  split
  · exact routeLoop_isSome hnames hne hbatch hdests src.lower_le_upper
  · rfl

end Distinct

/-- On a table whose names are distinct and not empty, with a positive batch size, and with
destinations that each begin at or below the source's upper bound, as `get_shard_ranges` with the
source's end marker returns them, `yield_objects_to_shard_range` does not raise. Every row it
yields is a row of the source namespace and lies in the destination it goes with, if any; and
every row of the source namespace is yielded. -/
theorem yieldObjectsToShardRange_routes (rows : List ObjectRow)
    (hnames : (rows.map ObjectRow.name).Nodup) (hne : ∀ r ∈ rows, r.name ≠ []) (batchSize : Nat)
    (hbatch : 0 < batchSize) (src : Namespace) (dests : List ShardRange)
    (hdests : ∀ d ∈ dests, d.lower ≤ src.upper) :
    ∃ ts, yieldObjectsToShardRange rows batchSize src dests = some ts ∧
      (∀ t ∈ ts, ∀ r ∈ t.1, r ∈ rows ∧ src.contains (String.ofList r.name) = true ∧
        ∀ d ∈ t.2, d.contains (String.ofList r.name) = true) ∧
      ∀ r ∈ rows, src.contains (String.ofList r.name) = true → ∃ t ∈ ts, r ∈ t.1 := by
  obtain ⟨ts, hts⟩ := Option.isSome_iff_exists.mp
    (yieldObjectsToShardRange_isSome hnames hne hbatch hdests :
      (yieldObjectsToShardRange rows batchSize src dests).isSome)
  have hrouted := routed_yieldObjectsToShardRange hnames hne hbatch hts
  refine ⟨ts, hts, fun t ht r hr => ⟨hrouted.mem_rows t ht r hr, hrouted.src_contains t ht r hr,
    fun d hd => hrouted.dest_contains t ht d hd r hr⟩, hrouted.covers⟩

/-- Two rows and one destination below the second: the first row goes to the destination, the
second with none. -/
theorem yieldObjectsToShardRange_routes_oneDest :
    ∃ ts, yieldObjectsToShardRange [⟨1, "a".toList, false, 0⟩, ⟨2, "c".toList, false, 0⟩] 2
        ⟨"a/c", .minBound, .maxBound, Bound.minBound_le _⟩
        [⟨⟨".shards_a/c-1", .minBound, .name "b" (by decide), Bound.minBound_le _⟩, 10⟩] = some ts ∧
      (∀ t ∈ ts, ∀ r ∈ t.1, r ∈ [⟨1, "a".toList, false, 0⟩, ⟨2, "c".toList, false, 0⟩] ∧
        Namespace.contains ⟨"a/c", .minBound, .maxBound, Bound.minBound_le _⟩
          (String.ofList r.name) = true ∧
        ∀ d ∈ t.2, d.contains (String.ofList r.name) = true) ∧
      ∀ r ∈ [⟨1, "a".toList, false, 0⟩, ⟨2, "c".toList, false, 0⟩],
        Namespace.contains ⟨"a/c", .minBound, .maxBound, Bound.minBound_le _⟩
          (String.ofList r.name) = true → ∃ t ∈ ts, r ∈ t.1 :=
  yieldObjectsToShardRange_routes _ (by decide) (by decide) 2 (by decide) _ _
    fun d _ => Bound.le_maxBound d.lower

end Sharder

end Swift
