import Swift.Order.LastWriterWins
import Swift.Common.Timestamp
import Mathlib.Tactic.Set

/-!
# Shard-range rows and `merge_shards`

The `shard_range` table of a container database, and the functions of
`swift/container/backend.py` that merge rows into it: `merge_shards`, `sift_shard_ranges` and
`ContainerBroker.merge_shard_ranges`.

## The model

A row is the dict form `merge_shard_ranges` handles, one field per entry of
`SHARD_RANGE_KEYS`. Timestamps are the internal strings the table stores, compared as
`Timestamp`s (see `Swift.Common.Timestamp`); `deleted` and `reported` are the `0`/`1` columns.
The table is a map from a row's name to the row: `merge_shard_ranges` reads and writes rows by
name only, and every statement below is about one name.

`merge_shards` mutates `shard_data` in place and returns a flag. `mergeShards` returns the flag
and the mutated dict, and is split along the source's three blocks: the meta-data block
(`mergeMeta`), the reported latch (`latchReported`) and the state block (`mergeState`).

## Parts

For the convergence argument a row is cut into the three parts that `merge_shards` settles
independently: the bounds and deleted flag, replaced only by a newer `timestamp`; the object
stats, ordered by `(timestamp, meta_timestamp)`; and the state, ordered by
`(timestamp, state_timestamp, state)`. `ShardRange.parts_storeShardRange` is the bridge to
`Swift.LastWriterWins`: the row kept after merging `incoming` into `existing` is, part by part,
the last-writer-wins choice between the two, ties going to `existing`. Only `name` and
`reported` lie outside the parts.

## Main definitions

* `Container.mergeShards`, `Container.siftShardRanges`, `Container.mergeShardRanges`
* `Container.storeShardRange` — the row the table keeps after merging one incoming row

## Main results

* `ShardRange.parts_storeShardRange` — a merge is a last-writer-wins choice on each part
* `ShardRange.key_le_of_mergeShards_eq_false` — a row `merge_shards` rejects is older on every part
-/

namespace Swift

/-- A shard-range row, in the dict form of `SHARD_RANGE_KEYS`. -/
structure ShardRange where
  name : String
  timestamp : Timestamp
  lower : String
  upper : String
  objectCount : Int
  bytesUsed : Int
  metaTimestamp : Timestamp
  deleted : Bool
  state : Nat
  stateTimestamp : Timestamp
  epoch : Option Timestamp
  reported : Bool
  tombstones : Int
  deriving DecidableEq, Repr

namespace Container

/-! ### `merge_shards` -/

/-- The meta-data block of `merge_shards`: if `existing` has a `meta_timestamp` at least as new,
its stats replace those of `shard_data`; otherwise `shard_data` carries new content. -/
def mergeMeta (shardData existing : ShardRange) : Bool × ShardRange :=
  if shardData.metaTimestamp ≤ existing.metaTimestamp then
    (false, { shardData with objectCount := existing.objectCount, bytesUsed := existing.bytesUsed,
                             metaTimestamp := existing.metaTimestamp,
                             tombstones := existing.tombstones })
  else (true, shardData)

/-- The reported latch of `merge_shards`, decided after the stats were merged and before the
state is. The flag is set when `existing` was reported with the same stats, state and epoch;
otherwise `shard_data` keeps its own flag, and that flag is new content if `existing` was not
reported. -/
def latchReported (shardData existing : ShardRange) : Bool × ShardRange :=
  if existing.reported && existing.objectCount == shardData.objectCount &&
      existing.bytesUsed == shardData.bytesUsed && existing.tombstones == shardData.tombstones &&
      existing.state == shardData.state && existing.epoch == shardData.epoch then
    (false, { shardData with reported := true })
  else (shardData.reported && !existing.reported, shardData)

/-- The state block of `merge_shards`: a more advanced state at an equal `state_timestamp` wins,
then the newer `state_timestamp`, ties going to `existing`. -/
def mergeState (shardData existing : ShardRange) : Bool × ShardRange :=
  if existing.stateTimestamp = shardData.stateTimestamp ∧ existing.state < shardData.state then
    (true, shardData)
  else if shardData.stateTimestamp ≤ existing.stateTimestamp then
    (false, { shardData with state := existing.state, stateTimestamp := existing.stateTimestamp,
                             epoch := existing.epoch })
  else (true, shardData)

/-- `merge_shards(shard_data, existing)`: the returned flag, and `shard_data` as the call leaves
it. A newer `timestamp` trumps everything and resets the latch; an older one loses outright. -/
def mergeShards (shardData : ShardRange) : Option ShardRange → Bool × ShardRange
  | none => (true, shardData)
  | some existing =>
    if existing.timestamp < shardData.timestamp then
      (true, { shardData with reported := false })
    else if shardData.timestamp < existing.timestamp then (false, shardData)
    else
      -- equal timestamps: the bounds and the deleted flag of `existing` are kept
      let d := { shardData with lower := existing.lower, upper := existing.upper,
                                deleted := existing.deleted }
      let m := mergeMeta d existing
      let l := latchReported m.2 existing
      let s := mergeState l.2 existing
      (m.1 || l.1 || s.1, s.2)

/-- The row the table holds after `merge_shard_ranges([incoming])` on a table holding `existing`
under `incoming`'s name: the merged `incoming` if `merge_shards` reports new content, else
`existing`. -/
def storeShardRange (existing : Option ShardRange) (incoming : ShardRange) : ShardRange :=
  let m := mergeShards incoming existing
  if m.1 then m.2 else existing.getD incoming

/-! ### `sift_shard_ranges` and `merge_shard_ranges` -/

/-- What `sift_shard_ranges` returns: the rows to insert, by name, and the names to delete. -/
structure Sift where
  toAdd : String → Option ShardRange
  toDelete : String → Bool

/-- One pass of the loop of `sift_shard_ranges`. A duplicate of a name already in `to_add` is
merged a second time, with the earlier entry in the role of `existing`. -/
def siftStep (existingShardRanges : String → Option ShardRange) (acc : Sift) (item : ShardRange) :
    Sift :=
  let m := mergeShards item (existingShardRanges item.name)
  if m.1 then
    let toDelete := if (existingShardRanges item.name).isSome then
      Function.update acc.toDelete item.name true else acc.toDelete
    match acc.toAdd item.name with
    | none => ⟨Function.update acc.toAdd item.name (some m.2), toDelete⟩
    | some prev =>
      let m' := mergeShards m.2 (some prev)
      if m'.1 then ⟨Function.update acc.toAdd item.name (some m'.2), toDelete⟩
      else ⟨acc.toAdd, toDelete⟩
  else acc

/-- `sift_shard_ranges(new_shard_ranges, existing_shard_ranges)`. -/
def siftShardRanges (newShardRanges : List ShardRange)
    (existingShardRanges : String → Option ShardRange) : Sift :=
  newShardRanges.foldl (siftStep existingShardRanges) ⟨fun _ => none, fun _ => false⟩

/-- `ContainerBroker.merge_shard_ranges`: sift the batch against the rows already held, delete
the superseded rows and insert the new ones. The source reads only the rows named in the batch;
`sift_shard_ranges` looks up no other name, so the whole table is passed. -/
def mergeShardRanges (table : String → Option ShardRange) (shardRanges : List ShardRange) :
    String → Option ShardRange :=
  let s := siftShardRanges shardRanges table
  fun n => match s.toAdd n with
    | some r => some r
    | none => if s.toDelete n then none else table n

end Container

/-! ### The three parts of a row -/

/-- The bounds and the deleted flag, which only a newer `timestamp` replaces. -/
structure BoundsPart where
  timestamp : Timestamp
  lower : String
  upper : String
  deleted : Bool
  deriving DecidableEq, Repr

/-- The object stats, ordered by `(timestamp, meta_timestamp)`. -/
structure MetaPart where
  timestamp : Timestamp
  metaTimestamp : Timestamp
  objectCount : Int
  bytesUsed : Int
  tombstones : Int
  deriving DecidableEq, Repr

/-- The state, ordered by `(timestamp, state_timestamp, state)`. -/
structure StatePart where
  timestamp : Timestamp
  stateTimestamp : Timestamp
  state : Nat
  epoch : Option Timestamp
  deriving DecidableEq, Repr

def BoundsPart.key (b : BoundsPart) : Timestamp := b.timestamp

def MetaPart.key (m : MetaPart) : Timestamp ×ₗ Timestamp := toLex (m.timestamp, m.metaTimestamp)

def StatePart.key (s : StatePart) : Timestamp ×ₗ (Timestamp ×ₗ ℕ) :=
  toLex (s.timestamp, toLex (s.stateTimestamp, s.state))

/-- A row cut into its three parts: every field but `name` and `reported`. -/
structure Parts where
  bounds : BoundsPart
  stats : MetaPart
  state : StatePart
  deriving DecidableEq, Repr

open LastWriterWins in
/-- Merging part by part, each part kept from `a` unless `b`'s is strictly newer. -/
def Parts.merge (a b : Parts) : Parts :=
  ⟨pick BoundsPart.key a.bounds b.bounds, pick MetaPart.key a.stats b.stats,
    pick StatePart.key a.state b.state⟩

namespace Parts

/-- Every key of one row's parts is at most the matching key of another's. -/
def KeyLe (a b : Parts) : Prop :=
  a.bounds.key ≤ b.bounds.key ∧ a.stats.key ≤ b.stats.key ∧ a.state.key ≤ b.state.key

theorem merge_of_keyLe {a b : Parts} (h : b.KeyLe a) : a.merge b = a := by
  obtain ⟨h1, h2, h3⟩ := h
  simp only [merge, LastWriterWins.pick_of_le h1, LastWriterWins.pick_of_le h2,
    LastWriterWins.pick_of_le h3]

end Parts

namespace ShardRange

def boundsPart (r : ShardRange) : BoundsPart := ⟨r.timestamp, r.lower, r.upper, r.deleted⟩

def metaPart (r : ShardRange) : MetaPart :=
  ⟨r.timestamp, r.metaTimestamp, r.objectCount, r.bytesUsed, r.tombstones⟩

def statePart (r : ShardRange) : StatePart :=
  ⟨r.timestamp, r.stateTimestamp, r.state, r.epoch⟩

def parts (r : ShardRange) : Parts := ⟨r.boundsPart, r.metaPart, r.statePart⟩

end ShardRange

/-! ### Each block of `merge_shards` settles one part -/

namespace Container

open LastWriterWins

variable {d e r : ShardRange}

@[simp] theorem boundsPart_mergeMeta : (mergeMeta d e).2.boundsPart = d.boundsPart := by
  unfold mergeMeta; split <;> rfl

@[simp] theorem statePart_mergeMeta : (mergeMeta d e).2.statePart = d.statePart := by
  unfold mergeMeta; split <;> rfl

theorem metaPart_key_le_iff (h : d.timestamp = e.timestamp) :
    MetaPart.key d.metaPart ≤ MetaPart.key e.metaPart ↔ d.metaTimestamp ≤ e.metaTimestamp := by
  simp only [MetaPart.key, ShardRange.metaPart, h]
  exact toLex_le_toLex_of_fst_eq

theorem metaPart_mergeMeta (h : d.timestamp = e.timestamp) :
    (mergeMeta d e).2.metaPart = pick MetaPart.key e.metaPart d.metaPart := by
  unfold mergeMeta pick
  by_cases hm : d.metaTimestamp ≤ e.metaTimestamp
  · rw [if_pos hm, if_pos ((metaPart_key_le_iff h).mpr hm)]
    simp [ShardRange.metaPart, h]
  · rw [if_neg hm, if_neg (mt (metaPart_key_le_iff h).mp hm)]

theorem mergeMeta_fst_eq_false (h : d.timestamp = e.timestamp) (hf : (mergeMeta d e).1 = false) :
    MetaPart.key d.metaPart ≤ MetaPart.key e.metaPart := by
  unfold mergeMeta at hf
  split at hf
  · rename_i hm; exact (metaPart_key_le_iff h).mpr hm
  · cases hf

@[simp] theorem boundsPart_latchReported : (latchReported d e).2.boundsPart = d.boundsPart := by
  unfold latchReported; split <;> rfl

@[simp] theorem metaPart_latchReported : (latchReported d e).2.metaPart = d.metaPart := by
  unfold latchReported; split <;> rfl

@[simp] theorem statePart_latchReported : (latchReported d e).2.statePart = d.statePart := by
  unfold latchReported; split <;> rfl

@[simp] theorem boundsPart_mergeState : (mergeState d e).2.boundsPart = d.boundsPart := by
  unfold mergeState; split
  · rfl
  · split <;> rfl

@[simp] theorem metaPart_mergeState : (mergeState d e).2.metaPart = d.metaPart := by
  unfold mergeState; split
  · rfl
  · split <;> rfl

/-- The order on state parts at one `timestamp`, in the shape of the branches of
`merge_shards`. -/
theorem statePart_key_le_iff (h : d.timestamp = e.timestamp) :
    StatePart.key d.statePart ≤ StatePart.key e.statePart ↔
      ¬(e.stateTimestamp = d.stateTimestamp ∧ e.state < d.state) ∧
        d.stateTimestamp ≤ e.stateTimestamp := by
  simp only [StatePart.key, ShardRange.statePart, h]
  rw [toLex_le_toLex_of_fst_eq, Prod.Lex.toLex_le_toLex]
  constructor
  · rintro (hlt | ⟨heq, hle⟩)
    · exact ⟨fun hs => (ne_of_lt hlt) hs.1.symm, le_of_lt hlt⟩
    · exact ⟨fun hs => absurd hle (not_le.mpr hs.2), heq.le⟩
  · rintro ⟨hn, hle⟩
    rcases hle.lt_or_eq with hlt | heq
    · exact .inl hlt
    · exact .inr ⟨heq, not_lt.mp fun hs => hn ⟨heq.symm, hs⟩⟩

theorem statePart_mergeState (h : d.timestamp = e.timestamp) :
    (mergeState d e).2.statePart = pick StatePart.key e.statePart d.statePart := by
  have hk := statePart_key_le_iff h
  unfold mergeState pick
  split
  · rename_i hs
    rw [if_neg fun hle => (hk.mp hle).1 hs]
  · rename_i hs
    split
    · rename_i hle
      rw [if_pos (hk.mpr ⟨hs, hle⟩)]
      simp [ShardRange.statePart, h]
    · rename_i hle
      rw [if_neg fun hk' => hle (hk.mp hk').2]

theorem mergeState_fst_eq_false (h : d.timestamp = e.timestamp)
    (hf : (mergeState d e).1 = false) : StatePart.key d.statePart ≤ StatePart.key e.statePart := by
  unfold mergeState at hf
  split at hf
  · cases hf
  · rename_i hs
    split at hf
    · rename_i hle; exact (statePart_key_le_iff h).mpr ⟨hs, hle⟩
    · cases hf

/-! ### `merge_shards` as a last-writer-wins merge -/

theorem keyLe_parts_of_timestamp_lt (h : r.timestamp < e.timestamp) : r.parts.KeyLe e.parts :=
  ⟨le_of_lt h, le_of_lt (toLex_lt_toLex_of_fst_lt _ _ h),
    le_of_lt (toLex_lt_toLex_of_fst_lt _ _ h)⟩

theorem parts_merge_of_timestamp_lt (h : e.timestamp < r.timestamp) :
    e.parts.merge r.parts = r.parts := by
  simp only [Parts.merge, ShardRange.parts]
  have hb : BoundsPart.key e.boundsPart < BoundsPart.key r.boundsPart := h
  have hm : MetaPart.key e.metaPart < MetaPart.key r.metaPart := toLex_lt_toLex_of_fst_lt _ _ h
  have hs : StatePart.key e.statePart < StatePart.key r.statePart :=
    toLex_lt_toLex_of_fst_lt _ _ h
  rw [pick_of_lt hb, pick_of_lt hm, pick_of_lt hs]

theorem mergeShards_of_lt (h : e.timestamp < r.timestamp) :
    mergeShards r (some e) = (true, { r with reported := false }) := by
  simp [mergeShards, h]

theorem mergeShards_of_gt (h : r.timestamp < e.timestamp) :
    mergeShards r (some e) = (false, r) := by
  simp [mergeShards, h, not_lt.mpr (le_of_lt h)]

/-- At equal timestamps the merged `shard_data` is, part by part, the last-writer-wins choice
between `existing` and `shard_data`. -/
theorem parts_mergeShards_of_eq (h : e.timestamp = r.timestamp) :
    (mergeShards r (some e)).2.parts = e.parts.merge r.parts := by
  have h1 : ¬ e.timestamp < r.timestamp := h ▸ lt_irrefl _
  have h2 : ¬ r.timestamp < e.timestamp := h ▸ lt_irrefl _
  simp only [mergeShards, if_neg h1, if_neg h2]
  set d : ShardRange := { r with lower := e.lower, upper := e.upper, deleted := e.deleted }
  have hd : d.timestamp = e.timestamp := h.symm
  have hl : ((latchReported (mergeMeta d e).2 e).2).timestamp = e.timestamp := by
    unfold latchReported mergeMeta; split <;> split <;> exact hd
  simp only [ShardRange.parts, Parts.merge, Parts.mk.injEq]
  refine ⟨?_, ?_, ?_⟩
  · have hb : BoundsPart.key r.boundsPart ≤ BoundsPart.key e.boundsPart := le_of_eq h.symm
    rw [boundsPart_mergeState, boundsPart_latchReported, boundsPart_mergeMeta, pick_of_le hb]
    simp [d, ShardRange.boundsPart, h]
  · rw [metaPart_mergeState, metaPart_latchReported, metaPart_mergeMeta hd]
    rfl
  · rw [statePart_mergeState hl, statePart_latchReported, statePart_mergeMeta]
    rfl

/-- A row that `merge_shards` finds no newer than `existing` is older on every part. -/
theorem keyLe_of_mergeShards_eq_false (h : (mergeShards r (some e)).1 = false) :
    r.parts.KeyLe e.parts := by
  rcases lt_trichotomy e.timestamp r.timestamp with hlt | heq | hgt
  · rw [mergeShards_of_lt hlt] at h; cases h
  · have h1 : ¬ e.timestamp < r.timestamp := heq ▸ lt_irrefl _
    have h2 : ¬ r.timestamp < e.timestamp := heq ▸ lt_irrefl _
    simp only [mergeShards, if_neg h1, if_neg h2, Bool.or_eq_false_iff] at h
    obtain ⟨⟨hm, -⟩, hs⟩ := h
    set d : ShardRange := { r with lower := e.lower, upper := e.upper, deleted := e.deleted }
    have hd : d.timestamp = e.timestamp := heq.symm
    have hl : ((latchReported (mergeMeta d e).2 e).2).timestamp = e.timestamp := by
      unfold latchReported mergeMeta; split <;> split <;> exact hd
    have hmeta := mergeMeta_fst_eq_false hd hm
    refine ⟨le_of_eq heq.symm, hmeta, ?_⟩
    have hst := mergeState_fst_eq_false hl hs
    rwa [statePart_latchReported, statePart_mergeMeta] at hst
  · exact keyLe_parts_of_timestamp_lt hgt

@[simp] theorem storeShardRange_none : storeShardRange none r = r := rfl

/-- **Merging one row.** The row the table keeps is, part by part, the last-writer-wins choice
between the row it held and the incoming one, ties going to the row it held. -/
theorem parts_storeShardRange (e r : ShardRange) :
    (storeShardRange (some e) r).parts = e.parts.merge r.parts := by
  unfold storeShardRange
  dsimp only
  rcases lt_trichotomy e.timestamp r.timestamp with hlt | heq | hgt
  · rw [mergeShards_of_lt hlt, parts_merge_of_timestamp_lt hlt]
    rfl
  · split
    · exact parts_mergeShards_of_eq heq
    · rename_i hf
      exact (Parts.merge_of_keyLe (keyLe_of_mergeShards_eq_false (by simpa using hf))).symm
  · rw [mergeShards_of_gt hgt, Parts.merge_of_keyLe (keyLe_parts_of_timestamp_lt hgt)]
    rfl

/-! ### The reported latch -/

@[simp] theorem reported_mergeMeta : (mergeMeta d e).2.reported = d.reported := by
  unfold mergeMeta; split <;> rfl

@[simp] theorem reported_mergeState : (mergeState d e).2.reported = d.reported := by
  unfold mergeState; split
  · rfl
  · split <;> rfl

theorem reported_latchReported (h : (latchReported d e).2.reported = true) :
    e.reported = true ∨ d.reported = true := by
  unfold latchReported at h
  split at h
  · rename_i hl
    simp only [Bool.and_eq_true] at hl
    exact .inl hl.1.1.1.1.1
  · exact .inr h

/-- The latch never invents a report: what `merge_shards` leaves marked reported was marked in
`shard_data` or in `existing`. -/
theorem reported_mergeShards {o : Option ShardRange} (h : (mergeShards r o).2.reported = true) :
    r.reported = true ∨ ∃ e, o = some e ∧ e.reported = true := by
  cases o with
  | none => exact .inl h
  | some e =>
    rcases lt_trichotomy e.timestamp r.timestamp with hlt | heq | hgt
    · simp [mergeShards_of_lt hlt] at h
    · -- equal timestamps: the flag comes through the latch, which reads both rows
      have h1 : ¬ e.timestamp < r.timestamp := heq ▸ lt_irrefl _
      have h2 : ¬ r.timestamp < e.timestamp := heq ▸ lt_irrefl _
      simp only [mergeShards, if_neg h1, if_neg h2, reported_mergeState] at h
      rcases reported_latchReported h with he | hd
      · exact .inr ⟨e, rfl, he⟩
      · exact .inl (by simpa using hd)
    · rw [mergeShards_of_gt hgt] at h
      exact .inl h

/-- A row whose newer stats were never reported to the root. -/
def staleReportExisting : ShardRange :=
  ⟨"a/c", ⟨1, 0⟩, "", "", 5, 50, ⟨3, 0⟩, false, 10, ⟨1, 0⟩, none, false, 0⟩

/-- An older copy of the same row, whose stats were reported. -/
def staleReportIncoming : ShardRange :=
  ⟨"a/c", ⟨1, 0⟩, "", "", 3, 30, ⟨2, 0⟩, false, 10, ⟨1, 0⟩, none, true, 0⟩

/-- The latch is not sound: merging the reported older copy into the unreported newer row keeps
the newer stats and marks them reported, though no input row reported them. -/
theorem storeShardRange_reports_unreported_stats :
    (storeShardRange (some staleReportExisting) staleReportIncoming).reported = true ∧
      (storeShardRange (some staleReportExisting) staleReportIncoming).objectCount = 5 ∧
      ∀ x ∈ [staleReportExisting, staleReportIncoming], x.reported = true → x.objectCount ≠ 5 := by
  decide

end Container

end Swift
