import Swift.Container.YieldObjects
import Swift.Data.PyDict
import Swift.Proxy.ContainerUpdates

/-!
# Moving misplaced objects

`ContainerSharder._move_objects` takes the rows of a source namespace that belong elsewhere and
moves them: it merges each batch that `yield_objects_to_shard_range` routes to a destination into
that destination's broker, and once every batch is placed it replicates each destination broker
and, when the replication succeeded or reached a quorum and the source DB is still the one the
rows were read from, removes the destination's rows from the source with
`remove_objects(dest.lower_str, dest.upper_str, max_row)`.

## What is removed

`remove_objects` deletes by the destination's bounds, not by the rows that were sent. The two
agree when the destination lies within the source namespace, since the batches of a destination
hold every row it shares with the source (`Routed.within`). A destination that reaches past the
source's bounds, which the root lists when its shard ranges overlap, has rows of the source
broker outside the source namespace: they were never yielded, and they are removed all the same
(`moveObjects_removes_unsent_row`).

## The model

The rows do not change while the batches are read, so the `info` sampled before each batch is one
`max_row` and one DB id; between two source ranges of `_move_misplaced_objects` they are the rows
the first left. What `_replicate_object` returns for a destination, and whether the DB
id has changed by the time it is replicated, are given per destination. `dest_brokers` is keyed
by `ShardRange.__hash__`, the object's identity; the destinations are the rows of a shard range
table, distinct in name, so a dict keyed by their values keeps the same entries in the same
order. A destination broker is the rows merged into it, batch after batch.

## Main results

* `foldl_replicateStep` — the replication loop removes, from the rows it starts with, those that
  some accepted destination's `remove_objects` clause matches
* `moveObjects_removes_only_sent` — with destinations inside the source, every row removed was
  merged into a destination whose replication was accepted
* `moveObjects_success_clears_source` — when `_move_objects` reports success, every row of the
  source namespace is gone, unless it was routed to the source container itself
* `moveObjects_removes_unsent_row` — a destination that reaches past the source removes a row it
  was never sent
* `moveMisplacedObjects_clears_misplaced` — `_move_misplaced_objects` runs `_move_objects` over
  each source range `_make_misplaced_object_bounds` gives, on the rows the one before left; when it
  returns `True`, no row is left in those bounds but rows routed to the container itself
-/

namespace Swift

namespace Sharder

open Listing

/-! ### `remove_objects` -/

/-- The `WHERE` clause of `ContainerBroker.remove_objects(lower, upper, max_row)` past
`deleted in (0, 1)`, which every row meets: `ROWID <= max_row`, `name > lower` and
`name <= upper`, an empty bound being no bound. -/
def removeClause (lower upper : String) (maxRow : Option Int) (r : ObjectRow) : Bool :=
  (maxRow.all fun m => decide ((r.rowid : Int) ≤ m)) &&
    (lower.isEmpty || decide (lower.toList < r.name)) &&
    (upper.isEmpty || decide (r.name ≤ upper.toList))

/-- `ContainerBroker.remove_objects(lower, upper, max_row)`, of every storage policy. -/
def removeObjects (rows : List ObjectRow) (lower upper : String) (maxRow : Option Int) :
    List ObjectRow :=
  rows.filter fun r => !removeClause lower upper maxRow r

/-- Between the printed bounds of a namespace, `remove_objects` matches the names it holds. -/
theorem removeClause_eq_contains (d : Namespace) (hl : d.lower ≠ .maxBound)
    (hu : d.upper ≠ .minBound) (maxRow : Int) {r : ObjectRow} (hr : r.name ≠ []) :
    removeClause d.lower.toStr d.upper.toStr (some maxRow) r =
      (decide ((r.rowid : Int) ≤ maxRow) && d.contains (String.ofList r.name)) := by
  have hupper : (d.upper.toStr.isEmpty || decide (r.name ≤ d.upper.toStr.toList)) =
      ((endMarkerOf d.upper).isEmpty || decide (r.name < endMarkerOf d.upper)) := by
    cases h : d.upper with
    | minBound => exact absurd h hu
    | name s hs =>
      have hs' : s.isEmpty = false := by simpa [String.isEmpty_iff] using hs
      have hend : (s.toList ++ ['\x00']).isEmpty = false := List.isEmpty_eq_false_iff.mpr (by simp)
      simp only [Bound.toStr, endMarkerOf, hs', hend, Bool.false_or]
      exact decide_eq_decide.mpr (lt_append_nul_iff _ _).symm
    | maxBound => simp [Bound.toStr, endMarkerOf]
  have hlower : d.lower.toStr.isEmpty = d.lower.toStr.toList.isEmpty := by
    cases h : d.lower.toStr.isEmpty <;> simp_all [String.isEmpty_iff]
  rw [← inWindow_eq_contains d hl hu hr, inWindow, removeClause, Option.all_some, hupper, hlower,
    Bool.and_assoc]

/-! ### Placing the batches -/

/-- What `_move_objects` gathers while it places the batches: `dest_brokers`, each destination
with the rows merged into its broker, and the counters. -/
structure Placing where
  destBrokers : List (ShardRange × List ObjectRow)
  placed : Nat
  unplaced : Nat
  success : Bool
  deriving DecidableEq

/-- One turn of `for objs, dest_shard_range, info in self.yield_objects_to_shard_range(...)`:
rows with no destination are counted as unplaced, rows for the source container itself are
skipped, and other rows are merged into their destination's broker. -/
def placeBatch (srcPath : String) (p : Placing) : List ObjectRow × Option ShardRange → Placing
  | (objs, none) => { p with unplaced := p.unplaced + objs.length, success := false }
  | (objs, some dest) =>
    if dest.name = srcPath then p
    else
      { p with
        destBrokers :=
          PyDict.set p.destBrokers dest ((PyDict.get p.destBrokers dest).getD [] ++ objs)
        placed := p.placed + objs.length }

/-- The rows merged into a destination's broker. -/
def sentTo (p : Placing) (d : ShardRange) : List ObjectRow := (PyDict.get p.destBrokers d).getD []

theorem sentTo_placeBatch (srcPath : String) (p : Placing) (t : List ObjectRow × Option ShardRange)
    (d : ShardRange) :
    sentTo (placeBatch srcPath p t) d =
      if t.2 = some d ∧ d.name ≠ srcPath then sentTo p d ++ t.1 else sentTo p d := by
  obtain ⟨objs, dest⟩ := t
  cases dest with
  | none => simp [placeBatch, sentTo]
  | some dest =>
    by_cases hname : dest.name = srcPath
    · have hd : ¬(some dest = some d ∧ d.name ≠ srcPath) := by
        rintro ⟨hdd, hne⟩
        exact hne (Option.some.inj hdd ▸ hname)
      simp only [placeBatch, if_pos hname, if_neg hd]
    · by_cases hdd : dest = d
      · subst hdd
        simp [placeBatch, sentTo, hname, PyDict.get_set_self]
      · have hne : ¬(some dest = some d ∧ d.name ≠ srcPath) := fun h =>
          hdd (Option.some.inj h.1)
        simp only [placeBatch, if_neg hname, if_neg hne, sentTo]
        rw [PyDict.get_set_of_ne _ (Ne.symm hdd)]

theorem mem_keys_placeBatch (srcPath : String) (p : Placing)
    (t : List ObjectRow × Option ShardRange) (d : ShardRange) :
    d ∈ (placeBatch srcPath p t).destBrokers.map Prod.fst ↔
      d ∈ p.destBrokers.map Prod.fst ∨ (t.2 = some d ∧ d.name ≠ srcPath) := by
  obtain ⟨objs, dest⟩ := t
  cases dest with
  | none => simp [placeBatch]
  | some dest =>
    by_cases hname : dest.name = srcPath
    · simp only [placeBatch, if_pos hname]
      constructor
      · exact .inl
      · rintro (h | ⟨hdd, hne⟩)
        · exact h
        · exact absurd (Option.some.inj hdd ▸ hname) hne
    · simp only [placeBatch, if_neg hname, PyDict.mem_keys_set, Option.some.injEq]
      constructor
      · rintro (rfl | h)
        · exact .inr ⟨rfl, hname⟩
        · exact .inl h
      · rintro (h | ⟨rfl, -⟩)
        · exact .inr h
        · exact .inl rfl

theorem success_placeBatch (srcPath : String) (p : Placing)
    (t : List ObjectRow × Option ShardRange) :
    (placeBatch srcPath p t).success = (p.success && t.2.isSome) := by
  obtain ⟨objs, dest⟩ := t
  cases dest with
  | none => simp [placeBatch]
  | some dest =>
    by_cases hname : dest.name = srcPath
    · simp [placeBatch, hname]
    · simp [placeBatch, hname]

/-- The placing loop of `_move_objects`, from empty `dest_brokers` and counters. -/
def placeBatches (srcPath : String) (ts : List (List ObjectRow × Option ShardRange)) : Placing :=
  ts.foldl (placeBatch srcPath) ⟨[], 0, 0, true⟩

section Placing

variable (srcPath : String)

/-- After the batches `ts`, a destination other than the source container has been sent the rows
of the batches routed to it. -/
theorem mem_sentTo_foldl (ts : List (List ObjectRow × Option ShardRange)) (p : Placing)
    {d : ShardRange} (hd : d.name ≠ srcPath) (r : ObjectRow) :
    r ∈ sentTo (ts.foldl (placeBatch srcPath) p) d ↔
      r ∈ sentTo p d ∨ ∃ t ∈ ts, t.2 = some d ∧ r ∈ t.1 := by
  induction ts generalizing p with
  | nil => simp
  | cons t ts ih =>
    rw [List.foldl_cons, ih, sentTo_placeBatch]
    by_cases ht : t.2 = some d
    · rw [if_pos ⟨ht, hd⟩, List.mem_append]
      constructor
      · rintro ((h | h) | ⟨t', ht', htd, hr⟩)
        · exact .inl h
        · exact .inr ⟨t, List.mem_cons_self, ht, h⟩
        · exact .inr ⟨t', List.mem_cons_of_mem _ ht', htd, hr⟩
      · rintro (h | ⟨t', ht', htd, hr⟩)
        · exact .inl (.inl h)
        · rcases List.mem_cons.mp ht' with rfl | ht'
          · exact .inl (.inr hr)
          · exact .inr ⟨t', ht', htd, hr⟩
    · rw [if_neg fun h => ht h.1]
      constructor
      · rintro (h | ⟨t', ht', htd, hr⟩)
        · exact .inl h
        · exact .inr ⟨t', List.mem_cons_of_mem _ ht', htd, hr⟩
      · rintro (h | ⟨t', ht', htd, hr⟩)
        · exact .inl h
        · rcases List.mem_cons.mp ht' with rfl | ht'
          · exact absurd htd ht
          · exact .inr ⟨t', ht', htd, hr⟩

/-- A destination has an entry in `dest_brokers` when a batch was routed to it, and it is not
the source container. -/
theorem mem_keys_foldl (ts : List (List ObjectRow × Option ShardRange)) (p : Placing)
    (d : ShardRange) :
    d ∈ (ts.foldl (placeBatch srcPath) p).destBrokers.map Prod.fst ↔
      d ∈ p.destBrokers.map Prod.fst ∨ (d.name ≠ srcPath ∧ ∃ t ∈ ts, t.2 = some d) := by
  induction ts generalizing p with
  | nil => simp
  | cons t ts ih =>
    rw [List.foldl_cons, ih, mem_keys_placeBatch]
    constructor
    · rintro ((h | ⟨ht, hd⟩) | ⟨hd, t', ht', htd⟩)
      · exact .inl h
      · exact .inr ⟨hd, t, List.mem_cons_self, ht⟩
      · exact .inr ⟨hd, t', List.mem_cons_of_mem _ ht', htd⟩
    · rintro (h | ⟨hd, t', ht', htd⟩)
      · exact .inl (.inl h)
      · rcases List.mem_cons.mp ht' with rfl | ht'
        · exact .inl (.inr ⟨htd, hd⟩)
        · exact .inr ⟨hd, t', ht', htd⟩

/-- `success` stays true through the batches only when every batch has a destination. -/
theorem success_foldl (ts : List (List ObjectRow × Option ShardRange)) (p : Placing) :
    (ts.foldl (placeBatch srcPath) p).success = (p.success && ts.all fun t => t.2.isSome) := by
  induction ts generalizing p with
  | nil => simp
  | cons t ts ih =>
    rw [List.foldl_cons, ih, success_placeBatch, List.all_cons, Bool.and_assoc]

end Placing

/-! ### Replicating and removing -/

/-- Whether `_replicate_and_delete` goes on to remove rows: the replication succeeded or reached
a quorum, and the DB is still the one the batches were read from. -/
def accepts (replicated : Bool × List Bool) (quorum : Nat) (sameDb : Bool) : Bool :=
  (replicated.1 || decide (quorum ≤ replicated.2.count true)) && sameDb

/-- `_replicate_and_delete(broker, dest_shard_range, ...)`: the rows left and what it returns.
`replicated` is what `_replicate_object` returns, `sameDb` whether `broker.get_info()['id']` is
still the id sampled with the batches. -/
def replicateAndDelete (rows : List ObjectRow) (dest : ShardRange) (replicated : Bool × List Bool)
    (quorum : Nat) (sameDb : Bool) (maxRow : Int) : List ObjectRow × Bool :=
  if !replicated.1 && decide (replicated.2.count true < quorum) then (rows, false)
  else if !sameDb then (rows, false)
  else (removeObjects rows dest.lower.toStr dest.upper.toStr (some maxRow), true)

theorem replicateAndDelete_eq (rows : List ObjectRow) (dest : ShardRange)
    (replicated : Bool × List Bool) (quorum : Nat) (sameDb : Bool) (maxRow : Int) :
    replicateAndDelete rows dest replicated quorum sameDb maxRow =
      if accepts replicated quorum sameDb then
        (removeObjects rows dest.lower.toStr dest.upper.toStr (some maxRow), true)
      else (rows, false) := by
  unfold replicateAndDelete accepts
  cases replicated.1 <;> cases sameDb <;> by_cases hq : quorum ≤ replicated.2.count true <;>
    simp [hq]

/-- One turn of `for dest_shard_range, dest_args in dest_brokers.items(): success &=
self._replicate_and_delete(...)`, on the rows and `success`. -/
def replicateStep (replicate : ShardRange → Bool × List Bool) (quorum : Nat)
    (sameDb : ShardRange → Bool) (maxRow : Int) (acc : List ObjectRow × Bool)
    (item : ShardRange × List ObjectRow) : List ObjectRow × Bool :=
  let out := replicateAndDelete acc.1 item.1 (replicate item.1) quorum (sameDb item.1) maxRow
  (out.1, acc.2 && out.2)

/-- `_move_objects(src_broker, src_shard_range, policy_index, shard_range_fetcher)` on a broker
with these rows, `dests` being what the fetcher returns and `src_path` the broker's path: the
rows left, and what it gathered, with the `success` it returns. `none` where it raises. -/
def moveObjects (rows : List ObjectRow) (batchSize : Nat) (src : Namespace) (srcPath : String)
    (dests : List ShardRange) (replicate : ShardRange → Bool × List Bool) (replicaCount : Nat)
    (sameDb : ShardRange → Bool) (maxRow : Int) : Option (List ObjectRow × Placing) :=
  (yieldObjectsToShardRange rows batchSize src dests).map fun ts =>
    let placing := placeBatches srcPath ts
    let replicated := placing.destBrokers.foldl
      (replicateStep replicate (Proxy.quorumSize replicaCount) sameDb maxRow)
      (rows, placing.success)
    (replicated.1, { placing with success := replicated.2 })

section Replicating

variable (replicate : ShardRange → Bool × List Bool) (quorum : Nat) (sameDb : ShardRange → Bool)
  (maxRow : Int)

/-- Whether the replication of a destination removes a row. -/
def removesRow (d : ShardRange) (r : ObjectRow) : Bool :=
  accepts (replicate d) quorum (sameDb d) &&
    removeClause d.lower.toStr d.upper.toStr (some maxRow) r

/-- The replication loop removes, from the rows it starts with, those some accepted destination
matches, and returns success when every destination was accepted. -/
theorem foldl_replicateStep (items : List (ShardRange × List ObjectRow))
    (acc : List ObjectRow × Bool) :
    items.foldl (replicateStep replicate quorum sameDb maxRow) acc =
      (acc.1.filter fun r => items.all fun item => !removesRow replicate quorum sameDb maxRow item.1 r,
        acc.2 && items.all fun item => accepts (replicate item.1) quorum (sameDb item.1)) := by
  induction items generalizing acc with
  | nil => simp
  | cons item items ih =>
    rw [List.foldl_cons, ih]
    obtain ⟨rows, success⟩ := acc
    simp only [replicateStep, replicateAndDelete_eq]
    by_cases hacc : accepts (replicate item.1) quorum (sameDb item.1) = true
    · simp only [hacc, if_true, removeObjects, List.filter_filter, removesRow, List.all_cons,
        Bool.true_and, Bool.and_true]
      refine Prod.ext (List.filter_congr fun r _ => Bool.and_comm _ _) rfl
    · simp [hacc, removesRow]

end Replicating

/-! ### What `_move_objects` removes -/

/-- A destination a batch was routed to has printable bounds: it holds a row. -/
theorem printable_of_routed {rows : List ObjectRow} (hne : ∀ r ∈ rows, r.name ≠ [])
    {src : Namespace} {dests : List ShardRange} {ts : List (List ObjectRow × Option ShardRange)}
    (hrouted : Routed rows src dests ts) {d : ShardRange} (hd : ∃ t ∈ ts, t.2 = some d) :
    d.lower ≠ .maxBound ∧ d.upper ≠ .minBound ∧ ∃ r ∈ rows,
      src.contains (String.ofList r.name) = true ∧ d.contains (String.ofList r.name) = true := by
  obtain ⟨t, ht, htd⟩ := hd
  obtain ⟨r, hr⟩ := List.exists_mem_of_ne_nil _ (hrouted.ne_nil t ht)
  have hrow := hrouted.mem_rows t ht r hr
  have hin := hrouted.dest_contains t ht d (by rw [htd]; rfl) r hr
  obtain ⟨hlo, hhi⟩ := (contains_iff_rowBound d.toNamespace (hne r hrow)).mp hin
  exact ⟨ne_of_lt (hlo.trans_le (Bound.le_maxBound _)),
    ne_of_gt ((Bound.minBound_le _).trans_lt (hlo.trans_le hhi)),
    r, hrow, hrouted.src_contains t ht r hr, hin⟩

/-- `_move_objects`, once the batches are routed: the rows no accepted destination removes, and
the placing with `success` anded with every destination's acceptance. -/
theorem moveObjects_eq_some {rows : List ObjectRow} {batchSize : Nat} {src : Namespace}
    {srcPath : String} {dests : List ShardRange} {replicate : ShardRange → Bool × List Bool}
    {replicaCount : Nat} {sameDb : ShardRange → Bool} {maxRow : Int}
    {ts : List (List ObjectRow × Option ShardRange)}
    (h : yieldObjectsToShardRange rows batchSize src dests = some ts) :
    moveObjects rows batchSize src srcPath dests replicate replicaCount sameDb maxRow =
      some (rows.filter (fun r => (placeBatches srcPath ts).destBrokers.all fun item =>
          !removesRow replicate (Proxy.quorumSize replicaCount) sameDb maxRow item.1 r),
        { placeBatches srcPath ts with
          success := (placeBatches srcPath ts).success &&
            (placeBatches srcPath ts).destBrokers.all fun item =>
              accepts (replicate item.1) (Proxy.quorumSize replicaCount) (sameDb item.1) }) := by
  simp only [moveObjects, h, Option.map_some, foldl_replicateStep]

/-- What `_move_objects` returned: the batches were routed, and the rows left and the placing are
those of `moveObjects_eq_some`. -/
theorem exists_of_moveObjects {rows : List ObjectRow} {batchSize : Nat} {src : Namespace}
    {srcPath : String} {dests : List ShardRange} {replicate : ShardRange → Bool × List Bool}
    {replicaCount : Nat} {sameDb : ShardRange → Bool} {maxRow : Int} {left : List ObjectRow}
    {placing : Placing}
    (h : moveObjects rows batchSize src srcPath dests replicate replicaCount sameDb maxRow =
      some (left, placing)) :
    ∃ ts, yieldObjectsToShardRange rows batchSize src dests = some ts ∧
      left = rows.filter (fun r => (placeBatches srcPath ts).destBrokers.all fun item =>
          !removesRow replicate (Proxy.quorumSize replicaCount) sameDb maxRow item.1 r) ∧
      placing = { placeBatches srcPath ts with
          success := (placeBatches srcPath ts).success &&
            (placeBatches srcPath ts).destBrokers.all fun item =>
              accepts (replicate item.1) (Proxy.quorumSize replicaCount) (sameDb item.1) } := by
  obtain ⟨ts, hts, -⟩ := Option.map_eq_some_iff.mp h
  rw [moveObjects_eq_some hts, Option.some.injEq, Prod.mk.injEq] at h
  exact ⟨ts, hts, h.1.symm, h.2.symm⟩

/-- `_move_objects` only removes rows. -/
theorem sublist_of_moveObjects {rows : List ObjectRow} {batchSize : Nat} {src : Namespace}
    {srcPath : String} {dests : List ShardRange} {replicate : ShardRange → Bool × List Bool}
    {replicaCount : Nat} {sameDb : ShardRange → Bool} {maxRow : Int} {left : List ObjectRow}
    {placing : Placing}
    (h : moveObjects rows batchSize src srcPath dests replicate replicaCount sameDb maxRow =
      some (left, placing)) : left.Sublist rows := by
  obtain ⟨ts, -, rfl, -⟩ := exists_of_moveObjects h
  exact List.filter_sublist

section Distinct

variable {rows : List ObjectRow} (hnames : (rows.map ObjectRow.name).Nodup)
  (hne : ∀ r ∈ rows, r.name ≠ []) {batchSize : Nat} (hbatch : 0 < batchSize)
include hnames hne hbatch

theorem moveObjects_isSome {src : Namespace} {dests : List ShardRange}
    (hdests : ∀ d ∈ dests, d.lower ≤ src.upper) (srcPath : String)
    (replicate : ShardRange → Bool × List Bool) (replicaCount : Nat) (sameDb : ShardRange → Bool)
    (maxRow : Int) :
    (moveObjects rows batchSize src srcPath dests replicate replicaCount sameDb maxRow).isSome := by
  obtain ⟨ts, hts⟩ := Option.isSome_iff_exists.mp
    (yieldObjectsToShardRange_isSome hnames hne hbatch hdests :
      (yieldObjectsToShardRange rows batchSize src dests).isSome)
  rw [moveObjects_eq_some hts]
  rfl

/-- With destinations inside the source, a row `_move_objects` removes was merged into the broker
of an accepted destination. -/
theorem sent_of_moveObjects {src : Namespace} {srcPath : String} {dests : List ShardRange}
    (hinside : ∀ d ∈ dests, d.name ≠ srcPath → src.lower < d.upper →
      src.lower ≤ d.lower ∧ d.upper ≤ src.upper)
    {replicate : ShardRange → Bool × List Bool} {replicaCount : Nat} {sameDb : ShardRange → Bool}
    {maxRow : Int} {left : List ObjectRow} {placing : Placing}
    (h : moveObjects rows batchSize src srcPath dests replicate replicaCount sameDb maxRow =
      some (left, placing)) :
    ∀ r ∈ rows, r ∉ left → ∃ d, r ∈ sentTo placing d ∧
      accepts (replicate d) (Proxy.quorumSize replicaCount) (sameDb d) = true := by
  obtain ⟨ts, hts, rfl, rfl⟩ := exists_of_moveObjects h
  have hrouted := routed_yieldObjectsToShardRange hnames hne hbatch hts
  intro r hr hleft
  -- an accepted destination of `dest_brokers` matched the row
  obtain ⟨item, hitem, hremoves⟩ : ∃ item ∈ (placeBatches srcPath ts).destBrokers,
      removesRow replicate (Proxy.quorumSize replicaCount) sameDb maxRow item.1 r = true := by
    simpa [hr] using hleft
  obtain ⟨hacc, hclause⟩ := Bool.and_eq_true_iff.mp hremoves
  -- a batch was routed to it, and it is not the source container
  obtain ⟨hname, hd⟩ := ((mem_keys_foldl srcPath ts _ item.1).mp
    (List.mem_map_of_mem hitem)).resolve_left (by simp)
  obtain ⟨hl, hu, r₀, hr₀, hsrc₀, hdest₀⟩ := printable_of_routed hne hrouted hd
  have hin : item.1.contains (String.ofList r.name) = true := by
    rw [removeClause_eq_contains item.1.toNamespace hl hu maxRow (hne r hr)] at hclause
    exact (Bool.and_eq_true_iff.mp hclause).2
  -- so it lies within the source, and the row is a row of the source it was sent
  obtain ⟨t, ht, htd⟩ := hd
  have hdmem : item.1 ∈ dests := hrouted.dest_mem t ht item.1 (by rw [htd]; rfl)
  obtain ⟨hlo₀, hhi₀⟩ := (contains_iff_rowBound item.1.toNamespace (hne r₀ hr₀)).mp hdest₀
  obtain ⟨hslo₀, -⟩ := (contains_iff_rowBound src (hne r₀ hr₀)).mp hsrc₀
  obtain ⟨hlower, hupper⟩ := hinside item.1 hdmem hname (hslo₀.trans_le hhi₀)
  obtain ⟨hlo, hhi⟩ := (contains_iff_rowBound item.1.toNamespace (hne r hr)).mp hin
  have hsrc : src.contains (String.ofList r.name) = true :=
    (contains_iff_rowBound src (hne r hr)).mpr ⟨hlower.trans_lt hlo, hhi.trans hupper⟩
  obtain ⟨t', ht', ht'd, hrt'⟩ := hrouted.within item.1 ⟨t, ht, htd⟩ r hr hsrc hin
  exact ⟨item.1, (mem_sentTo_foldl srcPath ts _ hname r).mpr (.inr ⟨t', ht', ht'd, hrt'⟩), hacc⟩

/-- When `_move_objects` succeeds, a row of the source it leaves was routed to the source
container itself. -/
theorem routedToSelf_of_moveObjects {src : Namespace} {srcPath : String} {dests : List ShardRange}
    {replicate : ShardRange → Bool × List Bool} {replicaCount : Nat} {sameDb : ShardRange → Bool}
    {maxRow : Int} (hmax : ∀ r ∈ rows, (r.rowid : Int) ≤ maxRow) {left : List ObjectRow}
    {placing : Placing}
    (h : moveObjects rows batchSize src srcPath dests replicate replicaCount sameDb maxRow =
      some (left, placing))
    (hsuccess : placing.success = true) :
    ∀ r ∈ left, src.contains (String.ofList r.name) = true →
      ∃ d ∈ dests, d.name = srcPath ∧ d.contains (String.ofList r.name) = true := by
  obtain ⟨ts, hts, rfl, rfl⟩ := exists_of_moveObjects h
  have hrouted := routed_yieldObjectsToShardRange hnames hne hbatch hts
  intro r hleft hsrc
  obtain ⟨hplaced, hall⟩ := Bool.and_eq_true_iff.mp hsuccess
  -- success means every batch had a destination
  have hsome : ∀ t ∈ ts, t.2.isSome := by
    rw [placeBatches, success_foldl] at hplaced
    simpa using hplaced
  obtain ⟨hr, hkeep⟩ := List.mem_filter.mp hleft
  obtain ⟨t, ht, hrt⟩ := hrouted.covers r hr hsrc
  obtain ⟨d, htd⟩ := Option.isSome_iff_exists.mp (hsome t ht)
  have hdin := hrouted.dest_contains t ht d (by rw [htd]; rfl) r hrt
  refine ⟨d, hrouted.dest_mem t ht d (by rw [htd]; rfl), ?_, hdin⟩
  -- any other destination was accepted, and its `remove_objects` took the row
  by_contra hname
  obtain ⟨item, hitem, rfl⟩ := List.mem_map.mp
    ((mem_keys_foldl srcPath ts _ d).mpr (.inr ⟨hname, t, ht, htd⟩))
  obtain ⟨hl, hu, -⟩ := printable_of_routed hne hrouted ⟨t, ht, htd⟩
  have hremoves : removesRow replicate (Proxy.quorumSize replicaCount) sameDb maxRow item.1 r =
      true := by
    rw [removesRow, List.all_eq_true.mp hall item hitem,
      removeClause_eq_contains item.1.toNamespace hl hu maxRow (hne r hr), hdin,
      decide_eq_true (hmax r hr)]
    rfl
  have hkept := List.all_eq_true.mp hkeep item hitem
  rw [hremoves] at hkept
  cases hkept

end Distinct

/-- On a table whose names are distinct and not empty, with a positive batch size and
destinations that each begin at or below the source's upper bound, and where every destination
other than the source container that reaches above the source's lower bound lies within the
source namespace, `_move_objects` does not raise, only removes rows, and every row it removes was
merged into the broker of a destination whose replication succeeded or reached a quorum with the
source DB unchanged. -/
theorem moveObjects_removes_only_sent (rows : List ObjectRow)
    (hnames : (rows.map ObjectRow.name).Nodup) (hne : ∀ r ∈ rows, r.name ≠ []) (batchSize : Nat)
    (hbatch : 0 < batchSize) (src : Namespace) (srcPath : String) (dests : List ShardRange)
    (hdests : ∀ d ∈ dests, d.lower ≤ src.upper)
    (hinside : ∀ d ∈ dests, d.name ≠ srcPath → src.lower < d.upper →
      src.lower ≤ d.lower ∧ d.upper ≤ src.upper)
    (replicate : ShardRange → Bool × List Bool) (replicaCount : Nat) (sameDb : ShardRange → Bool)
    (maxRow : Int) :
    ∃ left placing, moveObjects rows batchSize src srcPath dests replicate replicaCount sameDb
        maxRow = some (left, placing) ∧ left.Sublist rows ∧
      ∀ r ∈ rows, r ∉ left → ∃ d, r ∈ sentTo placing d ∧
        accepts (replicate d) (Proxy.quorumSize replicaCount) (sameDb d) = true := by
  obtain ⟨⟨left, placing⟩, h⟩ := Option.isSome_iff_exists.mp
    (moveObjects_isSome hnames hne hbatch hdests srcPath replicate replicaCount sameDb maxRow)
  exact ⟨left, placing, h, sublist_of_moveObjects h, sent_of_moveObjects hnames hne hbatch hinside h⟩

/-- Two rows and one destination, the whole of the source namespace. -/
theorem moveObjects_removes_only_sent_oneDest :
    ∃ left placing, moveObjects [⟨1, "a".toList, false, 0⟩, ⟨2, "c".toList, false, 0⟩] 10
        ⟨"dont/care", .minBound, .name "b" (by decide), Bound.minBound_le _⟩ "a/c"
        [⟨⟨".shards_a/c-1", .minBound, .name "b" (by decide), Bound.minBound_le _⟩, 40⟩]
        (fun _ => (false, [true, true, false])) 3 (fun _ => true) 2 = some (left, placing) ∧
      left.Sublist [⟨1, "a".toList, false, 0⟩, ⟨2, "c".toList, false, 0⟩] ∧
      ∀ r ∈ [(⟨1, "a".toList, false, 0⟩ : ObjectRow), ⟨2, "c".toList, false, 0⟩], r ∉ left →
        ∃ d, r ∈ sentTo placing d ∧
          accepts ((fun _ => (false, [true, true, false])) d) (Proxy.quorumSize 3)
            ((fun _ => true) d) = true :=
  moveObjects_removes_only_sent _ (by decide) (by decide) 10 (by decide) _ "a/c" _ (by decide)
    (by decide) _ 3 _ 2

/-- On a table whose names are distinct and not empty, with a positive batch size, destinations
that each begin at or below the source's upper bound, and a `max_row` no row is above, when
`_move_objects` returns success every row of the source namespace left in the table went to a
destination that is the source container itself. -/
theorem moveObjects_success_clears_source (rows : List ObjectRow)
    (hnames : (rows.map ObjectRow.name).Nodup) (hne : ∀ r ∈ rows, r.name ≠ []) (batchSize : Nat)
    (hbatch : 0 < batchSize) (src : Namespace) (srcPath : String) (dests : List ShardRange)
    (hdests : ∀ d ∈ dests, d.lower ≤ src.upper) (replicate : ShardRange → Bool × List Bool)
    (replicaCount : Nat) (sameDb : ShardRange → Bool) (maxRow : Int)
    (hmax : ∀ r ∈ rows, (r.rowid : Int) ≤ maxRow) :
    ∃ left placing, moveObjects rows batchSize src srcPath dests replicate replicaCount sameDb
        maxRow = some (left, placing) ∧
      (placing.success = true → ∀ r ∈ left, src.contains (String.ofList r.name) = true →
        ∃ d ∈ dests, d.name = srcPath ∧ d.contains (String.ofList r.name) = true) := by
  obtain ⟨⟨left, placing⟩, h⟩ := Option.isSome_iff_exists.mp
    (moveObjects_isSome hnames hne hbatch hdests srcPath replicate replicaCount sameDb maxRow)
  exact ⟨left, placing, h, routedToSelf_of_moveObjects hnames hne hbatch hmax h⟩

/-- Two rows and one destination, the whole of the source namespace, every replication
accepted. -/
theorem moveObjects_success_clears_source_oneDest :
    ∃ left placing, moveObjects [⟨1, "a".toList, false, 0⟩, ⟨2, "c".toList, false, 0⟩] 10
        ⟨"dont/care", .minBound, .name "b" (by decide), Bound.minBound_le _⟩ "a/c"
        [⟨⟨".shards_a/c-1", .minBound, .name "b" (by decide), Bound.minBound_le _⟩, 40⟩]
        (fun _ => (true, [true, true, true])) 3 (fun _ => true) 2 = some (left, placing) ∧
      (placing.success = true → ∀ r ∈ left,
        Namespace.contains ⟨"dont/care", .minBound, .name "b" (by decide), Bound.minBound_le _⟩
          (String.ofList r.name) = true →
        ∃ d ∈ [(⟨⟨".shards_a/c-1", .minBound, .name "b" (by decide), Bound.minBound_le _⟩, 40⟩ :
            ShardRange)], d.name = "a/c" ∧ d.contains (String.ofList r.name) = true) :=
  moveObjects_success_clears_source _ (by decide) (by decide) 10 (by decide) _ "a/c" _
    (by decide) _ 3 _ 2 (by decide)

/-- A destination that reaches past the source: the source is the namespace up to `b`, the
destination holds everything up to `d`. The row `a` is sent to the destination; the row `c`,
outside the source, is sent nowhere, and the destination's `remove_objects` removes both. -/
theorem moveObjects_removes_unsent_row :
    moveObjects [⟨1, "a".toList, false, 0⟩, ⟨2, "c".toList, false, 0⟩] 10
        ⟨"dont/care", .minBound, .name "b" (by decide), Bound.minBound_le _⟩ "a/c"
        [⟨⟨".shards_a/c-1", .minBound, .name "d" (by decide), Bound.minBound_le _⟩, 40⟩]
        (fun _ => (true, [true, true, true])) 3 (fun _ => true) 2 =
      some ([], ⟨[(⟨⟨".shards_a/c-1", .minBound, .name "d" (by decide), Bound.minBound_le _⟩, 40⟩,
        [⟨1, "a".toList, false, 0⟩])], 1, 0, true⟩) := by
  decide

/-- One name under two storage policies, read one row at a time: `yield_objects` goes on from the
name of the row it yielded, so the row of policy `1` is never sent, and the destination's
`remove_objects` removes both rows. -/
theorem moveObjects_removes_skipped_policy_duplicate :
    moveObjects [⟨1, "a".toList, false, 0⟩, ⟨2, "a".toList, false, 1⟩] 1
        ⟨"dont/care", .minBound, .name "b" (by decide), Bound.minBound_le _⟩ "a/c"
        [⟨⟨".shards_a/c-1", .minBound, .name "b" (by decide), Bound.minBound_le _⟩, 40⟩]
        (fun _ => (true, [true, true, true])) 3 (fun _ => true) 2 =
      some ([], ⟨[(⟨⟨".shards_a/c-1", .minBound, .name "b" (by decide), Bound.minBound_le _⟩, 40⟩,
        [⟨1, "a".toList, false, 0⟩])], 1, 0, true⟩) := by
  decide

/-! ### `_move_misplaced_objects` -/

/-- The states of a container DB: `UNSHARDED`, `SHARDING`, `SHARDED` and `COLLAPSED`. -/
inductive DbState where
  | unsharded
  | sharding
  | sharded
  | collapsed
  deriving DecidableEq

/-- `_make_default_misplaced_object_bounds`: the names below the own shard range when its lower
bound is a name, and those above it when its upper bound is. -/
def makeDefaultMisplacedObjectBounds (own : Namespace) : List (Bound × Bound) :=
  (if own.lower.toStr ≠ "" then [(.minBound, own.lower)] else []) ++
    (if own.upper.toStr ≠ "" then [(own.upper, .maxBound)] else [])

/-- `_make_misplaced_object_bounds`: every name in a `SHARDED` DB; in a `SHARDING` DB with a
cleave cursor, the names up to the cursor and those above the own shard range; otherwise the
default bounds. -/
def makeMisplacedObjectBounds (state : DbState) (cursor : String) (own : Namespace) :
    List (Bound × Bound) :=
  let bounds := if state = .sharded then [(.minBound, .maxBound)] else []
  let bounds :=
    if bounds.isEmpty && decide (state = .sharding) then
      if cursor ≠ "" then
        (.minBound, Bound.ofUpper cursor) ::
          (if own.upper.toStr ≠ "" then [(own.upper, .maxBound)] else [])
      else []
    else bounds
  if bounds.isEmpty then makeDefaultMisplacedObjectBounds own else bounds

/-- `[ShardRange('dont/care', Timestamp.now(), lower, upper) for lower, upper in src_bounds]`:
the upper setter raises when a pair is the wrong way round. -/
def srcRangesOf (bounds : List (Bound × Bound)) : Option (List Namespace) :=
  bounds.mapM fun b => if h : b.1 ≤ b.2 then some ⟨"dont/care", b.1, b.2, h⟩ else none

/-- The `for src_shard_range in src_ranges` loop of `_move_misplaced_objects`, from the `i`-th
source range: the rows left and `success`, anded with each part's. -/
def moveMisplacedLoop (batchSize : Nat) (srcPath : String) (fetch : Namespace → List ShardRange)
    (replicate : Nat → ShardRange → Bool × List Bool) (replicaCount : Nat)
    (sameDb : Nat → ShardRange → Bool) (maxRow : Int) :
    Nat → List Namespace → List ObjectRow → Bool → Option (List ObjectRow × Bool)
  | _, [], rows, success => some (rows, success)
  | i, src :: srcs, rows, success =>
    (moveObjects rows batchSize src srcPath (fetch src) (replicate i) replicaCount (sameDb i)
        maxRow).bind fun moved =>
      moveMisplacedLoop batchSize srcPath fetch replicate replicaCount sameDb maxRow (i + 1) srcs
        moved.1 (success && moved.2.success)

/-- `_move_misplaced_objects(broker, src_broker, src_bounds)` on a source broker with these rows
and path, for a broker in state `state` with cleave cursor `cursor` and own shard range `own`:
the rows left and the `success` it returns. `fetch` gives what each source range's shard range
fetcher returns, `replicate i` and `sameDb i` what replication and the DB id check give while the
`i`-th source range is moved. -/
def moveMisplacedObjects (rows : List ObjectRow) (batchSize : Nat) (srcPath : String)
    (srcBounds : Option (List (Bound × Bound))) (state : DbState) (cursor : String)
    (own : Namespace) (fetch : Namespace → List ShardRange)
    (replicate : Nat → ShardRange → Bool × List Bool) (replicaCount : Nat)
    (sameDb : Nat → ShardRange → Bool) (maxRow : Int) : Option (List ObjectRow × Bool) :=
  (srcRangesOf (srcBounds.getD (makeMisplacedObjectBounds state cursor own))).bind fun srcs =>
    moveMisplacedLoop batchSize srcPath fetch replicate replicaCount sameDb maxRow 0 srcs rows true

theorem outer_of_mem_makeDefaultMisplacedObjectBounds {own : Namespace} {b : Bound × Bound}
    (hb : b ∈ makeDefaultMisplacedObjectBounds own) : b.1 = .minBound ∨ b.2 = .maxBound := by
  unfold makeDefaultMisplacedObjectBounds at hb
  rcases List.mem_append.mp hb with hb | hb
  · split at hb
    · rw [List.mem_singleton.mp hb]
      exact .inl rfl
    · cases hb
  · split at hb
    · rw [List.mem_singleton.mp hb]
      exact .inr rfl
    · cases hb

/-- Each pair of bounds `_make_misplaced_object_bounds` gives begins at `MIN` or ends at `MAX`. -/
theorem outer_of_mem_makeMisplacedObjectBounds {state : DbState} {cursor : String}
    {own : Namespace} {b : Bound × Bound} (hb : b ∈ makeMisplacedObjectBounds state cursor own) :
    b.1 = .minBound ∨ b.2 = .maxBound := by
  cases state with
  | sharded =>
    rw [show makeMisplacedObjectBounds .sharded cursor own = [(.minBound, .maxBound)] from rfl,
      List.mem_singleton] at hb
    rw [hb]
    exact .inl rfl
  | sharding =>
    by_cases hc : cursor = ""
    · have hdefault : makeMisplacedObjectBounds .sharding cursor own =
          makeDefaultMisplacedObjectBounds own := by
        simp [makeMisplacedObjectBounds, hc]
      exact outer_of_mem_makeDefaultMisplacedObjectBounds (hdefault ▸ hb)
    · have hcursor : makeMisplacedObjectBounds .sharding cursor own =
          (.minBound, Bound.ofUpper cursor) ::
            (if own.upper.toStr ≠ "" then [(own.upper, .maxBound)] else []) := by
        simp only [makeMisplacedObjectBounds, reduceCtorEq, if_false, List.isEmpty_nil,
          decide_true, Bool.and_self, if_true, hc, ne_eq, not_false_eq_true, List.isEmpty_cons,
          Bool.false_eq_true]
      rw [hcursor] at hb
      rcases List.mem_cons.mp hb with rfl | hb
      · exact .inl rfl
      · split at hb
        · rw [List.mem_singleton.mp hb]
          exact .inr rfl
        · cases hb
  | unsharded => exact outer_of_mem_makeDefaultMisplacedObjectBounds hb
  | collapsed => exact outer_of_mem_makeDefaultMisplacedObjectBounds hb

theorem le_of_mem_makeMisplacedObjectBounds {state : DbState} {cursor : String} {own : Namespace}
    {b : Bound × Bound} (hb : b ∈ makeMisplacedObjectBounds state cursor own) : b.1 ≤ b.2 := by
  rcases outer_of_mem_makeMisplacedObjectBounds hb with h | h
  · rw [h]
    exact Bound.minBound_le _
  · rw [h]
    exact Bound.le_maxBound _

theorem srcRangesOf_eq_some {bounds : List (Bound × Bound)} (h : ∀ b ∈ bounds, b.1 ≤ b.2) :
    ∃ srcs, srcRangesOf bounds = some srcs ∧
      srcs.map (fun src => (src.lower, src.upper)) = bounds := by
  induction bounds with
  | nil => exact ⟨[], rfl, rfl⟩
  | cons b bounds ih =>
    obtain ⟨srcs, hsrcs, hmap⟩ := ih fun b' hb' => h b' (List.mem_cons_of_mem _ hb')
    refine ⟨⟨"dont/care", b.1, b.2, h b List.mem_cons_self⟩ :: srcs, ?_, by simp [hmap]⟩
    simp [srcRangesOf, List.mapM_cons, dif_pos (h b List.mem_cons_self)] at hsrcs ⊢
    rw [hsrcs]
    rfl

section Distinct

variable {batchSize : Nat} (hbatch : 0 < batchSize) (srcPath : String)
  {fetch : Namespace → List ShardRange} (hfetch : ∀ src, ∀ d ∈ fetch src, d.lower ≤ src.upper)
  (replicate : Nat → ShardRange → Bool × List Bool) (replicaCount : Nat)
  (sameDb : Nat → ShardRange → Bool) {maxRow : Int}
include hbatch hfetch

/-- The loop does not raise, only removes rows, and when it returns success, every row it leaves
that one of its source ranges holds was routed to the source container itself. -/
theorem moveMisplacedLoop_spec (srcs : List Namespace) (i : Nat) (rows : List ObjectRow)
    (hnames : (rows.map ObjectRow.name).Nodup) (hne : ∀ r ∈ rows, r.name ≠ [])
    (hmax : ∀ r ∈ rows, (r.rowid : Int) ≤ maxRow) (success : Bool) :
    ∃ left ok, moveMisplacedLoop batchSize srcPath fetch replicate replicaCount sameDb maxRow i srcs
        rows success = some (left, ok) ∧ left.Sublist rows ∧
      (ok = true → success = true ∧ ∀ r ∈ left, ∀ src ∈ srcs,
        src.contains (String.ofList r.name) = true →
          ∃ d ∈ fetch src, d.name = srcPath ∧ d.contains (String.ofList r.name) = true) := by
  induction srcs generalizing i rows success with
  | nil => exact ⟨rows, success, rfl, List.Sublist.refl _, fun h => ⟨h, by simp⟩⟩
  | cons src srcs ih =>
    obtain ⟨⟨moved, placing⟩, hmove⟩ := Option.isSome_iff_exists.mp
      (moveObjects_isSome hnames hne hbatch (hfetch src) srcPath (replicate i) replicaCount
        (sameDb i) maxRow)
    -- the next source range starts from the rows this one leaves, which keep the hypotheses
    have hsub := sublist_of_moveObjects hmove
    obtain ⟨left, ok, hrun, hleft, hok⟩ := ih (i + 1) moved (hnames.sublist (hsub.map _))
      (fun r hr => hne r (hsub.subset hr)) (fun r hr => hmax r (hsub.subset hr))
      (success && placing.success)
    refine ⟨left, ok, by simp [moveMisplacedLoop, hmove, hrun], hleft.trans hsub, fun hsuccess => ?_⟩
    obtain ⟨hboth, hrest⟩ := hok hsuccess
    obtain ⟨hsuccess₀, hplaced⟩ := Bool.and_eq_true_iff.mp hboth
    refine ⟨hsuccess₀, fun r hr src' hsrc' hin => ?_⟩
    rcases List.mem_cons.mp hsrc' with rfl | hsrc'
    · exact routedToSelf_of_moveObjects hnames hne hbatch hmax hmove hplaced r (hleft.subset hr) hin
    · exact hrest r hr src' hsrc' hin

end Distinct

/-- On a table whose names are distinct and not empty, with a positive batch size, shard range
fetchers that return destinations each beginning at or below their source range's upper bound,
and a `max_row` no row is above, `_move_misplaced_objects(broker)` does not raise and only removes
rows; and when it returns `True`, every row it leaves in one of the bounds
`_make_misplaced_object_bounds` gives was routed to a destination that is the source container
itself. -/
theorem moveMisplacedObjects_clears_misplaced (rows : List ObjectRow)
    (hnames : (rows.map ObjectRow.name).Nodup) (hne : ∀ r ∈ rows, r.name ≠ []) (batchSize : Nat)
    (hbatch : 0 < batchSize) (srcPath : String) (state : DbState) (cursor : String)
    (own : Namespace) (fetch : Namespace → List ShardRange)
    (hfetch : ∀ src, ∀ d ∈ fetch src, d.lower ≤ src.upper)
    (replicate : Nat → ShardRange → Bool × List Bool) (replicaCount : Nat)
    (sameDb : Nat → ShardRange → Bool) (maxRow : Int)
    (hmax : ∀ r ∈ rows, (r.rowid : Int) ≤ maxRow) :
    ∃ left success, moveMisplacedObjects rows batchSize srcPath none state cursor own fetch
        replicate replicaCount sameDb maxRow = some (left, success) ∧ left.Sublist rows ∧
      (success = true → ∀ r ∈ left, ∀ b ∈ makeMisplacedObjectBounds state cursor own,
        b.1 < rowBound r → rowBound r ≤ b.2 → ∃ src : Namespace, src.lower = b.1 ∧
          src.upper = b.2 ∧ ∃ d ∈ fetch src, d.name = srcPath ∧
            d.contains (String.ofList r.name) = true) := by
  have hle : ∀ b ∈ makeMisplacedObjectBounds state cursor own, b.1 ≤ b.2 :=
    fun b hb => le_of_mem_makeMisplacedObjectBounds hb
  obtain ⟨srcs, hsrcs, hmap⟩ := srcRangesOf_eq_some hle
  obtain ⟨left, ok, hrun, hsub, hok⟩ := moveMisplacedLoop_spec hbatch srcPath hfetch replicate
    replicaCount sameDb srcs 0 rows hnames hne hmax true
  refine ⟨left, ok, by simp [moveMisplacedObjects, hsrcs, hrun], hsub,
    fun hsuccess r hr b hb hlo hhi => ?_⟩
  -- the bounds are those of one of the source ranges, and that range holds the row
  rw [← hmap] at hb
  obtain ⟨src, hsrc, rfl⟩ := List.mem_map.mp hb
  have hin := (contains_iff_rowBound src (hne r (hsub.subset hr))).mpr ⟨hlo, hhi⟩
  exact ⟨src, rfl, rfl, (hok hsuccess).2 r hr src hsrc hin⟩

/-- A shard container of the names above `b`, unsharded, with one row below its namespace and
one in it; the root lists a shard range for the names up to `b`. -/
theorem moveMisplacedObjects_clears_misplaced_unshardedShard :
    ∃ left success, moveMisplacedObjects [⟨1, "a".toList, false, 0⟩, ⟨2, "c".toList, false, 0⟩]
        10 ".shards_a/c-1" none .unsharded ""
        ⟨".shards_a/c-1", .name "b" (by decide), .maxBound, Bound.le_maxBound _⟩
        (fun _ => [⟨⟨".shards_a/c-0", .minBound, .name "b" (by decide), Bound.minBound_le _⟩, 40⟩])
        (fun _ _ => (true, [true, true, true])) 3 (fun _ _ => true) 2 = some (left, success) ∧
      left.Sublist [⟨1, "a".toList, false, 0⟩, ⟨2, "c".toList, false, 0⟩] ∧
      (success = true → ∀ r ∈ left, ∀ b ∈ makeMisplacedObjectBounds .unsharded ""
          ⟨".shards_a/c-1", .name "b" (by decide), .maxBound, Bound.le_maxBound _⟩,
        b.1 < rowBound r → rowBound r ≤ b.2 → ∃ src : Namespace, src.lower = b.1 ∧
          src.upper = b.2 ∧ ∃ d ∈ (fun (_ : Namespace) =>
            [(⟨⟨".shards_a/c-0", .minBound, .name "b" (by decide), Bound.minBound_le _⟩, 40⟩ :
              ShardRange)]) src, d.name = ".shards_a/c-1" ∧
            d.contains (String.ofList r.name) = true) :=
  moveMisplacedObjects_clears_misplaced _ (by decide) (by decide) 10 (by decide) _ _ _ _ _
    (fun _ d hd => by
      rw [List.mem_singleton.mp hd]
      exact Bound.minBound_le _)
    _ 3 _ 2 (by decide)

end Sharder

end Swift
