import Swift.Container.ShardRange
import Mathlib.Data.Set.Image
import Mathlib.Data.List.Perm.Basic

/-!
# Replicas of a shard range converge

Shard-range rows travel between replicas of a container in batches, in any order, and each batch
is merged with `ContainerBroker.merge_shard_ranges`. This file proves that what the table ends up
holding under a name does not depend on how the rows were delivered.

## The specification

`ShardRange.IsNewest S r` says that every part of `r` is a newest copy of that part among the
rows in `S`: the bounds come from a row with the greatest `timestamp`, the stats from a row with
the greatest `(timestamp, meta_timestamp)` and the state from a row with the greatest
`(timestamp, state_timestamp, state)`. It says nothing about `name` or `reported`.

Two writers may produce different rows with the same timestamps, and then no merge can be
order-independent. `ShardRange.Consistent S` excludes this: rows of `S` with equal
`timestamp` agree on the bounds and the deleted flag, rows with equal
`(timestamp, meta_timestamp)` agree on the stats, and rows with equal
`(timestamp, state_timestamp, state)` agree on the epoch. Under it a newest row is unique up to
its parts (`IsNewest.parts_eq`).

## The loop invariant

`sift_shard_ranges` merges every item with the row the table held *before* the batch, and
merges a duplicate a second time with the entry already chosen for its name. `SiftInv` records
what holds for one name after a prefix `P` of the batch: an entry chosen so far is newest over
the rows seen, and if none has been chosen every item seen was older than the held row.

## Main results

* `isNewestOpt_mergeShardRanges` — one batch
* `isNewestOpt_foldl_mergeShardRanges` — a run of batches
* `mergeShardRanges_converges` — the final row is newest, and its parts do not depend on the
  order or the batching of delivery
-/

namespace Swift

open LastWriterWins Container

namespace ShardRange

/-- Every part of `r` is a newest copy of that part among the rows in `S`. -/
def IsNewest (S : Set ShardRange) (r : ShardRange) : Prop :=
  IsLatest BoundsPart.key (boundsPart '' S) r.boundsPart ∧
    IsLatest MetaPart.key (metaPart '' S) r.metaPart ∧
    IsLatest StatePart.key (statePart '' S) r.statePart

/-- What the table may hold for a name after merging the rows in `S`: nothing if there were
none, else a newest row. -/
def IsNewestOpt (S : Set ShardRange) : Option ShardRange → Prop
  | none => S = ∅
  | some r => IsNewest S r

/-- Writers agree: rows of `S` that share the key of a part agree on that part. -/
def Consistent (S : Set ShardRange) : Prop :=
  Set.InjOn BoundsPart.key (boundsPart '' S) ∧ Set.InjOn MetaPart.key (metaPart '' S) ∧
    Set.InjOn StatePart.key (statePart '' S)

variable {S T P : Set ShardRange} {x y z e i : ShardRange}

theorem isNewest_singleton (r : ShardRange) : IsNewest {r} r := by
  simp only [IsNewest, Set.image_singleton]
  exact ⟨isLatest_singleton _, isLatest_singleton _, isLatest_singleton _⟩

theorem IsNewest.union_merge (hx : IsNewest S x) (hy : IsNewest T y)
    (hz : z.parts = x.parts.merge y.parts) : IsNewest (S ∪ T) z := by
  simp only [parts, Parts.merge, Parts.mk.injEq] at hz
  obtain ⟨hb, hm, hs⟩ := hz
  simp only [IsNewest, Set.image_union, hb, hm, hs]
  exact ⟨hx.1.union_pick hy.1, hx.2.1.union_pick hy.2.1, hx.2.2.union_pick hy.2.2⟩

/-- A newest row over `S` bounds the parts of every row whose parts come from `S`. -/
theorem IsNewest.keyLe (hx : IsNewest S x) (he : IsNewest T e) (hST : T ⊆ S) :
    e.parts.KeyLe x.parts :=
  ⟨hx.1.key_le (Set.image_mono hST he.1.1), hx.2.1.key_le (Set.image_mono hST he.2.1.1),
    hx.2.2.key_le (Set.image_mono hST he.2.2.1)⟩

/-- Rows that are older on every part are absorbed. -/
theorem IsNewest.union_of_keyLe (hx : IsNewest S x) (h : ∀ j ∈ P, j.parts.KeyLe x.parts) :
    IsNewest (S ∪ P) x := by
  obtain ⟨⟨hb, hb'⟩, ⟨hm, hm'⟩, ⟨hs, hs'⟩⟩ := hx
  refine ⟨⟨Set.image_mono Set.subset_union_left hb, ?_⟩,
    ⟨Set.image_mono Set.subset_union_left hm, ?_⟩,
    ⟨Set.image_mono Set.subset_union_left hs, ?_⟩⟩
  · rintro _ ⟨j, hj | hj, rfl⟩
    · exact hb' _ ⟨j, hj, rfl⟩
    · exact (h j hj).1
  · rintro _ ⟨j, hj | hj, rfl⟩
    · exact hm' _ ⟨j, hj, rfl⟩
    · exact (h j hj).2.1
  · rintro _ ⟨j, hj | hj, rfl⟩
    · exact hs' _ ⟨j, hj, rfl⟩
    · exact (h j hj).2.2

/-- **Agreement of writers.** Under consistency the newest rows of `S` share their parts. -/
theorem IsNewest.parts_eq (hc : Consistent S) (hx : IsNewest S x) (hy : IsNewest S y) :
    x.parts = y.parts := by
  simp only [parts, Parts.mk.injEq]
  exact ⟨hx.1.unique hc.1 hy.1, hx.2.1.unique hc.2.1 hy.2.1, hx.2.2.unique hc.2.2 hy.2.2⟩


end ShardRange

open ShardRange

namespace Container

variable {table : String → Option ShardRange} {n : String} {S P : Set ShardRange}
  {acc : Sift} {i : ShardRange}

/-! ### Merging one row -/

/-- Merging `i` into what the table holds for `n` leaves a newest row of the rows seen. -/
theorem isNewest_storeShardRange (hS : IsNewestOpt S (table n)) :
    IsNewest (S ∪ {i}) (storeShardRange (table n) i) := by
  cases h : table n with
  | none =>
    rw [h] at hS
    simp only [IsNewestOpt] at hS
    rw [hS, Set.empty_union, storeShardRange_none]
    exact isNewest_singleton i
  | some e =>
    rw [h] at hS
    exact hS.union_merge (isNewest_singleton i) (parts_storeShardRange e i)

/-- A row `merge_shards` rejects is absorbed by any newest row over a set the held row is
newest over. -/
theorem keyLe_of_mergeShards_eq_false' (hS : IsNewestOpt S (table n)) {x : ShardRange}
    (hx : IsNewest (S ∪ P) x) (hf : (mergeShards i (table n)).1 = false) :
    i.parts.KeyLe x.parts := by
  cases h : table n with
  | none => rw [h] at hf; cases hf
  | some e =>
    rw [h] at hS hf
    have hle : e.parts.KeyLe x.parts := hx.keyLe hS Set.subset_union_left
    have hie := keyLe_of_mergeShards_eq_false hf
    exact ⟨hie.1.trans hle.1, hie.2.1.trans hle.2.1, hie.2.2.trans hle.2.2⟩

/-! ### The loop of `sift_shard_ranges` -/

/-- What the loop of `sift_shard_ranges` keeps true for the name `n` after the items `P`, when the
held row is newest over `S`. -/
structure SiftInv (table : String → Option ShardRange) (n : String) (S : Set ShardRange)
    (acc : Sift) (P : Set ShardRange) : Prop where
  /-- An entry chosen for `n` is newest over everything seen. -/
  added : ∀ x, acc.toAdd n = some x → IsNewest (S ∪ P) x
  /-- With no entry chosen, every item seen lost to the held row. -/
  skipped : acc.toAdd n = none → ∀ j ∈ P, (mergeShards j (table n)).1 = false
  /-- `n` is deleted only when an entry replaces it. -/
  deleted : acc.toDelete n = true → (acc.toAdd n).isSome

theorem siftInv_init : SiftInv table n S ⟨fun _ => none, fun _ => false⟩ ∅ where
  added _ h := by cases h
  skipped _ j hj := absurd hj (Set.notMem_empty j)
  deleted h := by cases h

/-- With no entry chosen, the held row is still newest over everything seen. -/
theorem SiftInv.isNewestOpt_of_none (hI : SiftInv table n S acc P)
    (hS : IsNewestOpt S (table n)) (hnone : acc.toAdd n = none) :
    IsNewestOpt (S ∪ P) (table n) := by
  have hP := hI.skipped hnone
  cases h : table n with
  | none =>
    rw [h] at hS hP
    have hPe : P = ∅ := Set.eq_empty_of_forall_notMem fun j hj => by
      simpa [mergeShards] using hP j hj
    simp only [IsNewestOpt] at hS ⊢
    rw [hS, hPe, Set.union_empty]
  | some e =>
    rw [h] at hS hP
    exact hS.union_of_keyLe fun j hj => keyLe_of_mergeShards_eq_false (hP j hj)

/-- **Step.** One pass of the loop keeps the invariant, for an item named `n`. -/
theorem SiftInv.siftStep (hI : SiftInv table n S acc P) (hS : IsNewestOpt S (table n))
    (hi : i.name = n) : SiftInv table n S (siftStep table acc i) (insert i P) := by
  have hset : S ∪ P ∪ {i} = S ∪ insert i P := by
    rw [Set.union_assoc, Set.union_singleton]
  by_cases hm : (mergeShards i (table n)).1 = true
  · have hstore : (mergeShards i (table n)).2 = storeShardRange (table n) i := by
      simp [storeShardRange, hm]
    have hnew : IsNewest (S ∪ {i}) (mergeShards i (table n)).2 :=
      hstore ▸ isNewest_storeShardRange hS
    -- every branch leaves an entry for `n`, so the deletion is covered
    cases hadd : acc.toAdd n with
    | none =>
      have hold := hI.isNewestOpt_of_none hS hadd
      refine ⟨fun x hx => ?_, fun h => ?_, fun _ => ?_⟩
      · simp only [Container.siftStep, hi, hm, hadd, if_true, Function.update_self,
          Option.some.injEq] at hx
        subst hx
        rw [hstore, ← hset]
        exact isNewest_storeShardRange hold
      · simp [Container.siftStep, hi, hm, hadd] at h
      · simp [Container.siftStep, hi, hm, hadd]
    | some prev =>
      have hprev := hI.added prev hadd
      have hunion : S ∪ P ∪ (S ∪ {i}) = S ∪ insert i P := by
        rw [← hset]; ext; simp only [Set.mem_union]; tauto
      refine ⟨fun x hx => ?_, fun h => ?_, fun _ => ?_⟩
      · have hx' : storeShardRange (some prev) (mergeShards i (table n)).2 = x := by
          simp only [Container.siftStep, hi, hm, hadd, if_true] at hx
          simp only [storeShardRange]
          split at hx
          · rename_i hm'
            simpa [hm', Function.update_self] using hx
          · rename_i hm'
            simpa [hm', hadd] using hx
        rw [← hx', ← hunion]
        exact hprev.union_merge hnew (parts_storeShardRange prev _)
      · simp only [Container.siftStep, hi, hm, hadd, if_true] at h
        split at h <;> simp_all
      · simp only [Container.siftStep, hi, hm, hadd, if_true]
        split <;> simp_all
  · have hf : (mergeShards i (table n)).1 = false := by simpa using hm
    have hstep : Container.siftStep table acc i = acc := by
      simp [Container.siftStep, hi, hf]
    rw [hstep]
    refine ⟨fun x hx => ?_, fun h j hj => ?_, hI.deleted⟩
    · have hx' := hI.added x hx
      rw [← Set.union_singleton, ← Set.union_assoc]
      exact hx'.union_of_keyLe fun j hj => by
        rw [Set.mem_singleton_iff.mp hj]
        exact keyLe_of_mergeShards_eq_false' hS hx' hf
    · rcases Set.mem_insert_iff.mp hj with rfl | hj
      · exact hf
      · exact hI.skipped h j hj

/-- **Run of the loop.** The invariant holds after the whole batch. -/
theorem siftInv_siftShardRanges (hS : IsNewestOpt S (table n)) (b : List ShardRange)
    (hb : ∀ j ∈ b, j.name = n) :
    SiftInv table n S (siftShardRanges b table) {j | j ∈ b} := by
  unfold siftShardRanges
  have key : ∀ (l : List ShardRange) (acc : Sift) (P : Set ShardRange),
      (∀ j ∈ l, j.name = n) → SiftInv table n S acc P →
        SiftInv table n S (l.foldl (Container.siftStep table) acc) (P ∪ {j | j ∈ l}) := by
    intro l
    induction l with
    | nil => intro acc P _ hI; simpa using hI
    | cons j l ih =>
      intro acc P hl hI
      have hstep := hI.siftStep hS (hl j List.mem_cons_self)
      have hrest := ih _ _ (fun k hk => hl k (List.mem_cons_of_mem _ hk)) hstep
      have hset : insert j P ∪ {k | k ∈ l} = P ∪ {k | k ∈ j :: l} := by
        ext k; simp only [Set.mem_union, Set.mem_insert_iff, Set.mem_ofPred_eq, List.mem_cons]
        tauto
      rw [List.foldl_cons, ← hset]
      exact hrest
  simpa using key b _ ∅ hb siftInv_init

/-! ### Batches -/

/-- **One batch.** After merging a batch of rows named `n`, the table holds for `n` a newest row
over the rows it held and the batch. -/
theorem isNewestOpt_mergeShardRanges (hS : IsNewestOpt S (table n)) (b : List ShardRange)
    (hb : ∀ j ∈ b, j.name = n) :
    IsNewestOpt (S ∪ {j | j ∈ b}) (mergeShardRanges table b n) := by
  have hI := siftInv_siftShardRanges hS b hb
  simp only [mergeShardRanges]
  cases hadd : (siftShardRanges b table).toAdd n with
  | some x => exact hI.added x hadd
  | none =>
    have hdel : (siftShardRanges b table).toDelete n = false := by
      cases h : (siftShardRanges b table).toDelete n with
      | false => rfl
      | true => simpa [hadd] using hI.deleted h
    simp only [hdel]
    exact hI.isNewestOpt_of_none hS hadd

/-- **A run of batches.** -/
theorem isNewestOpt_foldl_mergeShardRanges (bs : List (List ShardRange))
    (hbs : ∀ j ∈ bs.flatten, j.name = n) (hS : IsNewestOpt S (table n)) :
    IsNewestOpt (S ∪ {j | j ∈ bs.flatten}) ((bs.foldl mergeShardRanges table) n) := by
  induction bs generalizing table S with
  | nil => simpa using hS
  | cons b bs ih =>
    have hb : ∀ j ∈ b, j.name = n := fun j hj => hbs j (List.mem_flatten_of_mem List.mem_cons_self hj)
    have hrest : ∀ j ∈ bs.flatten, j.name = n := fun j hj => hbs j (by
      rw [List.flatten_cons]; exact List.mem_append_right _ hj)
    have h := ih hrest (isNewestOpt_mergeShardRanges hS b hb)
    have hset : S ∪ {j | j ∈ b} ∪ {j | j ∈ bs.flatten} = S ∪ {j | j ∈ (b :: bs).flatten} := by
      ext k; simp only [Set.mem_union, Set.mem_ofPred_eq, List.flatten_cons, List.mem_append]
      tauto
    rw [List.foldl_cons, ← hset]
    exact h

/-! ### No report out of nothing -/

/-- A row chosen for the name `n` that is marked reported owes the mark to a reported row of that
name: one of `items`, or the one the table holds. -/
def ReportedFrom (table : String → Option ShardRange) (n : String) (items : List ShardRange)
    (x : ShardRange) : Prop :=
  x.reported = true →
    (∃ j ∈ items, j.name = n ∧ j.reported = true) ∨ ∃ e, table n = some e ∧ e.reported = true

/-- A row `merge_shards` makes of a row of the batch and of a row it already owes its mark to. -/
theorem reportedFrom_mergeShards {items : List ShardRange} {i : ShardRange} (hi : i ∈ items)
    {o : Option ShardRange} (ho : ∀ e, o = some e → ReportedFrom table i.name items e) :
    ReportedFrom table i.name items (mergeShards i o).2 := by
  intro hrep
  rcases reported_mergeShards hrep with hi' | ⟨e, he, he'⟩
  · exact .inl ⟨i, hi, rfl, hi'⟩
  · exact ho e he he'

/-- A pass over an item changes only the entry for the item's name. -/
theorem toAdd_siftStep_of_ne {acc : Sift} {i : ShardRange} {n : String} (hn : n ≠ i.name) :
    (siftStep table acc i).toAdd n = acc.toAdd n := by
  by_cases hm : (mergeShards i (table i.name)).1 = true
  · cases hadd : acc.toAdd i.name with
    | none => simp [Container.siftStep, hm, hadd, Function.update_of_ne hn]
    | some prev =>
      by_cases hm' : (mergeShards (mergeShards i (table i.name)).2 (some prev)).1 = true
      · simp [Container.siftStep, hm, hadd, hm', Function.update_of_ne hn]
      · simp [Container.siftStep, hm, hadd, hm']
  · simp [Container.siftStep, hm]

/-- **Step.** A pass of `sift_shard_ranges` over an item of the batch chooses for each name only
rows that owe their mark to the batch or the table. -/
theorem reportedFrom_siftStep {items : List ShardRange} {acc : Sift}
    (hI : ∀ n x, acc.toAdd n = some x → ReportedFrom table n items x) {i : ShardRange}
    (hi : i ∈ items) :
    ∀ n x, (siftStep table acc i).toAdd n = some x → ReportedFrom table n items x := by
  -- the row the table holds for `i`'s name owes its mark to itself
  have hmerged : ReportedFrom table i.name items (mergeShards i (table i.name)).2 :=
    reportedFrom_mergeShards hi fun e he hrep => .inr ⟨e, he, hrep⟩
  intro n x hx
  by_cases hn : n = i.name
  · subst hn
    by_cases hm : (mergeShards i (table i.name)).1 = true
    · cases hadd : acc.toAdd i.name with
      | none =>
        simp only [Container.siftStep, hm, hadd, if_true, Function.update_self,
          Option.some.injEq] at hx
        exact hx ▸ hmerged
      | some prev =>
        -- a duplicate in the batch is merged into the row chosen before it
        simp only [Container.siftStep, hm, hadd, if_true] at hx
        split at hx
        · simp only [Function.update_self, Option.some.injEq] at hx
          subst hx
          intro hrep
          rcases reported_mergeShards hrep with hm' | ⟨e, he, he'⟩
          · exact hmerged hm'
          · exact hI _ e (Option.some.inj he ▸ hadd) he'
        · exact hI _ x (by simpa [hadd] using hx)
    · have hf : (mergeShards i (table i.name)).1 = false := by simpa using hm
      simp only [Container.siftStep, hf, Bool.false_eq_true, if_false] at hx
      exact hI _ x hx
  · exact hI n x ((toAdd_siftStep_of_ne hn).symm.trans hx)

/-- **Run of the loop.** -/
theorem reportedFrom_siftShardRanges (b : List ShardRange) :
    ∀ n x, (siftShardRanges b table).toAdd n = some x → ReportedFrom table n b x := by
  have key : ∀ (l : List ShardRange) (acc : Sift), (∀ j ∈ l, j ∈ b) →
      (∀ n x, acc.toAdd n = some x → ReportedFrom table n b x) →
      ∀ n x, (l.foldl (Container.siftStep table) acc).toAdd n = some x →
        ReportedFrom table n b x := by
    intro l
    induction l with
    | nil => intro acc _ hI; exact hI
    | cons j l ih =>
      intro acc hl hI
      exact ih _ (fun k hk => hl k (List.mem_cons_of_mem _ hk))
        (reportedFrom_siftStep hI (hl j List.mem_cons_self))
  exact key b _ (fun _ hj => hj) fun _ _ h => by cases h

/-- **No report out of nothing.** After any run of `merge_shard_ranges` batches, a row the table
holds marked reported owes the mark to a reported row of its name: one of the batches, or the
row the table held before. The latch may put the mark on stats no reported row had
(`storeShardRange_reports_unreported_stats`), but never on a name no reported row had. -/
theorem reported_foldl_mergeShardRanges (bs : List (List ShardRange))
    (table : String → Option ShardRange) {n : String} {x : ShardRange}
    (h : bs.foldl mergeShardRanges table n = some x) (hrep : x.reported = true) :
    (∃ b ∈ bs, ∃ j ∈ b, j.name = n ∧ j.reported = true) ∨
      ∃ e, table n = some e ∧ e.reported = true := by
  induction bs generalizing table with
  | nil => exact .inr ⟨x, h, hrep⟩
  | cons b bs ih =>
    rcases ih (mergeShardRanges table b) h with ⟨b', hb', hj⟩ | ⟨e, he, he'⟩
    · exact .inl ⟨b', List.mem_cons_of_mem _ hb', hj⟩
    · -- the row after the first batch: chosen by the sift, or kept from the table
      simp only [mergeShardRanges] at he
      split at he
      next r hr =>
        cases he
        rcases reportedFrom_siftShardRanges b n e hr he' with hb | ht
        · exact .inl ⟨b, List.mem_cons_self, hb⟩
        · exact .inr ht
      next =>
        split at he
        · cases he
        · exact .inr ⟨e, he, he'⟩

/-- One batch of one reported row into an empty table: the row is stored, and owes its mark to
itself. -/
theorem reported_foldl_mergeShardRanges_one :
    [[staleReportIncoming]].foldl mergeShardRanges (fun _ => none) "a/c" =
        some staleReportIncoming ∧ staleReportIncoming.reported = true ∧
      ((∃ b ∈ [[staleReportIncoming]], ∃ j ∈ b, j.name = "a/c" ∧ j.reported = true) ∨
        ∃ e, (fun _ => none : String → Option ShardRange) "a/c" = some e ∧
          e.reported = true) := by
  have h : [[staleReportIncoming]].foldl mergeShardRanges (fun _ => none) "a/c" =
      some staleReportIncoming := by decide
  exact ⟨h, rfl, reported_foldl_mergeShardRanges _ _ h rfl⟩

end Container

/-! ### Convergence -/

namespace ShardRange

variable {S : Set ShardRange}

/-- What a table holds under a name is newest over itself. -/
theorem isNewestOpt_toList (o : Option ShardRange) : IsNewestOpt {r | r ∈ o.toList} o := by
  cases o with
  | none => simp [IsNewestOpt]
  | some e => simpa [IsNewestOpt] using isNewest_singleton e

theorem not_isNewest_empty (x : ShardRange) : ¬ IsNewest ∅ x := by
  rintro ⟨⟨hmem, -⟩, -, -⟩
  rw [Set.image_empty] at hmem
  exact Set.notMem_empty _ hmem

/-- Under consistency two candidates for what the table holds agree on their parts. -/
theorem IsNewestOpt.map_parts_eq {o o' : Option ShardRange} (hc : Consistent S)
    (h : IsNewestOpt S o) (h' : IsNewestOpt S o') : o.map parts = o'.map parts := by
  cases o with
  | none =>
    cases o' with
    | none => rfl
    | some y =>
      simp only [IsNewestOpt] at h h'
      rw [h] at h'
      exact absurd h' (not_isNewest_empty y)
  | some x =>
    cases o' with
    | none =>
      simp only [IsNewestOpt] at h h'
      rw [h'] at h
      exact absurd h (not_isNewest_empty x)
    | some y =>
      simp only [Option.map_some, Option.some.injEq]
      exact h.parts_eq hc h'

/-- Rows with pairwise distinct timestamps are trivially consistent. -/
theorem consistent_of_injOn_timestamp (h : Set.InjOn timestamp S) : Consistent S := by
  refine ⟨?_, ?_, ?_⟩
  · rintro _ ⟨a, ha, rfl⟩ _ ⟨b, hb, rfl⟩ hk
    rw [h ha hb hk]
  · rintro _ ⟨a, ha, rfl⟩ _ ⟨b, hb, rfl⟩ hk
    have hts : a.timestamp = b.timestamp := (Prod.mk.inj (toLex_inj.mp hk)).1
    rw [h ha hb hts]
  · rintro _ ⟨a, ha, rfl⟩ _ ⟨b, hb, rfl⟩ hk
    have hts : a.timestamp = b.timestamp := (Prod.mk.inj (toLex_inj.mp hk)).1
    rw [h ha hb hts]

end ShardRange

namespace Container

/-- **Shard-range replication converges.** Start from a table holding `table n` under the name
`n`, and merge batches of rows named `n`. Whatever the order and the batching, the row finally
held is newest, part by part, over the initial row and all rows delivered; under consistency of
writers its parts — every field but `name` and `reported` — are the same for every delivery. -/
theorem mergeShardRanges_converges (table : String → Option ShardRange) (n : String)
    (batches batches' : List (List ShardRange)) (hperm : batches.flatten.Perm batches'.flatten)
    (hname : ∀ r ∈ batches.flatten, r.name = n)
    (hcons : Consistent {r | r ∈ (table n).toList ++ batches.flatten}) :
    IsNewestOpt {r | r ∈ (table n).toList ++ batches.flatten}
        ((batches.foldl mergeShardRanges table) n) ∧
      ((batches.foldl mergeShardRanges table) n).map ShardRange.parts =
        ((batches'.foldl mergeShardRanges table) n).map ShardRange.parts := by
  have hset : ∀ l : List ShardRange,
      {r | r ∈ (table n).toList} ∪ {r | r ∈ l} = {r | r ∈ (table n).toList ++ l} := by
    intro l; ext r; simp
  have hname' : ∀ r ∈ batches'.flatten, r.name = n := fun r hr => hname r (hperm.mem_iff.mpr hr)
  have hsame : {r | r ∈ (table n).toList ++ batches'.flatten} =
      {r | r ∈ (table n).toList ++ batches.flatten} := by
    ext r; simp [hperm.mem_iff]
  have h1 := isNewestOpt_foldl_mergeShardRanges batches hname (isNewestOpt_toList (table n))
  have h2 := isNewestOpt_foldl_mergeShardRanges batches' hname' (isNewestOpt_toList (table n))
  rw [hset] at h1 h2
  rw [hsame] at h2
  exact ⟨h1, h1.map_parts_eq hcons h2⟩

/-- An older row of a name, with narrower bounds. -/
def convergeOld : ShardRange :=
  ⟨"a/c", ⟨1, 0⟩, "", "m", 1, 10, ⟨1, 0⟩, false, 10, ⟨1, 0⟩, none, false, 0⟩

/-- A newer row of the same name. -/
def convergeNew : ShardRange :=
  ⟨"a/c", ⟨2, 0⟩, "", "", 2, 20, ⟨2, 0⟩, false, 40, ⟨2, 0⟩, none, false, 0⟩

theorem mergeShardRanges_converges_swapped :
    [[convergeOld], [convergeNew]].flatten.Perm [[convergeNew, convergeOld]].flatten ∧
      IsNewestOpt {r | r ∈ ((fun _ => none : String → Option ShardRange) "a/c").toList ++
          [[convergeOld], [convergeNew]].flatten}
        (([[convergeOld], [convergeNew]].foldl mergeShardRanges fun _ => none) "a/c") ∧
      (([[convergeOld], [convergeNew]].foldl mergeShardRanges fun _ => none) "a/c").map
          ShardRange.parts =
        (([[convergeNew, convergeOld]].foldl mergeShardRanges fun _ => none) "a/c").map
          ShardRange.parts := by
  have hperm : [[convergeOld], [convergeNew]].flatten.Perm [[convergeNew, convergeOld]].flatten :=
    List.Perm.swap _ _ _
  have hcons : Consistent {r | r ∈ ((fun _ => none : String → Option ShardRange) "a/c").toList ++
      [[convergeOld], [convergeNew]].flatten} := by
    apply consistent_of_injOn_timestamp
    rintro a ha b hb hab
    simp only [Option.toList_none, List.flatten_cons, List.flatten_nil, List.nil_append,
      List.cons_append, Set.mem_ofPred_eq, List.mem_cons, List.not_mem_nil, or_false] at ha hb
    rcases ha with rfl | rfl <;> rcases hb with rfl | rfl <;> first | rfl | cases hab
  exact ⟨hperm, mergeShardRanges_converges (fun _ => none) "a/c" _ _ hperm (by decide) hcons⟩

end Container

end Swift
