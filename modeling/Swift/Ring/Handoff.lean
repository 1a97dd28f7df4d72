import Swift.Ring.Ring
import Mathlib.Data.List.Perm.Subperm

/-!
# What `get_more_nodes` yields

The handoff generator of `Ring` is meant to yield handoff devices with none of them a primary,
none twice, numbered `0, 1, 2, ...` by `handoff_index`, and, once its last scan has run, every
assigned device except the primaries ("which less the primaries - is every device in the ring",
says its test). This module proves what of this the code keeps, and where it falls short.

The four scans share one invariant, `Handoff.Inv`: indexes count up from zero, `used` holds
each primary and each yielded id once, and every yielded device is the ring's own entry for an
id found at a partition of the walk. A scan keeps it because it yields only devices not yet used
and notes nothing but tiers (`ScanRules`); `inv_scanRows` is the step over the rows at one
partition and `inv_scanPass` the run over the walk.

Completeness rests on the walk. The last scan visits every partition of the walk unless it
stops early, and its early stop is honest: it stops when `used` has as many ids as there are
assigned devices, and then every assigned device is used (`RingData.mem_of_length_eq`). So every
assigned device found at a partition of the walk is a primary or yielded
(`getMoreNodes_complete`). The walk is not every partition, though: with `inc = 1` and
`start > 0` its second range begins at `inc - (parts - start) % inc = 1`, so partition `0` is
never visited, and a device that holds only partition `0` is never yielded
(`Swift.Ring.HandoffWalk` has the walk for every `inc`).

## Main results

* `Ring.getMoreNodes_indices`, `Ring.nodup_getMoreNodes`, `Ring.getMoreNodes_not_primary`
* `Ring.getMoreNodes_complete`, and a two-partition ring where an assigned device is missed
-/

namespace Swift

namespace Ring

/-- Device `i` holds a replica of partition `q`. -/
def HoldsPart (r : RingData) (q i : Nat) : Prop :=
  ∃ row ∈ r.replica2part2devId, row[q]? = some i

theorem isLive_iff {devs : List (Option Device)} {i : Nat} :
    isLive devs i = true ↔ ∃ d, devs[i]? = some (some d) ∧ d.id = i := by
  unfold isLive
  split <;> simp_all

namespace RingData

variable {r : RingData} {q i : Nat}

theorem exists_dev_of_mem (hi : i ∈ r.devIdsWithParts) :
    ∃ d, r.devs[i]? = some (some d) ∧ d.id = i := by
  obtain ⟨row, hrow, hmem⟩ := List.mem_flatten.mp hi
  exact isLive_iff.mp (r.live row hrow i hmem)

theorem dev_eq {d : Device} (h : r.devs[i]? = some (some d)) : r.dev i = d := by
  simp [dev, h]

theorem dev_id_of_mem (hi : i ∈ r.devIdsWithParts) : (r.dev i).id = i := by
  obtain ⟨d, hd, hid⟩ := exists_dev_of_mem hi
  rw [dev_eq hd, hid]

/-- There are at most `_num_assigned_devs` distinct assigned ids: each is the id of its own live
device, and `_update_bookkeeping` counts that device. -/
theorem length_dedup_le_numAssignedDevs : r.devIdsWithParts.dedup.length ≤ r.numAssignedDevs := by
  have hsub : r.devIdsWithParts.dedup ⊆ r.assignedDevs.map Device.id := by
    intro i hi
    rw [List.mem_dedup] at hi
    obtain ⟨d, hd, hid⟩ := exists_dev_of_mem hi
    refine List.mem_map.mpr ⟨d, List.mem_filter.mpr ⟨?_, ?_⟩, hid⟩
    · exact List.mem_filterMap.mpr ⟨some d, List.mem_of_getElem? hd, rfl⟩
    · simpa [hid] using hi
  calc r.devIdsWithParts.dedup.length
      ≤ (r.assignedDevs.map Device.id).length := ((List.nodup_dedup _).subperm hsub).length_le
    _ = r.numAssignedDevs := by simp [numAssignedDevs]

/-- A duplicate-free list of assigned ids as long as `_num_assigned_devs` holds every assigned
id. This is why the last scan may stop early. -/
theorem mem_of_length_eq {used : List Nat} (hnd : used.Nodup)
    (hsub : ∀ j ∈ used, j ∈ r.devIdsWithParts) (hlen : used.length = r.numAssignedDevs)
    (hi : i ∈ r.devIdsWithParts) : i ∈ used := by
  by_contra hni
  have hsub' : i :: used ⊆ r.devIdsWithParts.dedup := by
    intro j hj
    rw [List.mem_dedup]
    rcases List.mem_cons.mp hj with rfl | hj
    · exact hi
    · exact hsub j hj
  have hle := ((List.nodup_cons.mpr ⟨hni, hnd⟩).subperm hsub').length_le
  have := length_dedup_le_numAssignedDevs (r := r)
  simp only [List.length_cons] at hle
  omega

end RingData

theorem HoldsPart.mem_devIdsWithParts {r : RingData} {q i : Nat} (h : HoldsPart r q i) :
    i ∈ r.devIdsWithParts := by
  obtain ⟨row, hrow, hget⟩ := h
  exact List.mem_flatten.mpr ⟨row, hrow, List.mem_of_getElem? hget⟩

/-! ### Primary nodes -/

section Primary

variable {r : RingData} {part : Nat}

theorem exists_holdsPart_of_mem_partNodes {rows : List (List Nat)}
    (hrows : ∀ row ∈ rows, row ∈ r.replica2part2devId) {seenIds : List Nat} {d : Device}
    (hd : d ∈ partNodes r part rows seenIds) : ∃ i, HoldsPart r part i ∧ d = r.dev i := by
  induction rows generalizing seenIds with
  | nil => simp [partNodes] at hd
  | cons row rows ih =>
    have hrows' : ∀ row ∈ rows, row ∈ r.replica2part2devId :=
      fun row' h' => hrows row' (List.mem_cons_of_mem _ h')
    cases hget : row[part]? with
    | none =>
      simp only [partNodes, hget] at hd
      exact ih hrows' hd
    | some i =>
      simp only [partNodes, hget] at hd
      split at hd
      · exact ih hrows' hd
      · rcases List.mem_cons.mp hd with rfl | hd
        · exact ⟨i, ⟨row, hrows row List.mem_cons_self, hget⟩, rfl⟩
        · exact ih hrows' hd

/-- Every primary is an assigned device, so the generator starts with assigned ids only. -/
theorem id_mem_of_mem_getPartNodes {d : Device} (hd : d ∈ getPartNodes r part) :
    d.id ∈ r.devIdsWithParts := by
  obtain ⟨i, hhold, rfl⟩ := exists_holdsPart_of_mem_partNodes (fun _ => id) hd
  rw [RingData.dev_id_of_mem hhold.mem_devIdsWithParts]
  exact hhold.mem_devIdsWithParts

end Primary

/-! ### The invariant of the scans -/

namespace Handoff

@[simp] theorem yield_used (h : Handoff) (i : Nat) (d : Device) :
    (h.yield i d).used = h.used.insert i := rfl

@[simp] theorem yield_index (h : Handoff) (i : Nat) (d : Device) :
    (h.yield i d).index = h.index + 1 := rfl

@[simp] theorem yield_yielded (h : Handoff) (i : Nat) (d : Device) :
    (h.yield i d).yielded = h.yielded ++ [(d, h.index)] := rfl

/-- What every scan keeps of the generator state, for the primaries' ids and the walk. -/
structure Inv (r : RingData) (primaryIds walk : List Nat) (h : Handoff) : Prop where
  index_eq : h.index = h.yielded.length
  indices : h.yielded.map Prod.snd = List.range h.yielded.length
  used_perm : h.used.Perm (primaryIds ++ h.yielded.map fun x => x.1.id)
  used_nodup : h.used.Nodup
  used_assigned : ∀ i ∈ h.used, i ∈ r.devIdsWithParts
  yielded_dev : ∀ x ∈ h.yielded, x.1 = r.dev x.1.id ∧ ∃ q ∈ walk, HoldsPart r q x.1.id

variable {r : RingData} {P walk : List Nat} {h h' : Handoff}

/-- The invariant reads only `used`, `index` and `yielded`. -/
theorem Inv.congr (hi : h.Inv r P walk) (hu : h'.used = h.used) (hx : h'.index = h.index)
    (hy : h'.yielded = h.yielded) : h'.Inv r P walk := by
  constructor
  · rw [hx, hy]; exact hi.index_eq
  · rw [hy]; exact hi.indices
  · rw [hu, hy]; exact hi.used_perm
  · rw [hu]; exact hi.used_nodup
  · rw [hu]; exact hi.used_assigned
  · rw [hy]; exact hi.yielded_dev

/-- Yielding an unused device found at a partition of the walk keeps the invariant. -/
theorem Inv.yield (hi : h.Inv r P walk) {q i : Nat} (hq : q ∈ walk) (hhold : HoldsPart r q i)
    (hfresh : i ∉ h.used) : (h.yield i (r.dev i)).Inv r P walk := by
  have hid : (r.dev i).id = i := RingData.dev_id_of_mem hhold.mem_devIdsWithParts
  constructor
  · simp [hi.index_eq]
  · simp [hi.indices, hi.index_eq, List.range_succ]
  · -- the new id goes to the front of `used` and to the end of the yielded ids
    rw [yield_used, List.insert_of_not_mem hfresh, yield_yielded, List.map_append,
      ← List.append_assoc, List.map_singleton, hid]
    exact (hi.used_perm.cons i).trans (List.perm_append_singleton i _).symm
  · exact hi.used_nodup.insert
  · intro j hj
    rcases List.mem_insert_iff.mp hj with rfl | hj
    · exact hhold.mem_devIdsWithParts
    · exact hi.used_assigned j hj
  · intro x hx
    rcases List.mem_append.mp hx with hx | hx
    · exact hi.yielded_dev x hx
    · obtain rfl := List.mem_singleton.mp hx
      exact ⟨by rw [hid], q, hq, by rwa [hid]⟩

/-- The initial state keeps the invariant when the primaries are assigned. -/
theorem inv_initialHandoff {primary : List Device} (hP : ∀ d ∈ primary, d.id ∈ r.devIdsWithParts) :
    (initialHandoff primary).Inv r (primary.map Device.id).dedup walk where
  index_eq := rfl
  indices := rfl
  used_perm := by simp [initialHandoff]
  used_nodup := List.nodup_dedup _
  used_assigned i hi := by
    obtain ⟨d, hd, rfl⟩ := List.mem_map.mp (List.mem_dedup.mp hi)
    exact hP d hd
  yielded_dev x hx := by simp [initialHandoff] at hx

end Handoff

/-! ### One scan -/

/-- What the four scans have in common: they take only unused devices, and what they note about
a yielded device is tiers, never `used`, `index` or `yielded`. -/
structure ScanRules (fresh : Handoff → Nat → Device → Bool)
    (record : Handoff → Device → Handoff) : Prop where
  not_used : ∀ h i d, fresh h i d = true → i ∉ h.used
  record_used : ∀ h d, (record h d).used = h.used
  record_index : ∀ h d, (record h d).index = h.index
  record_yielded : ∀ h d, (record h d).yielded = h.yielded

section Scan

variable {r : RingData} {fresh : Handoff → Nat → Device → Bool}
  {record : Handoff → Device → Handoff} {hit : Handoff → Bool} {P walk : List Nat} {q : Nat}
  (hs : ScanRules fresh record)
include hs

/-- The state after yielding a fresh device and noting its tiers. -/
theorem inv_record_yield {h : Handoff} (hi : h.Inv r P walk) (hq : q ∈ walk) {i : Nat}
    (hhold : HoldsPart r q i) (hf : fresh h i (r.dev i) = true) :
    (record (h.yield i (r.dev i)) (r.dev i)).Inv r P walk :=
  (hi.yield hq hhold (hs.not_used _ _ _ hf)).congr (hs.record_used _ _) (hs.record_index _ _)
    (hs.record_yielded _ _)

/-- The step: the rows at one partition of the walk keep the invariant. -/
theorem inv_scanRows (hq : q ∈ walk) {rows : List (List Nat)}
    (hrows : ∀ row ∈ rows, row ∈ r.replica2part2devId) {h : Handoff} (hi : h.Inv r P walk) :
    (scanRows r fresh record hit q rows h).Inv r P walk := by
  induction rows generalizing h with
  | nil => exact hi
  | cons row rows ih =>
    have hrows' : ∀ row ∈ rows, row ∈ r.replica2part2devId :=
      fun row' h' => hrows row' (List.mem_cons_of_mem _ h')
    cases hget : row[q]? with
    | none =>
      simp only [scanRows, hget]
      exact ih hrows' hi
    | some i =>
      by_cases hf : fresh h i (r.dev i) = true
      · have hi' := inv_record_yield hs hi hq ⟨row, hrows row List.mem_cons_self, hget⟩ hf
        simp only [scanRows, hget, hf, if_true]
        split
        · exact hi'
        · exact ih hrows' hi'
      · simp only [scanRows, hget, hf]
        exact ih hrows' hi

/-- The run: a whole scan over (a part of) the walk keeps the invariant. -/
theorem inv_scanPass {walk' : List Nat} (hwalk : ∀ q ∈ walk', q ∈ walk) {h : Handoff}
    (hi : h.Inv r P walk) : (scanPass r fresh record hit walk' h).Inv r P walk := by
  induction walk' generalizing h with
  | nil => exact hi
  | cons q qs ih =>
    simp only [scanPass]
    split
    · exact hi
    · exact ih (fun q' hq' => hwalk q' (List.mem_cons_of_mem _ hq'))
        (inv_scanRows hs (hwalk q List.mem_cons_self) (fun _ => id) hi)

/-- A scan only adds to `used`. -/
theorem used_subset_scanRows {rows : List (List Nat)} {h : Handoff} :
    h.used ⊆ (scanRows r fresh record hit q rows h).used := by
  induction rows generalizing h with
  | nil => exact List.Subset.refl _
  | cons row rows ih =>
    cases hget : row[q]? with
    | none =>
      simp only [scanRows, hget]
      exact ih
    | some i =>
      by_cases hf : fresh h i (r.dev i) = true
      · -- the yield inserts into `used`, and the note leaves it alone
        have hsub : h.used ⊆ (record (h.yield i (r.dev i)) (r.dev i)).used := by
          rw [hs.record_used, Handoff.yield_used]
          exact List.subset_insert _ _
        simp only [scanRows, hget, hf, if_true]
        split
        · exact hsub
        · exact fun j hj => ih (hsub hj)
      · simp only [scanRows, hget, hf]
        exact ih

theorem used_subset_scanPass {walk' : List Nat} {h : Handoff} :
    h.used ⊆ (scanPass r fresh record hit walk' h).used := by
  induction walk' generalizing h with
  | nil => exact List.Subset.refl _
  | cons q qs ih =>
    simp only [scanPass]
    split
    · exact List.Subset.refl _
    · exact fun j hj => ih (used_subset_scanRows hs hj)

omit hs in
theorem scanPass_of_hit {walk' : List Nat} {h : Handoff} (hh : hit h = true) :
    scanPass r fresh record hit walk' h = h := by
  cases walk' <;> simp [scanPass, hh]

variable (hcomplete : ∀ h i d, fresh h i d = false → i ∈ h.used)
include hcomplete

/-- A scan that passes no device by unless it is used already: at the rows of `q` it either
stops at `hit` or leaves every device it passed used. -/
theorem scanRows_covers {rows : List (List Nat)} {h : Handoff} :
    hit (scanRows r fresh record hit q rows h) = true ∨
      ∀ row ∈ rows, ∀ i, row[q]? = some i → i ∈ (scanRows r fresh record hit q rows h).used := by
  induction rows generalizing h with
  | nil => exact Or.inr fun row hrow => absurd hrow List.not_mem_nil
  | cons row rows ih =>
    -- in every branch the head row's device, if any, is used before the rest is scanned
    have hhead : ∀ h₀ : Handoff, (∀ i, row[q]? = some i → i ∈ h₀.used) →
        hit (scanRows r fresh record hit q rows h₀) = true ∨
          ∀ row' ∈ row :: rows, ∀ i, row'[q]? = some i →
            i ∈ (scanRows r fresh record hit q rows h₀).used := by
      intro h₀ h₀used
      refine (ih (h := h₀)).imp id fun hcov row' hrow' i hi => ?_
      rcases List.mem_cons.mp hrow' with rfl | hrow'
      · exact used_subset_scanRows hs (h₀used i hi)
      · exact hcov row' hrow' i hi
    cases hget : row[q]? with
    | none =>
      simp only [scanRows, hget]
      exact hhead h fun i hi => absurd hi (by simp [hget])
    | some i =>
      by_cases hf : fresh h i (r.dev i) = true
      · simp only [scanRows, hget, hf, if_true]
        split
        · exact Or.inl ‹_›
        · refine hhead _ fun j hj => ?_
          obtain rfl : i = j := by simpa [hget] using hj
          rw [hs.record_used, Handoff.yield_used]
          exact List.mem_insert_self
      · simp only [scanRows, hget, hf]
        refine hhead h fun j hj => ?_
        obtain rfl : i = j := by simpa [hget] using hj
        exact hcomplete h i _ (by simpa using hf)

/-- The run: a scan over the walk either stops at `hit` or leaves every device of every
partition it walked used. -/
theorem scanPass_covers {walk' : List Nat} {h : Handoff} :
    hit (scanPass r fresh record hit walk' h) = true ∨
      ∀ q ∈ walk', ∀ i, HoldsPart r q i → i ∈ (scanPass r fresh record hit walk' h).used := by
  induction walk' generalizing h with
  | nil => exact Or.inr fun q hq => absurd hq List.not_mem_nil
  | cons q qs ih =>
    simp only [scanPass]
    split
    · exact Or.inl ‹_›
    · -- the rows at the head partition first, then the rest of the walk
      have hstep : hit (scanRows r fresh record hit q r.replica2part2devId h) = true ∨
          ∀ row ∈ r.replica2part2devId, ∀ i, row[q]? = some i →
            i ∈ (scanRows r fresh record hit q r.replica2part2devId h).used :=
        scanRows_covers hs hcomplete
      rcases hstep with hh | hcov
      · left
        rw [scanPass_of_hit hh]
        exact hh
      · refine (ih (h := scanRows r fresh record hit q r.replica2part2devId h)).imp id
          fun hcov' q' hq' i hhold => ?_
        rcases List.mem_cons.mp hq' with rfl | hq'
        · obtain ⟨row, hrow, hget⟩ := hhold
          exact used_subset_scanPass hs (hcov row hrow i hget)
        · exact hcov' q' hq' i hhold

end Scan

/-! ### The four scans -/

section Scans

variable {r : RingData} {P walk : List Nat} {h : Handoff}

theorem inv_scanRegions (hi : h.Inv r P walk) : (scanRegions r walk h).Inv r P walk := by
  refine inv_scanPass ?_ (fun _ => id) hi
  refine ⟨fun h i d hf => ?_, fun _ _ => rfl, fun _ _ => rfl, fun _ _ => rfl⟩
  simp only [Bool.and_eq_true, decide_eq_true_eq] at hf
  exact hf.1

theorem inv_scanZones (hi : h.Inv r P walk) : (scanZones r walk h).Inv r P walk := by
  refine inv_scanPass ?_ (fun _ => id) hi
  refine ⟨fun h i d hf => ?_, fun _ _ => rfl, fun _ _ => rfl, fun _ _ => rfl⟩
  simp only [Bool.and_eq_true, decide_eq_true_eq] at hf
  exact hf.1

theorem inv_scanIps (hi : h.Inv r P walk) : (scanIps r walk h).Inv r P walk := by
  refine inv_scanPass ?_ (fun _ => id) hi
  refine ⟨fun h i d hf => ?_, fun _ _ => rfl, fun _ _ => rfl, fun _ _ => rfl⟩
  simp only [Bool.and_eq_true, decide_eq_true_eq] at hf
  exact hf.1

/-- The rules of the last scan: it takes exactly the unused devices. -/
theorem scanRules_devs :
    ScanRules (fun (h : Handoff) devId (_ : Device) => decide (devId ∉ h.used)) fun h _ => h :=
  ⟨fun _ _ _ hf => by simpa using hf, fun _ _ => rfl, fun _ _ => rfl, fun _ _ => rfl⟩

theorem inv_scanDevs (hi : h.Inv r P walk) : (scanDevs r walk h).Inv r P walk :=
  inv_scanPass scanRules_devs (fun _ => id) hi

theorem inv_handoffScans (hi : h.Inv r P walk) : (handoffScans r walk h).Inv r P walk :=
  inv_scanDevs (inv_scanIps (inv_scanZones (inv_scanRegions hi)))

/-- The last scan stops early only when `used` is as long as `_num_assigned_devs`; otherwise it
leaves every device of the walk used. -/
theorem scanDevs_covers (h : Handoff) :
    (scanDevs r walk h).used.length = r.numAssignedDevs ∨
      ∀ q ∈ walk, ∀ i, HoldsPart r q i → i ∈ (scanDevs r walk h).used := by
  have hcov := @scanPass_covers r _ _ (fun h => h.used.length == r.numAssignedDevs)
    scanRules_devs (fun _ _ _ hf => by simpa using hf) walk h
  rw [beq_iff_eq] at hcov
  exact hcov

/-- The last scan leaves every device of every partition of the walk used: either it walks
them all, or it stops when every assigned device is used. -/
theorem mem_used_scanDevs (hi : h.Inv r P walk) {q i : Nat} (hq : q ∈ walk)
    (hhold : HoldsPart r q i) : i ∈ (scanDevs r walk h).used := by
  have hinv := inv_scanDevs hi
  rcases scanDevs_covers h with hlen | hcov
  · -- the early stop is honest
    exact RingData.mem_of_length_eq hinv.used_nodup hinv.used_assigned hlen
      hhold.mem_devIdsWithParts
  · exact hcov q hq i hhold

theorem mem_used_handoffScans (hi : h.Inv r P walk) {q i : Nat} (hq : q ∈ walk)
    (hhold : HoldsPart r q i) : i ∈ (handoffScans r walk h).used :=
  mem_used_scanDevs (inv_scanIps (inv_scanZones (inv_scanRegions hi))) hq hhold

end Scans

/-! ### `get_more_nodes`

The results are proved for any walk and any assigned primaries (`handoffNodes`), then read at
the walk and primaries of a partition. The detour keeps the kernel from evaluating the scans
over a walk computed from the digest of an unknown partition when it unfolds `getMoreNodes`. -/

section Nodes

variable (r : RingData) (walk : List Nat) {primary : List Device}
  (hP : ∀ d ∈ primary, d.id ∈ r.devIdsWithParts)
include hP

theorem inv_handoffNodes :
    (handoffScans r walk (initialHandoff primary)).Inv r (primary.map Device.id).dedup walk :=
  inv_handoffScans (Handoff.inv_initialHandoff hP)

/-- The primaries' ids followed by the yielded ids have no repetition. -/
theorem nodup_primary_append_handoffNodes :
    ((primary.map Device.id).dedup ++ (handoffNodes r walk primary).map fun x => x.1.id).Nodup :=
  (inv_handoffNodes r walk hP).used_perm.nodup_iff.mp (inv_handoffNodes r walk hP).used_nodup

theorem handoffNodes_indices :
    (handoffNodes r walk primary).map Prod.snd =
      List.range (handoffNodes r walk primary).length :=
  (inv_handoffNodes r walk hP).indices

theorem handoffNodes_dev :
    ∀ x ∈ handoffNodes r walk primary,
      x.1 = r.dev x.1.id ∧ ∃ q ∈ walk, HoldsPart r q x.1.id :=
  (inv_handoffNodes r walk hP).yielded_dev

theorem handoffNodes_complete {q i : Nat} (hq : q ∈ walk) (hhold : HoldsPart r q i) :
    i ∈ primary.map Device.id ∨ i ∈ (handoffNodes r walk primary).map fun x => x.1.id := by
  have hused := mem_used_handoffScans (Handoff.inv_initialHandoff hP) hq hhold
  rcases List.mem_append.mp ((inv_handoffNodes r walk hP).used_perm.mem_iff.mp hused) with
    h | h
  · exact Or.inl (List.mem_dedup.mp h)
  · exact Or.inr h

end Nodes

section GetMoreNodes

variable (r : RingData) (part : Nat)

theorem primary_assigned : ∀ d ∈ getPartNodes r part, d.id ∈ r.devIdsWithParts :=
  fun _ hd => id_mem_of_mem_getPartNodes hd

/-- `handoff_index` counts `0, 1, 2, ...` in the order of the generator. -/
theorem getMoreNodes_indices :
    (getMoreNodes r part).map Prod.snd = List.range (getMoreNodes r part).length :=
  handoffNodes_indices r (handoffWalk r part) (primary_assigned r part)

/-- No device is yielded twice. -/
theorem nodup_getMoreNodes : ((getMoreNodes r part).map fun x => x.1.id).Nodup :=
  (nodup_primary_append_handoffNodes r (handoffWalk r part) (primary_assigned r part)).of_append_right

/-- No primary is yielded. -/
theorem getMoreNodes_not_primary :
    ∀ x ∈ getMoreNodes r part, x.1.id ∉ (getPartNodes r part).map Device.id := by
  intro x hx hprim
  have hdisj := (List.nodup_append.mp
    (nodup_primary_append_handoffNodes r (handoffWalk r part) (primary_assigned r part))).2.2
  exact hdisj _ (List.mem_dedup.mpr hprim) _ (List.mem_map_of_mem hx) rfl

/-- Every yielded device is the ring's entry for its id, found at a partition of the walk. -/
theorem getMoreNodes_dev :
    ∀ x ∈ getMoreNodes r part,
      x.1 = r.dev x.1.id ∧ ∃ q ∈ handoffWalk r part, HoldsPart r q x.1.id :=
  handoffNodes_dev r (handoffWalk r part) (primary_assigned r part)

/-- Every device at a partition of the walk is a primary or yielded. -/
theorem getMoreNodes_complete {q i : Nat} (hq : q ∈ handoffWalk r part)
    (hhold : HoldsPart r q i) :
    i ∈ (getPartNodes r part).map Device.id ∨ i ∈ (getMoreNodes r part).map fun x => x.1.id :=
  handoffNodes_complete r (handoffWalk r part) (primary_assigned r part) hq hhold

end GetMoreNodes

/-- One replica over two partitions (`part_power` 1): device `0` holds partition `0`, device `1`
partition `1`. -/
def twoPartRing : RingData :=
  ⟨[[0, 1]], [some ⟨0, 0, 0, "10.0.0.1"⟩, some ⟨1, 0, 0, "10.0.0.2"⟩], 31, by decide⟩

set_option maxRecDepth 100000 in
/-- `md5("1")` begins with `0xc4`, so the walk for partition `1` starts at `1` and is just `[1]`:
device `0` is assigned and not a primary of partition `1`, yet `get_more_nodes(1)` yields
nothing. -/
theorem getMoreNodes_twoPartRing_omits_assigned :
    0 ∈ twoPartRing.devIdsWithParts ∧ 0 ∉ (getPartNodes twoPartRing 1).map Device.id ∧
      getMoreNodes twoPartRing 1 = [] :=
  ⟨by decide, by decide, by decide⟩

end Ring

end Swift
