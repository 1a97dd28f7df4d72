import Swift.Ring.Handoff

/-!
# Are handoffs tier-diverse first?

`get_more_nodes` runs four scans over its walk of partitions: devices in new regions, then in
new zones, then on new ips, then any device left. Each of the first three stops once it has
covered as many regions, zones or ips as the ring's assigned devices have
(`_num_regions`, `_num_zones`, `_num_ips` of `_update_bookkeeping`). The intent is that no device
of a covered tier is handed off while an assigned device of an uncovered tier is left.

The counts are over every assigned device, but the scans see only the devices of the walk. The
walk for a partition whose hash does not start the ring at `0` never visits partition `0`
(`Ring.mem_handoffWalk`). A region whose only device holds only partition `0` is then never
reached, and the later scans hand off devices of covered regions before it.

## Main results

* `DiverseAt` — the rule at one tier, decidable, for a sequence of handoffs
* `getMoreNodes_fourPartRing_not_diverse` — a ring of four partitions where the first handoff is
  in the primaries' region while a device of another region is left
-/

namespace Swift

namespace Ring

/-- The rule at the tier `tier` (region, zone or ip) for the primaries and the devices handed off
after them, in order: a handoff whose tier the primaries and the earlier handoffs already cover
comes only when they cover the tier of every assigned device. -/
def DiverseAt {β : Type*} [DecidableEq β] (tier : Device → β) (r : RingData)
    (primary handoffs : List Device) : Prop :=
  ∀ k (hk : k < handoffs.length), tier handoffs[k] ∈ (primary ++ handoffs.take k).map tier →
    ∀ d ∈ r.assignedDevs, tier d ∈ (primary ++ handoffs.take k).map tier

instance {β : Type*} [DecidableEq β] (tier : Device → β) (r : RingData)
    (primary handoffs : List Device) : Decidable (DiverseAt tier r primary handoffs) := by
  unfold DiverseAt
  infer_instance

/-- Four partitions (`part_power` 2) in two replicas. Devices `0`, `1` and `2` are in region `0`,
each on its own ip; device `3` is in region `1` and holds only partition `0`. -/
def fourPartRing : RingData :=
  ⟨[[3, 0, 2, 1], [0, 1, 0, 2]],
    [some ⟨0, 0, 0, "10.0.0.1"⟩, some ⟨1, 0, 0, "10.0.0.2"⟩, some ⟨2, 0, 0, "10.0.0.3"⟩,
      some ⟨3, 1, 0, "10.0.1.1"⟩], 30, by decide⟩

set_option maxRecDepth 100000 in
/-- `md5("1")` begins with `0xc4`, so the walk for partition `1` starts at `3` and is `[3, 1, 2]`.
The primaries of partition `1` are devices `0` and `1`, both in region `0`. The region and zone
scans find nothing new on the walk, the ip scan hands off device `2`, of region `0`, and device
`3`, the only device of region `1`, is never reached. -/
theorem getMoreNodes_fourPartRing_not_diverse :
    handoffWalk fourPartRing 1 = [3, 1, 2] ∧
    (getPartNodes fourPartRing 1).map Device.id = [0, 1] ∧
    (getMoreNodes fourPartRing 1).map (fun x => x.1.id) = [2] ∧
    ¬DiverseAt Device.region fourPartRing (getPartNodes fourPartRing 1)
      ((getMoreNodes fourPartRing 1).map Prod.fst) ∧
    ¬DiverseAt (fun d => (d.region, d.zone)) fourPartRing (getPartNodes fourPartRing 1)
      ((getMoreNodes fourPartRing 1).map Prod.fst) :=
  ⟨by decide, by decide, by decide, by decide, by decide⟩

end Ring

end Swift
