import Swift.Ring.Ring

/-!
# The builder's ring and the partition power increase

`swift.common.ring.builder.RingBuilder`, as far as `get_ring` and `increase_partition_power`
go. The builder keeps its devices with their `parts` counters, the assignment rows
`_replica2part2dev` (`None` before the first rebalance), `_last_part_moves`, and the ring it
last built, `_ring`: `get_ring` returns that cached ring when there is one ("Be sure to set
self._ring = None whenever the ring will need to be rebuilt", says its comment).

`increase_partition_power` doubles every row, so that new partitions `2p` and `2p + 1` hold the
devices of old partition `p`, doubles the `parts` counters and `_last_part_moves`, and moves to
the next partition power. It does not clear `_ring`.

## Main results

* `RingBuilder.getPartNodes_getRing_increasePartitionPower`: without a cached ring, every hash
  finds the same primaries, in the same order, before and after the increase.
* `RingBuilder.parts_increasePartitionPower`: the `parts` counters still count slots.
* `RingBuilder.increasePartitionPower_doubles`: the two together, for every prepared increase.
* `RingBuilder.increasePartitionPower_keeps_cached_ring`: with a cached ring, `get_ring` after
  the increase returns the ring of the old partition power.
-/

namespace Swift

namespace Ring

/-- A builder device: the keys the ring keeps, and the builder's own `parts` counter. -/
structure BuilderDevice where
  id : Nat
  region : Nat
  zone : Nat
  ip : String
  parts : Nat
  deriving DecidableEq, Repr

/-- The device as the ring keeps it, without the builder-specific `parts`. -/
def BuilderDevice.toDevice (d : BuilderDevice) : Device := ⟨d.id, d.region, d.zone, d.ip⟩

/-- `device['parts'] *= 2`. -/
def BuilderDevice.doubleParts (d : BuilderDevice) : BuilderDevice := { d with parts := d.parts * 2 }

/-- `RingBuilder._iter_devs`: the devices that are not holes. -/
def iterDevs (devs : List (Option BuilderDevice)) : List BuilderDevice := devs.filterMap id

/-- The device list `get_ring` builds: a hole for every builder entry, then each device at its
own id. -/
def ringDevs (devs : List (Option BuilderDevice)) : List (Option Device) :=
  (iterDevs devs).foldl (fun acc d => acc.set d.id (some d.toDevice))
    (List.replicate devs.length none)

/-- Every device of a row appears twice in a row: `new_replica.append(device)` twice. -/
def doubled {α : Type*} (l : List α) : List α := l.flatMap fun x => [x, x]

/-- A ring builder's state. Every id its rows hold names a device of the ring `get_ring` builds:
builders reach only such states outside `rebalance`, and the ring relies on it. -/
structure RingBuilder where
  partPower : Nat
  nextPartPower : Option Nat
  parts : Nat
  devs : List (Option BuilderDevice)
  replica2part2dev : Option (List (List Nat))
  lastPartMoves : List Nat
  version : Nat
  ring : Option RingData
  live : ∀ row ∈ replica2part2dev.getD [], ∀ i ∈ row, isLive (ringDevs devs) i = true

namespace RingBuilder

/-- `RingBuilder.part_shift`. -/
def partShift (b : RingBuilder) : Nat := 32 - b.partPower

/-- The ring `get_ring` builds when nothing is cached: the rows (none before the first
rebalance), the device list with holes, and the shift. -/
def buildRing (b : RingBuilder) : RingData :=
  ⟨b.replica2part2dev.getD [], ringDevs b.devs, b.partShift, b.live⟩

/-- `RingBuilder.get_ring`: the cached ring, or a new one, which is then cached. -/
def getRing (b : RingBuilder) : RingData × RingBuilder :=
  match b.ring with
  | some r => (r, b)
  | none => (b.buildRing, { b with ring := some b.buildRing })

theorem mem_doubled {α : Type*} {l : List α} {x : α} : x ∈ doubled l ↔ x ∈ l := by
  simp [doubled]

/-- The ring's device list does not read the `parts` counters. -/
@[simp] theorem ringDevs_doubleParts (devs : List (Option BuilderDevice)) :
    ringDevs (devs.map (Option.map BuilderDevice.doubleParts)) = ringDevs devs := by
  have hiter : iterDevs (devs.map (Option.map BuilderDevice.doubleParts)) =
      (iterDevs devs).map BuilderDevice.doubleParts := by
    simp [iterDevs, List.filterMap_map, List.map_filterMap]
  simp only [ringDevs, hiter, List.foldl_map, List.length_map]
  rfl

/-- The doubled rows hold the same ids over the same devices. -/
theorem live_doubled (b : RingBuilder) {rows : List (List Nat)}
    (hr : b.replica2part2dev = some rows) :
    ∀ row ∈ (some (rows.map doubled)).getD [], ∀ i ∈ row,
      isLive (ringDevs (b.devs.map (Option.map BuilderDevice.doubleParts))) i = true := by
  intro row hrow i hi
  obtain ⟨row₀, hrow₀, rfl⟩ := List.mem_map.mp hrow
  rw [ringDevs_doubleParts]
  exact b.live row₀ (by simpa [hr] using hrow₀) i (mem_doubled.mp hi)

/-- `RingBuilder.increase_partition_power`: `false` when the increase was not prepared, an
error when there are no rows to double (`None` is not iterable), else the doubled builder.
`_ring` is left as it was. -/
def increasePartitionPower (b : RingBuilder) : Except String (Bool × RingBuilder) :=
  match b.nextPartPower with
  | none => .ok (false, b)
  | some next =>
    if next ≠ b.partPower + 1 then .ok (false, b)
    else
      match hr : b.replica2part2dev with
      | none => .error "'NoneType' object is not iterable"
      | some rows =>
        .ok (true,
          { partPower := next
            nextPartPower := b.nextPartPower
            parts := b.parts * 2
            devs := b.devs.map (Option.map BuilderDevice.doubleParts)
            replica2part2dev := some (rows.map doubled)
            lastPartMoves := doubled b.lastPartMoves
            version := b.version + 1
            ring := b.ring
            live := b.live_doubled hr })

/-- What a successful increase does. -/
theorem increasePartitionPower_eq_ok_true {b b' : RingBuilder}
    (h : b.increasePartitionPower = .ok (true, b')) :
    ∃ rows, b.replica2part2dev = some rows ∧ b'.partPower = b.partPower + 1 ∧
      b'.replica2part2dev = some (rows.map doubled) ∧
      b'.devs = b.devs.map (Option.map BuilderDevice.doubleParts) ∧ b'.ring = b.ring := by
  unfold increasePartitionPower at h
  split at h
  · cases h
  next next hnext =>
    split at h
    · cases h
    next hpp =>
      split at h
      · cases h
      next rows hr =>
        cases h
        exact ⟨rows, hr, by simpa using hpp, rfl, rfl, rfl⟩

/-! ### Placement across the increase -/

theorem getElem?_doubled {α : Type*} (l : List α) (q : Nat) : (doubled l)[q]? = l[q / 2]? := by
  induction l generalizing q with
  | nil => simp [doubled]
  | cons x l ih =>
    -- `doubled (x :: l) = x :: x :: doubled l`: positions `0` and `1` hold `x`
    have hcons : doubled (x :: l) = x :: x :: doubled l := rfl
    rcases q with _ | _ | q
    · simp [hcons]
    · simp [hcons]
    · rw [hcons, List.getElem?_cons_succ, List.getElem?_cons_succ, ih,
        show (q + 2) / 2 = q / 2 + 1 by omega, List.getElem?_cons_succ]

/-- The primary loop over doubled rows at `q` is the loop over the old rows at `q / 2`. -/
theorem partNodes_doubled {r r' : RingData} (hdevs : r'.devs = r.devs) (q : Nat) :
    ∀ (rows : List (List Nat)) (seenIds : List Nat),
      partNodes r' q (rows.map doubled) seenIds = partNodes r (q / 2) rows seenIds := by
  have hdev : r'.dev = r.dev := by
    funext i
    simp [RingData.dev, hdevs]
  intro rows
  induction rows with
  | nil => intro _; rfl
  | cons row rows ih =>
    intro seenIds
    simp only [List.map_cons, partNodes, getElem?_doubled, hdev, ih]

theorem shiftRight_succ_partPower (hash pp : Nat) (hpp : pp < 32) :
    hash >>> (32 - (pp + 1)) / 2 = hash >>> (32 - pp) := by
  rw [show 32 - pp = 32 - (pp + 1) + 1 by omega, Nat.shiftRight_succ]

variable {b b' : RingBuilder}

/-- Without a cached ring, the ring `get_ring` gives after the increase sends every hash to the
primaries it went to before, in the same order: partition `hash >> (32 - (power + 1))` of the
new ring holds what partition `hash >> (32 - power)` held. -/
theorem getPartNodes_getRing_increasePartitionPower (hcache : b.ring = none)
    (hpp : b.partPower < 32) (hinc : b.increasePartitionPower = .ok (true, b')) (hash : Nat) :
    getPartNodes b'.getRing.1 (hash >>> (32 - (b.partPower + 1))) =
      getPartNodes b.getRing.1 (hash >>> (32 - b.partPower)) := by
  obtain ⟨rows, hr, -, hr', hdevs', hring'⟩ := increasePartitionPower_eq_ok_true hinc
  have hcache' : b'.ring = none := hring'.trans hcache
  have hdevs : b'.buildRing.devs = b.buildRing.devs := by
    simp [buildRing, hdevs']
  simp only [getRing, hcache, hcache', getPartNodes]
  have hrows' : b'.buildRing.replica2part2devId = rows.map doubled := by simp [buildRing, hr']
  have hrows : b.buildRing.replica2part2devId = rows := by simp [buildRing, hr]
  rw [hrows', hrows, partNodes_doubled hdevs, shiftRight_succ_partPower hash _ hpp]

/-- The number of slots holding device `i`. -/
def slotCount (rows : List (List Nat)) (i : Nat) : Nat := rows.flatten.count i

theorem count_doubled (l : List Nat) (i : Nat) : (doubled l).count i = 2 * l.count i := by
  induction l with
  | nil => rfl
  | cons x l ih =>
    have hcons : doubled (x :: l) = x :: x :: doubled l := rfl
    rw [hcons, List.count_cons, List.count_cons, ih, List.count_cons]
    split <;> omega

theorem slotCount_map_doubled (rows : List (List Nat)) (i : Nat) :
    slotCount (rows.map doubled) i = 2 * slotCount rows i := by
  induction rows with
  | nil => rfl
  | cons row rows ih =>
    simp only [slotCount, List.map_cons, List.flatten_cons, List.count_append] at ih ⊢
    rw [count_doubled, ih]
    omega

/-- The `parts` counters keep counting slots: both double. -/
theorem parts_increasePartitionPower (hinc : b.increasePartitionPower = .ok (true, b'))
    (hparts : ∀ d ∈ iterDevs b.devs, d.parts = slotCount (b.replica2part2dev.getD []) d.id) :
    ∀ d ∈ iterDevs b'.devs, d.parts = slotCount (b'.replica2part2dev.getD []) d.id := by
  obtain ⟨rows, hr, -, hr', hdevs', -⟩ := increasePartitionPower_eq_ok_true hinc
  intro d hd
  rw [hdevs'] at hd
  obtain ⟨d₀, hd₀, rfl⟩ : ∃ d₀ ∈ iterDevs b.devs, d₀.doubleParts = d := by
    simpa [iterDevs, List.filterMap_map, List.mem_filterMap] using hd
  have h₀ := hparts d₀ hd₀
  rw [hr] at h₀
  rw [hr', Option.getD_some, slotCount_map_doubled]
  simp only [BuilderDevice.doubleParts, h₀, Option.getD_some]
  omega

/-- What a prepared `increase_partition_power` keeps: the next power, the primaries of every
hash when no ring is cached, and `parts` counters that count slots. -/
theorem increasePartitionPower_doubles (hinc : b.increasePartitionPower = .ok (true, b')) :
    b'.partPower = b.partPower + 1 ∧
    (b.ring = none → b.partPower < 32 → ∀ hash,
      getPartNodes b'.getRing.1 (hash >>> (32 - (b.partPower + 1))) =
        getPartNodes b.getRing.1 (hash >>> (32 - b.partPower))) ∧
    ((∀ d ∈ iterDevs b.devs, d.parts = slotCount (b.replica2part2dev.getD []) d.id) →
      ∀ d ∈ iterDevs b'.devs, d.parts = slotCount (b'.replica2part2dev.getD []) d.id) := by
  obtain ⟨-, -, hpower, -⟩ := increasePartitionPower_eq_ok_true hinc
  exact ⟨hpower, fun hcache hpp => getPartNodes_getRing_increasePartitionPower hcache hpp hinc,
    parts_increasePartitionPower hinc⟩

end RingBuilder

/-! ### A builder with a cached ring -/

/-- Two devices, one replica over two partitions (`part_power` 1), prepared for the increase
(`next_part_power` 2), and `get_ring` not yet called. -/
def preparedBuilder : RingBuilder where
  partPower := 1
  nextPartPower := some 2
  parts := 2
  devs := [some ⟨0, 0, 0, "10.0.0.1", 1⟩, some ⟨1, 0, 0, "10.0.0.2", 1⟩]
  replica2part2dev := some [[0, 1]]
  lastPartMoves := [0, 0]
  version := 1
  ring := none
  live := by decide

/-- Call `get_ring`, then increase the partition power, then call `get_ring` again: the second
ring is the first, with the old shift `31`, so hash `2 ^ 30`, at partition `1` of the new power,
finds device `1`, while the builder's ring before the increase had it at partition `0`, on
device `0`. -/
theorem increasePartitionPower_keeps_cached_ring :
    ∃ b', preparedBuilder.getRing.2.increasePartitionPower = .ok (true, b') ∧
      b'.partPower = 2 ∧ b'.getRing.1.partShift = 31 ∧
      getPartNodes b'.getRing.1 (2 ^ 30 >>> (32 - 2)) = [⟨1, 0, 0, "10.0.0.2"⟩] ∧
      getPartNodes preparedBuilder.getRing.1 (2 ^ 30 >>> (32 - 1)) = [⟨0, 0, 0, "10.0.0.1"⟩] :=
  ⟨_, rfl, rfl, rfl, by decide, by decide⟩

/-- The prepared builder, before `get_ring` is called, increases without a cached ring. -/
theorem increasePartitionPower_doubles_preparedBuilder :
    ∃ b', preparedBuilder.increasePartitionPower = .ok (true, b') ∧
      b'.partPower = preparedBuilder.partPower + 1 ∧
      (preparedBuilder.ring = none → preparedBuilder.partPower < 32 → ∀ hash,
        getPartNodes b'.getRing.1 (hash >>> (32 - (preparedBuilder.partPower + 1))) =
          getPartNodes preparedBuilder.getRing.1 (hash >>> (32 - preparedBuilder.partPower))) ∧
      ((∀ d : BuilderDevice, d ∈ iterDevs preparedBuilder.devs →
          d.parts = RingBuilder.slotCount (preparedBuilder.replica2part2dev.getD []) d.id) →
        ∀ d : BuilderDevice, d ∈ iterDevs b'.devs →
          d.parts = RingBuilder.slotCount (b'.replica2part2dev.getD []) d.id) :=
  ⟨_, rfl, RingBuilder.increasePartitionPower_doubles rfl⟩

end Ring

end Swift
