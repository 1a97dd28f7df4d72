import Swift.Hashing.Md5
import Mathlib.Data.List.Dedup

/-!
# The ring

`swift.common.ring.ring.Ring`, as far as placement goes: the assignment rows
`_replica2part2dev_id`, the device list with its holes, the bookkeeping `_update_bookkeeping`
does on load, the primary nodes of a partition (`_get_part_nodes`) and the handoff generator
`get_more_nodes`.

## The model

A ring is `RingData` together with the fact that every id in an assignment row names a live
device carrying that id; rings written by the builder have this shape, and `Ring` reads
`self._devs[dev_id]` for those ids without a check. `RingData.dev` is that lookup. Devices keep
the four keys placement reads: `id`, `region`, `zone` and `ip`.

`get_more_nodes` is a generator with four successive scans over the same walk of partitions,
each with its own early exit. The scans differ in which devices they take (a new region, a new
zone, a new ip, any unused device), in which tiers they note as covered, and in when they stop;
`scanPass` is one scan with these three as parameters, and `scanRegions`, `scanZones`,
`scanIps`, `scanDevs` instantiate it with the source's values. The generator's output is the
list of `(device, handoff_index)` pairs it yields, in order.

Python's sets are lists kept free of duplicates by `List.insert`; `len` of a set is the length
of its list.

## Main definitions

* `Ring.RingData`, `RingData.dev`, `getPartNodes`
* `Ring.handoffParts` — the walk `chain(range(start, parts, inc), range(inc - ..., start, inc))`
* `Ring.scanPass` and its four instances, `Ring.getMoreNodes`
-/

namespace Swift

namespace Ring

/-- A device entry of a ring, with the keys placement reads. -/
structure Device where
  id : Nat
  region : Nat
  zone : Nat
  ip : String
  deriving DecidableEq, Repr

/-- Whether `devs[i]` is a live device whose id is `i`. -/
def isLive (devs : List (Option Device)) (i : Nat) : Bool :=
  match devs[i]? with
  | some (some d) => d.id == i
  | _ => false

/-- The ring data `Ring` loads: assignment rows, one per replica, mapping a partition to a device
id; the device list, with `none` for removed devices; and the shift that turns a 32-bit hash into
a partition. Every assigned id names a live device. -/
structure RingData where
  replica2part2devId : List (List Nat)
  devs : List (Option Device)
  partShift : Nat
  live : ∀ row ∈ replica2part2devId, ∀ i ∈ row, isLive devs i = true

namespace RingData

variable (r : RingData)

/-- `self._devs[dev_id]`. On the ids the rows hold it is the live device; the default is never
read there. -/
def dev (i : Nat) : Device := (r.devs[i]?.getD none).getD ⟨i, 0, 0, ""⟩

/-- `len(self._replica2part2dev_id[0])`. -/
def partitionCount : Nat := (r.replica2part2devId.headD []).length

/-! ### `_update_bookkeeping` -/

/-- The ids that hold at least one partition. -/
def devIdsWithParts : List Nat := r.replica2part2devId.flatten

/-- The live devices that hold at least one partition. -/
def assignedDevs : List Device :=
  (r.devs.filterMap id).filter fun d => d.id ∈ r.devIdsWithParts

def numRegions : Nat := (r.assignedDevs.map Device.region).dedup.length

def numZones : Nat := (r.assignedDevs.map fun d => (d.region, d.zone)).dedup.length

def numIps : Nat := (r.assignedDevs.map fun d => (d.region, d.zone, d.ip)).dedup.length

def numAssignedDevs : Nat := r.assignedDevs.length

end RingData

/-! ### Primary nodes -/

/-- The loop of `_get_part_nodes`: for each row long enough to hold `part`, take its device
unless an earlier row already gave it. -/
def partNodes (r : RingData) (part : Nat) : List (List Nat) → List Nat → List Device
  | [], _ => []
  | row :: rows, seenIds =>
    match row[part]? with
    | none => partNodes r part rows seenIds
    | some devId =>
      if devId ∈ seenIds then partNodes r part rows seenIds
      else r.dev devId :: partNodes r part rows (devId :: seenIds)

/-- `Ring._get_part_nodes(part)`: the primary devices of a partition, each once, in replica
order. -/
def getPartNodes (r : RingData) (part : Nat) : List Device :=
  partNodes r part r.replica2part2devId []

/-- `Ring.get_part`: the partition of a 32-bit hash value. -/
def getPart (r : RingData) (hash : Nat) : Nat := hash >>> r.partShift

/-! ### The handoff walk -/

/-- Python's `range(start, stop, step)` for a positive step. -/
def pyRange (start stop step : Nat) : List Nat :=
  List.range' start ((stop - start + step - 1) / step) step

/-- The partitions `get_more_nodes` walks, in order. -/
def handoffParts (parts start inc : Nat) : List Nat :=
  pyRange start parts inc ++ pyRange (inc - (parts - start) % inc) start inc

/-- What the generator has seen so far: the used device ids, the covered regions, zones and
ips, the `count()` iterator for `handoff_index`, and the `(device, handoff_index)` pairs
yielded, in order. -/
structure Handoff where
  used : List Nat
  sameRegions : List Nat
  sameZones : List (Nat × Nat)
  sameIps : List (Nat × Nat × String)
  index : Nat
  yielded : List (Device × Nat)

/-- `yield dict(dev, handoff_index=next(index))` followed by `used.add(dev_id)`. -/
def Handoff.yield (h : Handoff) (devId : Nat) (dev : Device) : Handoff :=
  { h with used := h.used.insert devId, index := h.index + 1,
           yielded := h.yielded ++ [(dev, h.index)] }

/-- One inner loop of a scan: visit the rows at `handoffPart`, yield every device `fresh` admits,
note it with `record`, and break as soon as `hit` holds. -/
def scanRows (r : RingData) (fresh : Handoff → Nat → Device → Bool)
    (record : Handoff → Device → Handoff) (hit : Handoff → Bool) (handoffPart : Nat) :
    List (List Nat) → Handoff → Handoff
  | [], h => h
  | row :: rows, h =>
    match row[handoffPart]? with
    | none => scanRows r fresh record hit handoffPart rows h
    | some devId =>
      if fresh h devId (r.dev devId) then
        let h' := record (h.yield devId (r.dev devId)) (r.dev devId)
        if hit h' then h' else scanRows r fresh record hit handoffPart rows h'
      else scanRows r fresh record hit handoffPart rows h

/-- One scan of `get_more_nodes`: walk the handoff partitions, stopping as soon as `hit`
holds. -/
def scanPass (r : RingData) (fresh : Handoff → Nat → Device → Bool)
    (record : Handoff → Device → Handoff) (hit : Handoff → Bool) : List Nat → Handoff → Handoff
  | [], h => h
  | hp :: hps, h =>
    if hit h then h
    else scanPass r fresh record hit hps (scanRows r fresh record hit hp r.replica2part2devId h)

/-- The first scan: a device in a region not yet covered; it covers its region, zone and ip. -/
def scanRegions (r : RingData) : List Nat → Handoff → Handoff :=
  scanPass r (fun h devId dev => devId ∉ h.used && dev.region ∉ h.sameRegions)
    (fun h dev => { h with sameRegions := h.sameRegions.insert dev.region,
                           sameZones := h.sameZones.insert (dev.region, dev.zone),
                           sameIps := h.sameIps.insert (dev.region, dev.zone, dev.ip) })
    (fun h => h.sameRegions.length == r.numRegions)

/-- The second scan: a device in a zone not yet covered; it covers its zone and ip. -/
def scanZones (r : RingData) : List Nat → Handoff → Handoff :=
  scanPass r (fun h devId dev => devId ∉ h.used && (dev.region, dev.zone) ∉ h.sameZones)
    (fun h dev => { h with sameZones := h.sameZones.insert (dev.region, dev.zone),
                           sameIps := h.sameIps.insert (dev.region, dev.zone, dev.ip) })
    (fun h => h.sameZones.length == r.numZones)

/-- The third scan: a device on an ip not yet covered; it covers its ip. -/
def scanIps (r : RingData) : List Nat → Handoff → Handoff :=
  scanPass r (fun h devId dev => devId ∉ h.used && (dev.region, dev.zone, dev.ip) ∉ h.sameIps)
    (fun h dev => { h with sameIps := h.sameIps.insert (dev.region, dev.zone, dev.ip) })
    (fun h => h.sameIps.length == r.numIps)

/-- The last scan: any device not yet used. -/
def scanDevs (r : RingData) : List Nat → Handoff → Handoff :=
  scanPass r (fun h devId _ => devId ∉ h.used) (fun h _ => h)
    (fun h => h.used.length == r.numAssignedDevs)

/-- The 32-bit word `struct.unpack_from('>I', digest)` reads: the first four bytes, big-endian. -/
def unpackWord (digest : List UInt8) : Nat :=
  (digest.getD 0 0).toNat * 2 ^ 24 + (digest.getD 1 0).toNat * 2 ^ 16 +
    (digest.getD 2 0).toNat * 2 ^ 8 + (digest.getD 3 0).toNat

/-- `md5(str(part).encode('ascii'))`: the digest of the partition's decimal digits. -/
def partHash (part : Nat) : List UInt8 := md5 ((Nat.toDigits 10 part).map fun c => c.toNat.toUInt8)

/-- The generator state before the scans: the primaries are used and their tiers covered. -/
def initialHandoff (primary : List Device) : Handoff :=
  ⟨(primary.map Device.id).dedup, (primary.map Device.region).dedup,
    (primary.map fun d => (d.region, d.zone)).dedup,
    (primary.map fun d => (d.region, d.zone, d.ip)).dedup, 0, []⟩

/-- `start` of `get_more_nodes`: the partition the walk begins at. -/
def handoffStart (r : RingData) (part : Nat) : Nat := unpackWord (partHash part) >>> r.partShift

/-- `inc = int(parts / 65536) or 1`. -/
def handoffInc (r : RingData) : Nat :=
  if r.partitionCount / 65536 = 0 then 1 else r.partitionCount / 65536

/-- The partitions each scan of `get_more_nodes` walks. -/
def handoffWalk (r : RingData) (part : Nat) : List Nat :=
  handoffParts r.partitionCount (handoffStart r part) (handoffInc r)

/-- The four scans, one after the other, over the same walk. -/
def handoffScans (r : RingData) (walk : List Nat) (h : Handoff) : Handoff :=
  scanDevs r walk (scanIps r walk (scanZones r walk (scanRegions r walk h)))

/-- What the generator yields for a walk and the primaries: the handoff devices with their
`handoff_index`, in order. -/
def handoffNodes (r : RingData) (walk : List Nat) (primary : List Device) : List (Device × Nat) :=
  (handoffScans r walk (initialHandoff primary)).yielded

/-- `Ring.get_more_nodes(part)`. -/
def getMoreNodes (r : RingData) (part : Nat) : List (Device × Nat) :=
  handoffNodes r (handoffWalk r part) (getPartNodes r part)

end Ring

end Swift
