import Swift.Ring.Builder
import Swift.Data.Bitmap

/-!
# Taking partitions off devices: the gather passes of `rebalance`

`RingBuilder.rebalance` moves partition replicas in two phases that alternate: gather passes set
slots of `_replica2part2dev` to `NONE_DEV` and collect them in `assign_parts`, and
`_reassign_parts` puts each collected slot on a device. `min_part_hours` is kept by two
records: `_last_part_moves`, the hours since each partition last moved, aged once per rebalance
by `_update_last_part_moves`; and `_part_moved_bitmap`, cleared at the same time, whose bit for
a partition `_set_part_moved` sets whenever a slot of it is gathered. `_can_part_move` asks
both.

## The model

The passes are written as the source has them: `_adjust_replica2part2dev_size`,
`_gather_parts_from_failed_devices`, `_gather_parts_for_dispersion`, the two
`_gather_parts_for_balance` passes, `_reassign_parts`, and the loop of at most
`MAX_BALANCE_GATHER_COUNT` rounds that runs them. What the passes decide from device weights,
the replica plan, the tiers and the random generator (which replicas are undispersed, which one
an overweight device sheds, where a balance pass starts, the order `random.shuffle` leaves,
which device takes a replica, and whether every device has its parts) is a `Choices`: a function
of everything the builder has done so far, so every run of the source is one of them. The
`parts` and `parts_wanted` counters of the devices feed only these choices and are left out, as
are the row lengths the source computes from the replica count, which are an argument.

`gathered` is not a field of the builder: it records each slot as it goes into `assign_parts`,
with the pass that put it there, as the debug log does. For the dispersion pass it also records
whether the device held another replica of the partition, the test under which that pass
ignores `min_part_hours`.
-/

namespace Swift

namespace Ring

/-- `NONE_DEV`: no device; a slot waiting for `_reassign_parts`. -/
def noneDev : Nat := 2 ^ 16 - 1

/-- `MAX_BALANCE_GATHER_COUNT`. -/
def maxBalanceGatherCount : Nat := 3

/-- Which pass put a slot in `assign_parts`. -/
inductive GatherCause where
  /-- a slot `_adjust_replica2part2dev_size` added for a higher replica count -/
  | replicaCount
  /-- `[dev removed]` -/
  | devRemoved
  /-- `[dispersion]`, and whether the device held another replica of the partition -/
  | dispersion (shared : Bool)
  /-- `[weight disperse]` -/
  | weightDisperse
  /-- `[weight forced]` -/
  | weightForced
  deriving DecidableEq, Repr

namespace GatherCause

/-- The gathers made whatever `min_part_hours` says: new slots and slots of removed devices. -/
def byForce : GatherCause → Bool
  | replicaCount => true
  | devRemoved => true
  | _ => false

/-- The gathers `min_part_hours` does not limit to one per partition: those made by force, and
those of a replica that shares its device with another. -/
def forced : GatherCause → Bool
  | dispersion shared => shared
  | c => c.byForce

end GatherCause

/-- A slot put in `assign_parts`. -/
structure Gather where
  part : Nat
  replica : Nat
  cause : GatherCause
  deriving DecidableEq, Repr

/-- The builder during `rebalance`, as far as moving partitions goes. -/
structure Rebalance where
  replica2part2dev : List (List Nat)
  lastPartMoves : List Nat
  partMovedBitmap : List UInt8
  /-- `assign_parts`, a `defaultdict(list)` from partition to replicas, in insertion order -/
  assignParts : List (Nat × List Nat)
  gathered : List Gather

/-- `assign_parts[part].append(replica)`. -/
def appendAssign : List (Nat × List Nat) → Nat → Nat → List (Nat × List Nat)
  | [], part, replica => [(part, [replica])]
  | (p, replicas) :: rest, part, replica =>
    if p = part then (p, replicas ++ [replica]) :: rest
    else (p, replicas) :: appendAssign rest part replica

namespace Rebalance

variable (s : Rebalance)

/-- `_replica2part2dev[replica][part]`. -/
def slot (replica part : Nat) : Nat := (s.replica2part2dev.getD replica []).getD part noneDev

/-- `_replica2part2dev[replica][part] = dev`. -/
def setSlot (replica part dev : Nat) : Rebalance :=
  { s with replica2part2dev := s.replica2part2dev.modify replica (·.set part dev) }

/-- `_has_part_moved`. -/
def hasPartMoved (part : Nat) : Bool := Bitmap.test s.partMovedBitmap part

/-- `_can_part_move`. -/
def canPartMove (minPartHours part : Nat) : Bool :=
  decide (minPartHours ≤ s.lastPartMoves.getD part 0) && !s.hasPartMoved part

/-- `_set_part_moved`. -/
def setPartMoved (part : Nat) : Rebalance :=
  { s with lastPartMoves := s.lastPartMoves.set part 0,
           partMovedBitmap := Bitmap.set s.partMovedBitmap part }

/-- `assign_parts[part].append(replica)`, recorded with its cause. -/
def addAssign (part replica : Nat) (cause : GatherCause) : Rebalance :=
  { s with assignParts := appendAssign s.assignParts part replica,
           gathered := s.gathered ++ [⟨part, replica, cause⟩] }

/-- A gather: `assign_parts[part].append(replica)`,
`_replica2part2dev[replica][part] = NONE_DEV` and `_set_part_moved(part)`. -/
def gather (part replica : Nat) (cause : GatherCause) : Rebalance :=
  ((s.addAssign part replica cause).setSlot replica part noneDev).setPartMoved part

/-- `replicas_at_tier[dev['tiers'][-1]]`: the replicas of the partition on the device. -/
def devCount (part dev : Nat) : Nat :=
  (s.replica2part2dev.filter fun part2dev => part2dev[part]? == some dev && dev != noneDev).length

/-- Some slot went into `assign_parts` from `(part, replica)`. -/
def GatheredAt (part replica : Nat) : Prop := ∃ g ∈ s.gathered, g.part = part ∧ g.replica = replica

/-- The gathers of a partition that `min_part_hours` limits. -/
def unforced (part : Nat) : List Gather :=
  s.gathered.filter fun g => g.part == part && !g.cause.forced

end Rebalance

/-- What the passes decide from weights, the replica plan, the tiers and the random generator:
the undispersed replicas of a partition in the order the pass sorts them, the replica an
overweight device sheds in each balance pass, where the balance passes start, the order
`random.shuffle` leaves the gathered partitions in, the device `_reassign_parts` picks for a
replica, and whether no device wants fewer parts. -/
structure Choices where
  undispersed : Rebalance → Nat → List Nat
  shedDispersible : Rebalance → Nat → Option Nat
  shedOverweight : Rebalance → Nat → Option Nat
  gatherStart : Rebalance → Nat
  shuffle : Rebalance → List (Nat × List Nat) → List (Nat × List Nat)
  shuffle_perm : ∀ s items, (shuffle s items).Perm items
  place : Rebalance → Nat → Nat → Nat
  finished : Rebalance → Bool

namespace Rebalance

/-! ### `_adjust_replica2part2dev_size` -/

/-- `to_assign[part].append(replica)` for a slot the new replica count adds. -/
def newSlot (s : Rebalance) (replica part : Nat) : Rebalance := s.addAssign part replica .replicaCount

/-- Row `replica` as the loop of `_adjust_replica2part2dev_size` leaves it: a row too short is
extended with `NONE_DEV`, a row too long is cut, a missing row is made up of `NONE_DEV`. -/
def adjustedRow (rows : List (List Nat)) (replica desiredLength : Nat) : List Nat :=
  match rows[replica]? with
  | some part2dev =>
    if part2dev.length < desiredLength then
      part2dev ++ List.replicate (desiredLength - part2dev.length) noneDev
    else part2dev.take desiredLength
  | none => List.replicate desiredLength noneDev

/-- The slots `(replica, part)` the loop puts in `to_assign`, in its order: replica by replica,
the partitions past the end of the old row. -/
def addedSlots (rows : List (List Nat)) (desiredLengths : List Nat) : List (Nat × Nat) :=
  desiredLengths.zipIdx.flatMap fun (desiredLength, replica) =>
    let length := (rows.getD replica []).length
    (List.range' length (desiredLength - length)).map (replica, ·)

/-- `_adjust_replica2part2dev_size`, for the row lengths the source computes from the replica
count: `desired_lengths` rows, each adjusted, and their new slots assigned. -/
def adjustReplica2part2devSize (s : Rebalance) (desiredLengths : List Nat) : Rebalance :=
  (addedSlots s.replica2part2dev desiredLengths).foldl (fun s (replica, part) => s.newSlot replica part)
    { s with replica2part2dev := desiredLengths.zipIdx.map fun (desiredLength, replica) =>
        adjustedRow s.replica2part2dev replica desiredLength }

/-! ### The gather passes -/

/-- `_each_part_replica`: replica by replica, every partition of its row. -/
def eachPartReplica (rows : List (List Nat)) : List (Nat × Nat) :=
  rows.zipIdx.flatMap fun (part2dev, replica) => (List.range part2dev.length).map (·, replica)

/-- `_gather_parts_from_failed_devices`, for the ids of the removed devices that hold parts:
every slot on one of them is gathered. -/
def gatherPartsFromFailedDevices (s : Rebalance) (devIds : List Nat) : Rebalance :=
  (eachPartReplica s.replica2part2dev).foldl
    (fun s (part, replica) =>
      if s.slot replica part ∈ devIds then s.gather part replica .devRemoved else s) s

/-- The inner loop of `_gather_parts_for_dispersion` at one partition: once a replica has been
gathered the partition cannot move, and another is gathered only when its device holds another
replica of the partition. -/
def disperse (minPartHours part : Nat) : List Nat → Rebalance → Rebalance
  | [], s => s
  | replica :: replicas, s =>
    let shared := decide (1 < s.devCount part (s.slot replica part))
    if !s.canPartMove minPartHours part && !shared then disperse minPartHours part replicas s
    else disperse minPartHours part replicas (s.gather part replica (.dispersion shared))

/-- `_gather_parts_for_dispersion`: every partition that can move gives up its undispersed
replicas. -/
def gatherPartsForDispersion (s : Rebalance) (c : Choices) (minPartHours parts : Nat) :
    Rebalance :=
  (List.range parts).foldl
    (fun s part =>
      if s.canPartMove minPartHours part then disperse minPartHours part (c.undispersed s part) s
      else s) s

/-- `part = (start + offset) % self.parts` for `offset in range(self.parts)`. -/
def gatherOrder (parts start : Nat) : List Nat :=
  (List.range parts).map fun offset => (start + offset) % parts

/-- The loop of both balance passes: each partition that can move, in turn, gives up the
replica `shed` picks, if any. -/
def shedOnePerPart (s : Rebalance) (minPartHours : Nat) (shed : Rebalance → Nat → Option Nat)
    (cause : GatherCause) (order : List Nat) : Rebalance :=
  order.foldl
    (fun s part =>
      if s.canPartMove minPartHours part then
        match shed s part with
        | some replica => s.gather part replica cause
        | none => s
      else s) s

/-- `_gather_parts_for_balance_can_disperse`. -/
def gatherPartsForBalanceCanDisperse (s : Rebalance) (c : Choices) (minPartHours parts start : Nat) :
    Rebalance :=
  s.shedOnePerPart minPartHours c.shedDispersible .weightDisperse (gatherOrder parts start)

/-- `_gather_parts_for_balance_forced`. -/
def gatherPartsForBalanceForced (s : Rebalance) (c : Choices) (minPartHours parts start : Nat) :
    Rebalance :=
  s.shedOnePerPart minPartHours c.shedOverweight .weightForced (gatherOrder parts start)

/-- `_gather_parts_for_balance`: both passes from the same start, the first only in the first
round. -/
def gatherPartsForBalance (s : Rebalance) (c : Choices) (minPartHours parts : Nat)
    (disperseFirst : Bool) : Rebalance :=
  let start := c.gatherStart s
  let s := if disperseFirst then s.gatherPartsForBalanceCanDisperse c minPartHours parts start else s
  s.gatherPartsForBalanceForced c minPartHours parts start

/-- `_reassign_parts`: each gathered partition is marked as just moved, and each of its slots is
put on the device chosen for it. -/
def reassignParts (s : Rebalance) (c : Choices) (reassignParts : List (Nat × List Nat)) :
    Rebalance :=
  reassignParts.foldl
    (fun s (part, replaceReplicas) =>
      replaceReplicas.foldl (fun s replica => s.setSlot replica part (c.place s part replica))
        { s with lastPartMoves := s.lastPartMoves.set part 0 }) s

end Rebalance

/-- The loop of `rebalance`: `for gather_count in range(MAX_BALANCE_GATHER_COUNT)`, gather for
balance, stop if nothing was gathered, reassign what was, and stop once no device wants fewer
parts. -/
def balanceLoop (c : Choices) (minPartHours parts : Nat) : Nat → Nat → Rebalance → Rebalance
  | 0, _, s => s
  | fuel + 1, gatherCount, s =>
    let s := s.gatherPartsForBalance c minPartHours parts (gatherCount == 0)
    if s.assignParts.isEmpty then s
    else
      let assignPartsList := c.shuffle s s.assignParts
      let s := { s with assignParts := [] }.reassignParts c assignPartsList
      if c.finished s then s else balanceLoop c minPartHours parts fuel (gatherCount + 1) s

/-- `_update_last_part_moves` on `_last_part_moves`: every partition ages by the whole hours
elapsed, up to `0xff`; nothing changes when no hour has passed. -/
def updateLastPartMoves (parts : Nat) (elapsedHours : Int) (lastPartMoves : List Nat) :
    List Nat :=
  if elapsedHours ≤ 0 then lastPartMoves
  else lastPartMoves.mapIdx fun part moves =>
    if part < parts then min (moves + elapsedHours.toNat) 0xff else moves

namespace RingBuilder

/-- The builder when `rebalance` has run `_update_last_part_moves`: its rows, the aged
`_last_part_moves`, and a cleared `_part_moved_bitmap` of `max(2 ** (part_power - 3), 1)`
bytes. -/
def rebalanceStart (b : RingBuilder) (elapsedHours : Int) : Rebalance :=
  ⟨b.replica2part2dev.getD [], updateLastPartMoves b.parts elapsedHours b.lastPartMoves,
    Bitmap.zeros (max (2 ^ (b.partPower - 3)) 1), [], []⟩

/-- What `RingBuilder.rebalance` does to the assignment, with `min_part_hours`
`minPartHours`, the hours elapsed since the last rebalance, the row lengths for the replica
count, and the removed devices that hold parts. -/
def rebalanceParts (b : RingBuilder) (c : Choices) (minPartHours : Nat) (elapsedHours : Int)
    (desiredLengths removedDevIds : List Nat) : Rebalance :=
  let s := (b.rebalanceStart elapsedHours).adjustReplica2part2devSize desiredLengths
  let s := s.gatherPartsFromFailedDevices removedDevIds
  let s := s.gatherPartsForDispersion c minPartHours b.parts
  balanceLoop c minPartHours b.parts maxBalanceGatherCount 0 s

end RingBuilder

end Ring

end Swift
