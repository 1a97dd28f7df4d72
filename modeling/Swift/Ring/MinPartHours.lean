import Swift.Ring.Rebalance
import Swift.Data.ListUpdate

/-!
# `rebalance` honours `min_part_hours`

Every pass that takes a slot off a device for dispersion or balance first asks
`_can_part_move`, and every gather sets the partition's bit in `_part_moved_bitmap`, which
nothing clears before the next rebalance. So a partition gives up at most one slot to those
passes in a whole rebalance, whatever the passes choose and however many rounds the loop runs.
The dispersion pass may take another slot only from a device that holds two replicas of the
partition; slots of removed devices and slots a higher replica count adds are taken whatever
`min_part_hours` says. A partition moved more recently than `min_part_hours` gives up only the
last two kinds, and keeps every other slot on its device.

## The invariant

`Honours` holds from the end of `_adjust_replica2part2dev_size` to the end of the loop. It is
stated against the aged `_last_part_moves` and the rows as they were before the rebalance; each
field is kept by one gather (`Honours.gather`), by a placement (`Honours.setSlot`), and by the
bookkeeping of `_reassign_parts`, and from these by every pass.

## Main results

* `RingBuilder.rebalanceParts_honours_minPartHours`.
-/

namespace Swift

namespace Ring

open ListUpdate

/-! ### What each update changes -/

/-- What `assign_parts[part].append(replica)` holds: what it held, and the new slot. -/
theorem mem_appendAssign {d : List (Nat × List Nat)} {p r : Nat} {q : Nat × List Nat}
    (hq : q ∈ appendAssign d p r) {r' : Nat} (hr' : r' ∈ q.2) :
    (∃ q' ∈ d, q'.1 = q.1 ∧ r' ∈ q'.2) ∨ (q.1 = p ∧ r' = r) := by
  induction d with
  | nil =>
    rw [appendAssign, List.mem_singleton] at hq
    subst hq
    exact .inr ⟨rfl, List.mem_singleton.mp hr'⟩
  | cons e d ih =>
    obtain ⟨p', replicas⟩ := e
    rw [appendAssign] at hq
    split at hq
    next hp' =>
      rcases List.mem_cons.mp hq with rfl | hq
      · rcases List.mem_append.mp hr' with hr' | hr'
        · exact .inl ⟨(p', replicas), List.mem_cons_self, rfl, hr'⟩
        · exact .inr ⟨hp', List.mem_singleton.mp hr'⟩
      · exact .inl ⟨q, List.mem_cons_of_mem _ hq, rfl, hr'⟩
    next =>
      rcases List.mem_cons.mp hq with rfl | hq
      · exact .inl ⟨(p', replicas), List.mem_cons_self, rfl, hr'⟩
      · rcases ih hq with ⟨q', hq', h⟩ | h
        · exact .inl ⟨q', List.mem_cons_of_mem _ hq', h⟩
        · exact .inr h

namespace Rebalance

variable (s : Rebalance)

@[simp] theorem gather_gathered (p r : Nat) (c : GatherCause) :
    (s.gather p r c).gathered = s.gathered ++ [⟨p, r, c⟩] := rfl

@[simp] theorem gather_assignParts (p r : Nat) (c : GatherCause) :
    (s.gather p r c).assignParts = appendAssign s.assignParts p r := rfl

@[simp] theorem gather_lastPartMoves (p r : Nat) (c : GatherCause) :
    (s.gather p r c).lastPartMoves = s.lastPartMoves.set p 0 := rfl

@[simp] theorem gather_partMovedBitmap (p r : Nat) (c : GatherCause) :
    (s.gather p r c).partMovedBitmap = Bitmap.set s.partMovedBitmap p := rfl

@[simp] theorem setSlot_gathered (r p d : Nat) : (s.setSlot r p d).gathered = s.gathered := rfl

@[simp] theorem setSlot_assignParts (r p d : Nat) :
    (s.setSlot r p d).assignParts = s.assignParts := rfl

@[simp] theorem setSlot_lastPartMoves (r p d : Nat) :
    (s.setSlot r p d).lastPartMoves = s.lastPartMoves := rfl

@[simp] theorem setSlot_partMovedBitmap (r p d : Nat) :
    (s.setSlot r p d).partMovedBitmap = s.partMovedBitmap := rfl

@[simp] theorem newSlot_gathered (r p : Nat) :
    (s.newSlot r p).gathered = s.gathered ++ [⟨p, r, .replicaCount⟩] := rfl

@[simp] theorem newSlot_assignParts (r p : Nat) :
    (s.newSlot r p).assignParts = appendAssign s.assignParts p r := rfl

@[simp] theorem newSlot_replica2part2dev (r p : Nat) :
    (s.newSlot r p).replica2part2dev = s.replica2part2dev := rfl

@[simp] theorem newSlot_lastPartMoves (r p : Nat) :
    (s.newSlot r p).lastPartMoves = s.lastPartMoves := rfl

@[simp] theorem newSlot_partMovedBitmap (r p : Nat) :
    (s.newSlot r p).partMovedBitmap = s.partMovedBitmap := rfl

/-- Writing one slot leaves every other. -/
theorem slot_setSlot_of_ne {r p r' p' d : Nat} (h : ¬(r' = r ∧ p' = p)) :
    (s.setSlot r p d).slot r' p' = s.slot r' p' := by
  unfold slot setSlot
  dsimp only
  by_cases hr : r = r'
  · -- the same row: another partition of it
    subst hr
    have hp : p ≠ p' := fun hp => h ⟨rfl, hp.symm⟩
    rw [getD_modify_self _ _ _ rfl, getD_set_of_ne _ hp]
  · rw [getD_modify_of_ne _ _ hr]

theorem slot_gather_of_ne {p r p' r' : Nat} {c : GatherCause} (h : ¬(r' = r ∧ p' = p)) :
    (s.gather p r c).slot r' p' = s.slot r' p' :=
  (s.addAssign p r c).slot_setSlot_of_ne h

theorem unforced_gather (p r : Nat) (c : GatherCause) (q : Nat) :
    (s.gather p r c).unforced q =
      s.unforced q ++ if (p == q && !c.forced) then [⟨p, r, c⟩] else [] := by
  rw [unforced, gather_gathered, List.filter_append, List.filter_singleton, Bool.cond_eq_ite]
  rfl

theorem unforced_newSlot (r p q : Nat) : (s.newSlot r p).unforced q = s.unforced q := by
  simp [unforced, GatherCause.forced, GatherCause.byForce]

theorem gatheredAt_addAssign {p r p' r' : Nat} {c : GatherCause} :
    (s.addAssign p r c).GatheredAt p' r' ↔ s.GatheredAt p' r' ∨ (p' = p ∧ r' = r) := by
  simp only [GatheredAt, addAssign, List.mem_append, List.mem_singleton]
  constructor
  · rintro ⟨g, hg | rfl, hp, hr⟩
    · exact .inl ⟨g, hg, hp, hr⟩
    · exact .inr ⟨hp.symm, hr.symm⟩
  · rintro (⟨g, hg, hp, hr⟩ | ⟨rfl, rfl⟩)
    · exact ⟨g, .inl hg, hp, hr⟩
    · exact ⟨_, .inr rfl, rfl, rfl⟩

theorem gatheredAt_gather {p r p' r' : Nat} {c : GatherCause} :
    (s.gather p r c).GatheredAt p' r' ↔ s.GatheredAt p' r' ∨ (p' = p ∧ r' = r) :=
  s.gatheredAt_addAssign

/-- `assign_parts` keeps holding gathered slots when a slot goes into both. -/
theorem pending_addAssign (hpending : ∀ q ∈ s.assignParts, ∀ r ∈ q.2, s.GatheredAt q.1 r)
    (p r : Nat) (c : GatherCause) :
    ∀ q ∈ (s.addAssign p r c).assignParts, ∀ r' ∈ q.2, (s.addAssign p r c).GatheredAt q.1 r' := by
  intro q hq r' hr'
  rcases mem_appendAssign hq hr' with ⟨q', hq', hfst, hr''⟩ | ⟨hfst, rfl⟩
  · exact (s.gatheredAt_addAssign).mpr (.inl (hfst ▸ hpending q' hq' r' hr''))
  · exact (s.gatheredAt_addAssign).mpr (.inr ⟨hfst, rfl⟩)

/-- The first gather at each slot from a removed device was of a slot on one, when the slot
that goes in is on one if it is the first at its place. -/
theorem firstRemoved_addAssign {s₀ : Rebalance} {removedDevIds : List Nat}
    (hfirst : ∀ p r g, s.gathered.find? (fun g => g.part == p && g.replica == r) = some g →
      g.cause = .devRemoved → s₀.slot r p ∈ removedDevIds)
    {p r : Nat} {c : GatherCause}
    (hnew : ¬s.GatheredAt p r → c = .devRemoved → s₀.slot r p ∈ removedDevIds) :
    ∀ p' r' g, (s.addAssign p r c).gathered.find? (fun g => g.part == p' && g.replica == r') =
      some g → g.cause = .devRemoved → s₀.slot r' p' ∈ removedDevIds := by
  intro p' r' g hfind hc
  rw [addAssign, List.find?_append] at hfind
  cases hold : s.gathered.find? (fun g => g.part == p' && g.replica == r') with
  | some g' =>
    rw [hold, Option.some_or] at hfind
    exact hfirst p' r' g (hold.trans hfind) hc
  | none =>
    -- the new slot is the first gathered at its place
    rw [hold, Option.none_or, List.find?_singleton] at hfind
    split at hfind
    next hmatch =>
      cases hfind
      simp only [Bool.and_eq_true, beq_iff_eq] at hmatch
      rw [← hmatch.1, ← hmatch.2] at hold ⊢
      refine hnew ?_ hc
      rintro ⟨g', hg', hp, hr⟩
      have := List.find?_eq_none.mp hold g' hg'
      simp [hp, hr] at this
    next => cases hfind

/-- A partition that can move was moved more recently than the limit at no point before. -/
theorem le_of_canPartMove {minPartHours p : Nat} (h : s.canPartMove minPartHours p = true) :
    minPartHours ≤ s.lastPartMoves.getD p 0 := by
  simp only [canPartMove, Bool.and_eq_true, decide_eq_true_eq] at h
  exact h.1

theorem hasPartMoved_of_canPartMove {minPartHours p : Nat}
    (h : s.canPartMove minPartHours p = true) : s.hasPartMoved p = false := by
  simp only [canPartMove, Bool.and_eq_true, Bool.not_eq_true'] at h
  exact h.2

end Rebalance

/-! ### The invariant -/

open Rebalance

section Honours

variable (minPartHours parts : Nat) (lastPartMoves₀ removedDevIds : List Nat)
  (rows₀ : List (List Nat)) (s₀ : Rebalance)

/-- What `rebalance` keeps from the end of `_adjust_replica2part2dev_size` on, against the aged
`_last_part_moves` `lastPartMoves₀`, the removed devices, the rows `rows₀` before the rebalance,
and the builder `s₀` after the adjustment. -/
structure Honours (s : Rebalance) : Prop where
  /-- the bitmap has a bit for every partition -/
  bitmap_length : parts ≤ 8 * s.partMovedBitmap.length
  /-- `_last_part_moves` only goes down -/
  lastPartMoves_le : ∀ p, s.lastPartMoves.getD p 0 ≤ lastPartMoves₀.getD p 0
  /-- at most one gather of a partition is limited by `min_part_hours` -/
  unforced_length : ∀ p < parts, (s.unforced p).length ≤ 1
  /-- and after it the partition is marked as moved -/
  moved_of_unforced : ∀ p < parts, s.unforced p ≠ [] → s.hasPartMoved p = true
  /-- a partition moved too recently is gathered only by force -/
  byForce_of_recent : ∀ g ∈ s.gathered, lastPartMoves₀.getD g.part 0 < minPartHours →
    g.cause.byForce = true
  /-- `assign_parts` holds gathered slots -/
  pending : ∀ q ∈ s.assignParts, ∀ r ∈ q.2, s.GatheredAt q.1 r
  /-- a slot never gathered is as it was -/
  frame : ∀ r p, ¬s.GatheredAt p r → s.slot r p = s₀.slot r p
  /-- the slots the replica count adds are past the end of the old rows -/
  newSlots : ∀ g ∈ s.gathered, g.cause = .replicaCount → (rows₀.getD g.replica []).length ≤ g.part
  /-- a slot first gathered from a removed device was on a removed device -/
  firstRemoved : ∀ p r g, s.gathered.find? (fun g => g.part == p && g.replica == r) = some g →
    g.cause = .devRemoved → s₀.slot r p ∈ removedDevIds

variable {minPartHours parts lastPartMoves₀ removedDevIds rows₀ s₀} {s : Rebalance}

theorem Honours.le_of_canPartMove
    (h : Honours minPartHours parts lastPartMoves₀ removedDevIds rows₀ s₀ s) {p : Nat}
    (hcan : s.canPartMove minPartHours p = true) : minPartHours ≤ lastPartMoves₀.getD p 0 :=
  (s.le_of_canPartMove hcan).trans (h.lastPartMoves_le p)

/-- One gather keeps the invariant when an unforced one is at a partition that can move, one
at a recently moved partition is by force, and one from a removed device is of a slot on one. -/
theorem Honours.gather (h : Honours minPartHours parts lastPartMoves₀ removedDevIds rows₀ s₀ s)
    {p r : Nat} {c : GatherCause}
    (hfree : c.forced = false → p < parts ∧ s.canPartMove minPartHours p = true)
    (hrecent : lastPartMoves₀.getD p 0 < minPartHours → c.byForce = true)
    (hnew : c ≠ .replicaCount) (hrem : c = .devRemoved → s.slot r p ∈ removedDevIds) :
    Honours minPartHours parts lastPartMoves₀ removedDevIds rows₀ s₀ (s.gather p r c) where
  bitmap_length := by
    rw [gather_partMovedBitmap, Bitmap.length_set]
    exact h.bitmap_length
  lastPartMoves_le q := by
    rw [gather_lastPartMoves]
    exact (getD_set_zero_le _ _ _).trans (h.lastPartMoves_le q)
  unforced_length q hq := by
    rw [unforced_gather]
    split
    next hcond =>
      -- an unforced gather at `q`: the partition could move, so none was gathered before
      simp only [Bool.and_eq_true, beq_iff_eq, Bool.not_eq_true'] at hcond
      obtain ⟨rfl, hc⟩ := hcond
      have hmoved := s.hasPartMoved_of_canPartMove (hfree hc).2
      have hnil : s.unforced p = [] := by
        by_contra hne
        rw [h.moved_of_unforced p hq hne] at hmoved
        cases hmoved
      rw [hnil]
      exact le_rfl
    next =>
      rw [List.append_nil]
      exact h.unforced_length q hq
  moved_of_unforced q hq hne := by
    rw [hasPartMoved, gather_partMovedBitmap]
    by_cases hold : s.unforced q = []
    · -- the only unforced gather at `q` is this one, whose bit is now set
      rw [unforced_gather, hold, List.nil_append] at hne
      split at hne
      next hcond =>
        simp only [Bool.and_eq_true, beq_iff_eq] at hcond
        obtain ⟨rfl, -⟩ := hcond
        have hbyte : p / 8 < s.partMovedBitmap.length := by
          have := h.bitmap_length
          omega
        rw [Bitmap.test_set hbyte, decide_eq_true rfl, Bool.true_or]
      next => exact absurd rfl hne
    · exact Bitmap.test_set_of_test (h.moved_of_unforced q hq hold) p
  byForce_of_recent g hg hrec := by
    rw [gather_gathered, List.mem_append, List.mem_singleton] at hg
    rcases hg with hg | rfl
    · exact h.byForce_of_recent g hg hrec
    · exact hrecent hrec
  pending := s.pending_addAssign h.pending p r c
  frame r' p' hng := by
    have hne : ¬(r' = r ∧ p' = p) := fun ⟨hr, hp⟩ =>
      hng ((s.gatheredAt_gather).mpr (.inr ⟨hp, hr⟩))
    rw [s.slot_gather_of_ne hne]
    exact h.frame r' p' fun hg => hng ((s.gatheredAt_gather).mpr (.inl hg))
  newSlots g hg hc := by
    rw [gather_gathered, List.mem_append, List.mem_singleton] at hg
    rcases hg with hg | rfl
    · exact h.newSlots g hg hc
    · exact absurd hc hnew
  firstRemoved := s.firstRemoved_addAssign h.firstRemoved fun hng hc => by
    -- the slot was never gathered, so it is as it was
    rw [← h.frame r p hng]
    exact hrem hc

/-- Putting a gathered slot on a device keeps the invariant. -/
theorem Honours.setSlot (h : Honours minPartHours parts lastPartMoves₀ removedDevIds rows₀ s₀ s)
    {r p : Nat} (hg : s.GatheredAt p r) (d : Nat) :
    Honours minPartHours parts lastPartMoves₀ removedDevIds rows₀ s₀ (s.setSlot r p d) where
  bitmap_length := h.bitmap_length
  lastPartMoves_le := h.lastPartMoves_le
  unforced_length := h.unforced_length
  moved_of_unforced := h.moved_of_unforced
  byForce_of_recent := h.byForce_of_recent
  pending := h.pending
  frame r' p' hng := by
    have hne : ¬(r' = r ∧ p' = p) := fun ⟨hr, hp⟩ => hng (by subst hr hp; exact hg)
    rw [s.slot_setSlot_of_ne hne]
    exact h.frame r' p' hng
  newSlots := h.newSlots
  firstRemoved := h.firstRemoved

/-- `_last_part_moves[part] = 0` keeps the invariant. -/
theorem Honours.clearLastPartMove
    (h : Honours minPartHours parts lastPartMoves₀ removedDevIds rows₀ s₀ s) (p : Nat) :
    Honours minPartHours parts lastPartMoves₀ removedDevIds rows₀ s₀
      { s with lastPartMoves := s.lastPartMoves.set p 0 } where
  bitmap_length := h.bitmap_length
  lastPartMoves_le q := (getD_set_zero_le _ _ _).trans (h.lastPartMoves_le q)
  unforced_length := h.unforced_length
  moved_of_unforced := h.moved_of_unforced
  byForce_of_recent := h.byForce_of_recent
  pending := h.pending
  frame := h.frame
  newSlots := h.newSlots
  firstRemoved := h.firstRemoved

/-- `assign_parts = defaultdict(list)` keeps the invariant. -/
theorem Honours.clearAssignParts
    (h : Honours minPartHours parts lastPartMoves₀ removedDevIds rows₀ s₀ s) :
    Honours minPartHours parts lastPartMoves₀ removedDevIds rows₀ s₀ { s with assignParts := [] } where
  bitmap_length := h.bitmap_length
  lastPartMoves_le := h.lastPartMoves_le
  unforced_length := h.unforced_length
  moved_of_unforced := h.moved_of_unforced
  byForce_of_recent := h.byForce_of_recent
  pending _ hq := by cases hq
  frame := h.frame
  newSlots := h.newSlots
  firstRemoved := h.firstRemoved

/-- A slot the replica count adds past the end of its old row keeps the invariant. -/
theorem Honours.newSlot (h : Honours minPartHours parts lastPartMoves₀ removedDevIds rows₀ s₀ s)
    {r p : Nat} (hlen : (rows₀.getD r []).length ≤ p) :
    Honours minPartHours parts lastPartMoves₀ removedDevIds rows₀ s₀ (s.newSlot r p) where
  bitmap_length := h.bitmap_length
  lastPartMoves_le := h.lastPartMoves_le
  unforced_length q hq := by
    rw [unforced_newSlot]
    exact h.unforced_length q hq
  moved_of_unforced q hq := by
    rw [unforced_newSlot]
    exact h.moved_of_unforced q hq
  byForce_of_recent g hg hrec := by
    rw [newSlot_gathered, List.mem_append, List.mem_singleton] at hg
    rcases hg with hg | rfl
    · exact h.byForce_of_recent g hg hrec
    · rfl
  pending := s.pending_addAssign h.pending p r .replicaCount
  frame r' p' hng := h.frame r' p' fun hg => hng ((s.gatheredAt_addAssign).mpr (.inl hg))
  newSlots g hg hc := by
    rw [newSlot_gathered, List.mem_append, List.mem_singleton] at hg
    rcases hg with hg | rfl
    · exact h.newSlots g hg hc
    · exact hlen
  firstRemoved := s.firstRemoved_addAssign h.firstRemoved fun _ hc => absurd hc (by decide)

/-- Before the first gather the invariant holds against the state itself. -/
theorem Honours.init (hbitmap : parts ≤ 8 * s.partMovedBitmap.length) (hassign : s.assignParts = [])
    (hgathered : s.gathered = []) (hlast : ∀ p, s.lastPartMoves.getD p 0 ≤ lastPartMoves₀.getD p 0) :
    Honours minPartHours parts lastPartMoves₀ removedDevIds rows₀ s s where
  bitmap_length := hbitmap
  lastPartMoves_le := hlast
  unforced_length p _ := by simp [unforced, hgathered]
  moved_of_unforced p _ hne := absurd (by simp [unforced, hgathered]) hne
  byForce_of_recent g hg := by simp [hgathered] at hg
  pending q hq := by simp [hassign] at hq
  frame _ _ _ := rfl
  newSlots g hg := by simp [hgathered] at hg
  firstRemoved p r g hfind := by simp [hgathered] at hfind

/-! ### The passes keep the invariant -/

theorem Honours.gatherPartsFromFailedDevices
    (h : Honours minPartHours parts lastPartMoves₀ removedDevIds rows₀ s₀ s) :
    Honours minPartHours parts lastPartMoves₀ removedDevIds rows₀ s₀
      (s.gatherPartsFromFailedDevices removedDevIds) := by
  unfold Rebalance.gatherPartsFromFailedDevices
  refine foldl_invariant h fun s' slot _ hs' => ?_
  obtain ⟨part, replica⟩ := slot
  dsimp only
  split
  next hdev =>
    -- a slot of a removed device is gathered by force
    exact hs'.gather (fun hc => by cases hc) (fun _ => rfl) (by decide) (fun _ => hdev)
  next => exact hs'

/-- The dispersion loop at a partition that could move when the pass reached it. -/
theorem Honours.disperse (h : Honours minPartHours parts lastPartMoves₀ removedDevIds rows₀ s₀ s)
    {p : Nat} (hp : p < parts) (hmoves : minPartHours ≤ lastPartMoves₀.getD p 0)
    (replicas : List Nat) :
    Honours minPartHours parts lastPartMoves₀ removedDevIds rows₀ s₀
      (Rebalance.disperse minPartHours p replicas s) := by
  induction replicas generalizing s with
  | nil => exact h
  | cons r replicas ih =>
    rw [Rebalance.disperse]
    split
    next => exact ih h
    next hgo =>
      refine ih (h.gather ?_ (fun hlt => absurd hmoves (not_le.mpr hlt)) (by simp) (by simp))
      -- a replica on a device of its own is gathered only while the partition can move
      intro hshared
      simp only [GatherCause.forced] at hshared
      rw [hshared] at hgo
      simp only [Bool.not_false, Bool.and_true, Bool.not_eq_true', Bool.not_eq_false] at hgo
      exact ⟨hp, hgo⟩

theorem Honours.gatherPartsForDispersion
    (h : Honours minPartHours parts lastPartMoves₀ removedDevIds rows₀ s₀ s) (c : Choices) :
    Honours minPartHours parts lastPartMoves₀ removedDevIds rows₀ s₀
      (s.gatherPartsForDispersion c minPartHours parts) := by
  unfold Rebalance.gatherPartsForDispersion
  refine foldl_invariant h fun s' p hp hs' => ?_
  split
  next hcan => exact hs'.disperse (List.mem_range.mp hp) (hs'.le_of_canPartMove hcan) _
  next => exact hs'

theorem lt_of_mem_gatherOrder {parts start p : Nat} (h : p ∈ Rebalance.gatherOrder parts start) :
    p < parts := by
  obtain ⟨offset, hoff, rfl⟩ := List.mem_map.mp h
  exact Nat.mod_lt _ (Nat.lt_of_le_of_lt (Nat.zero_le _) (List.mem_range.mp hoff))

/-- Both balance passes: one replica of a partition that can move, for a cause that is neither
forced nor by force. -/
theorem Honours.shedOnePerPart
    (h : Honours minPartHours parts lastPartMoves₀ removedDevIds rows₀ s₀ s)
    {shed : Rebalance → Nat → Option Nat} {cause : GatherCause} (hcause : cause.forced = false)
    {order : List Nat} (horder : ∀ p ∈ order, p < parts) :
    Honours minPartHours parts lastPartMoves₀ removedDevIds rows₀ s₀
      (s.shedOnePerPart minPartHours shed cause order) := by
  -- a cause that is not forced is not by force either
  have hforce : cause.byForce = false := by
    cases cause <;> simp_all [GatherCause.forced, GatherCause.byForce]
  unfold Rebalance.shedOnePerPart
  refine foldl_invariant h fun s' p hp hs' => ?_
  split
  next hcan =>
    split
    next replica _ =>
      exact hs'.gather (fun _ => ⟨horder p hp, hcan⟩)
        (fun hlt => absurd (hs'.le_of_canPartMove hcan) (not_le.mpr hlt))
        (fun hc => by simp [hc, GatherCause.byForce] at hforce)
        (fun hc => by simp [hc, GatherCause.byForce] at hforce)
    next => exact hs'
  next => exact hs'

theorem Honours.gatherPartsForBalance
    (h : Honours minPartHours parts lastPartMoves₀ removedDevIds rows₀ s₀ s) (c : Choices)
    (disperseFirst : Bool) :
    Honours minPartHours parts lastPartMoves₀ removedDevIds rows₀ s₀
      (s.gatherPartsForBalance c minPartHours parts disperseFirst) := by
  unfold Rebalance.gatherPartsForBalance Rebalance.gatherPartsForBalanceForced
  have h' : Honours minPartHours parts lastPartMoves₀ removedDevIds rows₀ s₀
      (if disperseFirst then
        s.gatherPartsForBalanceCanDisperse c minPartHours parts (c.gatherStart s) else s) := by
    split
    next => exact h.shedOnePerPart rfl fun _ => lt_of_mem_gatherOrder
    next => exact h
  exact h'.shedOnePerPart rfl fun _ => lt_of_mem_gatherOrder

/-- The inner loop of `_reassign_parts`: each gathered slot of a partition put on a device. -/
theorem Honours.placeReplicas
    (h : Honours minPartHours parts lastPartMoves₀ removedDevIds rows₀ s₀ s) (c : Choices)
    {part : Nat} {replicas : List Nat} (hg : ∀ r ∈ replicas, s.GatheredAt part r) :
    Honours minPartHours parts lastPartMoves₀ removedDevIds rows₀ s₀
        (replicas.foldl (fun s replica => s.setSlot replica part (c.place s part replica)) s) ∧
      (replicas.foldl (fun s replica => s.setSlot replica part (c.place s part replica)) s).gathered =
        s.gathered := by
  induction replicas generalizing s with
  | nil => exact ⟨h, rfl⟩
  | cons r replicas ih =>
    rw [List.foldl_cons]
    exact ih (h.setSlot (hg r List.mem_cons_self) _) fun r' hr' => hg r' (List.mem_cons_of_mem _ hr')

/-- `_reassign_parts` over gathered slots. -/
theorem Honours.reassignParts
    (h : Honours minPartHours parts lastPartMoves₀ removedDevIds rows₀ s₀ s) (c : Choices)
    {items : List (Nat × List Nat)} (hitems : ∀ q ∈ items, ∀ r ∈ q.2, s.GatheredAt q.1 r) :
    Honours minPartHours parts lastPartMoves₀ removedDevIds rows₀ s₀ (s.reassignParts c items) := by
  unfold Rebalance.reassignParts
  -- placements leave `gathered` as it is, so the items stay gathered slots
  refine (foldl_invariant (P := fun s' => Honours minPartHours parts lastPartMoves₀ removedDevIds
      rows₀ s₀ s' ∧ s'.gathered = s.gathered) ⟨h, rfl⟩ fun s' item hitem hs' => ?_).1
  obtain ⟨part, replicas⟩ := item
  have hg : ∀ r ∈ replicas, s'.GatheredAt part r := fun r hr => by
    obtain ⟨g, hg, hgp, hgr⟩ := hitems _ hitem r hr
    exact ⟨g, hs'.2 ▸ hg, hgp, hgr⟩
  obtain ⟨h', hgathered⟩ := (hs'.1.clearLastPartMove part).placeReplicas c hg
  exact ⟨h', hgathered.trans hs'.2⟩

theorem Honours.balanceLoop (c : Choices) (fuel gatherCount : Nat)
    (h : Honours minPartHours parts lastPartMoves₀ removedDevIds rows₀ s₀ s) :
    Honours minPartHours parts lastPartMoves₀ removedDevIds rows₀ s₀
      (balanceLoop c minPartHours parts fuel gatherCount s) := by
  induction fuel generalizing gatherCount s with
  | zero => exact h
  | succ fuel ih =>
    rw [Ring.balanceLoop]
    have h₁ := h.gatherPartsForBalance c (gatherCount == 0)
    generalize s.gatherPartsForBalance c minPartHours parts (gatherCount == 0) = s₁ at h₁ ⊢
    dsimp only
    split
    next => exact h₁
    next =>
      -- the shuffled list holds what `assign_parts` held: gathered slots
      have hitems : ∀ q ∈ c.shuffle s₁ s₁.assignParts, ∀ r ∈ q.2, s₁.GatheredAt q.1 r :=
        fun q hq => h₁.pending q ((c.shuffle_perm _ _).subset hq)
      have h₂ := h₁.clearAssignParts.reassignParts c hitems
      split
      next => exact h₂
      next => exact ih _ h₂

/-! ### From the adjustment on -/

/-- The slots the adjustment adds lie past the end of their old rows. -/
theorem le_of_mem_addedSlots {rows : List (List Nat)} {desiredLengths : List Nat} {r p : Nat}
    (h : (r, p) ∈ addedSlots rows desiredLengths) : (rows.getD r []).length ≤ p := by
  obtain ⟨⟨desiredLength, replica⟩, -, hmem⟩ := List.mem_flatMap.mp h
  obtain ⟨part, hpart, hslot⟩ := List.mem_map.mp hmem
  obtain ⟨rfl, rfl⟩ := Prod.mk.inj hslot
  exact (List.mem_range'_1.mp hpart).1

/-- `_adjust_replica2part2dev_size` sets up the invariant against the adjusted rows. -/
theorem honours_adjustReplica2part2devSize (hbitmap : parts ≤ 8 * s.partMovedBitmap.length)
    (hassign : s.assignParts = []) (hgathered : s.gathered = []) (desiredLengths : List Nat) :
    Honours minPartHours parts s.lastPartMoves removedDevIds s.replica2part2dev
      { s with replica2part2dev := desiredLengths.zipIdx.map fun (desiredLength, replica) =>
          adjustedRow s.replica2part2dev replica desiredLength }
      (s.adjustReplica2part2devSize desiredLengths) := by
  unfold adjustReplica2part2devSize
  refine foldl_invariant ?_ fun s' slot hslot hs' => ?_
  · exact Honours.init hbitmap hassign hgathered fun _ => le_rfl
  · obtain ⟨r, p⟩ := slot
    exact hs'.newSlot (le_of_mem_addedSlots hslot)

/-- A slot of a partition moved too recently, on a device that stays, is never gathered. -/
theorem Honours.not_gatheredAt
    (h : Honours minPartHours parts lastPartMoves₀ removedDevIds rows₀ s₀ s) {p r : Nat}
    (hrecent : lastPartMoves₀.getD p 0 < minPartHours) (hold : p < (rows₀.getD r []).length)
    (hkeep : s₀.slot r p ∉ removedDevIds) : ¬s.GatheredAt p r := by
  rintro ⟨g, hg, hgp, hgr⟩
  -- the first gather at the slot was by force
  obtain ⟨g₁, hfind⟩ : ∃ g₁, s.gathered.find? (fun g => g.part == p && g.replica == r) = some g₁ :=
    Option.isSome_iff_exists.mp (List.find?_isSome.mpr ⟨g, hg, by simp [hgp, hgr]⟩)
  have hmatch := List.find?_some hfind
  simp only [Bool.and_eq_true, beq_iff_eq] at hmatch
  have hforce := h.byForce_of_recent g₁ (List.mem_of_find?_eq_some hfind) (hmatch.1 ▸ hrecent)
  cases hc : g₁.cause
  case replicaCount =>
    -- a new slot lies past the old row, which reaches the partition
    have hnew := h.newSlots g₁ (List.mem_of_find?_eq_some hfind) hc
    rw [hmatch.1, hmatch.2] at hnew
    omega
  case devRemoved => exact hkeep (h.firstRemoved p r g₁ hfind hc)
  all_goals simp [hc, GatherCause.byForce] at hforce

end Honours

/-- A slot of an old row inside the new length keeps its device in the adjusted row. -/
theorem getD_adjustedRow {rows : List (List Nat)} {r p d desiredLength : Nat}
    (hd : (rows.getD r [])[p]? = some d) (hp : p < desiredLength) :
    (adjustedRow rows r desiredLength).getD p noneDev = d := by
  have hlt := (List.getElem?_eq_some_iff.mp hd).1
  cases hrow : rows[r]? with
  | none =>
    rw [List.getD_eq_getElem?_getD, hrow] at hlt
    simp at hlt
  | some row =>
    rw [List.getD_eq_getElem?_getD, hrow, Option.getD_some] at hd hlt
    simp only [adjustedRow, hrow]
    split
    · rw [List.getD_eq_getElem?_getD, List.getElem?_append_left hlt, hd, Option.getD_some]
    · rw [List.getD_eq_getElem?_getD, List.getElem?_take, if_pos hp, hd, Option.getD_some]

theorem slot_adjusted {rows : List (List Nat)} {desiredLengths : List Nat} {r p d : Nat}
    (hd : (rows.getD r [])[p]? = some d) (hp : p < desiredLengths.getD r 0) (s : Rebalance) :
    ({ s with replica2part2dev := desiredLengths.zipIdx.map fun (desiredLength, replica) =>
        adjustedRow rows replica desiredLength } : Rebalance).slot r p = d := by
  rw [List.getD_eq_getElem?_getD] at hp
  cases hr : desiredLengths[r]? with
  | none =>
    rw [hr, Option.getD_none] at hp
    omega
  | some desiredLength =>
    rw [hr, Option.getD_some] at hp
    rw [slot]
    dsimp only
    simp only [List.getD_eq_getElem?_getD (l := List.map _ _), List.getElem?_map,
      List.getElem?_zipIdx, hr, Option.map_some, Option.getD_some, Nat.zero_add]
    exact getD_adjustedRow hd hp

namespace RingBuilder

/-- `_part_moved_bitmap` has a bit for every partition. -/
theorem parts_le_rebalanceStart_bitmap {b : RingBuilder} (hparts : b.parts = 2 ^ b.partPower)
    (elapsedHours : Int) : b.parts ≤ 8 * (b.rebalanceStart elapsedHours).partMovedBitmap.length := by
  show b.parts ≤ 8 * (Bitmap.zeros _).length
  rw [Bitmap.zeros, List.length_replicate, hparts]
  rcases Nat.lt_or_ge b.partPower 3 with hlt | hge
  · -- fewer than eight partitions: one byte
    have hpow : 2 ^ b.partPower ≤ 2 ^ 2 := Nat.pow_le_pow_right (by decide) (by omega)
    have hone := le_max_right (2 ^ (b.partPower - 3)) 1
    omega
  · have hpow : 2 ^ b.partPower = 8 * 2 ^ (b.partPower - 3) := by
      rw [show (8 : Nat) = 2 ^ 3 from rfl, ← Nat.pow_add, Nat.add_sub_cancel' hge]
    rw [hpow]
    exact Nat.mul_le_mul_left 8 (le_max_left _ _)

/-- A rebalance gathers at most one slot of each partition other than those of removed
devices, those the replica count adds and those that share a device with another replica of the
partition; and a partition moved more recently than `min_part_hours` loses only slots of the
first two kinds, and every other slot of it keeps its device. -/
theorem rebalanceParts_honours_minPartHours (b : RingBuilder) (c : Choices) (minPartHours : Nat)
    (elapsedHours : Int) (desiredLengths removedDevIds : List Nat)
    (hparts : b.parts = 2 ^ b.partPower) :
    let s := b.rebalanceParts c minPartHours elapsedHours desiredLengths removedDevIds
    ∀ p < b.parts, (s.unforced p).length ≤ 1 ∧
      ((b.rebalanceStart elapsedHours).lastPartMoves.getD p 0 < minPartHours →
        (∀ g ∈ s.gathered, g.part = p → g.cause.byForce = true) ∧
        ∀ r d, ((b.replica2part2dev.getD []).getD r [])[p]? = some d →
          p < desiredLengths.getD r 0 → d ∉ removedDevIds → s.slot r p = d) := by
  intro s p hp
  have hH : Honours minPartHours b.parts (b.rebalanceStart elapsedHours).lastPartMoves removedDevIds
      (b.rebalanceStart elapsedHours).replica2part2dev _ s :=
    (((honours_adjustReplica2part2devSize (parts_le_rebalanceStart_bitmap hparts elapsedHours) rfl rfl
      desiredLengths).gatherPartsFromFailedDevices).gatherPartsForDispersion c).balanceLoop c
      maxBalanceGatherCount 0
  refine ⟨hH.unforced_length p hp, fun hrecent => ⟨fun g hg hgp => ?_, fun r d hd hdes hkeep => ?_⟩⟩
  · exact hH.byForce_of_recent g hg (hgp ▸ hrecent)
  · -- the slot was never gathered, so it is as the adjustment left it
    have hbase := slot_adjusted hd hdes (b.rebalanceStart elapsedHours)
    have hng := hH.not_gatheredAt hrecent (List.getElem?_eq_some_iff.mp hd).1 (hbase ▸ hkeep)
    rw [hH.frame r p hng]
    exact hbase

/-- Each balance pass sheds replica `0` of every partition that can move and puts it on device
`1`; no device ever has its parts. -/
def shedFirstReplica : Choices where
  undispersed _ _ := []
  shedDispersible _ _ := none
  shedOverweight _ _ := some 0
  gatherStart _ := 0
  shuffle _ items := items
  shuffle_perm _ items := List.Perm.refl items
  place _ _ _ := 1
  finished _ := false

theorem rebalanceParts_honours_minPartHours_preparedBuilder :
    preparedBuilder.parts = 2 ^ preparedBuilder.partPower ∧
      let s := preparedBuilder.rebalanceParts shedFirstReplica 1 1 [2] []
      ∀ p < preparedBuilder.parts, (s.unforced p).length ≤ 1 ∧
        ((preparedBuilder.rebalanceStart 1).lastPartMoves.getD p 0 < 1 →
          (∀ g ∈ s.gathered, g.part = p → g.cause.byForce = true) ∧
          ∀ r d, ((preparedBuilder.replica2part2dev.getD []).getD r [])[p]? = some d →
            p < [2].getD r 0 → d ∉ ([] : List Nat) → s.slot r p = d) :=
  ⟨rfl, rebalanceParts_honours_minPartHours preparedBuilder shedFirstReplica 1 1 [2] [] rfl⟩

-- an hour after the last rebalance both partitions move once, and the loop's later rounds
-- find nothing that can move
example : (preparedBuilder.rebalanceParts shedFirstReplica 1 1 [2] []).replica2part2dev = [[1, 1]] := by
  decide

end RingBuilder


end Ring

end Swift
