import Swift.Container.PathGaps

/-!
# `find_compactible_shard_sequences`: which shard ranges may shrink into which

The sharder retires small shard containers by shrinking them into a neighbour above.
`find_compactible_shard_sequences` walks the root's shard ranges in order. A range that is a
shrinking candidate, `ACTIVE` or `SHRINKING` with few rows, starts a sequence. The ranges after it
join while there is no gap before them and their state is `ACTIVE` or `SHRINKING`. A `SHRINKING`
range joins unconditionally. An `ACTIVE` range joins if the rows stay within `expansion_limit`,
and the sequence is then complete when that range is no candidate itself, when it makes more than
`max_shrinking` members, or when the rows reach the limit. The walk resumes after the sequence.
A sequence of two or more that ends in an `ACTIVE` or `SHARDED` acceptor is counted against
`max_expanding`. It is kept if none of its ranges is already `SHRINKING`, or if `include_shrinking`
asks for those too. In one special case the root's own shard range is appended as the acceptor:
the only sequence, taking every range, still incomplete, and spanning the own range.

Every `ACTIVE` range that joins is checked by `sequence_complete`, and the walk stops at the first
complete one. So every member but the last that is not `SHRINKING` is a candidate, and while no
`SHRINKING` range has joined there are at most `max_shrinking + 1` members and the rows stay
within the limit (`Growing`, `Extended`). A `SHRINKING` range is checked for nothing, so with
`include_shrinking` a donor may have any number of rows. The walk moves past each sequence it
builds, so the kept sequences use each shard range at most once.

## Main results

* `extended_extendSequence` — what a sequence is once the `for` loop has extended it
* `compactLoop_spec` — what the `while` loop keeps of every sequence it counts
* `findCompactibleShardSequences_respects_limits` — the limits each sequence found respects, for
  either value of `include_shrinking`
-/

namespace Swift

namespace Sharder

open ShardRangeList

/-- `ShardRange.ACTIVE`. -/
def active : Nat := 40

/-- `ShardRange.SHARDED`. -/
def sharded : Nat := 70

/-- A shard range as `find_compactible_shard_sequences` reads it: its namespace and state, and the
object and tombstone counts its row count is made of. -/
structure CountedShardRange extends ShardRange where
  objectCount : Int
  tombstones : Int

instance : DecidableEq CountedShardRange := fun a b =>
  decidable_of_iff (a.toShardRange = b.toShardRange ∧ a.objectCount = b.objectCount ∧
      a.tombstones = b.tombstones) (by
    constructor
    · rintro ⟨h₁, h₂, h₃⟩
      cases a
      cases b
      cases h₁
      cases h₂
      cases h₃
      rfl
    · rintro rfl
      exact ⟨rfl, rfl, rfl⟩)

/-- `ShardRange.row_count`: objects and tombstones. -/
def CountedShardRange.rowCount (sr : CountedShardRange) : Int :=
  sr.objectCount + max sr.tombstones 0

/-- `ShardRangeList.row_count`. -/
def ShardRangeList.rowCount (sequence : List CountedShardRange) : Int :=
  (sequence.map CountedShardRange.rowCount).sum

/-- `ShardRangeList.includes(other)`: the list's bounds enclose the other's. -/
def ShardRangeList.includes (sequence : List CountedShardRange) (other : Namespace) : Bool :=
  decide (lower (sequence.map (·.toShardRange)) ≤ other.lower ∧
    other.upper ≤ upper (sequence.map (·.toShardRange)))

/-- `is_shrinking_candidate(shard_range, shrink_threshold, expansion_limit, states)`. -/
def isShrinkingCandidate (shardRange : CountedShardRange) (shrinkThreshold expansionLimit : Int)
    (states : List Nat) : Bool :=
  let states := if states = [] then [active] else states
  decide (shardRange.state ∈ states) && decide (shardRange.rowCount < shrinkThreshold) &&
    decide (shardRange.rowCount ≤ expansionLimit)

section Sequence

variable (shrinkThreshold expansionLimit maxShrinking : Int)

/-- `sequence_complete(sequence)`: the last range is no candidate, there are more than
`max_shrinking` ranges, or the rows reach `expansion_limit`. -/
def sequenceComplete (sequence : List CountedShardRange) : Bool :=
  match sequence.getLast? with
  | none => false
  | some last =>
    !isShrinkingCandidate last shrinkThreshold expansionLimit [active, shrinking] ||
      decide (0 < maxShrinking ∧ maxShrinking < sequence.length) ||
      decide (expansionLimit ≤ rowCount sequence)

/-- The `for` loop over `shard_ranges[index + 1:]` that extends a sequence. -/
def extendSequence (sequence : List CountedShardRange) :
    List CountedShardRange → List CountedShardRange
  | [] => sequence
  | shardRange :: rest =>
    if upper (sequence.map (·.toShardRange)) < shardRange.lower then
      -- a gap: the range may start the next sequence
      sequence
    else if shardRange.state ∉ [active, shrinking] then sequence
    else if shardRange.state = shrinking then
      -- already shrinking: added unconditionally
      extendSequence (sequence ++ [shardRange]) rest
    else if rowCount sequence + shardRange.rowCount ≤ expansionLimit then
      if sequenceComplete shrinkThreshold expansionLimit maxShrinking (sequence ++ [shardRange]) then
        sequence ++ [shardRange]
      else extendSequence (sequence ++ [shardRange]) rest
    else sequence

/-- The loop only appends, and what it appends are the next ranges in order. -/
theorem extendSequence_eq_append (sequence rest : List CountedShardRange) :
    ∃ k, extendSequence shrinkThreshold expansionLimit maxShrinking sequence rest =
      sequence ++ rest.take k := by
  induction rest generalizing sequence with
  | nil => exact ⟨0, by simp [extendSequence]⟩
  | cons shardRange rest ih =>
    -- each branch stops with `sequence`, or appends `shardRange` and stops or goes on
    have hgo : ∀ k, sequence ++ [shardRange] ++ rest.take k =
        sequence ++ (shardRange :: rest).take (k + 1) := by
      intro k
      simp
    rw [extendSequence]
    split
    · exact ⟨0, by simp⟩
    split
    · exact ⟨0, by simp⟩
    split
    · obtain ⟨k, hk⟩ := ih (sequence ++ [shardRange])
      exact ⟨k + 1, by rw [hk, hgo]⟩
    split
    · split
      · exact ⟨1, by simp⟩
      · obtain ⟨k, hk⟩ := ih (sequence ++ [shardRange])
        exact ⟨k + 1, by rw [hk, hgo]⟩
    · exact ⟨0, by simp⟩

theorem length_le_extendSequence (sequence rest : List CountedShardRange) :
    sequence.length ≤ (extendSequence shrinkThreshold expansionLimit maxShrinking sequence rest).length := by
  obtain ⟨k, hk⟩ := extendSequence_eq_append shrinkThreshold expansionLimit maxShrinking sequence rest
  rw [hk, List.length_append]
  exact Nat.le_add_right _ _

theorem isShrinkingCandidate_iff {sr : CountedShardRange} :
    isShrinkingCandidate sr shrinkThreshold expansionLimit [active, shrinking] = true ↔
      (sr.state = active ∨ sr.state = shrinking) ∧ sr.rowCount < shrinkThreshold ∧
        sr.rowCount ≤ expansionLimit := by
  simp [isShrinkingCandidate, and_assoc]

theorem sequenceComplete_eq_false_iff {sequence : List CountedShardRange} {last : CountedShardRange}
    (h : sequence.getLast? = some last) :
    sequenceComplete shrinkThreshold expansionLimit maxShrinking sequence = false ↔
      isShrinkingCandidate last shrinkThreshold expansionLimit [active, shrinking] = true ∧
        ¬(0 < maxShrinking ∧ maxShrinking < sequence.length) ∧
        rowCount sequence < expansionLimit := by
  simp [sequenceComplete, h, and_assoc]

theorem rowCount_append_singleton (sequence : List CountedShardRange) (sr : CountedShardRange) :
    rowCount (sequence ++ [sr]) = rowCount sequence + sr.rowCount := by
  simp [rowCount]

theorem upper_map_of_getLast? {sequence : List CountedShardRange} {last : CountedShardRange}
    (h : sequence.getLast? = some last) : upper (sequence.map (·.toShardRange)) = last.upper := by
  simp [upper, List.getLast?_map, h]

/-- A sequence while the `for` loop extends it: its ranges are `ACTIVE` or `SHRINKING`, each begins
no later than the one before it ends, those not `SHRINKING` are candidates, and while none is
`SHRINKING` there are at most `max_shrinking` of them (when that is positive) and the rows are
within the limit. -/
structure Growing (sequence : List CountedShardRange) : Prop where
  ne_nil : sequence ≠ []
  no_gaps : sequence.IsChain fun a b => b.lower ≤ a.upper
  states : ∀ sr ∈ sequence, sr.state = active ∨ sr.state = shrinking
  candidates : ∀ sr ∈ sequence, sr.state ≠ shrinking →
    isShrinkingCandidate sr shrinkThreshold expansionLimit [active, shrinking]
  unshrunk : (∀ sr ∈ sequence, sr.state ≠ shrinking) →
    (0 < maxShrinking → (sequence.length : Int) ≤ maxShrinking) ∧
    rowCount sequence ≤ expansionLimit

/-- A sequence once extended: as while growing, except that its last range need not be a
candidate, and there may be one range more than `max_shrinking`. -/
structure Extended (sequence : List CountedShardRange) : Prop where
  ne_nil : sequence ≠ []
  no_gaps : sequence.IsChain fun a b => b.lower ≤ a.upper
  states : ∀ sr ∈ sequence, sr.state = active ∨ sr.state = shrinking
  candidates : ∀ sr ∈ sequence.dropLast, sr.state ≠ shrinking →
    isShrinkingCandidate sr shrinkThreshold expansionLimit [active, shrinking]
  unshrunk : (∀ sr ∈ sequence, sr.state ≠ shrinking) →
    (0 < maxShrinking → (sequence.length : Int) ≤ maxShrinking + 1) ∧
    rowCount sequence ≤ expansionLimit

variable {shrinkThreshold expansionLimit maxShrinking}

/-- A candidate starts a sequence. -/
theorem growing_singleton {first : CountedShardRange}
    (h : isShrinkingCandidate first shrinkThreshold expansionLimit [active, shrinking]) :
    Growing shrinkThreshold expansionLimit maxShrinking [first] := by
  obtain ⟨hstate, -, hrows⟩ := (isShrinkingCandidate_iff shrinkThreshold expansionLimit).mp h
  refine ⟨List.cons_ne_nil _ _, List.isChain_singleton _, fun sr hsr => ?_, fun sr hsr _ => ?_,
    fun _ => ⟨fun hpos => ?_, by simpa [rowCount] using hrows⟩⟩
  · rw [List.mem_singleton.mp hsr]
    exact hstate
  · rw [List.mem_singleton.mp hsr]
    exact h
  · simp only [List.length_singleton, Nat.cast_one]
    omega

/-- A sequence that stops growing is extended. -/
theorem Growing.extended {sequence : List CountedShardRange}
    (hg : Growing shrinkThreshold expansionLimit maxShrinking sequence) :
    Extended shrinkThreshold expansionLimit maxShrinking sequence := by
  refine ⟨hg.ne_nil, hg.no_gaps, hg.states,
    fun sr hsr => hg.candidates sr (List.dropLast_subset _ hsr), fun hnone => ?_⟩
  obtain ⟨hlen, hrows⟩ := hg.unshrunk hnone
  exact ⟨fun hpos => (hlen hpos).trans (by omega), hrows⟩

/-- A range appended with no gap before it leaves the sequence gap-free. -/
theorem isChain_append_of_le {sequence : List CountedShardRange} (hne : sequence ≠ [])
    (hchain : sequence.IsChain fun a b => b.lower ≤ a.upper) {sr : CountedShardRange}
    (hgap : sr.lower ≤ upper (sequence.map (·.toShardRange))) :
    (sequence ++ [sr]).IsChain fun a b => b.lower ≤ a.upper := by
  obtain ⟨last, hlast⟩ := Option.isSome_iff_exists.mp (List.getLast?_isSome.mpr hne)
  refine List.isChain_append.mpr ⟨hchain, List.isChain_singleton _, fun a ha b hb => ?_⟩
  rw [hlast, Option.mem_some_iff] at ha
  rw [List.head?_singleton, Option.mem_some_iff] at hb
  subst ha hb
  rwa [upper_map_of_getLast? hlast] at hgap

/-- An `ACTIVE` range within the limit joins; the sequence is then extended if complete, and
still growing if not. -/
theorem Growing.append_active {sequence : List CountedShardRange}
    (hg : Growing shrinkThreshold expansionLimit maxShrinking sequence) {sr : CountedShardRange}
    (hgap : sr.lower ≤ upper (sequence.map (·.toShardRange))) (hactive : sr.state = active)
    (hrows : rowCount sequence + sr.rowCount ≤ expansionLimit) :
    (sequenceComplete shrinkThreshold expansionLimit maxShrinking (sequence ++ [sr]) = true →
        Extended shrinkThreshold expansionLimit maxShrinking (sequence ++ [sr])) ∧
      (sequenceComplete shrinkThreshold expansionLimit maxShrinking (sequence ++ [sr]) = false →
        Growing shrinkThreshold expansionLimit maxShrinking (sequence ++ [sr])) := by
  have hchain := isChain_append_of_le hg.ne_nil hg.no_gaps hgap
  have hstates : ∀ x ∈ sequence ++ [sr], x.state = active ∨ x.state = shrinking := by
    intro x hx
    rcases List.mem_append.mp hx with hx | hx
    · exact hg.states x hx
    · rw [List.mem_singleton.mp hx]
      exact .inl hactive
  have hrows' : rowCount (sequence ++ [sr]) ≤ expansionLimit := by
    rw [rowCount_append_singleton]
    exact hrows
  -- with no `SHRINKING` range in the longer sequence, none in the shorter one
  have hnone : (∀ x ∈ sequence ++ [sr], x.state ≠ shrinking) →
      ∀ x ∈ sequence, x.state ≠ shrinking :=
    fun h x hx => h x (List.mem_append_left _ hx)
  refine ⟨fun _ => ⟨by simp, hchain, hstates, by rw [List.dropLast_concat]; exact hg.candidates,
    fun h => ?_⟩, fun hnc => ?_⟩
  · obtain ⟨hlen, -⟩ := hg.unshrunk (hnone h)
    refine ⟨fun hpos => ?_, hrows'⟩
    have := hlen hpos
    simp only [List.length_append, List.length_singleton, Nat.cast_add, Nat.cast_one]
    omega
  · -- an incomplete sequence's last range is a candidate, and there are not too many ranges
    obtain ⟨hcand_sr, hmax, -⟩ :=
      (sequenceComplete_eq_false_iff shrinkThreshold expansionLimit maxShrinking
        List.getLast?_concat).mp hnc
    refine ⟨by simp, hchain, hstates, fun x hx hne => ?_,
      fun _ => ⟨fun hpos => not_lt.mp fun hlt => hmax ⟨hpos, hlt⟩, hrows'⟩⟩
    rcases List.mem_append.mp hx with hx | hx
    · exact hg.candidates x hx hne
    · rw [List.mem_singleton.mp hx]
      exact hcand_sr

/-- A `SHRINKING` range joins; the sequence keeps growing, with nothing promised of its counts
or of its own rows. -/
theorem Growing.append_shrinking {sequence : List CountedShardRange}
    (hg : Growing shrinkThreshold expansionLimit maxShrinking sequence) {sr : CountedShardRange}
    (hgap : sr.lower ≤ upper (sequence.map (·.toShardRange))) (hshrinking : sr.state = shrinking) :
    Growing shrinkThreshold expansionLimit maxShrinking (sequence ++ [sr]) := by
  refine ⟨by simp, isChain_append_of_le hg.ne_nil hg.no_gaps hgap, fun x hx => ?_,
    fun x hx hne => ?_, fun h => ?_⟩
  · rcases List.mem_append.mp hx with hx | hx
    · exact hg.states x hx
    · rw [List.mem_singleton.mp hx]
      exact .inr hshrinking
  · rcases List.mem_append.mp hx with hx | hx
    · exact hg.candidates x hx hne
    · rw [List.mem_singleton.mp hx] at hne
      exact absurd hshrinking hne
  · exact absurd hshrinking (h sr (List.mem_append_right _ (List.mem_singleton_self _)))

/-- Once the `for` loop has run, a growing sequence is extended. -/
theorem extended_extendSequence {sequence : List CountedShardRange}
    (hg : Growing shrinkThreshold expansionLimit maxShrinking sequence)
    (rest : List CountedShardRange) :
    Extended shrinkThreshold expansionLimit maxShrinking
      (extendSequence shrinkThreshold expansionLimit maxShrinking sequence rest) := by
  induction rest generalizing sequence with
  | nil => exact hg.extended
  | cons sr rest ih =>
    rw [extendSequence]
    split
    · exact hg.extended
    next hgap =>
      split
      · exact hg.extended
      next hstate =>
        split
        next hshrinking => exact ih (hg.append_shrinking (not_lt.mp hgap) hshrinking)
        next hshrinking =>
          -- the range is `ACTIVE`
          have hactive : sr.state = active := by
            simp only [List.mem_cons, List.not_mem_nil, or_false, not_or, not_and,
              not_not] at hstate
            by_contra hne
            exact hshrinking (hstate hne)
          split
          next hrows =>
            obtain ⟨hdone, hgoes⟩ := hg.append_active (not_lt.mp hgap) hactive hrows
            split
            next hc => exact hdone hc
            next hc => exact ih (hgoes (Bool.eq_false_iff.mpr hc))
          next => exact hg.extended

end Sequence

/-- The special case of the loop: the only sequence, taking every range, still incomplete and
spanning the root's own shard range, gets the own shard range appended as its acceptor. -/
def acceptSequence (shardRanges : List CountedShardRange) (ownShardRange : CountedShardRange)
    (shrinkThreshold expansionLimit maxShrinking : Int) (index : Nat)
    (sequence : List CountedShardRange) : List CountedShardRange :=
  if index + sequence.length = shardRanges.length ∧ shardRanges.length = sequence.length ∧
      sequenceComplete shrinkThreshold expansionLimit maxShrinking sequence = false ∧
      includes sequence ownShardRange.toNamespace then
    sequence ++ [ownShardRange]
  else sequence

/-- `len(sequence) < 2 or sequence[-1].state not in (ShardRange.ACTIVE, ShardRange.SHARDED)`:
the sequence does not end with a suitable acceptor. -/
def lacksAcceptor (sequence : List CountedShardRange) : Bool :=
  decide (sequence.length < 2) ||
    !(sequence.getLast?.any fun last => decide (last.state ∈ [active, sharded]))

/-- `find_compactible_shard_sequences`'s `while` loop at `index`, with `expanding` sequences
counted and `compactibleSequences` kept. -/
def compactLoop (shardRanges : List CountedShardRange) (ownShardRange : CountedShardRange)
    (shrinkThreshold expansionLimit maxShrinking maxExpanding : Int) (includeShrinking : Bool)
    (index : Nat) (expanding : Int) (compactibleSequences : List (List CountedShardRange)) :
    List (List CountedShardRange) :=
  if h : (maxExpanding < 0 ∨ expanding < maxExpanding) ∧ index < shardRanges.length then
    if !isShrinkingCandidate shardRanges[index] shrinkThreshold expansionLimit
        [active, shrinking] then
      -- this shard range cannot start a sequence
      compactLoop shardRanges ownShardRange shrinkThreshold expansionLimit maxShrinking
        maxExpanding includeShrinking (index + 1) expanding compactibleSequences
    else
      let sequence := extendSequence shrinkThreshold expansionLimit maxShrinking
        [shardRanges[index]] (shardRanges.drop (index + 1))
      have hlen : 1 ≤ (extendSequence shrinkThreshold expansionLimit maxShrinking
          [shardRanges[index]] (shardRanges.drop (index + 1))).length :=
        length_le_extendSequence shrinkThreshold expansionLimit maxShrinking [shardRanges[index]]
          (shardRanges.drop (index + 1))
      let acceptedSequence := acceptSequence shardRanges ownShardRange shrinkThreshold
        expansionLimit maxShrinking index sequence
      if lacksAcceptor acceptedSequence then
        -- no suitable acceptor
        compactLoop shardRanges ownShardRange shrinkThreshold expansionLimit maxShrinking
          maxExpanding includeShrinking (index + sequence.length) expanding compactibleSequences
      else
        compactLoop shardRanges ownShardRange shrinkThreshold expansionLimit maxShrinking
          maxExpanding includeShrinking (index + sequence.length) (expanding + 1)
          (if acceptedSequence.all (·.state != shrinking) || includeShrinking then
            compactibleSequences ++ [acceptedSequence]
          else compactibleSequences)
  else compactibleSequences
termination_by shardRanges.length - index
decreasing_by all_goals omega

/-- `find_compactible_shard_sequences(broker, shrink_threshold, expansion_limit, max_shrinking,
max_expanding, include_shrinking)`, given the broker's shard ranges (`get_shard_ranges()`, in
order) and its own shard range. -/
def findCompactibleShardSequences (shardRanges : List CountedShardRange)
    (ownShardRange : CountedShardRange)
    (shrinkThreshold expansionLimit maxShrinking maxExpanding : Int) (includeShrinking : Bool) :
    List (List CountedShardRange) :=
  compactLoop shardRanges ownShardRange shrinkThreshold expansionLimit maxShrinking maxExpanding
    includeShrinking 0 0 []

/-! ### The `while` loop -/

section Loop

variable (shardRanges : List CountedShardRange) (ownShardRange : CountedShardRange)
  (shrinkThreshold expansionLimit maxShrinking maxExpanding : Int) (includeShrinking : Bool)

/-- What every sequence the loop counts is: two ranges or more, no gaps, every range but the last
`ACTIVE` or `SHRINKING`, with few rows unless already `SHRINKING`, an `ACTIVE` or `SHARDED`
acceptor, and, when no range is `SHRINKING`, at most `max_shrinking` donors and rows within the
limit unless the acceptor is the root's own shard range. -/
structure Counted (sequence : List CountedShardRange) : Prop where
  two_le_length : 2 ≤ sequence.length
  no_gaps : sequence.IsChain fun a b => b.lower ≤ a.upper
  donor_states : ∀ sr ∈ sequence.dropLast, sr.state = active ∨ sr.state = shrinking
  donors : ∀ sr ∈ sequence.dropLast, sr.state ≠ shrinking →
    sr.rowCount < shrinkThreshold ∧ sr.rowCount ≤ expansionLimit
  acceptor : ∃ acceptor, sequence.getLast? = some acceptor ∧
    (acceptor.state = active ∨ acceptor.state = sharded)
  unshrunk : (∀ sr ∈ sequence, sr.state ≠ shrinking) →
    (0 < maxShrinking → (sequence.length : Int) - 1 ≤ maxShrinking) ∧
    (sequence.getLast? = some ownShardRange ∨ rowCount sequence ≤ expansionLimit)

/-- The invariant of the loop at `index`: the sequences kept are counted ones, none `SHRINKING`
unless `include_shrinking`, they use the ranges before `index` at most once each (and the own
shard range once the walk is over), and no more are kept than counted, nor counted than allowed. -/
structure LoopInv (index : Nat) (expanding : Int)
    (compactibleSequences : List (List CountedShardRange)) : Prop where
  counted : ∀ sequence ∈ compactibleSequences,
    Counted ownShardRange shrinkThreshold expansionLimit maxShrinking sequence
  kept : includeShrinking = false →
    ∀ sequence ∈ compactibleSequences, ∀ sr ∈ sequence, sr.state ≠ shrinking
  sublist : compactibleSequences.flatten.Sublist (shardRanges.take index) ∨
    (shardRanges.length ≤ index ∧
      compactibleSequences.flatten.Sublist (shardRanges ++ [ownShardRange]))
  length_le : (compactibleSequences.length : Int) ≤ expanding
  expanding_le : 0 ≤ maxExpanding → expanding ≤ maxExpanding

/-- What the loop returns. -/
structure LoopDone (compactibleSequences : List (List CountedShardRange)) : Prop where
  counted : ∀ sequence ∈ compactibleSequences,
    Counted ownShardRange shrinkThreshold expansionLimit maxShrinking sequence
  kept : includeShrinking = false →
    ∀ sequence ∈ compactibleSequences, ∀ sr ∈ sequence, sr.state ≠ shrinking
  sublist : compactibleSequences.flatten.Sublist (shardRanges ++ [ownShardRange])
  length_le : 0 ≤ maxExpanding → (compactibleSequences.length : Int) ≤ maxExpanding

variable {shardRanges ownShardRange shrinkThreshold expansionLimit maxShrinking maxExpanding
  includeShrinking}

theorem loopInv_init :
    LoopInv shardRanges ownShardRange shrinkThreshold expansionLimit maxShrinking maxExpanding
      includeShrinking 0 0 [] where
  counted _ h := by cases h
  kept _ _ h := by cases h
  sublist := .inl (List.Sublist.slnil.trans (List.nil_sublist _))
  length_le := le_rfl
  expanding_le h := h

theorem lacksAcceptor_eq_false {sequence : List CountedShardRange}
    (h : lacksAcceptor sequence = false) :
    2 ≤ sequence.length ∧ ∃ acceptor, sequence.getLast? = some acceptor ∧
      (acceptor.state = active ∨ acceptor.state = sharded) := by
  simp only [lacksAcceptor, Bool.or_eq_false_iff, decide_eq_false_iff_not, not_lt,
    Bool.not_eq_false', Option.any_eq_true, decide_eq_true_eq, List.mem_cons, List.not_mem_nil,
    or_false] at h
  exact h

/-- Every range of a list whose last range and whose other ranges all have a property has it. -/
theorem forall_mem_of_dropLast {p : CountedShardRange → Prop} {l : List CountedShardRange}
    {last : CountedShardRange} (hlast : l.getLast? = some last) (hinit : ∀ x ∈ l.dropLast, p x)
    (hl : p last) : ∀ x ∈ l, p x := by
  obtain ⟨init, rfl⟩ := List.getLast?_eq_some_iff.mp hlast
  rw [List.dropLast_concat] at hinit
  intro x hx
  rcases List.mem_append.mp hx with hx | hx
  · exact hinit x hx
  · rw [List.mem_singleton.mp hx]
    exact hl

/-- A sequence with an acceptor of its own is counted. -/
theorem Extended.counted {sequence : List CountedShardRange}
    (he : Extended shrinkThreshold expansionLimit maxShrinking sequence)
    (h : lacksAcceptor sequence = false) :
    Counted ownShardRange shrinkThreshold expansionLimit maxShrinking sequence := by
  obtain ⟨hlen, hacc⟩ := lacksAcceptor_eq_false h
  refine ⟨hlen, he.no_gaps, fun sr hsr => he.states sr (List.dropLast_subset _ hsr),
    fun sr hsr hne => ((isShrinkingCandidate_iff shrinkThreshold expansionLimit).mp
      (he.candidates sr hsr hne)).2, hacc, fun hnone => ?_⟩
  obtain ⟨hmax, hrows⟩ := he.unshrunk hnone
  refine ⟨fun hpos => ?_, .inr hrows⟩
  have := hmax hpos
  omega

/-- An incomplete sequence spanning the root's own shard range, with that range appended as its
acceptor, is counted: all its ranges not `SHRINKING` are candidates, and there are at most
`max_shrinking` of them. -/
theorem Extended.counted_own {sequence : List CountedShardRange}
    (he : Extended shrinkThreshold expansionLimit maxShrinking sequence)
    (hnc : sequenceComplete shrinkThreshold expansionLimit maxShrinking sequence = false)
    (hinc : includes sequence ownShardRange.toNamespace = true)
    (h : lacksAcceptor (sequence ++ [ownShardRange]) = false) :
    Counted ownShardRange shrinkThreshold expansionLimit maxShrinking
      (sequence ++ [ownShardRange]) := by
  obtain ⟨hlen, hacc⟩ := lacksAcceptor_eq_false h
  obtain ⟨last, hlast⟩ := Option.isSome_iff_exists.mp (List.getLast?_isSome.mpr he.ne_nil)
  obtain ⟨hcand_last, hmax, -⟩ :=
    (sequenceComplete_eq_false_iff shrinkThreshold expansionLimit maxShrinking hlast).mp hnc
  -- the own shard range lies within the sequence's bounds, so begins before the sequence ends
  have hgap : ownShardRange.lower ≤ upper (sequence.map (·.toShardRange)) :=
    ownShardRange.lower_le_upper.trans (of_decide_eq_true hinc).2
  -- the donors are the whole sequence, whose last range is a candidate as it is incomplete
  have hall := forall_mem_of_dropLast (p := fun sr => sr.state ≠ shrinking →
    isShrinkingCandidate sr shrinkThreshold expansionLimit [active, shrinking]) hlast
    he.candidates fun _ => hcand_last
  refine ⟨hlen, isChain_append_of_le he.ne_nil he.no_gaps hgap, ?_, ?_, hacc, fun _ => ?_⟩
  · rw [List.dropLast_concat]
    exact he.states
  · rw [List.dropLast_concat]
    exact fun sr hsr hne => ((isShrinkingCandidate_iff shrinkThreshold expansionLimit).mp
      (hall sr hsr hne)).2
  · refine ⟨fun hpos => ?_, .inl List.getLast?_concat⟩
    have : (sequence.length : Int) ≤ maxShrinking := not_lt.mp fun hlt => hmax ⟨hpos, hlt⟩
    simp only [List.length_append, List.length_singleton, Nat.cast_add, Nat.cast_one]
    omega

theorem acceptSequence_cases (index : Nat) (sequence : List CountedShardRange) :
    acceptSequence shardRanges ownShardRange shrinkThreshold expansionLimit maxShrinking index
        sequence = sequence ∨
      (index + sequence.length = shardRanges.length ∧
        sequenceComplete shrinkThreshold expansionLimit maxShrinking sequence = false ∧
        includes sequence ownShardRange.toNamespace = true ∧
        acceptSequence shardRanges ownShardRange shrinkThreshold expansionLimit maxShrinking index
          sequence = sequence ++ [ownShardRange]) := by
  unfold acceptSequence
  split
  next h => exact .inr ⟨h.1, h.2.2.1, h.2.2.2, rfl⟩
  next => exact .inl rfl

/-- The sequence from `index` is the run of ranges from `index` on. -/
theorem extendSequence_prefix {index : Nat} (hi : index < shardRanges.length) :
    extendSequence shrinkThreshold expansionLimit maxShrinking [shardRanges[index]]
      (shardRanges.drop (index + 1)) <+: shardRanges.drop index := by
  obtain ⟨k, hk⟩ := extendSequence_eq_append shrinkThreshold expansionLimit maxShrinking
    [shardRanges[index]] (shardRanges.drop (index + 1))
  rw [hk, List.drop_eq_getElem_cons hi, List.singleton_append]
  exact (List.prefix_cons_inj _).mpr (List.take_prefix _ _)

theorem LoopInv.sublist_take {index : Nat} {expanding : Int}
    {compactibleSequences : List (List CountedShardRange)}
    (hinv : LoopInv shardRanges ownShardRange shrinkThreshold expansionLimit maxShrinking
      maxExpanding includeShrinking index expanding compactibleSequences)
    (hi : index < shardRanges.length) :
    compactibleSequences.flatten.Sublist (shardRanges.take index) :=
  hinv.sublist.resolve_right fun h => absurd h.1 (not_le.mpr hi)

/-- Moving past ranges without counting a sequence keeps the invariant. -/
theorem LoopInv.pass {index : Nat} {expanding : Int}
    {compactibleSequences : List (List CountedShardRange)}
    (hinv : LoopInv shardRanges ownShardRange shrinkThreshold expansionLimit maxShrinking
      maxExpanding includeShrinking index expanding compactibleSequences)
    (hi : index < shardRanges.length) (n : Nat) :
    LoopInv shardRanges ownShardRange shrinkThreshold expansionLimit maxShrinking maxExpanding
      includeShrinking (index + n) expanding compactibleSequences :=
  ⟨hinv.counted, hinv.kept,
    .inl ((hinv.sublist_take hi).trans (List.take_sublist_take_left (Nat.le_add_right _ _))),
    hinv.length_le, hinv.expanding_le⟩

/-- Counting a sequence keeps the invariant. -/
theorem LoopInv.count {index : Nat} {expanding : Int}
    {compactibleSequences : List (List CountedShardRange)}
    (hinv : LoopInv shardRanges ownShardRange shrinkThreshold expansionLimit maxShrinking
      maxExpanding includeShrinking index expanding compactibleSequences)
    (h : (maxExpanding < 0 ∨ expanding < maxExpanding) ∧ index < shardRanges.length)
    (hcand : isShrinkingCandidate shardRanges[index] shrinkThreshold expansionLimit
      [active, shrinking] = true)
    (hacc : lacksAcceptor (acceptSequence shardRanges ownShardRange shrinkThreshold expansionLimit
      maxShrinking index (extendSequence shrinkThreshold expansionLimit maxShrinking
        [shardRanges[index]] (shardRanges.drop (index + 1)))) = false) :
    LoopInv shardRanges ownShardRange shrinkThreshold expansionLimit maxShrinking maxExpanding
      includeShrinking
      (index + (extendSequence shrinkThreshold expansionLimit maxShrinking [shardRanges[index]]
        (shardRanges.drop (index + 1))).length) (expanding + 1)
      (let acceptedSequence := acceptSequence shardRanges ownShardRange shrinkThreshold
          expansionLimit maxShrinking index (extendSequence shrinkThreshold expansionLimit
            maxShrinking [shardRanges[index]] (shardRanges.drop (index + 1)))
        if acceptedSequence.all (·.state != shrinking) || includeShrinking then
          compactibleSequences ++ [acceptedSequence]
        else compactibleSequences) := by
  generalize hseq : extendSequence shrinkThreshold expansionLimit maxShrinking [shardRanges[index]]
    (shardRanges.drop (index + 1)) = sequence at hacc ⊢
  have he : Extended shrinkThreshold expansionLimit maxShrinking sequence :=
    hseq ▸ extended_extendSequence (growing_singleton hcand) _
  have hprefix : sequence <+: shardRanges.drop index := hseq ▸ extendSequence_prefix h.2
  -- the ranges up to the end of the sequence, and the sequence is the last of them
  have hslice : shardRanges.take index ++ sequence = shardRanges.take (index + sequence.length) := by
    rw [List.take_add, ← List.prefix_iff_eq_take.mp hprefix]
  have hprev := hinv.sublist_take h.2
  generalize hacc' : acceptSequence shardRanges ownShardRange shrinkThreshold expansionLimit
    maxShrinking index sequence = acceptedSequence at hacc ⊢
  -- what the counted sequence is, and how it sits among the ranges
  have hcounted : Counted ownShardRange shrinkThreshold expansionLimit maxShrinking
      acceptedSequence ∧
      ((compactibleSequences.flatten ++ acceptedSequence).Sublist
          (shardRanges.take (index + sequence.length)) ∨
        (shardRanges.length ≤ index + sequence.length ∧
          (compactibleSequences.flatten ++ acceptedSequence).Sublist
            (shardRanges ++ [ownShardRange]))) := by
    rcases acceptSequence_cases index sequence with heq | ⟨hall, hnc, hinc, heq⟩
    · rw [hacc'] at heq
      subst heq
      exact ⟨he.counted hacc, .inl (hslice ▸ hprev.append (List.Sublist.refl _))⟩
    · rw [hacc'] at heq
      subst heq
      refine ⟨he.counted_own hnc hinc hacc, .inr ⟨hall.ge, ?_⟩⟩
      rw [← List.append_assoc, ← List.take_of_length_le (le_of_eq hall.symm), ← hslice]
      exact (hprev.append (List.Sublist.refl _)).append (List.Sublist.refl _)
  obtain ⟨hc, hsub⟩ := hcounted
  dsimp only
  split
  next hkeep =>
    refine ⟨fun s hs => ?_, fun hfalse s hs => ?_, ?_, ?_, fun hme => ?_⟩
    · rcases List.mem_append.mp hs with hs | hs
      · exact hinv.counted s hs
      · rw [List.mem_singleton.mp hs]
        exact hc
    · rcases List.mem_append.mp hs with hs | hs
      · exact hinv.kept hfalse s hs
      · rw [List.mem_singleton.mp hs]
        rw [hfalse, Bool.or_false, List.all_eq_true] at hkeep
        exact fun sr hsr => by simpa using hkeep sr hsr
    · rw [List.flatten_append, List.flatten_singleton]
      exact hsub
    · have := hinv.length_le
      simp only [List.length_append, List.length_singleton, Nat.cast_add, Nat.cast_one]
      omega
    · have := hinv.expanding_le hme
      omega
  next =>
    refine ⟨hinv.counted, hinv.kept, ?_, by have := hinv.length_le; omega, fun hme => ?_⟩
    · exact .inl (hprev.trans (List.take_sublist_take_left (Nat.le_add_right _ _)))
    · have := hinv.expanding_le hme
      omega

/-- When the loop stops, its invariant is what it returns. -/
theorem LoopInv.done {index : Nat} {expanding : Int}
    {compactibleSequences : List (List CountedShardRange)}
    (hinv : LoopInv shardRanges ownShardRange shrinkThreshold expansionLimit maxShrinking
      maxExpanding includeShrinking index expanding compactibleSequences) :
    LoopDone shardRanges ownShardRange shrinkThreshold expansionLimit maxShrinking maxExpanding
      includeShrinking compactibleSequences := by
  refine ⟨hinv.counted, hinv.kept, ?_, fun hme => hinv.length_le.trans (hinv.expanding_le hme)⟩
  rcases hinv.sublist with h | ⟨-, h⟩
  · exact (h.trans (List.take_sublist _ _)).trans (List.sublist_append_left _ _)
  · exact h

/-- The loop returns what its invariant says, from wherever the invariant holds. -/
theorem compactLoop_spec (index : Nat) (expanding : Int)
    (compactibleSequences : List (List CountedShardRange))
    (hinv : LoopInv shardRanges ownShardRange shrinkThreshold expansionLimit maxShrinking
      maxExpanding includeShrinking index expanding compactibleSequences) :
    LoopDone shardRanges ownShardRange shrinkThreshold expansionLimit maxShrinking maxExpanding
      includeShrinking
      (compactLoop shardRanges ownShardRange shrinkThreshold expansionLimit maxShrinking
        maxExpanding includeShrinking index expanding compactibleSequences) := by
  rw [compactLoop]
  split
  next h =>
    have hlen : 1 ≤ (extendSequence shrinkThreshold expansionLimit maxShrinking
        [shardRanges[index]] (shardRanges.drop (index + 1))).length :=
      length_le_extendSequence shrinkThreshold expansionLimit maxShrinking [shardRanges[index]]
        (shardRanges.drop (index + 1))
    split
    next => exact compactLoop_spec (index + 1) expanding compactibleSequences (hinv.pass h.2 1)
    next hcand =>
      dsimp only
      split
      next => exact compactLoop_spec _ expanding compactibleSequences (hinv.pass h.2 _)
      next hacc =>
        exact compactLoop_spec _ (expanding + 1) _
          (hinv.count h (by simpa using hcand) (by simpa using hacc))
  next => exact hinv.done
termination_by shardRanges.length - index
decreasing_by all_goals omega

end Loop

/-- Every sequence found has an `ACTIVE` or `SHARDED` acceptor after at least one donor and no
gaps; its donors are `ACTIVE` or `SHRINKING`, and those not already `SHRINKING` are below
`shrink_threshold` and within `expansion_limit`. With `include_shrinking` off none of its ranges is
`SHRINKING`, and when none is, there are at most `max_shrinking` donors when that is positive and
the rows are within `expansion_limit` unless the acceptor is the root's own shard range. The
sequences use each shard range at most once, in order, and there are at most `max_expanding` of
them when that is not negative. -/
theorem findCompactibleShardSequences_respects_limits (shardRanges : List CountedShardRange)
    (ownShardRange : CountedShardRange)
    (shrinkThreshold expansionLimit maxShrinking maxExpanding : Int) (includeShrinking : Bool) :
    (∀ sequence ∈ findCompactibleShardSequences shardRanges ownShardRange shrinkThreshold
        expansionLimit maxShrinking maxExpanding includeShrinking,
      2 ≤ sequence.length ∧
      sequence.IsChain (fun a b => b.lower ≤ a.upper) ∧
      (∀ sr ∈ sequence.dropLast, (sr.state = active ∨ sr.state = shrinking) ∧
        (sr.state ≠ shrinking → sr.rowCount < shrinkThreshold ∧ sr.rowCount ≤ expansionLimit)) ∧
      (∃ acceptor, sequence.getLast? = some acceptor ∧
        (acceptor.state = active ∨ acceptor.state = sharded)) ∧
      (includeShrinking = false → ∀ sr ∈ sequence, sr.state ≠ shrinking) ∧
      ((∀ sr ∈ sequence, sr.state ≠ shrinking) →
        (0 < maxShrinking → (sequence.length : Int) - 1 ≤ maxShrinking) ∧
        (sequence.getLast? = some ownShardRange ∨
          ShardRangeList.rowCount sequence ≤ expansionLimit))) ∧
    (findCompactibleShardSequences shardRanges ownShardRange shrinkThreshold expansionLimit
      maxShrinking maxExpanding includeShrinking).flatten.Sublist (shardRanges ++ [ownShardRange]) ∧
    (0 ≤ maxExpanding → ((findCompactibleShardSequences shardRanges ownShardRange
      shrinkThreshold expansionLimit maxShrinking maxExpanding includeShrinking).length : Int) ≤
        maxExpanding) := by
  have hdone : LoopDone shardRanges ownShardRange shrinkThreshold expansionLimit maxShrinking
      maxExpanding includeShrinking (findCompactibleShardSequences shardRanges ownShardRange
        shrinkThreshold expansionLimit maxShrinking maxExpanding includeShrinking) :=
    compactLoop_spec 0 0 [] loopInv_init
  refine ⟨fun sequence hseq => ?_, hdone.sublist, hdone.length_le⟩
  have hc := hdone.counted sequence hseq
  exact ⟨hc.two_le_length, hc.no_gaps, fun sr hsr => ⟨hc.donor_states sr hsr, hc.donors sr hsr⟩,
    hc.acceptor, fun hfalse => hdone.kept hfalse sequence hseq, hc.unshrunk⟩

theorem name_b_ne_empty : "b" ≠ "" := by decide

theorem name_c_ne_empty : "c" ≠ "" := by decide

theorem name_b_le_name_c : Bound.name "b" name_b_ne_empty ≤ Bound.name "c" name_c_ne_empty :=
  Bound.name_le_name.mpr (by decide)

/-- The ranges `(MIN, b]`, `ACTIVE` and empty, `(b, c]`, already `SHRINKING` with 500 rows, and
`(c, MAX]`, `ACTIVE` with 600 rows. -/
def shrinkingDonorRanges : List CountedShardRange :=
  [⟨⟨⟨".shards_a/c-0", .minBound, .name "b" name_b_ne_empty, Bound.minBound_le _⟩, active⟩, 0, 0⟩,
    ⟨⟨⟨".shards_a/c-1", .name "b" name_b_ne_empty, .name "c" name_c_ne_empty, name_b_le_name_c⟩,
      shrinking⟩, 500, 0⟩,
    ⟨⟨⟨".shards_a/c-2", .name "c" name_c_ne_empty, .maxBound, Bound.le_maxBound _⟩, active⟩, 600,
      0⟩]

/-- As `find_shrinking_candidates` calls it (one donor, no limit on acceptors, `include_shrinking`
on), with `shrink_threshold` 10 and `expansion_limit` 2000: the `SHRINKING` range joins the
sequence unconditionally, so the one sequence found has a donor of 500 rows. -/
theorem findCompactibleShardSequences_keeps_large_shrinking_donor :
    findCompactibleShardSequences shrinkingDonorRanges
        ⟨⟨⟨"a/c", .minBound, .maxBound, Bound.minBound_le _⟩, sharded⟩, 0, 0⟩ 10 2000 1 (-1) true =
      [shrinkingDonorRanges] ∧
    ∃ sr ∈ shrinkingDonorRanges.dropLast, sr.state = shrinking ∧ ¬ sr.rowCount < 10 := by
  refine ⟨by decide +kernel, _, List.mem_of_getElem? (i := 1) rfl, rfl, by decide⟩

end Sharder

end Swift
