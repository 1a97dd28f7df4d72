import Swift.Ring.Handoff
import Mathlib.Data.List.Nodup

/-!
# The wrap-around walk of `get_more_nodes`

`get_more_nodes` walks the partitions
`chain(range(start, parts, inc), range(inc - ((parts - start) % inc), start, inc))`, with
`inc = int(parts / 65536) or 1`: from `start` to the end of the ring in steps of `inc`, then
around from the beginning back to `start`. Both ranges stay in `start`'s residue class modulo
`inc`, which divides `parts` when `parts` is a power of two, and the first covers the class from
`start` on. The second range is meant to cover it below `start`, from its least member.

## The distinction that decides it

The least member of the class is `start % inc`, and `inc - (parts - start) % inc` is that number
only when `start % inc ≠ 0` (`wrapStart_eq`). When `start` is a multiple of `inc` it is `inc`, not
`0`: the second range then begins one step too late, and partition `0` is visited only when the
walk starts there. Every other partition of the class comes exactly once (`mem_handoffParts`,
`nodup_handoffParts`). So the walk visits its whole class exactly when `start = 0` or
`start % inc ≠ 0`; for every ring of at least two partitions some starts miss (`start = inc`,
or `start = 1` when `inc = 1`).

## Main results

* `mem_handoffParts`, `nodup_handoffParts` — what the walk visits, each partition once
* `handoffParts_visitsClassOnce_iff` — for `parts = 2 ^ k`, the walk visits its residue class
  exactly once if and only if `start = 0` or `start % inc ≠ 0`
* `mem_handoffWalk` — the same for the walk of a ring whose rows have the length its shift says
* `getMoreNodes_yields_handoffs` — what `get_more_nodes` yields on such a ring: indexes
  `0, 1, 2, ...`, no device twice, and exactly the non-primary devices of the walk's partitions
-/

namespace Swift

namespace Ring

/-! ### Python's `range` with a step -/

section PyRange

variable {a b s q : Nat}

/-- `range(a, b, s)` has `⌈(b - a) / s⌉` elements. -/
theorem lt_pyRangeLength_iff (hs : 0 < s) {i n : Nat} : i < (n + s - 1) / s ↔ s * i < n := by
  rw [Nat.lt_iff_add_one_le, Nat.le_div_iff_mul_le hs, Nat.add_mul, Nat.one_mul, Nat.mul_comm i s]
  omega

/-- `q` is in `range(a, b, s)` when it lies in `[a, b)` and in `a`'s residue class modulo `s`. -/
theorem mem_pyRange (hs : 0 < s) : q ∈ pyRange a b s ↔ a ≤ q ∧ q < b ∧ q % s = a % s := by
  rw [pyRange, List.mem_range']
  constructor
  · rintro ⟨i, hi, rfl⟩
    rw [lt_pyRangeLength_iff hs] at hi
    exact ⟨Nat.le_add_right a (s * i), by omega, Nat.add_mul_mod_self_left a s i⟩
  · rintro ⟨ha, hb, hmod⟩
    -- `q - a` is a multiple of the step
    obtain ⟨i, hi⟩ := Nat.dvd_of_mod_eq_zero (Nat.sub_mod_eq_zero_of_mod_eq hmod)
    refine ⟨i, ?_, by omega⟩
    rw [lt_pyRangeLength_iff hs]
    omega

theorem nodup_pyRange (hs : 0 < s) : (pyRange a b s).Nodup :=
  List.nodup_range' s hs

end PyRange

/-! ### The walk over a class -/

section Walk

variable {parts start inc q : Nat}

/-- The second range starts at `start % inc`, the least member of `start`'s class, unless `start`
is a multiple of `inc`: then it starts at `inc`. -/
theorem wrapStart_eq (hinc : 0 < inc) (hdvd : inc ∣ parts) (hstart : start ≤ parts) :
    inc - (parts - start) % inc = if start % inc = 0 then inc else start % inc := by
  -- the two remainders add up to a multiple of `inc`, since `parts` is one
  have hsum : (parts - start + start) % inc =
      if inc ≤ (parts - start) % inc + start % inc then (parts - start) % inc + start % inc - inc
      else (parts - start) % inc + start % inc := Nat.add_mod_eq_ite
  rw [Nat.sub_add_cancel hstart, Nat.mod_eq_zero_of_dvd hdvd] at hsum
  have h₁ := Nat.mod_lt (parts - start) hinc
  have h₂ := Nat.mod_lt start hinc
  split at hsum <;> split <;> omega

/-- The second range is the class strictly between `0` and `start`. -/
theorem mem_wrapRange (hinc : 0 < inc) (hdvd : inc ∣ parts) (hstart : start ≤ parts) :
    q ∈ pyRange (inc - (parts - start) % inc) start inc ↔
      0 < q ∧ q < start ∧ q % inc = start % inc := by
  rw [wrapStart_eq hinc hdvd hstart, mem_pyRange hinc]
  split
  · -- a multiple of `inc`: the range begins at `inc`, the least positive member of the class
    rename_i h0
    rw [Nat.mod_self, h0]
    constructor
    · rintro ⟨hle, hlt, hq⟩
      exact ⟨by omega, hlt, hq⟩
    · rintro ⟨hpos, hlt, hq⟩
      exact ⟨Nat.le_of_dvd hpos (Nat.dvd_of_mod_eq_zero hq), hlt, hq⟩
  · -- the range begins at `start % inc`, which is positive
    rename_i h0
    rw [Nat.mod_mod]
    constructor
    · rintro ⟨hle, hlt, hq⟩
      exact ⟨by omega, hlt, hq⟩
    · rintro ⟨-, hlt, hq⟩
      exact ⟨hq ▸ Nat.mod_le q inc, hlt, hq⟩

/-- The walk visits the partitions of `start`'s class, but partition `0` only when it starts
there. -/
theorem mem_handoffParts (hinc : 0 < inc) (hdvd : inc ∣ parts) (hstart : start ≤ parts) :
    q ∈ handoffParts parts start inc ↔
      q < parts ∧ q % inc = start % inc ∧ (q = 0 → start = 0) := by
  rw [handoffParts, List.mem_append, mem_pyRange hinc, mem_wrapRange hinc hdvd hstart]
  omega

/-- The first range lies at or after `start` and the second before it, so no partition comes
twice. -/
theorem nodup_handoffParts (hinc : 0 < inc) : (handoffParts parts start inc).Nodup := by
  rw [handoffParts, List.nodup_append]
  refine ⟨nodup_pyRange hinc, nodup_pyRange hinc, ?_⟩
  intro x hx y hy
  rw [mem_pyRange hinc] at hx hy
  omega

/-- Every partition below `parts` in `start`'s residue class modulo `inc` comes exactly once in
`walk`. -/
def VisitsClassOnce (walk : List Nat) (parts start inc : Nat) : Prop :=
  ∀ q < parts, q % inc = start % inc → walk.count q = 1

instance (walk : List Nat) (parts start inc : Nat) :
    Decidable (VisitsClassOnce walk parts start inc) :=
  inferInstanceAs (Decidable (∀ q < parts, q % inc = start % inc → walk.count q = 1))

/-- The walk visits its class exactly once if and only if the second range starts at the least
member of the class. -/
theorem visitsClassOnce_handoffParts_iff (hinc : 0 < inc) (hdvd : inc ∣ parts)
    (hstart : start ≤ parts) :
    VisitsClassOnce (handoffParts parts start inc) parts start inc ↔
      start = 0 ∨ start % inc ≠ 0 := by
  constructor
  · intro hvisit
    by_contra hbad
    rw [not_or, not_not] at hbad
    -- partition `0` is in the class, below `parts`, and yet not visited
    have hcount := hvisit 0 (by omega) (by rw [Nat.zero_mod, hbad.2])
    have h0 : 0 ∈ handoffParts parts start inc := List.count_pos_iff.mp (by omega)
    exact hbad.1 (((mem_handoffParts hinc hdvd hstart).mp h0).2.2 rfl)
  · intro hgood q hq hclass
    apply List.count_eq_one_of_mem (nodup_handoffParts hinc)
    refine (mem_handoffParts hinc hdvd hstart).mpr ⟨hq, hclass, fun hq0 => ?_⟩
    rw [hq0, Nat.zero_mod] at hclass
    exact hgood.resolve_right (fun h => h hclass.symm)

end Walk

/-! ### Rings of `2 ^ k` partitions -/

/-- `inc = int(parts / 65536) or 1` for a ring of `parts` partitions. -/
def walkInc (parts : Nat) : Nat := if parts / 65536 = 0 then 1 else parts / 65536

theorem handoffInc_eq_walkInc (r : RingData) : handoffInc r = walkInc r.partitionCount := rfl

theorem walkInc_pos (parts : Nat) : 0 < walkInc parts := by
  rw [walkInc]
  split <;> omega

/-- A ring of `2 ^ k` partitions with `k ≥ 16` steps by `2 ^ (k - 16)`, which divides its count. -/
theorem walkInc_dvd_two_pow (k : Nat) : walkInc (2 ^ k) ∣ 2 ^ k := by
  rw [walkInc]
  split
  · exact Nat.one_dvd _
  · rename_i hbig
    have hk : 16 ≤ k := by
      by_contra hk
      have hlt : 2 ^ k < 2 ^ 16 := Nat.pow_lt_pow_right (by decide) (by omega)
      exact hbig (Nat.div_eq_of_lt (by simpa using hlt))
    exact Nat.div_dvd_of_dvd (by simpa using Nat.pow_dvd_pow 2 hk)

/-- For every ring of `2 ^ k` partitions and every start in the ring, the walk visits every
partition of `start`'s residue class modulo `inc` exactly once if and only if `start = 0` or
`start` is no multiple of `inc`. -/
theorem handoffParts_visitsClassOnce_iff (k start : Nat) (hstart : start < 2 ^ k) :
    VisitsClassOnce (handoffParts (2 ^ k) start (walkInc (2 ^ k))) (2 ^ k) start
        (walkInc (2 ^ k)) ↔
      start = 0 ∨ start % walkInc (2 ^ k) ≠ 0 :=
  visitsClassOnce_handoffParts_iff (walkInc_pos _) (walkInc_dvd_two_pow k) hstart.le

/-- A ring of two partitions (`k = 1`, `inc = 1`) whose walk starts at `1` is `[1]`: it never
visits partition `0`. -/
theorem handoffParts_visitsClassOnce_two_one :
    ¬VisitsClassOnce (handoffParts (2 ^ 1) 1 (walkInc (2 ^ 1))) (2 ^ 1) 1 (walkInc (2 ^ 1)) := by
  rw [handoffParts_visitsClassOnce_iff 1 1 (by decide)]
  decide

/-! ### The walk of a ring -/

section RingWalk

variable {r : RingData} (hshift : r.partShift ≤ 32)
  (hparts : r.partitionCount = 2 ^ (32 - r.partShift))

/-- `struct.unpack_from('>I', ...)` reads four bytes, a 32-bit word. -/
theorem unpackWord_lt (digest : List UInt8) : unpackWord digest < 2 ^ 32 := by
  have h₀ := (digest.getD 0 0).toNat_lt
  have h₁ := (digest.getD 1 0).toNat_lt
  have h₂ := (digest.getD 2 0).toNat_lt
  have h₃ := (digest.getD 3 0).toNat_lt
  rw [unpackWord]
  omega

include hshift in
/-- The walk starts in the ring: the shift leaves the top `32 - part_shift` bits of the word. -/
theorem handoffStart_lt (part : Nat) : handoffStart r part < 2 ^ (32 - r.partShift) := by
  rw [handoffStart, Nat.shiftRight_eq_div_pow, Nat.div_lt_iff_lt_mul (Nat.two_pow_pos _),
    ← Nat.pow_add, Nat.sub_add_cancel hshift]
  exact unpackWord_lt _

include hshift hparts in
/-- The walk of `get_more_nodes(part)` on a ring whose rows have `2 ^ (32 - part_shift)`
partitions. -/
theorem mem_handoffWalk {part q : Nat} :
    q ∈ handoffWalk r part ↔ q < r.partitionCount ∧
      q % handoffInc r = handoffStart r part % handoffInc r ∧ (q = 0 → handoffStart r part = 0) := by
  rw [handoffWalk, handoffInc_eq_walkInc, hparts]
  exact mem_handoffParts (walkInc_pos _) (walkInc_dvd_two_pow _) (handoffStart_lt hshift part).le

include hshift hparts in
/-- `get_more_nodes(part)` reaches every device at a partition of its start's residue class, but
one that holds partition `0` when the walk does not start there: each is a primary or yielded. -/
theorem getMoreNodes_yields_of_mem_class (part : Nat) {q i : Nat} (hq : q < r.partitionCount)
    (hclass : q % handoffInc r = handoffStart r part % handoffInc r)
    (hq0 : q = 0 → handoffStart r part = 0) (hhold : HoldsPart r q i) :
    i ∈ (getPartNodes r part).map Device.id ∨ i ∈ (getMoreNodes r part).map fun x => x.1.id :=
  getMoreNodes_complete r part ((mem_handoffWalk hshift hparts).mpr ⟨hq, hclass, hq0⟩) hhold

include hshift hparts in
/-- The devices `get_more_nodes(part)` yields are exactly those at a partition of the walk's
residue class, partition `0` only when the walk starts there, that are not primaries. -/
theorem mem_getMoreNodes_iff (part i : Nat) :
    i ∈ (getMoreNodes r part).map (fun x => x.1.id) ↔
      i ∉ (getPartNodes r part).map Device.id ∧ ∃ q, q < r.partitionCount ∧
        q % handoffInc r = handoffStart r part % handoffInc r ∧
        (q = 0 → handoffStart r part = 0) ∧ HoldsPart r q i := by
  constructor
  · intro hi
    obtain ⟨x, hx, rfl⟩ := List.mem_map.mp hi
    obtain ⟨-, q, hq, hhold⟩ := getMoreNodes_dev r part x hx
    obtain ⟨hlt, hclass, hq0⟩ := (mem_handoffWalk hshift hparts).mp hq
    exact ⟨getMoreNodes_not_primary r part x hx, q, hlt, hclass, hq0, hhold⟩
  · rintro ⟨hprim, q, hlt, hclass, hq0, hhold⟩
    exact (getMoreNodes_yields_of_mem_class hshift hparts part hlt hclass hq0 hhold).resolve_left
      hprim

include hshift hparts in
/-- What `get_more_nodes(part)` yields on a ring whose rows have `2 ^ (32 - part_shift)`
partitions: handoff indexes `0, 1, 2, ...`, no device twice, each the ring's own entry for its
id, and exactly the devices at a partition of the walk's residue class that are not primaries,
those at partition `0` only when the walk starts there. -/
theorem getMoreNodes_yields_handoffs (part : Nat) :
    (getMoreNodes r part).map Prod.snd = List.range (getMoreNodes r part).length ∧
    ((getMoreNodes r part).map fun x => x.1.id).Nodup ∧
    (∀ x ∈ getMoreNodes r part, x.1 = r.dev x.1.id) ∧
    ∀ i, i ∈ (getMoreNodes r part).map (fun x => x.1.id) ↔
      i ∉ (getPartNodes r part).map Device.id ∧ ∃ q, q < r.partitionCount ∧
        q % handoffInc r = handoffStart r part % handoffInc r ∧
        (q = 0 → handoffStart r part = 0) ∧ HoldsPart r q i :=
  ⟨getMoreNodes_indices r part, nodup_getMoreNodes r part,
    fun x hx => (getMoreNodes_dev r part x hx).1, mem_getMoreNodes_iff hshift hparts part⟩

end RingWalk

/-- The two-partition ring has the shape `get_more_nodes` assumes: `part_shift` 31 and rows of
`2 ^ 1` partitions. -/
theorem getMoreNodes_yields_handoffs_twoPartRing :
    twoPartRing.partShift ≤ 32 ∧
    twoPartRing.partitionCount = 2 ^ (32 - twoPartRing.partShift) ∧
    (getMoreNodes twoPartRing 0).map Prod.snd =
      List.range (getMoreNodes twoPartRing 0).length ∧
    ((getMoreNodes twoPartRing 0).map fun x => x.1.id).Nodup ∧
    (∀ x ∈ getMoreNodes twoPartRing 0, x.1 = twoPartRing.dev x.1.id) ∧
    ∀ i, i ∈ (getMoreNodes twoPartRing 0).map (fun x => x.1.id) ↔
      i ∉ (getPartNodes twoPartRing 0).map Device.id ∧ ∃ q, q < twoPartRing.partitionCount ∧
        q % handoffInc twoPartRing = handoffStart twoPartRing 0 % handoffInc twoPartRing ∧
        (q = 0 → handoffStart twoPartRing 0 = 0) ∧ HoldsPart twoPartRing q i :=
  ⟨by decide, by decide, getMoreNodes_yields_handoffs (by decide) (by decide) 0⟩

end Ring

end Swift
