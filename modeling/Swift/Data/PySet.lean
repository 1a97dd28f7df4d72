import Mathlib.Data.List.Perm.Basic

/-!
# CPython's sets of small integers

`list(s)` lists a set in the order of the slots of its hash table, so code that takes
`list(s)[-1]` gets whichever key sits in the last occupied slot. This module lays out a set of
non-negative integers as CPython 3's `setobject.c` does. An integer below `2^61 - 1` is its own
hash. A key goes to slot `hash & mask` if that slot is free. Otherwise the probe tries the nine
slots after it, when they are below the mask, and then jumps to `(5 * i + 1 + perturb) & mask`,
where `perturb` starts as the hash and is shifted five bits right before each jump. A table of
`mask + 1` slots, a power of two from 8 up, grows once three fifths of it are used, to the least
power of two above four times its keys, and the keys move over in slot order.

`a - b` copies `a` and discards `b`'s keys when `a` has more than four times as many keys as `b`;
otherwise it adds `a`'s keys that `b` lacks, in `a`'s slot order, to a new set. Only sets built
by `set(...)` from a list are modelled, and nothing is ever deleted from them: their slots are
empty or hold a key, and `fill` is `used`. A membership test is modelled by membership, which is
what a lookup in such a table finds.

The probe loop runs on fuel. Once `perturb` is zero, which takes a round for every five bits of
the hash, the jumps are `i ↦ 5 * i + 1` modulo a power of two, which visits every slot. So on a
table with a free slot the fuel of `hash + mask + 1` rounds is never used up, and the fallback to
the first free slot never decides where a key goes.

## Main results

* `toList_insertClean_perm`, `toList_resize_perm` — a clean insertion adds its key, and a resize
  keeps the keys, as long as there is room
* `mem_toList_ofList` — `set(l)` holds the elements of `l`
* `mem_sub` — `a - b` holds the keys of `a` that are not keys of `b`
-/

namespace Swift

namespace PySet

/-- `LINEAR_PROBES`: the slots tried after the first one of a round. -/
def linearProbes : Nat := 9

/-- `PERTURB_SHIFT`. -/
def perturbShift : Nat := 5

/-- `PySet_MINSIZE`: the slots of a new set. -/
def minSize : Nat := 8

/-- A set's hash table: its slots, each empty or holding a key. -/
abbrev Table := List (Option Nat)

/-- `so->mask`: one less than the number of slots. -/
def mask (table : Table) : Nat := table.length - 1

/-- The keys in slot order: `list(s)`. -/
def toList (table : Table) : List Nat := table.filterMap id

/-- `so->used`, which is `so->fill` in a table that nothing was deleted from. -/
def used (table : Table) : Nat := (toList table).length

/-! ### Probing -/

/-- The slots one round of a probe tries from slot `i`: `i` and the nine after it when they are
below the mask, `i` alone otherwise. -/
def roundSlots (mask i : Nat) : List Nat :=
  if i + linearProbes ≤ mask then List.range' i (linearProbes + 1) else [i]

/-- Whether a probe for `key` stops at slot `j`: the slot is empty or, unless the probe is
`set_insert_clean`'s, holds `key`. -/
def stopsAt (table : Table) (key : Nat) (clean : Bool) (j : Nat) : Bool :=
  match table[j]? with
  | some none => true
  | some (some k) => !clean && k == key
  | none => false

/-- The probe loop of `set_add_entry` and `set_insert_clean`, for `fuel` rounds: the first slot
of the round from `i` where the probe stops, or else the next round, from
`(i * 5 + 1 + perturb) & mask` with `perturb` shifted first. -/
def probe (table : Table) (key : Nat) (clean : Bool) : Nat → Nat → Nat → Option Nat
  | 0, _, _ => none
  | fuel + 1, perturb, i =>
    match (roundSlots (mask table) i).find? (stopsAt table key clean) with
    | some j => some j
    | none =>
      probe table key clean fuel (perturb >>> perturbShift)
        ((i * 5 + 1 + (perturb >>> perturbShift)) &&& mask table)

/-- The slot a probe for `key` ends at, starting at `hash & mask` with `perturb = hash`; the
first free slot if the fuel runs out. -/
def findSlot (table : Table) (key : Nat) (clean : Bool) : Option Nat :=
  (probe table key clean (key + table.length) key (key &&& mask table)).orElse fun _ =>
    table.findIdx? Option.isNone

/-! ### Building sets -/

/-- The slots `set_table_resize(so, minused)` makes: the least power of two from 8 up that is
above `minused`. Doubling `minused` times from 8 is more than enough. -/
def newSize (minused : Nat) : Nat := grow minused minSize
where
  /-- `while (newsize <= (size_t)minused) newsize <<= 1`. -/
  grow : Nat → Nat → Nat
    | 0, size => size
    | fuel + 1, size => if size ≤ minused then grow fuel (size * 2) else size

/-- `set_insert_clean`: the key goes to the first free slot of its probe. -/
def insertClean (table : Table) (key : Nat) : Table :=
  match findSlot table key true with
  | some j => table.set j (some key)
  | none => table

/-- `set_table_resize(so, minused)`: the keys, in slot order, put into a fresh table. -/
def resize (table : Table) (minused : Nat) : Table :=
  (toList table).foldl insertClean (List.replicate (newSize minused) none)

/-- `set_add_entry`: a key already there changes nothing; a new key goes to the slot its probe
stops at, and the table grows once three fifths of it are used. -/
def add (table : Table) (key : Nat) : Table :=
  match findSlot table key false with
  | some j =>
    if table[j]? = some (some key) then table
    else
      let table := table.set j (some key)
      if used table * 5 < mask table * 3 then table
      else resize table (if 50000 < used table then used table * 2 else used table * 4)
  | none => table

/-- `set()`. -/
def empty : Table := List.replicate minSize none

/-- `set(iterable)` of a list: its elements added in turn. -/
def ofList (l : List Nat) : Table := l.foldl add empty

/-- `set_merge` of a set into a new empty one, as `set.copy` does: the new table is made large
enough first; when it has as many slots as the original the slots are copied as they are,
otherwise the keys are put in afresh in slot order. -/
def copy (other : Table) : Table :=
  if used other = 0 then empty
  else
    let table :=
      if mask empty * 3 ≤ used other * 5 then List.replicate (newSize (used other * 2)) none
      else empty
    if table.length = other.length then other else (toList other).foldl insertClean table

/-- `list(a - b)`. With more than four times as many keys as `b`, `a` is copied and `b`'s keys
discarded (`set_copy_and_difference`): a discarded key leaves a dummy, which the listing skips, and
there are too few of them to make `set_difference_update` rebuild the table. Otherwise the keys
of `a` not in `b` are added, in `a`'s slot order, to a new set. -/
def sub (a b : Table) : List Nat :=
  if used b < used a >>> 2 then (toList (copy a)).filter (· ∉ toList b)
  else
    toList ((toList a).foldl (fun result key => if key ∈ toList b then result else add result key)
      empty)

/-! ### Where a probe stops -/

theorem stopsAt_spec {table : Table} {key : Nat} {clean : Bool} {j : Nat}
    (h : stopsAt table key clean j = true) :
    table[j]? = some none ∨ (clean = false ∧ table[j]? = some (some key)) := by
  unfold stopsAt at h
  split at h
  next hj => exact .inl hj
  next k hj =>
    simp only [Bool.and_eq_true, Bool.not_eq_true', beq_iff_eq] at h
    obtain ⟨rfl, rfl⟩ := h
    exact .inr ⟨rfl, hj⟩
  next => cases h

theorem probe_spec {table : Table} {key : Nat} {clean : Bool} {j : Nat} :
    ∀ {fuel perturb i : Nat}, probe table key clean fuel perturb i = some j →
      stopsAt table key clean j = true
  | 0, _, _, h => by cases h
  | fuel + 1, perturb, i, h => by
    rw [probe] at h
    split at h
    next hfind =>
      cases h
      exact List.find?_some hfind
    next => exact probe_spec h

/-- A probe stops at a free slot, or at the key itself unless it is a clean insertion. -/
theorem findSlot_spec {table : Table} {key : Nat} {clean : Bool} {j : Nat}
    (h : findSlot table key clean = some j) :
    table[j]? = some none ∨ (clean = false ∧ table[j]? = some (some key)) := by
  unfold findSlot at h
  cases hp : probe table key clean (key + table.length) key (key &&& mask table) with
  | some j' =>
    rw [hp, Option.orElse_some, Option.some.injEq] at h
    subst h
    exact stopsAt_spec (probe_spec hp)
  | none =>
    rw [hp, Option.orElse_none] at h
    obtain ⟨hj, hnone, -⟩ := List.findIdx?_eq_some_iff_getElem.mp h
    refine .inl ?_
    rw [List.getElem?_eq_getElem hj, Option.isNone_iff_eq_none.mp hnone]

/-- A table with a free slot has a slot for every probe. -/
theorem findSlot_isSome {table : Table} (h : none ∈ table) (key : Nat) (clean : Bool) :
    (findSlot table key clean).isSome := by
  unfold findSlot
  cases probe table key clean (key + table.length) key (key &&& mask table) with
  | some j => rfl
  | none =>
    rw [Option.orElse_none, List.findIdx?_isSome, List.any_eq_true]
    exact ⟨none, h, rfl⟩

/-! ### Keys and room -/

/-- In a table with no free slot, every slot holds a key. -/
theorem used_eq_length {table : Table} (h : none ∉ table) : used table = table.length := by
  induction table with
  | nil => rfl
  | cons slot rest ih =>
    have hrest := ih fun hmem => h (List.mem_cons_of_mem _ hmem)
    cases slot with
    | none => exact absurd List.mem_cons_self h
    | some k =>
      show used rest + 1 = rest.length + 1
      rw [hrest]

/-- A table with fewer keys than slots has a free slot. -/
theorem none_mem_of_used_lt {table : Table} (h : used table < table.length) : none ∈ table := by
  by_contra hnone
  have := used_eq_length hnone
  omega

theorem mem_toList_of_getElem? {table : Table} {j key : Nat} (h : table[j]? = some (some key)) :
    key ∈ toList table :=
  List.mem_filterMap.mpr ⟨some key, List.mem_of_getElem? h, rfl⟩

@[simp] theorem toList_replicate_none (n : Nat) : toList (List.replicate n none) = [] := by
  simp [toList]

/-- A key put in a free slot joins the keys. -/
theorem toList_set_perm {table : Table} {j : Nat} (h : table[j]? = some none) (key : Nat) :
    (toList (table.set j (some key))).Perm (key :: toList table) := by
  have hj : j < table.length := (List.getElem?_eq_some_iff.mp h).1
  have hsplit : table = table.take j ++ none :: table.drop (j + 1) := by
    conv_lhs => rw [← List.take_append_drop j table]
    rw [List.drop_eq_getElem_cons hj, (List.getElem?_eq_some_iff.mp h).2]
  rw [List.set_eq_take_append_cons_drop, if_pos hj]
  conv_rhs => rw [hsplit]
  simp only [toList, List.filterMap_append, List.filterMap_cons_none, id]
  exact List.perm_middle

theorem toList_insertClean_perm {table : Table} (h : used table < table.length) (key : Nat) :
    (toList (insertClean table key)).Perm (key :: toList table) := by
  obtain ⟨j, hj⟩ := Option.isSome_iff_exists.mp (findSlot_isSome (none_mem_of_used_lt h) key true)
  rw [insertClean, hj]
  -- a clean insertion stops at a free slot
  have hfree : table[j]? = some none := (findSlot_spec hj).resolve_right fun h => by cases h.1
  exact toList_set_perm hfree key

theorem length_insertClean (table : Table) (key : Nat) :
    (insertClean table key).length = table.length := by
  unfold insertClean
  split <;> simp

/-- Clean insertions into a table with room for them add their keys. -/
theorem toList_foldl_insertClean_perm {keys : List Nat} {table : Table}
    (h : used table + keys.length ≤ table.length) :
    (toList (keys.foldl insertClean table)).Perm (toList table ++ keys) ∧
      (keys.foldl insertClean table).length = table.length := by
  induction keys generalizing table with
  | nil => simp
  | cons key keys ih =>
    rw [List.length_cons] at h
    have hstep : (toList (insertClean table key)).Perm (key :: toList table) :=
      toList_insertClean_perm (by omega) key
    have hroom : used (insertClean table key) + keys.length ≤ (insertClean table key).length := by
      rw [used, hstep.length_eq, length_insertClean, List.length_cons]
      exact (show used table + 1 + keys.length ≤ table.length by omega)
    obtain ⟨hperm, hlen⟩ := ih hroom
    refine ⟨hperm.trans ?_, hlen.trans (length_insertClean table key)⟩
    exact (hstep.append_right keys).trans List.perm_middle.symm

/-- Each doubling from a positive size gains at least one, so `fuel` doublings pass
`size + fuel - 1`. -/
theorem lt_newSize_grow (minused : Nat) :
    ∀ fuel size, 0 < size → minused < size + fuel → minused < newSize.grow minused fuel size
  | 0, size, _, h => by simpa [newSize.grow] using h
  | fuel + 1, size, hpos, h => by
    rw [newSize.grow]
    split
    · exact lt_newSize_grow minused fuel (size * 2) (by omega) (by omega)
    · omega

theorem lt_newSize (minused : Nat) : minused < newSize minused :=
  lt_newSize_grow minused minused minSize (by decide) (by simp [minSize])

/-- A resize to room for at least the keys keeps them, and leaves room. -/
theorem toList_resize_perm {table : Table} {minused : Nat} (h : used table ≤ minused) :
    (toList (resize table minused)).Perm (toList table) ∧
      used (resize table minused) < (resize table minused).length := by
  have hroom : used (List.replicate (newSize minused) (none : Option Nat)) + (toList table).length ≤
      (List.replicate (newSize minused) (none : Option Nat)).length := by
    have := lt_newSize minused
    simp only [used, toList_replicate_none, List.length_nil, List.length_replicate]
    exact (show 0 + used table ≤ newSize minused by omega)
  obtain ⟨hperm, hlen⟩ := toList_foldl_insertClean_perm hroom
  rw [toList_replicate_none, List.nil_append] at hperm
  refine ⟨hperm, ?_⟩
  rw [used, resize, hperm.length_eq, hlen, List.length_replicate]
  exact Nat.lt_of_le_of_lt h (lt_newSize minused)

/-! ### `set(l)` -/

/-- Adding a key to a table with room adds it, if it was not there, and leaves room. -/
theorem mem_toList_add {table : Table} (h : used table < table.length) (key : Nat) :
    (∀ k, k ∈ toList (add table key) ↔ k ∈ toList table ∨ k = key) ∧
      used (add table key) < (add table key).length := by
  obtain ⟨j, hj⟩ := Option.isSome_iff_exists.mp (findSlot_isSome (none_mem_of_used_lt h) key false)
  rw [add, hj]
  dsimp only
  split
  next hkey =>
    -- the key is there already
    refine ⟨fun k => ⟨.inl, fun hk => hk.elim id fun hk => hk ▸ mem_toList_of_getElem? hkey⟩, h⟩
  next hkey =>
    have hfree : table[j]? = some none := (findSlot_spec hj).resolve_right fun h => hkey h.2
    have hperm := toList_set_perm hfree key
    have hmem : ∀ k, k ∈ toList (table.set j (some key)) ↔ k ∈ toList table ∨ k = key :=
      fun k => by rw [hperm.mem_iff, List.mem_cons, or_comm]
    split
    next hsmall =>
      refine ⟨hmem, ?_⟩
      simp only [mask, List.length_set] at hsmall ⊢
      omega
    next =>
      -- the table grows to room for at least its keys
      have hgrow := toList_resize_perm (show used (table.set j (some key)) ≤
        if 50000 < used (table.set j (some key)) then used (table.set j (some key)) * 2
        else used (table.set j (some key)) * 4 by split <;> omega)
      exact ⟨fun k => hgrow.1.mem_iff.trans (hmem k), hgrow.2⟩

theorem used_empty_lt : used empty < empty.length := by decide

/-- Adding the keys of a list to a table with room. -/
theorem mem_toList_foldl_add (keys : List Nat) {table : Table} (h : used table < table.length) :
    (∀ k, k ∈ toList (keys.foldl add table) ↔ k ∈ toList table ∨ k ∈ keys) ∧
      used (keys.foldl add table) < (keys.foldl add table).length := by
  induction keys generalizing table with
  | nil => simp [h]
  | cons key keys ih =>
    obtain ⟨hadd, hroom⟩ := mem_toList_add h key
    obtain ⟨hmem, hroom'⟩ := ih hroom
    refine ⟨fun k => ?_, hroom'⟩
    rw [List.foldl_cons, hmem, hadd, List.mem_cons]
    tauto

theorem mem_toList_ofList (l : List Nat) (k : Nat) : k ∈ toList (ofList l) ↔ k ∈ l := by
  rw [ofList, (mem_toList_foldl_add l used_empty_lt).1, toList, empty]
  simp

/-! ### `a - b` -/

/-- A copy holds the keys of what it copies. -/
theorem mem_toList_copy (other : Table) (k : Nat) :
    k ∈ toList (copy other) ↔ k ∈ toList other := by
  unfold copy
  split
  next hzero =>
    rw [used, List.length_eq_zero_iff] at hzero
    rw [hzero, empty, toList_replicate_none]
  next hpos =>
    dsimp only
    generalize htable : (if mask empty * 3 ≤ used other * 5 then
      List.replicate (newSize (used other * 2)) none else empty) = table
    -- the new table is empty, with room for every key
    have hfresh : toList table = [] := by
      subst htable
      split <;> simp [empty]
    have hroom : used table + used other ≤ table.length := by
      subst htable
      have := lt_newSize (used other * 2)
      split
      · rw [used, toList_replicate_none, List.length_nil, List.length_replicate]
        omega
      next hsmall =>
        simp only [mask, empty, minSize, List.length_replicate] at hsmall ⊢
        rw [used, toList_replicate_none, List.length_nil]
        omega
    split
    next => rfl
    next =>
      rw [(toList_foldl_insertClean_perm hroom).1.mem_iff, List.mem_append, hfresh]
      simp

/-- The keys of `a` not in `b`, added to a table with room. -/
theorem mem_toList_foldl_addNew (b : Table) (keys : List Nat) {table : Table}
    (h : used table < table.length) :
    (∀ k, k ∈ toList (keys.foldl (fun result key =>
        if key ∈ toList b then result else add result key) table) ↔
      k ∈ toList table ∨ (k ∈ keys ∧ k ∉ toList b)) ∧
      used (keys.foldl (fun result key => if key ∈ toList b then result else add result key)
        table) <
        (keys.foldl (fun result key => if key ∈ toList b then result else add result key)
          table).length := by
  induction keys generalizing table with
  | nil => simp [h]
  | cons key keys ih =>
    rw [List.foldl_cons]
    split
    next hb =>
      obtain ⟨hmem, hroom⟩ := ih h
      refine ⟨fun k => ?_, hroom⟩
      rw [hmem, List.mem_cons]
      constructor
      · rintro (hk | ⟨hk, hkb⟩)
        · exact .inl hk
        · exact .inr ⟨.inr hk, hkb⟩
      · rintro (hk | ⟨rfl | hk, hkb⟩)
        · exact .inl hk
        · exact absurd hb hkb
        · exact .inr ⟨hk, hkb⟩
    next hb =>
      obtain ⟨hadd, hroom⟩ := mem_toList_add h key
      obtain ⟨hmem, hroom'⟩ := ih hroom
      refine ⟨fun k => ?_, hroom'⟩
      rw [hmem, hadd, List.mem_cons]
      constructor
      · rintro ((hk | rfl) | ⟨hk, hkb⟩)
        · exact .inl hk
        · exact .inr ⟨.inl rfl, hb⟩
        · exact .inr ⟨.inr hk, hkb⟩
      · rintro (hk | ⟨rfl | hk, hkb⟩)
        · exact .inl (.inl hk)
        · exact .inl (.inr rfl)
        · exact .inr ⟨hk, hkb⟩

/-- `a - b` holds exactly the keys of `a` that are not keys of `b`. -/
theorem mem_sub (a b : Table) (k : Nat) :
    k ∈ sub a b ↔ k ∈ toList a ∧ k ∉ toList b := by
  unfold sub
  split
  next => rw [List.mem_filter, mem_toList_copy, decide_eq_true_iff]
  next =>
    rw [(mem_toList_foldl_addNew b (toList a) used_empty_lt).1 k, empty, toList_replicate_none]
    simp

end PySet

end Swift
