import Swift.Common.Namespace
import Swift.Data.Bisect

/-!
# `find_namespace`: bisecting a sorted list of namespaces

`find_namespace(item, namespaces)` runs `bisect_left` on the namespaces with the name as key.
The comparison is `Namespace.__lt__` against a string: the upper bound is below the name, which
`MAX` never is. The namespace at the bisection point is returned if it holds the name. The
proxy's cached `NamespaceBoundList` answers the same lookup from `[lower, name]` entries.

On a list sorted by upper bound the bisection stops at the first namespace whose upper bound is
not below the name. When no namespace is empty, that is the first namespace holding the name. A
later namespace holding it would overlap the one the bisection stopped at: it begins below the
name and ends no earlier. An empty namespace `(b, b]` breaks this. It overlaps nothing and sorts
before `(a, b]`, yet the bisection for `b` stops at it.

## Main results

* `findNamespace_eq_find?` — on namespaces sorted by upper bound, pairwise apart and not empty,
  bisecting finds the first namespace that holds the name
* `getNamespace_eq_findNamespace` — on such a tiling from `MIN` to `MAX`, the bound list finds
  the same namespace
* `findNamespace_agrees_of_nonempty` — both, with the namespaces read back from the bound list
* `findNamespace_misses_after_empty` — an empty namespace hides the one after it, and a tiling
  that stops short of `MAX` is read back up to `MAX`
-/

namespace Swift

namespace Namespace

/-- `Namespace.__lt__(item)` against a string: the whole namespace lies below the name. `MAX` is
below nothing and `MIN` below every string. -/
def ltItem (ns : Namespace) (item : String) : Bool :=
  match ns.upper with
  | .maxBound => false
  | .minBound => true
  | .name upper _ => decide (upper < item)

/-- `Namespace.__contains__(item)`: `lower < item <= upper`, and never for `''`. -/
def contains (ns : Namespace) (item : String) : Bool :=
  if h : item = "" then false
  else decide (ns.lower < .name item h ∧ .name item h ≤ ns.upper)

/-- `Namespace.overlaps(other)`. -/
def overlaps (ns other : Namespace) : Bool :=
  decide (max ns.lower other.lower < min ns.upper other.upper)

theorem ltItem_eq (ns : Namespace) {item : String} (h : item ≠ "") :
    ns.ltItem item = decide (ns.upper < .name item h) := by
  unfold ltItem
  split
  next hup => simp [hup]
  next hup => simp [hup]
  next hup => simp [hup]

theorem contains_iff (ns : Namespace) {item : String} (h : item ≠ "") :
    ns.contains item = true ↔ Bound.name item h ∈ Set.Ioc ns.lower ns.upper := by
  simp [contains, h, Set.mem_Ioc]

/-- A namespace below the name does not hold it. -/
theorem contains_eq_false_of_ltItem {ns : Namespace} {item : String}
    (hlt : ns.ltItem item = true) : ns.contains item = false := by
  unfold contains
  split
  next => rfl
  next h =>
    rw [ltItem_eq ns h, decide_eq_true_eq] at hlt
    simp only [decide_eq_false_iff_not, not_and, not_le]
    exact fun _ => hlt

/-- A namespace not below the name, that does not hold it, begins at the name or above. -/
theorem le_lower_of_not_contains {ns : Namespace} {item : String} (h : item ≠ "")
    (hlt : ns.ltItem item = false) (hc : ns.contains item = false) :
    Bound.name item h ≤ ns.lower := by
  rw [ltItem_eq ns h, decide_eq_false_iff_not, not_lt] at hlt
  simp only [contains, h, dif_neg, not_false_eq_true, decide_eq_false_iff_not, not_and,
    not_le] at hc
  exact not_lt.mp fun hlow => absurd hlt (not_le.mpr (hc hlow))

/-- A namespace that is not empty overlaps every namespace that begins below it and ends no
earlier. -/
theorem overlaps_of_lower_lt {a b : Namespace} (ha : a.lower < a.upper) (hlow : b.lower < a.lower)
    (hup : a.upper ≤ b.upper) : a.overlaps b = true := by
  rw [overlaps, decide_eq_true_eq, max_eq_left hlow.le, min_eq_left hup]
  exact ha

/-- Two namespaces overlap when a bound lies in both: the lower of the two upper bounds does. -/
theorem overlaps_iff (a b : Namespace) :
    a.overlaps b = true ↔ ∃ x, x ∈ Set.Ioc a.lower a.upper ∧ x ∈ Set.Ioc b.lower b.upper := by
  rw [overlaps, decide_eq_true_eq]
  constructor
  · intro h
    refine ⟨min a.upper b.upper, ⟨?_, min_le_left _ _⟩, ⟨?_, min_le_right _ _⟩⟩
    · exact (le_max_left _ _).trans_lt h
    · exact (le_max_right _ _).trans_lt h
  · rintro ⟨x, ⟨hax, hxa⟩, ⟨hbx, hxb⟩⟩
    exact (max_lt hax hbx).trans_le (le_min hxa hxb)

/-- A namespace that is not empty prints back to its bounds. -/
theorem printable_of_lower_lt {ns : Namespace} (h : ns.lower < ns.upper) : ns.Printable := by
  refine ⟨fun hmax => ?_, fun hmin => ?_⟩
  · rw [hmax] at h
    exact absurd h (not_lt.mpr (Bound.le_maxBound _))
  · rw [hmin] at h
    exact absurd h (not_lt.mpr (Bound.minBound_le _))

end Namespace

/-- `find_namespace(item, namespaces)`. -/
def findNamespace (item : String) (namespaces : List Namespace) : Option Namespace :=
  match namespaces[Bisect.bisectLeft namespaces (·.ltItem item)]? with
  | some ns => if ns.contains item then some ns else none
  | none => none

section Sorted

open Tiling

variable {L : List Namespace}

/-- Namespaces sorted by upper bound are sorted for `Namespace.__lt__` against any name: the
namespaces below it come first. -/
theorem sortedFor_ltItem (hsorted : L.Pairwise fun a b => a.upper ≤ b.upper) {item : String}
    (hitem : item ≠ "") : Bisect.SortedFor L (·.ltItem item) := by
  intro i j hi hj hij hlt
  simp only [Namespace.ltItem_eq _ hitem, decide_eq_true_eq] at hlt ⊢
  -- an earlier namespace ends no later
  have hle : L[i].upper ≤ L[j].upper := by
    rcases Nat.lt_or_eq_of_le hij with h | rfl
    · exact List.pairwise_iff_getElem.mp hsorted i j hi hj h
    · exact le_rfl
  exact lt_of_le_of_lt hle hlt

variable (hsorted : L.Pairwise fun a b => a.upper ≤ b.upper)
  (hdisjoint : L.Pairwise fun a b => a.overlaps b = false)
  (hnonempty : ∀ ns ∈ L, ns.lower < ns.upper)
include hsorted hdisjoint hnonempty

/-- On namespaces sorted by upper bound, pairwise apart and none of them empty, bisecting finds
the first namespace that holds the name, and none when no namespace holds it. -/
theorem findNamespace_eq_find? {item : String} (hitem : item ≠ "") :
    findNamespace item L = L.find? (·.contains item) := by
  obtain ⟨-, hlen, hbelow, habove⟩ := Bisect.bisectLeft_spec (sortedFor_ltItem hsorted hitem)
  unfold findNamespace
  generalize Bisect.bisectLeft L (·.ltItem item) = k at hlen hbelow habove ⊢
  -- no namespace before the bisection point holds the name
  have hbefore : ∀ j (hj : j < L.length), j < k → L[j].contains item = false :=
    fun j hj hjk => Namespace.contains_eq_false_of_ltItem (hbelow j hj hjk)
  rcases Nat.lt_or_ge k L.length with hk | hk
  · rw [List.getElem?_eq_getElem hk]
    dsimp only
    by_cases hc : L[k].contains item = true
    · rw [if_pos hc, eq_comm, List.find?_eq_some_iff_getElem]
      exact ⟨hc, k, hk, rfl, fun j hj => by simp [hbefore j _ hj]⟩
    · rw [if_neg hc, eq_comm, List.find?_eq_none]
      intro ns hns hcon
      obtain ⟨j, hj, rfl⟩ := List.getElem_of_mem hns
      rcases lt_trichotomy j k with hjk | rfl | hkj
      · simp [hbefore j hj hjk] at hcon
      · exact hc hcon
      · -- a later namespace holding the name would overlap the one at the bisection point
        have hlow := Namespace.le_lower_of_not_contains hitem (habove k hk le_rfl)
          (Bool.eq_false_iff.mpr hc)
        have hmem := (Namespace.contains_iff _ hitem).mp hcon
        have hup : L[k].upper ≤ L[j].upper := List.pairwise_iff_getElem.mp hsorted k j hk hj hkj
        have hov := Namespace.overlaps_of_lower_lt (hnonempty _ (List.getElem_mem hk))
          (lt_of_lt_of_le hmem.1 hlow) hup
        rw [List.pairwise_iff_getElem.mp hdisjoint k j hk hj hkj] at hov
        cases hov
  · -- every namespace is below the name
    rw [List.getElem?_eq_none hk, eq_comm, List.find?_eq_none]
    intro ns hns hcon
    obtain ⟨j, hj, rfl⟩ := List.getElem_of_mem hns
    simp [hbefore j hj (by omega)] at hcon

/-- On a tiling from `MIN` to `MAX` by namespaces that are not empty, the bound list finds the
namespace `find_namespace` finds. -/
theorem getNamespace_eq_findNamespace (hne : L ≠ []) (hT : Tiles (L.map Namespace.bounds))
    (hmin : (L.head hne).lower = .minBound) (hmax : (L.getLast hne).upper = .maxBound)
    {item : String} (hitem : item ≠ "") :
    ∃ ns, findNamespace item L = some ns ∧
      (⟨L.map NamespaceBoundList.entry⟩ : NamespaceBoundList).getNamespace item = .ok ns := by
  have hsane := fun m hm => Namespace.printable_of_lower_lt (hnonempty m hm)
  obtain ⟨p, hp, hget, hmem⟩ :=
    NamespaceBoundList.getNamespace_of_tiles hne hT hsane hmin hmax hitem
  refine ⟨L[p], ?_, hget⟩
  rw [findNamespace_eq_find? hsorted hdisjoint hnonempty hitem, List.find?_eq_some_iff_getElem]
  refine ⟨(Namespace.contains_iff _ hitem).mpr hmem, p, hp, rfl, fun j hj => ?_⟩
  -- a name lies in one namespace of a tiling, so no earlier one holds it
  cases hc : L[j].contains item
  · rfl
  · have hmemj := (Namespace.contains_iff _ hitem).mp hc
    have hjp : j = p := hT.eq_of_mem (x := Bound.name item hitem) (by simpa using hj.trans hp)
      (by simpa using hp) (by simpa [Namespace.bounds] using hmemj)
      (by simpa [Namespace.bounds] using hmem)
    omega

/-- `find_namespace` agrees with a scan for the first namespace holding the name. On a tiling
from `MIN` to `MAX`, the bound list `parse` builds gives the namespaces back, and finds the
namespace `find_namespace` finds. -/
theorem findNamespace_agrees_of_nonempty {item : String} (hitem : item ≠ "") :
    findNamespace item L = L.find? (·.contains item) ∧
    ∀ hne : L ≠ [], Tiles (L.map Namespace.bounds) → (L.head hne).lower = .minBound →
      (L.getLast hne).upper = .maxBound →
      ∃ nbl, NamespaceBoundList.parse L = some nbl ∧ nbl.getNamespaces = .ok L ∧
        ∃ ns, findNamespace item L = some ns ∧ nbl.getNamespace item = .ok ns := by
  refine ⟨findNamespace_eq_find? hsorted hdisjoint hnonempty hitem, fun hne hT hmin hmax => ?_⟩
  have hsane := fun m hm => Namespace.printable_of_lower_lt (hnonempty m hm)
  exact ⟨_, NamespaceBoundList.parse_eq_of_tiles hne hT,
    NamespaceBoundList.getNamespaces_of_tiles hne hT hsane hmax,
    getNamespace_eq_findNamespace hsorted hdisjoint hnonempty hne hT hmin hmax hitem⟩

end Sorted

/-- Two shards of `a/c`, split at `m`. -/
def twoShards : List Namespace :=
  [⟨"a/c-1", .minBound, .name "m" (by decide), Bound.minBound_le _⟩,
    ⟨"a/c-2", .name "m" (by decide), .maxBound, Bound.le_maxBound _⟩]

theorem findNamespace_agrees_of_nonempty_twoShards :
    findNamespace "p" twoShards = twoShards.find? (·.contains "p") ∧
    ∀ hne : twoShards ≠ [], Tiling.Tiles (twoShards.map Namespace.bounds) →
      (twoShards.head hne).lower = .minBound → (twoShards.getLast hne).upper = .maxBound →
      ∃ nbl, NamespaceBoundList.parse twoShards = some nbl ∧ nbl.getNamespaces = .ok twoShards ∧
        ∃ ns, findNamespace "p" twoShards = some ns ∧ nbl.getNamespace "p" = .ok ns :=
  findNamespace_agrees_of_nonempty (by decide) (by decide) (by decide) (by decide)

/-- An empty namespace `(b, b]` before `(a, b]`. -/
def emptyFirst : List Namespace :=
  [⟨"a/c-1", .name "b" (by decide), .name "b" (by decide), le_rfl⟩,
    ⟨"a/c-2", .name "a" (by decide), .name "b" (by decide),
      Bound.name_le_name.mpr (by decide)⟩]

/-- One shard of `a/c` up to `m`: it begins at `MIN` and nothing follows it. -/
def shortTiling : List Namespace :=
  [⟨"a/c-1", .minBound, .name "m" (by decide), Bound.minBound_le _⟩]

/-- Sorted by upper bound, apart, and `(a, b]` holds `b`, yet the bisection stops at the empty
namespace before it. A single namespace up to `m` is read back from its bound list as one up to
`MAX`. -/
theorem findNamespace_misses_after_empty :
    emptyFirst.Pairwise (fun a b => a.upper ≤ b.upper) ∧
    emptyFirst.Pairwise (fun a b => a.overlaps b = false) ∧
    findNamespace "b" emptyFirst = none ∧
    (emptyFirst.find? (·.contains "b")).map Namespace.name = some "a/c-2" ∧
    ((NamespaceBoundList.parse shortTiling).map NamespaceBoundList.getNamespaces).map
      (Except.map (List.map Namespace.bounds)) = some (.ok [(.minBound, .maxBound)]) := by
  refine ⟨by decide, by decide, ?_, by decide, by decide⟩
  have hs : Bisect.SortedFor emptyFirst (·.ltItem "b") :=
    sortedFor_ltItem (by decide) (by decide)
  rw [findNamespace, Bisect.bisectLeft_eq_findIdx hs]
  decide

end Swift
