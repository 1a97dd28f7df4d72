import Swift.Order.Tiling
import Mathlib.Data.String.Basic
import Mathlib.Data.Prod.Lex

/-!
# Namespaces and the bound list the proxy caches

`swift.common.utils.Namespace` and `NamespaceBoundList`. A namespace is a name and a range of
object names `(lower, upper]`; its bounds are object names or the outer bounds `Namespace.MIN`
and `Namespace.MAX`, which the setters put in place of `''`. `NamespaceBoundList` keeps only
`[lower, name]` pairs: `parse` drops a namespace that begins below the end of the one kept
before it, and `get_namespace` bisects on the lower bounds, taking the upper bound from the next
entry.

The bound of a namespace is `Bound`: an object name carries the fact that it is not empty, so
that `''` only ever means an outer bound, as in the source.

## Main results

* `NamespaceBoundList.parse_of_tiles`: `parse` keeps every namespace of a tiling.
* `NamespaceBoundList.getNamespace_of_tiles`: on a tiling from `MIN` to `MAX`, `get_namespace`
  returns the namespace that holds the object name.
* `NamespaceBoundList.getNamespaces_of_tiles`: on such a tiling, `get_namespaces` gives the
  namespaces back.
-/

namespace Swift

/-- A namespace bound: `Namespace.MIN`, an object name, or `Namespace.MAX`. -/
inductive Bound where
  | minBound
  | name (s : String) (ne : s ≠ "")
  | maxBound

namespace Bound

/-- The outer bounds sit below and above every name; names compare as strings. -/
def key : Bound → ℕ ×ₗ String
  | minBound => toLex (0, "")
  | name s _ => toLex (1, s)
  | maxBound => toLex (2, "")

theorem key_injective : Function.Injective key := by
  intro a b h
  cases a <;> cases b <;> simp_all [key]

instance : LinearOrder Bound := LinearOrder.lift' key key_injective

theorem le_def {a b : Bound} : a ≤ b ↔ a.key ≤ b.key := Iff.rfl

theorem lt_def {a b : Bound} : a < b ↔ a.key < b.key := Iff.rfl

@[simp] theorem minBound_le (b : Bound) : minBound ≤ b := by
  cases b <;> simp [le_def, key, Prod.Lex.toLex_le_toLex]

@[simp] theorem le_maxBound (b : Bound) : b ≤ maxBound := by
  cases b <;> simp [le_def, key, Prod.Lex.toLex_le_toLex]

@[simp] theorem minBound_lt_name {s : String} (h : s ≠ "") : minBound < name s h := by
  simp [lt_def, key, Prod.Lex.toLex_lt_toLex]

@[simp] theorem name_lt_maxBound {s : String} (h : s ≠ "") : name s h < maxBound := by
  simp [lt_def, key, Prod.Lex.toLex_lt_toLex]

@[simp] theorem name_lt_name {s t : String} {hs : s ≠ ""} {ht : t ≠ ""} :
    name s hs < name t ht ↔ s < t := by
  simp [lt_def, key, Prod.Lex.toLex_lt_toLex]

@[simp] theorem name_le_name {s t : String} {hs : s ≠ ""} {ht : t ≠ ""} :
    name s hs ≤ name t ht ↔ s ≤ t := by
  simp [le_def, key, Prod.Lex.toLex_le_toLex]

/-- The `lower` setter: `''` is `Namespace.MIN`. -/
def ofLower (s : String) : Bound := if h : s = "" then minBound else name s h

/-- The `upper` setter: `''` is `Namespace.MAX`. -/
def ofUpper (s : String) : Bound := if h : s = "" then maxBound else name s h

/-- `str(bound)`: the outer bounds print as `''`. -/
def toStr : Bound → String
  | name s _ => s
  | _ => ""

/-- `repr(bound)`, as the `ValueError` texts show it; `'` is `Char.ofNat 39`. -/
def pyRepr : Bound → String
  | minBound => "MinBound"
  | name s _ => (String.singleton (Char.ofNat 39)) ++ s ++ String.singleton (Char.ofNat 39)
  | maxBound => "MaxBound"

theorem ofLower_ne_maxBound (s : String) : ofLower s ≠ maxBound := by
  unfold ofLower
  split <;> simp

theorem ofUpper_ne_minBound (s : String) : ofUpper s ≠ minBound := by
  unfold ofUpper
  split <;> simp

theorem ofLower_toStr {b : Bound} (h : b ≠ maxBound) : ofLower b.toStr = b := by
  cases b with
  | minBound => rfl
  | name s hs => simp [ofLower, toStr, hs]
  | maxBound => exact absurd rfl h

theorem ofUpper_toStr {b : Bound} (h : b ≠ minBound) : ofUpper b.toStr = b := by
  cases b with
  | minBound => exact absurd rfl h
  | name s hs => simp [ofUpper, toStr, hs]
  | maxBound => rfl

theorem empty_lt {s : String} (h : s ≠ "") : "" < s := by
  rw [String.lt_iff_toList_lt]
  cases hs : s.toList with
  | nil => exact absurd (String.toList_eq_nil_iff.mp hs) h
  | cons c cs => exact List.nil_lt_cons c cs

/-- Comparing a lower bound's string with an object name is comparing the bound. -/
theorem toStr_lt_iff {b : Bound} (h : b ≠ maxBound) {obj : String} (hobj : obj ≠ "") :
    b.toStr < obj ↔ b < name obj hobj := by
  cases b with
  | minBound => simpa [toStr] using empty_lt hobj
  | name s hs => simp [toStr]
  | maxBound => exact absurd rfl h

/-- The query's `lower < ?` on the stored string is the namespace's lower bound below the name. -/
theorem lt_iff_ofLower_lt (s : String) {obj : String} (hobj : obj ≠ "") :
    s < obj ↔ ofLower s < name obj hobj := by
  unfold ofLower
  split
  next h => simpa [h] using empty_lt hobj
  next h => simp

/-- The query's `upper = '' OR upper >= ?` is the name at or below the namespace's upper bound. -/
theorem le_ofUpper_iff (s : String) {obj : String} (hobj : obj ≠ "") :
    (s = "" ∨ obj ≤ s) ↔ name obj hobj ≤ ofUpper s := by
  unfold ofUpper
  split
  next h => simp [h]
  next h => simp [h]

end Bound

/-- `Namespace(name, lower, upper)`: the object names above `lower` up to `upper`. -/
@[ext]
structure Namespace where
  name : String
  lower : Bound
  upper : Bound
  lower_le_upper : lower ≤ upper

instance : DecidableEq Namespace := fun a b =>
  decidable_of_iff (a.name = b.name ∧ a.lower = b.lower ∧ a.upper = b.upper) (by
    constructor
    · rintro ⟨h₁, h₂, h₃⟩
      exact Namespace.ext h₁ h₂ h₃
    · rintro rfl
      exact ⟨rfl, rfl, rfl⟩)

namespace Namespace

/-- The namespace as the interval `(lower, upper]`. -/
def bounds (ns : Namespace) : Bound × Bound := (ns.lower, ns.upper)

/-- `Namespace(name, lower, upper)` from strings: the `upper` setter raises `ValueError` when the
upper bound is below the lower one. -/
def make (name lower upper : String) : Except String Namespace :=
  if h : Bound.ofLower lower ≤ Bound.ofUpper upper then .ok ⟨name, _, _, h⟩
  else .error ("upper (" ++ (Bound.ofUpper upper).pyRepr ++
    ") must be greater than or equal to lower (" ++ (Bound.ofLower lower).pyRepr ++ ")")

/-- A namespace whose bounds, printed with `str`, read back as the same bounds: its lower bound is
not `MAX` and its upper bound not `MIN`, the two outer bounds `str` does not tell apart. -/
def Printable (ns : Namespace) : Prop := ns.lower ≠ .maxBound ∧ ns.upper ≠ .minBound

/-- What `Namespace(name, lower, upper)` builds when the setters do not raise. -/
theorem make_eq_ok {name lower upper : String} {ns : Namespace}
    (h : make name lower upper = .ok ns) :
    ns.name = name ∧ ns.lower = Bound.ofLower lower ∧ ns.upper = Bound.ofUpper upper := by
  unfold make at h
  split at h
  next => cases h; exact ⟨rfl, rfl, rfl⟩
  next => cases h

/-- A namespace read from a row's strings prints back to them. -/
theorem printable_of_make_eq_ok {name lower upper : String} {ns : Namespace}
    (h : make name lower upper = .ok ns) : ns.Printable := by
  obtain ⟨-, hl, hu⟩ := make_eq_ok h
  exact ⟨hl ▸ Bound.ofLower_ne_maxBound lower, hu ▸ Bound.ofUpper_ne_minBound upper⟩

theorem make_toStr (ns : Namespace) (hl : ns.lower ≠ .maxBound) (hu : ns.upper ≠ .minBound) :
    make ns.name ns.lower.toStr ns.upper.toStr = .ok ns := by
  have hlow := Bound.ofLower_toStr hl
  have hup := Bound.ofUpper_toStr hu
  unfold make
  rw [dif_pos (by rw [hlow, hup]; exact ns.lower_le_upper)]
  congr 1
  ext <;> simp [hlow, hup]

end Namespace

/-- Python's `l[i]`: a negative index counts from the end. -/
def pyIndex {α : Type*} (l : List α) (i : Int) : Option α :=
  if 0 ≤ i then l[i.toNat]?
  else if -i ≤ l.length then l[(l.length + i).toNat]? else none

/-- `NamespaceBoundList`: `[lower bound, name]` entries ordered by lower bound. -/
structure NamespaceBoundList where
  bounds : List (String × String)

namespace NamespaceBoundList

/-- The entry `parse` keeps for a namespace: `[ns.lower_str, str(ns.name)]`. -/
def entry (ns : Namespace) : String × String := (ns.lower.toStr, ns.name)

/-- The loop of `parse`: keep a namespace unless it begins below the upper bound of the last one
kept. -/
def parseLoop : List Namespace → Bound → List (String × String)
  | [], _ => []
  | ns :: nss, upper =>
    if ns.lower < upper then parseLoop nss upper
    else entry ns :: parseLoop nss ns.upper

/-- `NamespaceBoundList.parse`: `None` for no namespaces. -/
def parse : List Namespace → Option NamespaceBoundList
  | [] => none
  | ns :: nss => some ⟨parseLoop (ns :: nss) ns.lower⟩

/-- `bisect.bisect(bounds, [item])` on bounds ordered by lower bound: the number of leading
entries not above `[item]`. An entry `[lower, name]` is not above `[item]` exactly when
`lower < item`, since a list sorts after its own prefix. -/
def bisect (bounds : List (String × String)) (item : String) : Nat :=
  (bounds.takeWhile fun b => decide (b.1 < item)).length

/-- `NamespaceBoundList.get_namespace(item)`: the entry before the bisection point, up to the
next entry's lower bound (or `''` after the last). Python's index `-1` is the last entry. -/
def getNamespace (nbl : NamespaceBoundList) (item : String) : Except String Namespace :=
  let pos : Int := (bisect nbl.bounds item : Int) - 1
  match pyIndex nbl.bounds pos with
  | none => .error "list index out of range"
  | some (lower, name) =>
    let upper :=
      if pos + 1 = nbl.bounds.length then "" else (nbl.bounds.getD (pos + 1).toNat ("", "")).1
    Namespace.make name lower upper

/-- The loop of `get_namespaces`: each entry up to the next entry's lower bound, the last one up
to `''`. -/
def namespacesOf : List (String × String) → Except String (List Namespace)
  | [] => .ok []
  | [(lower, name)] => (Namespace.make name lower "").map fun ns => [ns]
  | (lower, name) :: next :: rest => do
    let ns ← Namespace.make name lower next.1
    let nss ← namespacesOf (next :: rest)
    return ns :: nss

/-- `NamespaceBoundList.get_namespaces()`. -/
def getNamespaces (nbl : NamespaceBoundList) : Except String (List Namespace) :=
  namespacesOf nbl.bounds

/-! ### Bound lists of a tiling -/

section Tiles

open Tiling

variable {ns : Namespace} {nss : List Namespace}

/-- `parse` keeps every namespace of a tiling. -/
theorem parseLoop_of_tiles (h : Tiles ((ns :: nss).map Namespace.bounds)) :
    parseLoop (ns :: nss) ns.lower = (ns :: nss).map entry := by
  induction nss generalizing ns with
  | nil => simp [parseLoop]
  | cons ns' nss ih =>
    -- the next namespace starts where this one ends, so it is not an overlap
    have hnext : ns'.lower = ns.upper := (List.isChain_cons_cons.mp h.chain).1
    have htail : Tiles ((ns' :: nss).map Namespace.bounds) := h.of_cons
    rw [parseLoop, if_neg (lt_irrefl _), ← hnext, ih htail]
    rfl

theorem parse_of_tiles (h : Tiles ((ns :: nss).map Namespace.bounds)) :
    parse (ns :: nss) = some ⟨(ns :: nss).map entry⟩ := by
  rw [parse, parseLoop_of_tiles h]

theorem parse_eq_of_tiles {L : List Namespace} (hne : L ≠ []) (h : Tiles (L.map Namespace.bounds)) :
    parse L = some ⟨L.map entry⟩ := by
  obtain ⟨ns, nss, rfl⟩ := List.exists_cons_of_ne_nil hne
  exact parse_of_tiles h

/-- On the entries of a tiling, bisecting by strings is bisecting by bounds. -/
theorem bisect_map_entry {L : List Namespace} (hsane : ∀ m ∈ L, m.lower ≠ .maxBound)
    {obj : String} (hobj : obj ≠ "") :
    bisect (L.map entry) obj =
      ((L.map Namespace.bounds).takeWhile fun b => decide (b.1 < .name obj hobj)).length := by
  induction L with
  | nil => rfl
  | cons m L ih =>
    have hm : m.lower.toStr < obj ↔ m.lower < .name obj hobj :=
      Bound.toStr_lt_iff (hsane m List.mem_cons_self) hobj
    have ih' := ih fun m' hm' => hsane m' (List.mem_cons_of_mem _ hm')
    simp only [bisect] at ih' ⊢
    rw [List.map_cons, List.map_cons, List.takeWhile_cons, List.takeWhile_cons]
    by_cases hlt : m.lower < .name obj hobj
    · have h1 : decide ((entry m).1 < obj) = true := decide_eq_true (hm.mpr hlt)
      have h2 : decide (m.bounds.1 < Bound.name obj hobj) = true := decide_eq_true hlt
      rw [if_pos h1, if_pos h2, List.length_cons, List.length_cons, ih']
    · have h1 : decide ((entry m).1 < obj) = false := decide_eq_false (mt hm.mp hlt)
      have h2 : decide (m.bounds.1 < Bound.name obj hobj) = false := decide_eq_false hlt
      rw [if_neg (by rw [h1]; exact Bool.false_ne_true), if_neg (by rw [h2]; exact Bool.false_ne_true)]
      rfl

/-- On a tiling from `MIN` to `MAX`, `get_namespaces` gives the namespaces back. -/
theorem getNamespaces_of_tiles {L : List Namespace} (hne : L ≠ [])
    (hT : Tiles (L.map Namespace.bounds))
    (hsane : ∀ m ∈ L, m.lower ≠ .maxBound ∧ m.upper ≠ .minBound)
    (hmax : (L.getLast hne).upper = .maxBound) :
    (⟨L.map entry⟩ : NamespaceBoundList).getNamespaces = .ok L := by
  obtain ⟨ns, nss, rfl⟩ := List.exists_cons_of_ne_nil hne
  unfold getNamespaces
  -- each entry ends where the next begins, and the last one at `MAX`
  induction nss generalizing ns with
  | nil =>
    have hsane_ns := hsane ns List.mem_cons_self
    have hup : ns.upper = .maxBound := hmax
    have hmake := Namespace.make_toStr ns hsane_ns.1 hsane_ns.2
    rw [hup, show Bound.maxBound.toStr = "" from rfl] at hmake
    simp only [List.map_cons, List.map_nil, namespacesOf, entry, hmake]
    rfl
  | cons ns' nss ih =>
    have hsane_ns := hsane ns List.mem_cons_self
    have hnext : ns'.lower = ns.upper := (List.isChain_cons_cons.mp hT.chain).1
    have hmake := Namespace.make_toStr ns hsane_ns.1 hsane_ns.2
    rw [← hnext] at hmake
    have hrest := ih ns' (by simp) hT.of_cons (fun m hm => hsane m (List.mem_cons_of_mem _ hm))
      (by simpa using hmax)
    simp only [List.map_cons] at hrest ⊢
    rw [namespacesOf]
    simp only [entry] at hrest ⊢
    rw [hmake, hrest]
    rfl

variable {L : List Namespace} (hne : L ≠ []) (hT : Tiles (L.map Namespace.bounds))
  (hsane : ∀ m ∈ L, m.lower ≠ .maxBound ∧ m.upper ≠ .minBound)
  (hmin : (L.head hne).lower = .minBound) (hmax : (L.getLast hne).upper = .maxBound)
include hne hT hsane hmin hmax

/-- On a tiling from `MIN` to `MAX`, `get_namespace` returns the namespace that holds the
name. -/
theorem getNamespace_of_tiles {obj : String} (hobj : obj ≠ "") :
    ∃ p, ∃ hp : p < L.length, (⟨L.map entry⟩ : NamespaceBoundList).getNamespace obj = .ok L[p] ∧
      Bound.name obj hobj ∈ Set.Ioc L[p].lower L[p].upper := by
  obtain ⟨ns, nss, rfl⟩ := List.exists_cons_of_ne_nil hne
  -- look the name up in the tiling of bounds: it lies between `MIN` and `MAX`
  have hlo : ns.bounds.1 < Bound.name obj hobj := by
    rw [show ns.bounds.1 = ((ns :: nss).head hne).lower from rfl, hmin]
    exact Bound.minBound_lt_name hobj
  have hhi : Bound.name obj hobj ≤ (((ns :: nss).map Namespace.bounds).getLast (by simp)).2 := by
    rw [List.getLast_map]
    show _ ≤ ((ns :: nss).getLast _).upper
    rw [hmax]
    exact Bound.le_maxBound _
  obtain ⟨p, hlen, hp, hmem⟩ := Tiles.exists_takeWhile hT hlo hhi
  have hp' : p < (ns :: nss).length := by simpa using hp
  have hmem' : Bound.name obj hobj ∈ Set.Ioc (ns :: nss)[p].lower (ns :: nss)[p].upper := by
    change Bound.name obj hobj ∈ Set.Ioc ((ns :: nss).map Namespace.bounds)[p].1
      ((ns :: nss).map Namespace.bounds)[p].2 at hmem
    simp only [List.getElem_map] at hmem
    exact hmem
  refine ⟨p, hp', ?_, hmem'⟩
  have hbis : bisect ((ns :: nss).map entry) obj = p + 1 := by
    rw [bisect_map_entry (fun m hm => (hsane m hm).1) hobj]
    exact hlen
  have hsane_p := hsane (ns :: nss)[p] (List.getElem_mem hp')
  simp only [getNamespace, hbis]
  have hidx : pyIndex ((ns :: nss).map entry) ((↑(p + 1) : Int) - 1) = some (entry (ns :: nss)[p]) := by
    rw [pyIndex, if_pos (by omega), show ((↑(p + 1) : Int) - 1).toNat = p by omega,
      List.getElem?_map, List.getElem?_eq_getElem hp']
    rfl
  rw [hidx]
  have hpos : (↑(p + 1) : Int) - 1 + 1 = ↑(p + 1) := by omega
  simp only [entry, hpos, List.length_map, Int.toNat_natCast]
  have hmake := Namespace.make_toStr (ns :: nss)[p] hsane_p.1 hsane_p.2
  by_cases hlast : p + 1 = (ns :: nss).length
  · -- the last entry: its upper bound is `''`, that is `MAX`
    have hup : (ns :: nss)[p].upper = .maxBound := by
      rw [← hmax, List.getLast_eq_getElem]
      simp only [← hlast, Nat.add_sub_cancel]
    rw [if_pos (by rw [hlast])]
    rw [hup] at hmake
    exact hmake
  · -- otherwise the upper bound is the next entry's lower bound, where this one ends
    have hnext : p + 1 < (ns :: nss).length := by omega
    have hfst : (ns :: nss)[p + 1].lower = (ns :: nss)[p].upper := by
      have h := hT.getElem_succ_fst p (by simpa using hnext)
      simp only [List.getElem_map] at h
      exact h
    have hgetD : ((ns :: nss).map entry).getD (p + 1) ("", "") = entry (ns :: nss)[p + 1] := by
      rw [List.getD_eq_getElem?_getD, List.getElem?_map, List.getElem?_eq_getElem hnext]
      rfl
    rw [if_neg (by omega), hgetD]
    simp only [entry, hfst]
    exact hmake

end Tiles

end NamespaceBoundList

end Swift
