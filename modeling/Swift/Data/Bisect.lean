import Mathlib.Data.List.Basic

/-!
# Binary search: `bisect.bisect_left`

`bisect_left(a, x, lo, hi)` halves `[lo, hi)` until it is empty, moving right past `a[mid]` when
`a[mid] < x` and left otherwise. Here `a[mid] < x` is a Boolean test `below` on the element, so
the comparison can be any of Python's (an object's `__lt__` against a key, for instance).

When `below` holds on a prefix of the list and fails on the rest, the search returns the length
of that prefix, whatever `[lo, hi)` it starts from, provided the interval brackets the boundary.
The invariant is the one of the loop: everything before `lo` is below, nothing from `hi` on is.

## Main results

* `brackets_bisectLeftFrom` — from any bracketing interval the search ends at the boundary
* `bisectLeft_spec`, `bisectLeft_eq_findIdx` — on a list sorted for `below`, `bisect_left` is
  the first index where `below` fails, and every earlier element is below
-/

namespace Swift

namespace Bisect

variable {α : Type*}

/-- `bisect.bisect_left(a, x, lo, hi)` with `a[mid] < x` written `below a[mid]`. -/
def bisectLeftFrom (a : List α) (below : α → Bool) (lo hi : Nat) : Nat :=
  if h : lo < hi then
    let mid := (lo + hi) / 2
    if (a[mid]?.map below).getD false then bisectLeftFrom a below (mid + 1) hi
    else bisectLeftFrom a below lo mid
  else lo
termination_by hi - lo

/-- `bisect.bisect_left(a, x)`: the search over the whole list. -/
def bisectLeft (a : List α) (below : α → Bool) : Nat := bisectLeftFrom a below 0 a.length

/-- `bisect.bisect_right(a, x)`, which is `bisect.bisect`: the same halving with the test
`not x < a[mid]`, so that it also moves right past the elements equal to `x`. -/
def bisectRight [LT α] [DecidableLT α] (a : List α) (x : α) : Nat :=
  bisectLeft a fun y => !decide (x < y)

/-- `below` holds on a prefix of the list and fails on the rest: once it fails it keeps
failing. -/
def SortedFor (a : List α) (below : α → Bool) : Prop :=
  ∀ i j (hi : i < a.length) (hj : j < a.length), i ≤ j → below a[j] = true → below a[i] = true

/-- The invariant of the loop: `[lo, hi)` lies in the list, everything before `lo` is below and
nothing from `hi` on is. -/
def Brackets (a : List α) (below : α → Bool) (lo hi : Nat) : Prop :=
  lo ≤ hi ∧ hi ≤ a.length ∧
    (∀ i (h : i < a.length), i < lo → below a[i] = true) ∧
    (∀ i (h : i < a.length), hi ≤ i → below a[i] = false)

variable {a : List α} {below : α → Bool}

theorem not_below_of_le (hs : SortedFor a below) {i j : Nat} (hi : i < a.length)
    (hj : j < a.length) (hij : i ≤ j) (hnot : below a[i] = false) : below a[j] = false := by
  cases hb : below a[j]
  · rfl
  · rw [hs i j hi hj hij hb] at hnot
    cases hnot

/-- One step of the loop keeps the interval bracketing the boundary. The induction follows the
loop: a step right past a `mid` that is below, a step left onto one that is not, and the end. -/
theorem brackets_bisectLeftFrom (hs : SortedFor a below) {lo hi : Nat}
    (h : Brackets a below lo hi) :
    Brackets a below (bisectLeftFrom a below lo hi) (bisectLeftFrom a below lo hi) := by
  induction lo, hi using bisectLeftFrom.induct a below with
  | case1 lo hi hlt mid hmid ih =>
    rw [bisectLeftFrom, dif_pos hlt, if_pos hmid]
    obtain ⟨-, hhi, hlow, hhigh⟩ := h
    have hmidlt : mid < a.length := by omega
    have hbelow : below a[mid] = true := by simpa [List.getElem?_eq_getElem hmidlt] using hmid
    -- `a[mid]` is below, so everything up to it is
    exact ih ⟨by omega, hhi,
      fun i hi _ => hs i mid hi hmidlt (by omega) hbelow, hhigh⟩
  | case2 lo hi hlt mid hmid ih =>
    rw [bisectLeftFrom, dif_pos hlt, if_neg hmid]
    obtain ⟨-, hhi, hlow, hhigh⟩ := h
    have hmidlt : mid < a.length := by omega
    have hnot : below a[mid] = false := by simpa [List.getElem?_eq_getElem hmidlt] using hmid
    -- `a[mid]` is not below, so nothing after it is
    exact ih ⟨by omega, by omega, hlow,
      fun j hj hle => not_below_of_le hs hmidlt hj (by omega) hnot⟩
  | case3 lo hi hge =>
    rw [bisectLeftFrom, dif_neg hge]
    -- an empty interval: `lo = hi`
    obtain ⟨hle, hhi, hlow, hhigh⟩ := h
    exact ⟨Nat.le_refl lo, by omega, hlow, fun i hi hle => hhigh i hi (by omega)⟩

/-- On a list sorted for `below`, `bisect_left` returns an index of the list or its length, with
every element before it below and none from it on. -/
theorem bisectLeft_spec (hs : SortedFor a below) :
    Brackets a below (bisectLeft a below) (bisectLeft a below) := by
  refine brackets_bisectLeftFrom hs ⟨Nat.zero_le _, Nat.le_refl _, ?_, ?_⟩
  · intro i _ hi
    exact absurd hi (Nat.not_lt_zero i)
  · intro i hi hle
    exact absurd hi (Nat.not_lt.mpr hle)

/-- On a list sorted for `below`, `bisect_left` is the index of the first element that is not
below, or the length of the list if there is none. -/
theorem bisectLeft_eq_findIdx (hs : SortedFor a below) :
    bisectLeft a below = a.findIdx fun x => !below x := by
  obtain ⟨-, hlen, hlow, hhigh⟩ := bisectLeft_spec hs
  rcases Nat.lt_or_ge (bisectLeft a below) a.length with hlt | hge
  · -- the element at the index is the first one that is not below
    refine ((List.findIdx_eq hlt).mpr ⟨?_, fun j hj => ?_⟩).symm
    · simp [hhigh _ hlt (Nat.le_refl _)]
    · simp [hlow j _ hj]
  · -- every element is below
    have hall : ∀ x ∈ a, (!below x) = false := by
      intro x hx
      obtain ⟨i, hi, rfl⟩ := List.getElem_of_mem hx
      simp [hlow i hi (by omega)]
    rw [List.findIdx_eq_length_of_false hall]
    omega

end Bisect

end Swift
