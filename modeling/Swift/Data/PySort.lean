import Swift.Data.Bisect
import Mathlib.Data.List.Sort

/-!
# CPython's `list.sort` on short lists

For a list shorter than `MIN_MERGE` (64), CPython's `listsort` makes one run of the whole list.
`count_run` measures the run at the start of the list, which is either non-descending or strictly
descending, and a descending run is reversed. `binarysort` then inserts each later element into
the run by binary search, after the elements it is not below. This is the algorithm of the
CPython versions up to 3.12. The comparison is a Boolean `lt`, Python's `<` on the keys; with
`functools.cmp_to_key(cmp)` it is `cmp(a, b) < 0`.

Nothing here assumes that `lt` is an order. That matters: with a comparison that is not
transitive, what `list.sort` returns depends on the order it is given.

## Main results

* `sortShort?_of_chain` — a list with no element below the one before it is left as it is
* `le_of_getLast?_sortByKey`, `le_of_sortByKey_eq_cons` — sorted by a key, the last element has
  the largest key and the first the smallest
* `countP_le_getElem_sortByKey` — on distinct keys, the element at index `j` of the sorted list
  has `j + 1` elements with a key at most its own
* `sortByKey_filter`, `filter_lt_getElem_of_pairwise` — on distinct keys a filter commutes with
  the sort, and the elements above the one at index `j` are those after it
-/

namespace Swift

namespace PySort

variable {α : Type*} (lt : α → α → Bool)

/-- The loop of `count_run` on a non-descending run: the elements after `prev` that are not
below the one before them. -/
def ascLen (prev : α) : List α → Nat
  | [] => 0
  | x :: rest => if lt x prev then 0 else ascLen x rest + 1

/-- The loop of `count_run` on a strictly descending run. -/
def descLen (prev : α) : List α → Nat
  | [] => 0
  | x :: rest => if lt x prev then descLen x rest + 1 else 0

/-- `count_run`: the length of the run at the start of the list, and whether it is strictly
descending. -/
def countRun : List α → Nat × Bool
  | [] => (0, false)
  | [_] => (1, false)
  | a :: b :: rest => if lt b a then (descLen lt b rest + 2, true) else (ascLen lt b rest + 2, false)

/-- One step of `binarysort`: `pivot` goes into the sorted prefix after every element it is not
below. The search is `bisect_right`'s, with `IFLT(pivot, *p)` as the test. -/
def binaryInsert (sorted : List α) (pivot : α) : List α :=
  let pos := Bisect.bisectLeft sorted fun x => !lt pivot x
  sorted.take pos ++ pivot :: sorted.drop pos

/-- `binarysort(lo, hi, start)`: the elements from `start` on, inserted one after another. -/
def binarySort (run rest : List α) : List α := rest.foldl (binaryInsert lt) run

/-- `list.sort()` on a list shorter than `MIN_MERGE`; `none` for a longer list, whose runs are
merged, which this model leaves out. -/
def sortShort? (l : List α) : Option (List α) :=
  if 64 ≤ l.length then none
  else
    let run := countRun lt l
    some (binarySort lt (if run.2 then (l.take run.1).reverse else l.take run.1) (l.drop run.1))

variable {lt}

theorem ascLen_of_chain {prev : α} {rest : List α}
    (h : (prev :: rest).IsChain fun a b => lt b a = false) : ascLen lt prev rest = rest.length := by
  induction rest generalizing prev with
  | nil => rfl
  | cons x rest ih =>
    obtain ⟨hx, hrest⟩ := List.isChain_cons_cons.mp h
    rw [ascLen, if_neg (by rw [hx]; exact Bool.false_ne_true), ih hrest, List.length_cons]

/-- A list with no element below the one before it is one run, and `list.sort` leaves it as it
is, whatever `lt` is. -/
theorem sortShort?_of_chain {l : List α} (hlen : l.length < 64)
    (h : l.IsChain fun a b => lt b a = false) : sortShort? lt l = some l := by
  have hrun : countRun lt l = (l.length, false) := by
    match l, h with
    | [], _ => rfl
    | [_], _ => rfl
    | a :: b :: rest, h =>
      obtain ⟨hab, hrest⟩ := List.isChain_cons_cons.mp h
      rw [countRun, if_neg (by rw [hab]; exact Bool.false_ne_true), ascLen_of_chain hrest]
      simp
  rw [sortShort?, if_neg (Nat.not_le.mpr hlen), hrun]
  simp [binarySort]

/-! ### Sorting by a key -/

section Key

variable {β : Type*} [LinearOrder β] (key : α → β)

/-- `list.sort(key=key)` with keys in a linear order. The sort is stable, and a stable sort by a
total preorder has only one result, so it is the insertion sort on the keys. -/
def sortByKey (l : List α) : List α := l.insertionSort fun a b => key a ≤ key b

variable {key}

theorem mem_sortByKey {l : List α} {x : α} : x ∈ sortByKey key l ↔ x ∈ l :=
  List.mem_insertionSort _

theorem pairwise_sortByKey (l : List α) :
    (sortByKey key l).Pairwise fun a b => key a ≤ key b := by
  have : Std.Total fun a b : α => key a ≤ key b := ⟨fun a b => le_total (key a) (key b)⟩
  have : IsTrans α fun a b => key a ≤ key b := ⟨fun _ _ _ => le_trans⟩
  exact List.pairwise_insertionSort _ l

theorem sortByKey_ne_nil {l : List α} (h : l ≠ []) : sortByKey key l ≠ [] := by
  obtain ⟨x, hx⟩ := List.exists_mem_of_ne_nil l h
  exact List.ne_nil_of_mem (mem_sortByKey.mpr hx)

/-- The last element of a list sorted by a key has the largest key: `l.sort(key=key)[-1]`. -/
theorem le_of_getLast?_sortByKey {l : List α} {x : α} (h : (sortByKey key l).getLast? = some x) :
    x ∈ l ∧ ∀ y ∈ l, key y ≤ key x := by
  refine ⟨mem_sortByKey.mp (List.mem_of_getLast? h), fun y hy => ?_⟩
  obtain ⟨init, hinit⟩ := List.getLast?_eq_some_iff.mp h
  have hpw : (sortByKey key l).Pairwise fun a b => key a ≤ key b := pairwise_sortByKey l
  have hy' : y ∈ init ++ [x] := hinit ▸ mem_sortByKey.mpr hy
  rw [hinit] at hpw
  rcases List.mem_append.mp hy' with hy | hy
  · exact (List.pairwise_append.mp hpw).2.2 y hy x (List.mem_singleton_self _)
  · rw [List.mem_singleton.mp hy]

/-- The first element of a list sorted by a key has the smallest key: `l.sort(key=key)[0]`. -/
theorem le_of_sortByKey_eq_cons {l rest : List α} {x : α} (h : sortByKey key l = x :: rest) :
    x ∈ l ∧ ∀ y ∈ l, key x ≤ key y := by
  have hpw : (sortByKey key l).Pairwise fun a b => key a ≤ key b := pairwise_sortByKey l
  rw [h] at hpw
  refine ⟨mem_sortByKey.mp (h ▸ List.mem_cons_self), fun y hy => ?_⟩
  rcases List.mem_cons.mp (h ▸ mem_sortByKey.mpr hy) with rfl | hy
  · exact le_rfl
  · exact List.rel_of_pairwise_cons hpw hy

theorem perm_sortByKey (l : List α) : (sortByKey key l).Perm l := List.perm_insertionSort _ l

/-- In a list whose keys strictly increase, `j + 1` elements have a key at most the one at
index `j`. -/
theorem countP_le_getElem_of_pairwise {l : List α} (hl : l.Pairwise fun a b => key a < key b)
    (j : Nat) (hj : j < l.length) : l.countP (fun y => key y ≤ key l[j]) = j + 1 := by
  induction l generalizing j with
  | nil => simp at hj
  | cons a l ih =>
    obtain ⟨ha, hl⟩ := List.pairwise_cons.mp hl
    cases j with
    | zero =>
      -- every later key is above `a`
      have hnone : l.countP (fun y => key y ≤ key a) = 0 :=
        List.countP_eq_zero.mpr fun y hy => by simpa using ha y hy
      simp [hnone]
    | succ j =>
      have hj' : j < l.length := by simpa using hj
      have hle : key a ≤ key l[j] := (ha _ (List.getElem_mem hj')).le
      rw [List.countP_cons, List.getElem_cons_succ, ih hl j hj']
      simp [hle]

/-- On distinct keys the sorted list's keys strictly increase. -/
theorem pairwise_lt_sortByKey {l : List α} (hnodup : (l.map key).Nodup) :
    (sortByKey key l).Pairwise fun a b => key a < key b := by
  have hne : (sortByKey key l).Pairwise fun a b => key a ≠ key b :=
    List.pairwise_map.mp (((perm_sortByKey l).map key).nodup_iff.mpr hnodup)
  exact (pairwise_sortByKey l).imp₂ (fun _ _ hle hne => lt_of_le_of_ne hle hne) hne

/-- `ORDER BY key LIMIT 1 OFFSET j` on distinct keys: the row it returns has exactly `j + 1` rows
with a key at most its own. -/
theorem countP_le_getElem_sortByKey {l : List α} (hnodup : (l.map key).Nodup) {j : Nat}
    (hj : j < (sortByKey key l).length) :
    l.countP (fun y => key y ≤ key (sortByKey key l)[j]) = j + 1 := by
  have hperm : (sortByKey key l).Perm l := perm_sortByKey l
  rw [← hperm.countP_eq]
  exact countP_le_getElem_of_pairwise (pairwise_lt_sortByKey hnodup) j hj

/-- On distinct keys, sorting a filtered list is filtering the sorted list: a query's extra
condition can be applied before or after its `ORDER BY`. -/
theorem sortByKey_filter {l : List α} (hnodup : (l.map key).Nodup) (p : α → Bool) :
    sortByKey key (l.filter p) = (sortByKey key l).filter p := by
  have hinj := List.inj_on_of_nodup_map hnodup
  have h₁ : (sortByKey key (l.filter p)).Pairwise fun a b => key a ≤ key b :=
    pairwise_sortByKey _
  have h₂ : ((sortByKey key l).filter p).Pairwise fun a b => key a ≤ key b :=
    (pairwise_sortByKey l).filter p
  refine List.Perm.eq_of_pairwise ?_ h₁ h₂ ?_
  · intro a b ha hb hab hba
    have ha' : a ∈ l := (List.mem_filter.mp (mem_sortByKey.mp ha)).1
    have hb' : b ∈ l := mem_sortByKey.mp (List.mem_filter.mp hb).1
    exact hinj ha' hb' (le_antisymm hab hba)
  · exact (perm_sortByKey _).trans ((perm_sortByKey l).filter p).symm

/-- In a list whose keys strictly increase, the elements with a key above the one at index `j`
are those after it: `WHERE key > ?` from the last row of a batch is the rest of the list. -/
theorem filter_lt_getElem_of_pairwise {l : List α} (hl : l.Pairwise fun a b => key a < key b)
    (j : Nat) (hj : j < l.length) : l.filter (fun y => key l[j] < key y) = l.drop (j + 1) := by
  induction l generalizing j with
  | nil => simp at hj
  | cons a l ih =>
    obtain ⟨ha, hl⟩ := List.pairwise_cons.mp hl
    cases j with
    | zero =>
      -- every later key is above `a`, and `a` is not above itself
      have hrest : l.filter (fun y => key a < key y) = l :=
        List.filter_eq_self.mpr fun y hy => by simpa using ha y hy
      simpa [List.filter_cons] using hrest
    | succ j =>
      have hj' : j < l.length := by simpa using hj
      have hnot : ¬ key l[j] < key a := not_lt.mpr (ha _ (List.getElem_mem hj')).le
      rw [List.filter_cons, List.getElem_cons_succ, if_neg (by simpa using hnot), ih hl j hj']
      rfl

end Key

end PySort

end Swift
