import Mathlib.Data.List.Basic

/-!
# Lists updated in place

A Python list used as an array: `l[i] = x` is `List.set`, an update of the element at `i` in
place is `List.modify`, a read with a default is `List.getD`, and a `for` loop over a list that
updates a state is a left fold. A loop keeps a property of its state when each of its steps does
(`foldl_invariant`), and an update at one index leaves the others (`getD_modify_of_ne`).
-/

namespace Swift

namespace ListUpdate

theorem foldl_invariant {α σ : Type*} {P : σ → Prop} {f : σ → α → σ} {l : List α} {s : σ}
    (hs : P s) (hf : ∀ s, ∀ a ∈ l, P s → P (f s a)) : P (l.foldl f s) := by
  induction l generalizing s with
  | nil => exact hs
  | cons a l ih =>
    exact ih (hf s a List.mem_cons_self hs) fun s' a' ha' => hf s' a' (List.mem_cons_of_mem _ ha')

variable {α : Type*}

theorem getD_modify_of_ne (l : List α) (f : α → α) {i j : Nat} (h : i ≠ j) (d : α) :
    (l.modify i f).getD j d = l.getD j d := by
  rw [List.getD_eq_getElem?_getD, List.getElem?_modify_ne _ _ h, ← List.getD_eq_getElem?_getD]

/-- An update that fixes the default reads back through it. -/
theorem getD_modify_self (l : List α) (f : α → α) (i : Nat) {d : α} (hf : f d = d) :
    (l.modify i f).getD i d = f (l.getD i d) := by
  rw [List.getD_eq_getElem?_getD, List.getElem?_modify, List.getD_eq_getElem?_getD]
  cases l[i]? with
  | none => exact hf.symm
  | some a => simp

theorem getD_set_of_ne (l : List α) {i j : Nat} (h : i ≠ j) (a d : α) :
    (l.set i a).getD j d = l.getD j d := by
  rw [List.getD_eq_getElem?_getD, List.getElem?_set_ne h, ← List.getD_eq_getElem?_getD]

/-- Zeroing an entry of a list of counters lowers it. -/
theorem getD_set_zero_le (l : List Nat) (p q : Nat) : (l.set p 0).getD q 0 ≤ l.getD q 0 := by
  by_cases h : p = q
  · subst h
    rw [List.getD_eq_getElem?_getD, List.getElem?_set_self']
    cases l[p]? <;> simp
  · exact Nat.le_of_eq (getD_set_of_ne l h 0 0)

/-- An update in place of a list built index by index. -/
theorem modify_map_range (f : Nat → α) (g : α → α) (n j : Nat) :
    ((List.range n).map f).modify j g = (List.range n).map fun i => if j = i then g (f i) else f i := by
  refine List.ext_getElem (by simp) fun i h₁ h₂ => ?_
  rw [List.getElem_modify, List.getElem_map, List.getElem_map, List.getElem_range]

theorem mapIdx_map_range {β : Type*} (f : Nat → α) (g : Nat → α → β) (n : Nat) :
    ((List.range n).map f).mapIdx g = (List.range n).map fun i => g i (f i) := by
  refine List.ext_getElem (by simp) fun i h₁ h₂ => ?_
  rw [List.getElem_mapIdx, List.getElem_map, List.getElem_map, List.getElem_range]

end ListUpdate

end Swift
