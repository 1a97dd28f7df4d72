import Mathlib.Order.Basic
import Mathlib.Data.Set.Operations
import Mathlib.Data.Set.Insert
import Mathlib.Data.Prod.Lex

/-!
# Last writer wins

The merge rule behind every replicated record in this development: of two copies, keep the one
whose key is greater, and on a tie keep the copy already held. Nothing here knows what the copies
are; a key is any map into a linear order.

The statements are about *sets* of copies rather than lists, because the property every client
wants is that the order of delivery does not matter. `IsLatest key s x` says that `x` is one of
the copies in `s` and that no copy in `s` has a greater key. It does not say that `x` is unique:
two writers may put different values under one key, and then there are several latest copies.
`IsLatest.unique` is where agreement of writers (`Set.InjOn key s`) enters, and it is the only
place.

## Main definitions

* `LastWriterWins.pick` — keep the incumbent unless the newcomer's key is strictly greater
* `LastWriterWins.IsLatest` — a member of a set with no greater key in the set

## Main results

* `IsLatest.union_pick` — merging the latest copies of two sets gives a latest copy of the union
* `IsLatest.unique` — when writers agree on each key there is one latest copy
-/

namespace Swift

namespace LastWriterWins

variable {α κ : Type*} [LinearOrder κ] (key : α → κ)

/-- Keep `a` unless `b` carries a strictly greater key. On a tie the incumbent `a` stays. -/
def pick (a b : α) : α := if key b ≤ key a then a else b

/-- `x` is a copy in `s` and no copy in `s` has a greater key. -/
def IsLatest (s : Set α) (x : α) : Prop := x ∈ s ∧ ∀ y ∈ s, key y ≤ key x

theorem pick_eq_or (a b : α) : pick key a b = a ∨ pick key a b = b := by
  unfold pick
  split
  · exact .inl rfl
  · exact .inr rfl

theorem key_pick (a b : α) : key (pick key a b) = max (key a) (key b) := by
  unfold pick
  split
  · rename_i h; exact (max_eq_left h).symm
  · rename_i h; exact (max_eq_right (le_of_lt (not_le.mp h))).symm

variable {key}

theorem pick_of_le {a b : α} (h : key b ≤ key a) : pick key a b = a := if_pos h

theorem pick_of_lt {a b : α} (h : key a < key b) : pick key a b = b := if_neg (not_le.mpr h)

@[simp] theorem pick_self (a : α) : pick key a a = a := pick_of_le le_rfl

variable {s t : Set α} {x y : α}

theorem isLatest_singleton (a : α) : IsLatest key {a} a :=
  ⟨rfl, fun y hy => by rw [hy]⟩

theorem IsLatest.key_le (hx : IsLatest key s x) {y : α} (hy : y ∈ s) : key y ≤ key x := hx.2 y hy

/-- **Merge step.** The latest copy of `s` merged with the latest copy of `t` is a latest copy of
`s ∪ t`, whichever of the two wins. -/
theorem IsLatest.union_pick (hx : IsLatest key s x) (hy : IsLatest key t y) :
    IsLatest key (s ∪ t) (pick key x y) := by
  refine ⟨?_, fun z hz => ?_⟩
  · rcases pick_eq_or key x y with h | h <;> rw [h]
    · exact .inl hx.1
    · exact .inr hy.1
  · rw [key_pick key]
    rcases hz with hz | hz
    · exact (hx.2 z hz).trans (le_max_left _ _)
    · exact (hy.2 z hz).trans (le_max_right _ _)

/-- **Agreement of writers.** If no two different copies in `s` share a key, then `s` has at
most one latest copy. -/
theorem IsLatest.unique (hinj : Set.InjOn key s) (hx : IsLatest key s x) (hy : IsLatest key s y) :
    x = y :=
  hinj hx.1 hy.1 (le_antisymm (hy.2 x hx.1) (hx.2 y hy.1))

/-! ### Lexicographic keys

Keys are often pairs compared lexicographically: a coarse timestamp first, then a finer one
that only matters between copies with the same coarse timestamp. -/

theorem toLex_le_toLex_of_fst_eq {β γ : Type*} [Preorder β] [LE γ] {a : β} {x y : γ} :
    toLex (a, x) ≤ toLex (a, y) ↔ x ≤ y := by
  rw [Prod.Lex.toLex_le_toLex]
  simp

theorem toLex_lt_toLex_of_fst_lt {β γ : Type*} [LT β] [LT γ] {a b : β} (x y : γ) (h : a < b) :
    toLex (a, x) < toLex (b, y) :=
  Prod.Lex.toLex_lt_toLex.mpr (.inl h)

end LastWriterWins

end Swift
