import Mathlib.Data.List.Chain
import Mathlib.Order.Interval.Set.Basic

/-!
# Intervals laid end to end

A list of left-open, right-closed intervals `(l, u]` tiles a stretch of a linear order when each
interval is well formed and begins where the one before it ends. Such a list is a lookup table
keyed by lower ends. A point lies in at most one of its intervals (`Tiles.eq_of_mem`). When the
point lies in the stretch, from the first lower end to the last upper end, the interval holding
it is the last one whose lower end is below the point: the lower ends below it form a nonempty
prefix, and its last element is the interval (`Tiles.exists_takeWhile`).
-/

namespace Swift

namespace Tiling

variable {α : Type*} [LinearOrder α]

/-- Intervals `(iv.1, iv.2]` laid end to end. -/
structure Tiles (ivs : List (α × α)) : Prop where
  le : ∀ iv ∈ ivs, iv.1 ≤ iv.2
  chain : ivs.IsChain fun a b => b.1 = a.2

variable {ivs : List (α × α)} {iv : α × α} {x : α}

theorem Tiles.of_cons (h : Tiles (iv :: ivs)) : Tiles ivs :=
  ⟨fun b hb => h.le b (List.mem_cons_of_mem _ hb), h.chain.tail⟩

theorem Tiles.getElem_succ_fst (h : Tiles ivs) (i : ℕ) (hi : i + 1 < ivs.length) :
    ivs[i + 1].1 = ivs[i].2 :=
  List.isChain_iff_getElem.mp h.chain i hi

/-- An interval ends before any later one begins. -/
theorem Tiles.pairwise (h : Tiles ivs) : ivs.Pairwise fun a b => a.2 ≤ b.1 := by
  induction ivs with
  | nil => exact List.Pairwise.nil
  | cons iv ivs ih =>
    refine List.Pairwise.cons (fun b hb => ?_) (ih h.of_cons)
    cases ivs with
    | nil => cases hb
    | cons iv' rest =>
      -- the next interval starts at `iv.2`, and every later one after the next ends
      have hnext : iv'.1 = iv.2 := (List.isChain_cons_cons.mp h.chain).1
      rcases List.mem_cons.mp hb with rfl | hb
      · exact hnext.ge
      · calc iv.2 = iv'.1 := hnext.symm
          _ ≤ iv'.2 := h.le iv' (by simp)
          _ ≤ b.1 := List.rel_of_pairwise_cons (ih h.of_cons) hb

/-- A point lies in at most one interval of a tiling. -/
theorem Tiles.eq_of_mem (h : Tiles ivs) {i j : ℕ} (hi : i < ivs.length) (hj : j < ivs.length)
    (hxi : x ∈ Set.Ioc ivs[i].1 ivs[i].2) (hxj : x ∈ Set.Ioc ivs[j].1 ivs[j].2) : i = j := by
  have hpw := List.pairwise_iff_getElem.mp h.pairwise
  rcases lt_trichotomy i j with hij | rfl | hij
  · exact absurd (hxi.2.trans (hpw i j hi hj hij)) (not_le.mpr hxj.1)
  · rfl
  · exact absurd (hxj.2.trans (hpw j i hj hi hij)) (not_le.mpr hxi.1)

/-- Two entries of a list whose intervals tile, both holding `x`, are the same entry. -/
theorem Tiles.eq_of_mem_map {β : Type*} {g : β → α × α} {L : List β} (h : Tiles (L.map g))
    {a b : β} (ha : a ∈ L) (hb : b ∈ L) (hxa : x ∈ Set.Ioc (g a).1 (g a).2)
    (hxb : x ∈ Set.Ioc (g b).1 (g b).2) : a = b := by
  obtain ⟨i, hi, rfl⟩ := List.mem_iff_getElem.mp ha
  obtain ⟨j, hj, rfl⟩ := List.mem_iff_getElem.mp hb
  have hij : i = j := h.eq_of_mem (by simpa using hi) (by simpa using hj)
    (by simpa using hxa) (by simpa using hxb)
  subst hij
  rfl

/-- Looking a point of the tiled stretch up by lower ends: the intervals whose lower end is
below `x` form a nonempty prefix, and the last of them holds `x`. -/
theorem Tiles.exists_takeWhile (h : Tiles (iv :: ivs)) (hlo : iv.1 < x)
    (hhi : x ≤ ((iv :: ivs).getLast (List.cons_ne_nil _ _)).2) :
    ∃ p, ((iv :: ivs).takeWhile fun b => decide (b.1 < x)).length = p + 1 ∧
      ∃ hp : p < (iv :: ivs).length, x ∈ Set.Ioc (iv :: ivs)[p].1 (iv :: ivs)[p].2 := by
  induction ivs generalizing iv with
  | nil => exact ⟨0, by simp [hlo], by simp, hlo, by simpa using hhi⟩
  | cons iv' ivs ih =>
    have hnext : iv'.1 = iv.2 := (List.isChain_cons_cons.mp h.chain).1
    by_cases hx : iv'.1 < x
    · -- `x` lies beyond the first interval: look it up in the rest
      obtain ⟨p, hlen, hp, hmem⟩ := ih h.of_cons hx (by simpa using hhi)
      refine ⟨p + 1, ?_, by simpa using hp, by simpa using hmem⟩
      rw [List.takeWhile_cons, if_pos (by simpa using hlo), List.length_cons, hlen]
    · -- the lookup stops at the second interval, and the first one holds `x`
      refine ⟨0, ?_, by simp, hlo, ?_⟩
      · rw [List.takeWhile_cons, if_pos (by simpa using hlo), List.takeWhile_cons,
          if_neg (by simpa using hx)]
        rfl
      · simpa [hnext] using not_lt.mp hx

/-- The first interval begins no later than any interval of the tiling. -/
theorem Tiles.fst_le_of_mem (h : Tiles (iv :: ivs)) {b : α × α} (hb : b ∈ iv :: ivs) :
    iv.1 ≤ b.1 := by
  rcases List.mem_cons.mp hb with rfl | hb
  · exact le_rfl
  · exact (h.le iv List.mem_cons_self).trans (List.rel_of_pairwise_cons h.pairwise hb)

/-- Every interval of the tiling ends no later than the last one. -/
theorem Tiles.snd_le_getLast (h : Tiles ivs) (hne : ivs ≠ []) {b : α × α} (hb : b ∈ ivs) :
    b.2 ≤ (ivs.getLast hne).2 := by
  have hsplit := List.dropLast_append_getLast hne
  have hb' : b ∈ ivs.dropLast ++ [ivs.getLast hne] := by rwa [hsplit]
  rcases List.mem_append.mp hb' with hb' | hb'
  · -- an earlier interval ends before the last one begins
    have hpw : (ivs.dropLast ++ [ivs.getLast hne]).Pairwise fun a b => a.2 ≤ b.1 := by
      rw [hsplit]
      exact h.pairwise
    calc b.2 ≤ (ivs.getLast hne).1 :=
          (List.pairwise_append.mp hpw).2.2 b hb' _ (List.mem_singleton_self _)
      _ ≤ (ivs.getLast hne).2 := h.le _ (List.getLast_mem hne)
  · rw [List.mem_singleton.mp hb']

/-- A point of the stretch the tiling spans lies in one of its intervals. -/
theorem Tiles.exists_mem_Ioc (h : Tiles (iv :: ivs)) (hlo : iv.1 < x)
    (hhi : x ≤ ((iv :: ivs).getLast (List.cons_ne_nil _ _)).2) :
    ∃ b ∈ iv :: ivs, x ∈ Set.Ioc b.1 b.2 := by
  obtain ⟨p, -, hp, hmem⟩ := h.exists_takeWhile hlo hhi
  exact ⟨_, List.getElem_mem hp, hmem⟩

/-- A tiling extended by one interval from its last upper end. -/
theorem Tiles.append_singleton (h : Tiles ivs) {a b : α} (ha : ∀ l ∈ ivs.getLast?, l.2 = a)
    (hab : a ≤ b) : Tiles (ivs ++ [(a, b)]) where
  le c hc := by
    rcases List.mem_append.mp hc with hc | hc
    · exact h.le c hc
    · rw [List.mem_singleton.mp hc]
      exact hab
  chain := by
    refine List.isChain_append.mpr ⟨h.chain, List.isChain_singleton _, fun l hl y hy => ?_⟩
    obtain rfl : (a, b) = y := by simpa using hy
    exact (ha l hl).symm

end Tiling

end Swift
