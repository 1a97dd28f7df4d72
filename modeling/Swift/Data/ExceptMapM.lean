import Mathlib.Data.List.Forall2

/-!
# List comprehensions that may raise

A comprehension `[f(x) for x in l]` whose body may raise is `l.mapM f` in `Except ε`: it stops
at the first error, and otherwise pairs each input with its result, position by position
(`mapM_eq_ok_iff`). A caller that knows the comprehension went through gets the results as
images of the inputs (`exists_of_mem_of_mapM_eq_ok`), and a comprehension whose every body
succeeds goes through (`exists_mapM_eq_ok`, `mapM_map_eq_ok`). A single `do` step is taken
apart by `bind_eq_ok`.
-/

namespace Swift

namespace MapM

variable {α β ε : Type*} {f : α → Except ε β}

/-- A `do` block went through when its first step did and the rest did on that step's result. -/
theorem bind_eq_ok {ε : Type u} {α β : Type v} {x : Except ε α} {f : α → Except ε β} {b : β} :
    x >>= f = .ok b ↔ ∃ a, x = .ok a ∧ f a = .ok b := by
  cases x with
  | error e => exact ⟨fun h => (nomatch h), fun ⟨_, h, _⟩ => (nomatch h)⟩
  | ok a => exact ⟨fun h => ⟨a, rfl, h⟩, fun ⟨_, h, hf⟩ => Except.ok.inj h ▸ hf⟩

theorem mapM_eq_ok_iff {l : List α} {l' : List β} :
    l.mapM f = .ok l' ↔ List.Forall₂ (fun a b => f a = .ok b) l l' := by
  induction l generalizing l' with
  | nil =>
    rw [List.mapM_nil, List.forall₂_nil_left_iff]
    exact ⟨fun h => (Except.ok.inj h).symm, fun h => h ▸ rfl⟩
  | cons a l ih =>
    simp only [List.mapM_cons, List.forall₂_cons_left_iff, ← ih]
    -- the head and the tail each either raise or not
    cases f a <;> cases l.mapM f <;> simp [bind, Except.bind, pure, Except.pure, eq_comm]

/-- A comprehension whose every body succeeds goes through. -/
theorem exists_mapM_eq_ok {l : List α} (h : ∀ a ∈ l, ∃ b, f a = .ok b) :
    ∃ l', l.mapM f = .ok l' := by
  induction l with
  | nil => exact ⟨[], rfl⟩
  | cons a l ih =>
    obtain ⟨b, hb⟩ := h a List.mem_cons_self
    obtain ⟨bs, hbs⟩ := ih fun a' ha' => h a' (List.mem_cons_of_mem _ ha')
    exact ⟨b :: bs, mapM_eq_ok_iff.mpr (.cons hb (mapM_eq_ok_iff.mp hbs))⟩

/-- Every result of a comprehension that went through is the image of an input. -/
theorem exists_of_mem_of_mapM_eq_ok {l : List α} {l' : List β} (h : l.mapM f = .ok l') {b : β}
    (hb : b ∈ l') : ∃ a ∈ l, f a = .ok b := by
  induction l generalizing l' with
  | nil =>
    obtain rfl := List.forall₂_nil_left_iff.mp (mapM_eq_ok_iff.mp h)
    cases hb
  | cons a l ih =>
    obtain ⟨b', bs, hab, hrest, rfl⟩ := List.forall₂_cons_left_iff.mp (mapM_eq_ok_iff.mp h)
    rcases List.mem_cons.mp hb with rfl | hb
    · exact ⟨a, List.mem_cons_self, hab⟩
    · obtain ⟨a', ha', hfa'⟩ := ih (mapM_eq_ok_iff.mpr hrest) hb
      exact ⟨a', List.mem_cons_of_mem _ ha', hfa'⟩

/-- Every input of a comprehension that went through has its result among the results. -/
theorem exists_of_mapM_eq_ok {l : List α} {l' : List β} (h : l.mapM f = .ok l') {a : α}
    (ha : a ∈ l) : ∃ b ∈ l', f a = .ok b := by
  induction l generalizing l' with
  | nil => cases ha
  | cons a' l ih =>
    obtain ⟨b', bs, hab, hrest, rfl⟩ := List.forall₂_cons_left_iff.mp (mapM_eq_ok_iff.mp h)
    rcases List.mem_cons.mp ha with rfl | ha
    · exact ⟨b', List.mem_cons_self, hab⟩
    · obtain ⟨b, hb, hfb⟩ := ih (mapM_eq_ok_iff.mpr hrest) ha
      exact ⟨b, List.mem_cons_of_mem _ hb, hfb⟩

/-- Parsing back what was printed: a comprehension that inverts `g` on `l`. -/
theorem mapM_map_eq_ok {g : β → α} {l : List β} (h : ∀ b ∈ l, f (g b) = .ok b) :
    (l.map g).mapM f = .ok l := by
  rw [mapM_eq_ok_iff, List.forall₂_map_left_iff]
  exact List.forall₂_same.mpr h

end MapM

end Swift
