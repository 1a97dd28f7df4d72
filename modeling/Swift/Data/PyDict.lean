import Mathlib.Data.List.Basic

/-!
# Python dictionaries

A `dict` as the list of its items in insertion order. That is the order Python keeps, and the
order in which a loop over `d.items()` visits them. Assigning to a key keeps its item where it
stands, and a new key goes to the end. Two dicts compare equal when they have the same keys
with equal values, whatever the order.

Values are compared through a map `f`, which is how a model keeps ghost data beside a value
that the program compares: `pyEq f` sees only what `f` keeps.

## Main results

* `get_set_self`, `get_set_of_ne`, `get_setdefault_self`, `get_setdefault_of_ne`,
  `get_erase_self`, `get_erase_of_ne` — what a lookup sees after each update
* `mem_keys_set`, `mem_keys_setdefault`, `mem_keys_erase` — the keys after each update
* `get_foldl_set`, `get_foldl_setdefault` — updating every key of a list to one value
* `get_eq_of_pyEq` — two dicts that compare equal have the same lookups
-/

namespace Swift

namespace PyDict

variable {κ β γ : Type*} [DecidableEq κ]

/-- `d.get(k)`: the value of the item with key `k`. -/
def get (d : List (κ × β)) (k : κ) : Option β := (d.find? (·.1 == k)).map Prod.snd

/-- `d[k] = v`: the item of key `k` takes the new value where it stands, or a new item is
appended. -/
def set (d : List (κ × β)) (k : κ) (v : β) : List (κ × β) :=
  if d.any (·.1 == k) then d.map fun p => if p.1 = k then (k, v) else p else d ++ [(k, v)]

/-- `d.setdefault(k, v)`: a new item `(k, v)` unless `k` is a key already. -/
def setdefault (d : List (κ × β)) (k : κ) (v : β) : List (κ × β) :=
  if d.any (·.1 == k) then d else d ++ [(k, v)]

/-- `del d[k]`, and `d.pop(k, None)`. -/
def erase (d : List (κ × β)) (k : κ) : List (κ × β) := d.filter (·.1 != k)

/-- `d1 == d2` with the values compared through `f`. -/
def pyEq [DecidableEq γ] (f : β → γ) (d₁ d₂ : List (κ × β)) : Bool :=
  d₁.all (fun p => (get d₂ p.1).map f == some (f p.2)) &&
    d₂.all (fun p => (get d₁ p.1).map f == some (f p.2))

/-! ### Lookups -/

@[simp] theorem get_nil (k : κ) : get ([] : List (κ × β)) k = none := rfl

theorem get_cons (k' k : κ) (v : β) (d : List (κ × β)) :
    get ((k', v) :: d) k = if k' = k then some v else get d k := by
  by_cases h : k' = k
  · simp [get, h]
  · simp [get, h]

theorem get_append (d e : List (κ × β)) (k : κ) : get (d ++ e) k = (get d k).or (get e k) := by
  induction d with
  | nil => rfl
  | cons p d ih =>
    obtain ⟨k', v⟩ := p
    rw [List.cons_append, get_cons, get_cons, ih]
    split <;> rfl

theorem get_eq_none_iff {d : List (κ × β)} {k : κ} : get d k = none ↔ k ∉ d.map Prod.fst := by
  induction d with
  | nil => simp
  | cons p d ih =>
    obtain ⟨k', v⟩ := p
    rw [get_cons, List.map_cons, List.mem_cons, not_or]
    split
    · rename_i h
      simp [h]
    · rename_i h
      rw [ih]
      exact ⟨fun hk => ⟨fun e => h e.symm, hk⟩, fun hk => hk.2⟩

theorem mem_of_get {d : List (κ × β)} {k : κ} {v : β} (h : get d k = some v) : (k, v) ∈ d := by
  induction d with
  | nil => cases h
  | cons p d ih =>
    obtain ⟨k', v'⟩ := p
    rw [get_cons] at h
    split at h
    · rename_i hk
      cases h
      rw [hk]
      exact List.mem_cons_self
    · exact List.mem_cons_of_mem _ (ih h)

theorem mem_keys_iff {d : List (κ × β)} {k : κ} : k ∈ d.map Prod.fst ↔ (get d k).isSome := by
  rw [Option.isSome_iff_ne_none, Ne, get_eq_none_iff, not_not]

/-! ### Updates -/

theorem get_set_self (d : List (κ × β)) (k : κ) (v : β) : get (set d k v) k = some v := by
  rw [set]
  split
  · rename_i hany
    induction d with
    | nil => cases hany
    | cons p d ih =>
      obtain ⟨k', v'⟩ := p
      rw [List.map_cons, get_cons]
      by_cases hk : k' = k
      · rw [if_pos hk, if_pos rfl]
      · rw [if_neg hk, if_neg hk]
        exact ih (by simpa [hk] using hany)
  · rename_i hany
    have hnone : get d k = none := by
      rw [get_eq_none_iff]
      simpa using hany
    rw [get_append, hnone]
    simp [get_cons]

/-- Giving the items of key `k` a new value leaves every other lookup. -/
theorem get_map_of_ne (d : List (κ × β)) {k k' : κ} (hne : k' ≠ k) (v : β) :
    get (d.map fun p => if p.1 = k then (k, v) else p) k' = get d k' := by
  induction d with
  | nil => rfl
  | cons p d ih =>
    obtain ⟨k₀, v₀⟩ := p
    rw [List.map_cons, get_cons]
    by_cases hk : k₀ = k
    · rw [if_pos hk, if_neg (fun h => hne h.symm), get_cons, if_neg (hk ▸ fun h => hne h.symm), ih]
    · rw [if_neg hk, get_cons, ih]

theorem get_set_of_ne (d : List (κ × β)) {k k' : κ} (hne : k' ≠ k) (v : β) :
    get (set d k v) k' = get d k' := by
  rw [set]
  split
  · exact get_map_of_ne d hne v
  · rw [get_append]
    cases get d k' with
    | none => simp [get_cons, hne.symm]
    | some w => rfl

theorem get_setdefault_self (d : List (κ × β)) (k : κ) (v : β) :
    get (setdefault d k v) k = some ((get d k).getD v) := by
  rw [setdefault]
  split
  · rename_i hany
    obtain ⟨w, hw⟩ : ∃ w, get d k = some w := by
      rw [← Option.isSome_iff_exists, Option.isSome_iff_ne_none, Ne, get_eq_none_iff, not_not]
      simpa using hany
    rw [hw, Option.getD_some]
  · rename_i hany
    have hnone : get d k = none := by
      rw [get_eq_none_iff]
      simpa using hany
    rw [get_append, hnone]
    simp [get_cons]

theorem get_setdefault_of_ne (d : List (κ × β)) {k k' : κ} (hne : k' ≠ k) (v : β) :
    get (setdefault d k v) k' = get d k' := by
  rw [setdefault]
  split
  · rfl
  · rw [get_append]
    cases get d k' with
    | none => simp [get_cons, hne.symm]
    | some w => rfl

theorem get_erase_self (d : List (κ × β)) (k : κ) : get (erase d k) k = none := by
  rw [get_eq_none_iff, erase]
  simp

theorem get_erase_of_ne (d : List (κ × β)) {k k' : κ} (hne : k' ≠ k) :
    get (erase d k) k' = get d k' := by
  induction d with
  | nil => rfl
  | cons p d ih =>
    obtain ⟨k₀, v₀⟩ := p
    rw [erase, List.filter_cons]
    by_cases hk : k₀ = k
    · rw [if_neg (by simp [hk]), get_cons, if_neg (hk ▸ fun h => hne h.symm)]
      exact ih
    · rw [if_pos (by simp [hk]), get_cons, get_cons]
      split
      · rfl
      · exact ih

theorem setdefault_of_mem {d : List (κ × β)} {k : κ} (h : k ∈ d.map Prod.fst) (v : β) :
    setdefault d k v = d := by
  rw [setdefault, if_pos]
  simpa using h

theorem mem_keys_set {d : List (κ × β)} {k k' : κ} {v : β} :
    k' ∈ (set d k v).map Prod.fst ↔ k' = k ∨ k' ∈ d.map Prod.fst := by
  rw [mem_keys_iff, mem_keys_iff]
  by_cases hk : k' = k
  · subst hk
    simp [get_set_self]
  · rw [get_set_of_ne d hk]
    simp [hk]

theorem mem_keys_setdefault {d : List (κ × β)} {k k' : κ} {v : β} :
    k' ∈ (setdefault d k v).map Prod.fst ↔ k' = k ∨ k' ∈ d.map Prod.fst := by
  rw [mem_keys_iff, mem_keys_iff]
  by_cases hk : k' = k
  · subst hk
    simp [get_setdefault_self]
  · rw [get_setdefault_of_ne d hk]
    simp [hk]

theorem mem_keys_erase {d : List (κ × β)} {k k' : κ} :
    k' ∈ (erase d k).map Prod.fst ↔ k' ≠ k ∧ k' ∈ d.map Prod.fst := by
  rw [mem_keys_iff, mem_keys_iff]
  by_cases hk : k' = k
  · subst hk
    simp [get_erase_self]
  · rw [get_erase_of_ne d hk]
    simp [hk]

/-- Setting every key of `l` to `v`, one after another. -/
theorem get_foldl_set (l : List κ) (v : β) (d : List (κ × β)) (k : κ) :
    get (l.foldl (fun d k => set d k v) d) k = if k ∈ l then some v else get d k := by
  induction l generalizing d with
  | nil => simp
  | cons k₀ l ih =>
    rw [List.foldl_cons, ih]
    by_cases hk : k = k₀
    · subst hk
      simp [get_set_self]
    · rw [get_set_of_ne _ hk]
      simp [hk]

/-- `setdefault` of every key of `l`, one after another: a key of `l` keeps the value it had,
or takes `v`. -/
theorem get_foldl_setdefault (l : List κ) (v : β) (d : List (κ × β)) (k : κ) :
    get (l.foldl (fun d k => setdefault d k v) d) k =
      if k ∈ l then some ((get d k).getD v) else get d k := by
  induction l generalizing d with
  | nil => simp
  | cons k₀ l ih =>
    rw [List.foldl_cons, ih]
    by_cases hk : k = k₀
    · subst hk
      simp [get_setdefault_self]
    · rw [get_setdefault_of_ne _ hk]
      simp [hk]

/-! ### Equality -/

/-- Dicts that compare equal through `f` give the same lookups through `f`. -/
theorem get_eq_of_pyEq [DecidableEq γ] {f : β → γ} {d₁ d₂ : List (κ × β)}
    (h : pyEq f d₁ d₂ = true) (k : κ) : (get d₁ k).map f = (get d₂ k).map f := by
  rw [pyEq, Bool.and_eq_true, List.all_eq_true, List.all_eq_true] at h
  cases h₁ : get d₁ k with
  | some v =>
    have := h.1 _ (mem_of_get h₁)
    simp only [beq_iff_eq] at this
    exact this.symm
  | none =>
    cases h₂ : get d₂ k with
    | none => rfl
    | some w =>
      have := h.2 _ (mem_of_get h₂)
      simp only [h₁, beq_iff_eq] at this
      cases this

end PyDict

end Swift
