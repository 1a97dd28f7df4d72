import Mathlib.Data.List.Infix

/-!
# `bytes.find` and `bytes.strip`

`find?` is Python's `haystack.find(needle)` on a list: where the first occurrence of `needle`
begins, with `none` for `-1`. A parser that looks for a delimiter in a buffer reads what it finds
through `find?_append`, which skips a stretch where no occurrence begins, and `find?_of_prefix`.

`strip` is `bytes.strip()` with no argument: the ASCII whitespace at both ends goes.

## Main results

* `find?_append` — past a stretch where no occurrence begins, `find?` counts on from its end
* `prefix_drop_of_find?_eq_some` — what a position from `find?` means
* `strip_append` — a string that neither begins nor ends with whitespace, followed by whitespace,
  strips to itself
* `length_strip_lt` — a string that ends with whitespace loses it
-/

namespace Swift

namespace PyBytes

section Occurrence

variable {α : Type*} {needle hay : List α} {n m : Nat}

/-- No occurrence of `needle` begins in `hay` before the position `n`. -/
def NoMatchBefore (needle hay : List α) (n : Nat) : Prop := ∀ j < n, ¬needle <+: hay.drop j

theorem NoMatchBefore.mono (h : NoMatchBefore needle hay n) (hm : m ≤ n) :
    NoMatchBefore needle hay m := fun j hj => h j (by omega)

theorem NoMatchBefore.append (h : NoMatchBefore needle hay n)
    (hrest : NoMatchBefore needle (hay.drop n) m) : NoMatchBefore needle hay (n + m) := by
  intro j hj
  by_cases hjn : j < n
  · exact h j hjn
  · have := hrest (j - n) (by omega)
    rwa [List.drop_drop, Nat.add_sub_cancel' (by omega)] at this

/-- No occurrence in `s`, then none in the first `m` positions of `t`. -/
theorem NoMatchBefore.append_left {s t : List α} (hs : NoMatchBefore needle (s ++ t) s.length)
    (ht : NoMatchBefore needle t m) : NoMatchBefore needle (s ++ t) (s.length + m) :=
  hs.append (by rwa [List.drop_left])

theorem NoMatchBefore.drop (h : NoMatchBefore needle hay (n + m)) :
    NoMatchBefore needle (hay.drop n) m := by
  intro j hj
  rw [List.drop_drop]
  exact h (n + j) (by omega)

/-- A prefix of the haystack has no more occurrences than the haystack. -/
theorem NoMatchBefore.of_prefix {buf : List α} (h : NoMatchBefore needle hay n) (hbuf : buf <+: hay) :
    NoMatchBefore needle buf n := fun j hj hpre => h j hj (hpre.trans (hbuf.drop j))

/-- A stretch that does not hold the needle's first element holds no occurrence. -/
theorem noMatchBefore_of_not_mem {a : α} {rest s : List α} (t : List α) (hs : a ∉ s) :
    NoMatchBefore (a :: rest) (s ++ t) s.length := by
  intro j hj hpre
  rw [List.drop_append_of_le_length hj.le, List.drop_eq_getElem_cons hj, List.cons_append,
    List.cons_prefix_cons] at hpre
  exact hs (hpre.1 ▸ List.getElem_mem hj)

/-- A needle that overlaps itself nowhere (no proper suffix of it is a prefix of it) begins inside
`s ++ needle` only at its own place, unless `s` holds it. -/
theorem noMatchBefore_straddle {s : List α} (t : List α)
    (hborder : ∀ k, 0 < k → k < needle.length → ¬needle.drop k <+: needle)
    (hs : ¬needle <:+: s) : NoMatchBefore needle (s ++ needle ++ t) s.length := by
  intro j hj hpre
  rw [List.append_assoc, List.drop_append_of_le_length hj.le] at hpre
  have hsuf : s.drop j <:+ s := List.drop_suffix j s
  have hune : s.drop j ≠ [] := by simp; omega
  generalize s.drop j = u at hpre hsuf hune
  rcases List.prefix_or_prefix_of_prefix hpre (List.prefix_append u _) with hin | ⟨v, hv⟩
  · -- the occurrence lies inside `s`
    exact hs (hin.isInfix.trans hsuf.isInfix)
  · -- `u` is a proper prefix of the needle, and the rest of the needle a prefix of it
    have hvne : v ≠ [] := by
      rintro rfl
      rw [List.append_nil] at hv
      exact hs (hv ▸ hsuf.isInfix)
    have hvpre : v <+: needle ++ t := by
      nth_rewrite 1 [← hv] at hpre
      rwa [List.prefix_append_right_inj] at hpre
    have hvlen : v.length ≤ needle.length := by rw [← hv, List.length_append]; omega
    have hdrop : needle.drop u.length = v := by rw [← hv, List.drop_left]
    refine hborder u.length (List.length_pos_iff.mpr hune) ?_ (hdrop ▸ ?_)
    · rw [← hv, List.length_append]
      exact Nat.lt_add_of_pos_right (List.length_pos_iff.mpr hvne)
    · exact List.prefix_of_prefix_length_le hvpre (List.prefix_append _ _) hvlen

end Occurrence

section Find

variable {α : Type*} [DecidableEq α] {needle : List α}

/-- `haystack.find(needle)`: where the first occurrence of `needle` in the haystack begins, or
`none` for `-1`. -/
def find? (needle : List α) : List α → Option Nat
  | [] => if needle = [] then some 0 else none
  | x :: rest => if needle.isPrefixOf (x :: rest) then some 0 else (find? needle rest).map (· + 1)

theorem find?_of_prefix {hay : List α} (h : needle <+: hay) : find? needle hay = some 0 := by
  cases hay with
  | nil => simp_all [find?]
  | cons x rest => simp [find?, List.isPrefixOf_iff_prefix.mpr h]

/-- A stretch `s` where no occurrence of the needle begins is skipped: positions count on from its
end. -/
theorem find?_append {s t : List α} (h : ∀ j < s.length, ¬needle <+: (s ++ t).drop j) :
    find? needle (s ++ t) = (find? needle t).map (· + s.length) := by
  induction s with
  | nil => simp
  | cons x s ih =>
    have h0 : ¬needle <+: x :: (s ++ t) := by simpa using h 0 (by simp)
    have hrest : ∀ j < s.length, ¬needle <+: (s ++ t).drop j := fun j hj => by
      simpa using h (j + 1) (by simp; omega)
    simp only [List.cons_append, find?, List.isPrefixOf_iff_prefix, h0, if_false, ih hrest,
      Option.map_map, List.length_cons]
    exact congrArg (Option.map · (find? needle t)) (funext fun n => by simp only [Function.comp_apply]; omega)

theorem prefix_drop_of_find?_eq_some {hay : List α} {i : Nat} (h : find? needle hay = some i) :
    needle <+: hay.drop i := by
  induction hay generalizing i with
  | nil =>
    simp only [find?] at h
    split at h
    · cases h
      simp_all
    · cases h
  | cons x rest ih =>
    simp only [find?] at h
    split at h
    · rename_i hx
      cases h
      simpa [List.isPrefixOf_iff_prefix] using hx
    · obtain ⟨j, hj, rfl⟩ := Option.map_eq_some_iff.mp h
      simpa using ih hj

/-- Where the first occurrence lies in the haystack, `find?` on a prefix of it finds it there if
the prefix is long enough to hold it, and finds nothing otherwise. -/
theorem find?_of_noMatchBefore {hay buf : List α} {n : Nat} (h : NoMatchBefore needle hay n)
    (hn : needle <+: hay.drop n) (hbuf : buf <+: hay) :
    find? needle buf = if n + needle.length ≤ buf.length then some n else none := by
  have hnone := h.of_prefix hbuf
  split
  · rename_i hlen
    have hpre : needle <+: buf.drop n :=
      List.prefix_of_prefix_length_le hn (hbuf.drop n) (by simp; omega)
    have hsplit : buf = buf.take n ++ buf.drop n := (List.take_append_drop n buf).symm
    have htake : (buf.take n).length = n := List.length_take_of_le (by omega)
    rw [hsplit, find?_append (by rw [← hsplit, htake]; exact hnone), find?_of_prefix hpre, htake]
    simp
  · rename_i hlen
    -- an occurrence in the prefix would begin before `n`
    cases hfind : find? needle buf with
    | none => rfl
    | some p =>
      have hp := prefix_drop_of_find?_eq_some hfind
      rcases List.eq_nil_or_concat needle with rfl | ⟨init, last, rfl⟩
      · exact absurd (List.nil_prefix) (h 0 (by simp at hlen; omega))
      · have hlen' := hp.length_le
        simp only [List.concat_eq_append, List.length_append, List.length_singleton,
          List.length_drop] at hlen' hlen
        exact absurd hp (hnone p (by omega))

end Find

section Strip

/-- The bytes `bytes.strip()` removes: space, `\t`, `\n`, `\v`, `\f` and `\r`. -/
def isSpace (b : UInt8) : Bool := b == 32 || (9 ≤ b && b ≤ 13)

/-- `s.strip()`: `s` without the whitespace at either end. -/
def strip (s : List UInt8) : List UInt8 :=
  ((s.dropWhile isSpace).reverse.dropWhile isSpace).reverse

theorem strip_append {s t : List UInt8} (hhead : ∀ b ∈ s.head?, isSpace b = false)
    (hlast : ∀ b ∈ s.getLast?, isSpace b = false) (ht : ∀ b ∈ t, isSpace b = true) :
    strip (s ++ t) = s := by
  rcases List.eq_nil_or_concat s with rfl | ⟨init, last, rfl⟩
  · have hnil : t.dropWhile isSpace = [] := by
      simpa using @List.dropWhile_append_of_pos _ isSpace t [] ht
    simp [strip, hnil]
  · -- the first byte stays, so only the end is cut, down to `last`
    simp only [List.concat_eq_append] at hhead hlast ⊢
    have hfirst : ∀ x ∈ (init ++ [last]).head?, isSpace x = false := hhead
    have hdrop : (init ++ [last] ++ t).dropWhile isSpace = init ++ [last] ++ t := by
      cases init with
      | nil => simp [List.dropWhile_cons_of_neg, hlast last (by simp)]
      | cons x xs => simp [List.dropWhile_cons_of_neg, hfirst x (by simp)]
    have hrev : ∀ b ∈ t.reverse, isSpace b = true := fun b hb => ht b (List.mem_reverse.mp hb)
    rw [strip, hdrop, List.reverse_append, List.dropWhile_append_of_pos hrev,
      List.reverse_concat, List.dropWhile_cons_of_neg (by simp [hlast last (by simp)])]
    simp

theorem length_strip_lt {s : List UInt8} {b : UInt8} (hs : s.getLast? = some b)
    (hb : isSpace b = true) : (strip s).length < s.length := by
  obtain ⟨init, rfl⟩ : ∃ init, s = init ++ [b] := by
    obtain ⟨init, last, rfl⟩ := (List.eq_nil_or_concat s).resolve_left (by rintro rfl; simp at hs)
    simp only [List.concat_eq_append, List.getLast?_concat, Option.some.injEq] at hs
    exact ⟨init, by rw [hs, List.concat_eq_append]⟩
  have hle : (init.dropWhile isSpace).length ≤ init.length :=
    (List.dropWhile_suffix isSpace).length_le
  simp only [strip, List.dropWhile_append]
  split
  · simp [hb]
  · simp only [List.reverse_append, List.reverse_cons, List.reverse_nil, List.nil_append,
      List.singleton_append, List.dropWhile_cons_of_pos hb, List.length_reverse,
      List.length_append, List.length_singleton]
    have hcut : ((init.dropWhile isSpace).reverse.dropWhile isSpace).length ≤
        (init.dropWhile isSpace).length := by
      have hsuf : (init.dropWhile isSpace).reverse.dropWhile isSpace <:+
          (init.dropWhile isSpace).reverse := List.dropWhile_suffix isSpace
      simpa using hsuf.length_le
    omega

end Strip

section Text

/-- `s.encode('utf-8')`. -/
def encodeUtf8 (s : List Char) : List UInt8 := s.flatMap String.utf8EncodeChar

@[simp] theorem encodeUtf8_append (s t : List Char) :
    encodeUtf8 (s ++ t) = encodeUtf8 s ++ encodeUtf8 t := List.flatMap_append

/-- The encoding of a character holds an ASCII byte only if it is the character's one byte. -/
theorem mem_utf8EncodeChar {b : UInt8} (hb : b.toNat < 128) (c : Char) :
    b ∈ String.utf8EncodeChar c ↔ c.toNat = b.toNat := by
  have hv : c.toNat = c.val.toNat := rfl
  unfold String.utf8EncodeChar
  dsimp only
  -- every byte of a longer encoding is at least `0x80`
  split_ifs <;>
    simp only [List.mem_cons, List.not_mem_nil, or_false, ← UInt8.toNat_inj, UInt8.toNat_ofNat',
      hv] <;>
    constructor <;> intro h <;> omega

/-- An ASCII byte is in the UTF-8 of a text only as the encoding of a character of its code. -/
theorem mem_encodeUtf8 {b : UInt8} (hb : b.toNat < 128) (s : List Char) :
    b ∈ encodeUtf8 s ↔ ∃ c ∈ s, c.toNat = b.toNat := by
  simp only [encodeUtf8, List.mem_flatMap, mem_utf8EncodeChar hb]

end Text

end PyBytes

end Swift
