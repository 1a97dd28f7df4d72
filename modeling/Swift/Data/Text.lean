import Mathlib.Data.Nat.Digits.Defs
import Mathlib.Tactic.IntervalCases

/-!
# Digit strings, splitting and partitioning

Python's number formats and string methods on `List Char`. A number is written in base `b` by
`Nat.toDigits b` (`'%x'` for `b = 16`, `'%d'` for `b = 10`) and padded on the left with zeros to a
width by `zeroPad` (`'%016x'`); `int(s, b)` is `ofDigits?`, which reads back what was written
(`ofDigits?_toDigits`, `ofDigits?_zeroPad`). `s.split(c)` is `List.splitOn c s`, `s.split()` is
`splitWhitespace`, and `s.partition(sep)` is `partition sep s`, which drops the separator.

`ofDigits?` reads digits only: the signs, the `0x` prefix, the underscores and the blanks that
`int` also accepts are not read, and no caller here gives it any.
-/

namespace Swift

namespace Text

/-! ### Digits -/

/-- The value of a character as a digit, as `int` reads it: `0`–`9`, then the letters of either
case from `10` on. -/
def digitValue? (c : Char) : Option Nat :=
  if '0' ≤ c ∧ c ≤ '9' then some (c.toNat - '0'.toNat)
  else if 'a' ≤ c ∧ c ≤ 'z' then some (c.toNat - 'a'.toNat + 10)
  else if 'A' ≤ c ∧ c ≤ 'Z' then some (c.toNat - 'A'.toNat + 10)
  else none

/-- The digits `s` in base `b` read after the value `acc`; `none` at a character that is not a
digit of the base. -/
def digitsValue? (b : Nat) (s : List Char) (acc : Nat) : Option Nat :=
  s.foldlM (fun acc c => (digitValue? c).bind fun d => if d < b then some (b * acc + d) else none) acc

/-- `int(s, b)` on a string of digits: at least one digit, each a digit of the base. -/
def ofDigits? (b : Nat) (s : List Char) : Option Nat :=
  if s = [] then none else digitsValue? b s 0

/-- `'%0wd'`: the digits padded on the left with zeros to the width `w`. -/
def zeroPad (w : Nat) (s : List Char) : List Char := List.replicate (w - s.length) '0' ++ s

theorem digitValue?_digitChar {n : Nat} (h : n < 16) : digitValue? n.digitChar = some n := by
  interval_cases n <;> decide

theorem digitsValue?_append (b : Nat) (l m : List Char) (acc : Nat) :
    digitsValue? b (l ++ m) acc = (digitsValue? b l acc).bind (digitsValue? b m) := by
  rw [digitsValue?, List.foldlM_append]
  rfl

theorem digitsValue?_digitChar {b n : Nat} (hn : n < b) (hb : b ≤ 16) (acc : Nat) :
    digitsValue? b [n.digitChar] acc = some (b * acc + n) := by
  simp [digitsValue?, digitValue?_digitChar (Nat.lt_of_lt_of_le hn hb), hn]

/-- Reading what `Nat.toDigits` wrote gives the number back, in the bases up to sixteen. -/
theorem digitsValue?_toDigits {b : Nat} (hb : 1 < b) (hb16 : b ≤ 16) (n : Nat) :
    digitsValue? b (Nat.toDigits b n) 0 = some n := by
  induction n using Nat.base_induction b hb with
  | single m hm =>
    rw [Nat.toDigits_of_lt_base hm, digitsValue?_digitChar hm hb16, Nat.mul_zero, Nat.zero_add]
  | digit m k hk hm ih =>
    -- the last digit comes after the digits of the quotient
    rw [← Nat.toDigits_append_toDigits hb hm hk, digitsValue?_append, ih, Option.bind_some,
      Nat.toDigits_of_lt_base hk, digitsValue?_digitChar hk hb16]

/-- Leading zeros read as nothing. -/
theorem digitsValue?_replicate_zero {b : Nat} (hb : 0 < b) (z : Nat) (s : List Char) :
    digitsValue? b (List.replicate z '0' ++ s) 0 = digitsValue? b s 0 := by
  induction z with
  | zero => rfl
  | succ z ih =>
    rw [List.replicate_succ, List.cons_append, ← ih]
    simp [digitsValue?, digitValue?, hb]

theorem ofDigits?_toDigits {b : Nat} (hb : 1 < b) (hb16 : b ≤ 16) (n : Nat) :
    ofDigits? b (Nat.toDigits b n) = some n := by
  rw [ofDigits?, if_neg Nat.toDigits_ne_nil, digitsValue?_toDigits hb hb16]

theorem digitsValue?_zeroPad {b : Nat} (hb : 1 < b) (hb16 : b ≤ 16) (w n : Nat) :
    digitsValue? b (zeroPad w (Nat.toDigits b n)) 0 = some n := by
  rw [zeroPad, digitsValue?_replicate_zero (by omega), digitsValue?_toDigits hb hb16]

theorem ofDigits?_zeroPad {b : Nat} (hb : 1 < b) (hb16 : b ≤ 16) (w n : Nat) :
    ofDigits? b (zeroPad w (Nat.toDigits b n)) = some n := by
  have hne : zeroPad w (Nat.toDigits b n) ≠ [] := by
    simp [zeroPad, Nat.toDigits_ne_nil]
  rw [ofDigits?, if_neg hne, digitsValue?_zeroPad hb hb16]

theorem length_zeroPad_toDigits {b w n : Nat} (hw : 0 < w) (hn : n < b ^ w) :
    (zeroPad w (Nat.toDigits b n)).length = w := by
  have hlen := Nat.toDigits_length b n w hw hn
  rw [zeroPad, List.length_append, List.length_replicate]
  omega

/-- The characters `Nat.toDigits` writes are digits or lower-case letters. -/
theorem mem_toDigits {b n : Nat} {c : Char} (hc : c ∈ Nat.toDigits b n) (hb : 1 < b)
    (hb16 : b ≤ 16) : ∃ d < 16, c = d.digitChar := by
  induction n using Nat.base_induction b hb with
  | single m hm =>
    rw [Nat.toDigits_of_lt_base hm, List.mem_singleton] at hc
    exact ⟨m, by omega, hc⟩
  | digit m k hk hm ih =>
    rw [← Nat.toDigits_append_toDigits hb hm hk, List.mem_append, Nat.toDigits_of_lt_base hk,
      List.mem_singleton] at hc
    rcases hc with hc | rfl
    · exact ih hc
    · exact ⟨k, by omega, rfl⟩

theorem mem_zeroPad_toDigits {b w n : Nat} {c : Char} (hc : c ∈ zeroPad w (Nat.toDigits b n))
    (hb : 1 < b) (hb16 : b ≤ 16) : ∃ d < 16, c = d.digitChar := by
  rw [zeroPad, List.mem_append] at hc
  rcases hc with hc | hc
  · exact ⟨0, by decide, (List.eq_of_mem_replicate hc).trans rfl⟩
  · exact mem_toDigits hc hb hb16

/-- A character that is no digit character is not written by `Nat.toDigits`. -/
theorem not_mem_toDigits {b n : Nat} {c : Char} (hc : ∀ d < 16, c ≠ d.digitChar) (hb : 1 < b)
    (hb16 : b ≤ 16) : c ∉ Nat.toDigits b n := fun hmem => by
  obtain ⟨d, hd, rfl⟩ := mem_toDigits hmem hb hb16
  exact hc d hd rfl

/-- `'%x' % n` (for `b = 16`) of an integer: a minus sign before the digits of a negative one. -/
def signedDigits (b : Nat) (n : Int) : List Char :=
  if n < 0 then '-' :: Nat.toDigits b n.natAbs else Nat.toDigits b n.natAbs

/-- `int(s, b)` on a string of digits with an optional sign. -/
def ofSignedDigits? (b : Nat) (s : List Char) : Option Int :=
  match s with
  | '-' :: digits => (ofDigits? b digits).map fun n : Nat => -(n : Int)
  | '+' :: digits => (ofDigits? b digits).map Int.ofNat
  | _ => (ofDigits? b s).map Int.ofNat

theorem mem_signedDigits {b : Nat} {n : Int} {c : Char} (hc : c ∈ signedDigits b n) (hb : 1 < b)
    (hb16 : b ≤ 16) : c = '-' ∨ ∃ d < 16, c = d.digitChar := by
  rw [signedDigits] at hc
  split at hc
  · exact (List.mem_cons.mp hc).imp_right fun hc => mem_toDigits hc hb hb16
  · exact .inr (mem_toDigits hc hb hb16)

theorem ofSignedDigits?_signedDigits {b : Nat} (hb : 1 < b) (hb16 : b ≤ 16) (n : Int) :
    ofSignedDigits? b (signedDigits b n) = some n := by
  rw [signedDigits]
  split
  next hneg =>
    rw [ofSignedDigits?, ofDigits?_toDigits hb hb16, Option.map_some]
    congr 1
    omega
  next hnonneg =>
    -- the first digit is neither sign, so the whole string is read as digits
    have hsign : ∀ k < 16, k.digitChar ≠ '-' ∧ k.digitChar ≠ '+' := by decide
    obtain ⟨d, ds, hds⟩ := List.exists_cons_of_ne_nil (Nat.toDigits_ne_nil (n := n.natAbs) (b := b))
    obtain ⟨k, hk, rfl⟩ := mem_toDigits (hds ▸ List.mem_cons_self) hb hb16
    rw [ofSignedDigits?.eq_3 b _ (fun _ h => (hsign k hk).1 (List.cons.inj (hds.symm.trans h)).1)
      (fun _ h => (hsign k hk).2 (List.cons.inj (hds.symm.trans h)).1),
      ofDigits?_toDigits hb hb16, Option.map_some]
    exact congrArg some (Int.natAbs_of_nonneg (by omega))

/-! ### Splitting and partitioning -/

/-- `s.partition(sep)` for a separator that is not empty, without the separator itself: what
comes before its first occurrence and what comes after; `(s, '')` when it does not occur. -/
def partition (sep : List Char) : List Char → List Char × List Char
  | [] => ([], [])
  | c :: cs =>
    if sep.isPrefixOf (c :: cs) then ([], (c :: cs).drop sep.length)
    else
      let rest := partition sep cs
      (c :: rest.1, rest.2)

/-- `s.split()`: the runs of characters between blanks. -/
def splitWhitespace (s : List Char) : List (List Char) :=
  (s.splitOnP Char.isWhitespace).filter (· ≠ [])

section Partition

variable {c₀ : Char} {rest : List Char}

theorem partition_of_not_mem {s : List Char} (h : c₀ ∉ s) : partition (c₀ :: rest) s = (s, []) := by
  induction s with
  | nil => rfl
  | cons c s ih =>
    have hc : c ≠ c₀ := fun hc => h (hc ▸ List.mem_cons_self)
    have hstarts : (c₀ :: rest).isPrefixOf (c :: s) = false := by
      simp [List.isPrefixOf, Ne.symm hc]
    rw [partition, if_neg (by rw [hstarts]; decide), ih (fun hm => h (List.mem_cons_of_mem _ hm))]

/-- The separator is found at its first occurrence, after `s`. -/
theorem partition_append {s : List Char} (h : c₀ ∉ s) (t : List Char) :
    partition (c₀ :: rest) (s ++ (c₀ :: rest) ++ t) = (s, t) := by
  induction s with
  | nil =>
    have hstarts : (c₀ :: rest).isPrefixOf (c₀ :: rest ++ t) = true := by
      simp [List.isPrefixOf_iff_prefix]
    rw [List.nil_append, List.cons_append, partition, if_pos (by rw [← List.cons_append, hstarts])]
    simp
  | cons c s ih =>
    have hc : c ≠ c₀ := fun hc => h (hc ▸ List.mem_cons_self)
    have hstarts : (c₀ :: rest).isPrefixOf (c :: (s ++ (c₀ :: rest) ++ t)) = false := by
      simp [List.isPrefixOf, Ne.symm hc]
    rw [List.cons_append, List.cons_append, partition, if_neg (by rw [hstarts]; decide),
      ih (fun hm => h (List.mem_cons_of_mem _ hm))]

end Partition

/-- Splitting a list whose separator first occurs after `s ++ [c]`, for a `c` that is not the
separator: `s` and `c` go to the front of the first piece. -/
theorem splitOn_append_cons_of_ne {a c : Char} {s : List Char} (h : a ∉ s) (hc : c ≠ a)
    (x : List Char) : (s ++ c :: x).splitOn a = (x.splitOn a).modifyHead (s ++ c :: ·) := by
  induction s with
  | nil =>
    rw [List.nil_append, List.splitOn_cons_eq_if_modifyHead, if_neg (by simpa using hc)]
    rfl
  | cons b s ih =>
    have hb : b ≠ a := fun hb => h (hb ▸ List.mem_cons_self)
    rw [List.cons_append, List.splitOn_cons_eq_if_modifyHead, if_neg (by simpa using hb),
      ih (fun hm => h (List.mem_cons_of_mem _ hm)), List.modifyHead_modifyHead]
    rfl

/-- `s.split()` on a blank after a run `a`: the run is the first piece. -/
theorem splitWhitespace_append_cons {a : List Char} (hne : a ≠ [])
    (ha : ∀ c ∈ a, c.isWhitespace = false) {blank : Char} (hblank : blank.isWhitespace = true)
    (b : List Char) : splitWhitespace (a ++ blank :: b) = a :: splitWhitespace b := by
  rw [splitWhitespace, List.splitOnP_append_cons_of_forall_mem ha blank hblank,
    List.filter_cons_of_pos (by simpa using hne)]
  rfl

/-- `s.split()` of a single run. -/
theorem splitWhitespace_of_forall {a : List Char} (hne : a ≠ [])
    (ha : ∀ c ∈ a, c.isWhitespace = false) : splitWhitespace a = [a] := by
  rw [splitWhitespace, List.splitOnP_eq_singleton ha, List.filter_cons_of_pos (by simpa using hne)]
  rfl

/-- What `sep.join(pieces)` holds is a separator or a character of a piece. -/
theorem mem_intercalate_singleton {α : Type*} {sep c : α} {pieces : List (List α)}
    (hc : c ∈ [sep].intercalate pieces) : c = sep ∨ ∃ piece ∈ pieces, c ∈ piece := by
  induction pieces with
  | nil => simp at hc
  | cons piece pieces ih =>
    cases pieces with
    | nil => exact .inr ⟨piece, List.mem_cons_self, by simpa using hc⟩
    | cons next pieces =>
      rw [List.intercalate_cons_cons, List.mem_append, List.mem_append, List.mem_singleton] at hc
      rcases hc with (hc | hc) | hc
      · exact .inr ⟨piece, List.mem_cons_self, hc⟩
      · exact .inl hc
      · obtain hc | ⟨other, hother, hc⟩ := ih hc
        · exact .inl hc
        · exact .inr ⟨other, List.mem_cons_of_mem _ hother, hc⟩

/-! ### Quoting -/

/-- The characters `urllib.parse.quote` leaves as they are: ASCII letters and digits, `_.-~`,
and its default `safe` character `/`. -/
def quoteSafe (c : Char) : Bool :=
  c.isAlphanum || c ∈ "_.-~/".toList

/-- `'%%%02X' % b`: one byte as an escape. -/
def percentByte (b : UInt8) : List Char :=
  '%' :: (zeroPad 2 (Nat.toDigits 16 b.toNat)).map Char.toUpper

/-- `urllib.parse.quote(s)`: every character that is not safe becomes the escapes of its UTF-8
bytes. -/
def quote (s : List Char) : List Char :=
  s.flatMap fun c => if quoteSafe c then [c] else (String.utf8EncodeChar c).flatMap percentByte

/-- `urllib.parse.unquote(s)` on the escapes of ASCII characters. An escape of a byte from `0x80`
on, which Python gathers with the bytes around it and decodes as UTF-8, is kept as written, and
so is a `%` that no two hexadecimal digits follow. -/
def unquote : List Char → List Char
  | [] => []
  | '%' :: h1 :: h2 :: rest =>
    match digitsValue? 16 [h1, h2] 0 with
    | some b => if b < 128 then Char.ofNat b :: unquote rest else '%' :: unquote (h1 :: h2 :: rest)
    | none => '%' :: unquote (h1 :: h2 :: rest)
  | c :: rest => c :: unquote rest

/-- The blanks `str.split()` cuts at all come before `'!'`. -/
theorem isWhitespace_eq_false_of_le {c : Char} (h : '!' ≤ c) : c.isWhitespace = false := by
  have hv : 33 ≤ c.toNat := h
  simp only [Char.isWhitespace, Bool.or_eq_false_iff, decide_eq_false_iff_not]
  refine ⟨⟨⟨?_, ?_⟩, ?_⟩, ?_⟩ <;>
  · intro hc
    rw [hc] at hv
    exact absurd hv (by decide)

theorem le_of_isAlphanum {c : Char} (h : c.isAlphanum = true) : '!' ≤ c := by
  by_contra hlt
  have hsmall : c.toNat < 33 := by
    rw [Char.le_def, UInt32.le_iff_toNat_le] at hlt
    exact Nat.lt_of_not_le hlt
  -- no character below `!` is a letter or a digit
  have hnone : ∀ n < 33, (Char.ofNat n).isAlphanum = false := by decide
  have hc := hnone c.toNat hsmall
  rw [Char.ofNat_toNat, h] at hc
  exact Bool.noConfusion hc

/-- A property of every character of a list, decided through `List.all`. With the whole of
Mathlib in scope, `decide` on a bound `∀ c ∈ l, p c` over `Char` takes the instance that
enumerates every character. -/
theorem forall_mem_of_all {l : List Char} {p : Char → Prop} [DecidablePred p]
    (h : l.all (fun c => decide (p c)) = true) : ∀ c ∈ l, p c :=
  fun c hc => of_decide_eq_true (List.all_eq_true.mp h c hc)

theorem le_of_quoteSafe {c : Char} (h : quoteSafe c = true) : '!' ≤ c := by
  rw [quoteSafe, Bool.or_eq_true] at h
  rcases h with h | h
  · exact le_of_isAlphanum h
  · exact forall_mem_of_all (by decide : "_.-~/".toList.all (fun d => decide ('!' ≤ d)) = true) c
      (by simpa using h)

/-- What `quote` writes has no blank: the safe characters and the escapes are all printable. -/
theorem le_of_mem_quote {s : List Char} {c : Char} (hc : c ∈ quote s) : '!' ≤ c := by
  rw [quote, List.mem_flatMap] at hc
  obtain ⟨d, -, hd⟩ := hc
  split at hd
  next hsafe =>
    rw [List.mem_singleton] at hd
    exact hd ▸ le_of_quoteSafe hsafe
  next =>
    obtain ⟨b, -, hb⟩ := List.mem_flatMap.mp hd
    rw [percentByte, List.mem_cons, List.mem_map] at hb
    rcases hb with rfl | ⟨e, he, rfl⟩
    · decide
    · have hhex : ∀ k < 16, '!' ≤ k.digitChar.toUpper := by decide
      obtain ⟨k, hk, rfl⟩ := mem_zeroPad_toDigits he (by decide) (by decide)
      exact hhex k hk

theorem quote_ne_nil {s : List Char} (hs : s ≠ []) : quote s ≠ [] := by
  obtain ⟨c, cs, rfl⟩ := List.exists_cons_of_ne_nil hs
  rw [quote, List.flatMap_cons]
  refine List.append_ne_nil_of_left_ne_nil ?_ _
  split
  · exact List.cons_ne_nil c []
  · rw [Ne, List.flatMap_eq_nil_iff, not_forall]
    obtain ⟨b, bs, hbs⟩ := List.exists_cons_of_ne_nil (String.utf8EncodeChar_ne_nil (c := c))
    exact ⟨b, fun h => List.cons_ne_nil _ _ (h (hbs ▸ List.mem_cons_self))⟩

theorem quote_of_forall {s : List Char} (h : ∀ c ∈ s, quoteSafe c = true) : quote s = s := by
  induction s with
  | nil => rfl
  | cons c s ih =>
    rw [quote, List.flatMap_cons, if_pos (h c List.mem_cons_self), ← quote,
      ih (fun d hd => h d (List.mem_cons_of_mem _ hd))]
    rfl

theorem unquote_cons_of_ne {c : Char} (hc : c ≠ '%') (s : List Char) :
    unquote (c :: s) = c :: unquote s :=
  unquote.eq_3 c s (fun _ _ _ h _ => hc h)

theorem unquote_of_not_mem {s : List Char} (h : '%' ∉ s) : unquote s = s := by
  induction s with
  | nil => rfl
  | cons c s ih =>
    have hc : c ≠ '%' := fun hc => h (hc ▸ List.mem_cons_self)
    rw [unquote_cons_of_ne hc, ih (fun hm => h (List.mem_cons_of_mem _ hm))]

/-! ### Whitespace -/

/-- `c.isspace()`: the characters of Unicode bidirectional class `WS`, `B` or `S`, or of general
category `Zs`, which are Python's whitespace. -/
def isSpace (c : Char) : Bool :=
  let n := c.toNat
  (9 ≤ n && n ≤ 13) || (28 ≤ n && n ≤ 32) || n == 133 || n == 160 || n == 5760 ||
    (8192 ≤ n && n ≤ 8202) || n == 8232 || n == 8233 || n == 8239 || n == 8287 || n == 12288

/-- `s.strip()`: `s` without the whitespace at either end. -/
def strip (s : List Char) : List Char :=
  ((s.dropWhile isSpace).reverse.dropWhile isSpace).reverse

/-- A string with no whitespace in it is its own `strip()`. -/
theorem strip_of_forall {s : List Char} (h : ∀ c ∈ s, isSpace c = false) : strip s = s := by
  have hdrop : ∀ t : List Char, (∀ c ∈ t, isSpace c = false) → t.dropWhile isSpace = t := by
    intro t ht
    cases t with
    | nil => rfl
    | cons c t => rw [List.dropWhile_cons_of_neg (by simp [ht c List.mem_cons_self])]
  rw [strip, hdrop s h, hdrop s.reverse (fun c hc => h c (List.mem_reverse.mp hc)),
    List.reverse_reverse]

end Text

end Swift
