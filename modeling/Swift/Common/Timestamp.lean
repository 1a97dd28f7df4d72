import Mathlib.Order.Basic
import Mathlib.Data.Prod.Lex
import Swift.Data.Text

/-!
# Timestamps

`swift.common.utils.timestamp.Timestamp`, reduced to what comparisons see. A timestamp is a
count `raw` of ten-microsecond steps since the epoch, and an internal `offset` vector that orders
writes made at the same instant.

The source compares timestamps through their internal strings
(`INTERNAL_FORMAT = '%016.05f_%016x'`, with the offset suffix omitted when it is zero). Inside the
bounds `Timestamp.__init__` enforces the fields are fixed width, so the string order is the
lexicographic order of `(raw, offset)`, and that is the order given here. Shard-range rows and
object rows store these internal strings, so the same order governs every comparison the
container merges make.

The float `timestamp` attribute is `raw * PRECISION`. It is never needed as a float: inside the
bounds the float is within `2 ^ -53` of `raw * 10 ^ -5` relatively, so `'%016.05f'` prints the
digits of `raw` (`normal`) and `round(float(s) / PRECISION)` reads them back exactly
(`rawOfDecimal?_normal`). The string forms and `Timestamp(s, offset, delta)` (`ofString?`) are
therefore written over `raw`.
-/

namespace Swift

/-- A swift timestamp: ten-microsecond ticks since the epoch, and the internal offset. -/
structure Timestamp where
  raw : Nat
  offset : Nat
  deriving DecidableEq, Repr

namespace Timestamp

/-- The internal string of a timestamp sorts as this pair does. -/
def sortKey (t : Timestamp) : ℕ ×ₗ ℕ := toLex (t.raw, t.offset)

theorem sortKey_injective : Function.Injective sortKey := by
  intro a b h
  cases a; cases b
  simp only [sortKey, toLex_inj, Prod.mk.injEq] at h
  rw [h.1, h.2]

instance : LinearOrder Timestamp := LinearOrder.lift' sortKey sortKey_injective

theorem le_def {a b : Timestamp} : a ≤ b ↔ a.raw < b.raw ∨ a.raw = b.raw ∧ a.offset ≤ b.offset :=
  Prod.Lex.toLex_le_toLex

theorem lt_def {a b : Timestamp} : a < b ↔ a.raw < b.raw ∨ a.raw = b.raw ∧ a.offset < b.offset :=
  Prod.Lex.toLex_lt_toLex

theorem raw_le_of_le {a b : Timestamp} (h : a ≤ b) : a.raw ≤ b.raw := by
  rcases le_def.mp h with h | ⟨h, -⟩ <;> omega

/-! ### The string forms -/

open Text

/-- `MAX_OFFSET`. -/
def maxOffset : Nat := 16 ^ 16 - 1

/-- What `Timestamp.__init__` accepts: less than `10000000000` seconds, so a raw value below
`10 ^ 15`, and an offset of at most `MAX_OFFSET`. -/
def Valid (t : Timestamp) : Prop := t.raw < 10 ^ 15 ∧ t.offset ≤ maxOffset

instance (t : Timestamp) : Decidable t.Valid := inferInstanceAs (Decidable (_ ∧ _))

/-- `Timestamp.__bool__`: false only for the epoch with no offset. -/
def toBool (t : Timestamp) : Bool := t.raw != 0 || t.offset != 0

/-- Every time after another one is true. -/
theorem toBool_of_lt {s t : Timestamp} (h : s < t) : t.toBool = true := by
  rcases lt_def.mp h with h | ⟨-, h⟩
  · simp only [toBool, Bool.or_eq_true, bne_iff_ne, ne_eq]
    omega
  · simp only [toBool, Bool.or_eq_true, bne_iff_ne, ne_eq]
    omega

/-- `FORCE_INTERNAL`. -/
def forceInternal : Bool := false

/-- `NORMAL_FORMAT % self.timestamp`, that is `'%016.05f'`: the seconds with five places,
zero-padded to sixteen characters. -/
def normal (t : Timestamp) : List Char :=
  zeroPad 16 (Nat.toDigits 10 (t.raw / 10 ^ 5) ++ '.' :: zeroPad 5 (Nat.toDigits 10 (t.raw % 10 ^ 5)))

/-- `Timestamp.internal`: `INTERNAL_FORMAT`, the normal form and `'_%016x'` of the offset, when
there is an offset. -/
def internal (t : Timestamp) : List Char :=
  if t.offset ≠ 0 ∨ forceInternal then t.normal ++ '_' :: zeroPad 16 (Nat.toDigits 16 t.offset)
  else t.normal

/-- `Timestamp.short`: `SHORT_FORMAT`, the normal form and `'_%x'` of the offset, when there is
an offset. -/
def short (t : Timestamp) : List Char :=
  if t.offset ≠ 0 ∨ forceInternal then t.normal ++ '_' :: Nat.toDigits 16 t.offset else t.normal

/-- `round(float(s) / PRECISION)` for a decimal numeral `s` with at most five places: its value
in ten-microsecond ticks. Longer fractions, exponents and the other literals `float` reads are
not modelled. -/
def rawOfDecimal? (s : List Char) : Option Nat :=
  match s.splitOn '.' with
  | [whole] => (ofDigits? 10 whole).map (· * 10 ^ 5)
  | [whole, frac] =>
    if frac.length ≤ 5 ∧ (whole ≠ [] ∨ frac ≠ []) then
      (digitsValue? 10 whole 0).bind fun w =>
        (digitsValue? 10 frac 0).map fun f => w * 10 ^ 5 + f * 10 ^ (5 - frac.length)
    else none
  | _ => none

/-- The bounds check of `Timestamp.__init__`, on the raw value. -/
def checkBounds (raw : Int) (offset : Nat) : Option Timestamp :=
  if raw < 0 ∨ 10 ^ 15 ≤ raw then none else some ⟨raw.toNat, offset⟩

/-- `Timestamp(s, offset=offset, delta=delta)` for a string `s`; `none` where it raises
`ValueError`. -/
def ofString? (s : List Char) (offset : Nat) (delta : Int) : Option Timestamp :=
  let parts := partition ['_'] s
  (rawOfDecimal? parts.1).bind fun raw =>
    if '_' ∈ parts.2 then none
    else
      (if parts.2 = [] then some 0 else ofDigits? 16 parts.2).bind fun parsedOffset =>
        if maxOffset < parsedOffset + offset then none
        -- a delta moves the raw value, which must stay positive
        else if delta ≠ 0 ∧ (raw : Int) + delta ≤ 0 then none
        else checkBounds (raw + delta) (parsedOffset + offset)

/-- `Timestamp(raw * PRECISION)`: a number of seconds, with no offset. -/
def ofRaw? (raw : Int) : Option Timestamp := checkBounds raw 0

theorem checkBounds_eq {raw : Nat} (h : raw < 10 ^ 15) (offset : Nat) :
    checkBounds raw offset = some ⟨raw, offset⟩ := by
  rw [checkBounds, if_neg (by omega)]
  rfl

/-- How `Timestamp(s, offset, delta)` reads a string that it parts into a numeral and an offset. -/
theorem ofString?_eq {s base baseOffset : List Char} (hpart : partition ['_'] s = (base, baseOffset))
    {raw : Nat} (hraw : rawOfDecimal? base = some raw) (hunderscore : '_' ∉ baseOffset)
    {parsedOffset : Nat}
    (hoffset : (if baseOffset = [] then some 0 else ofDigits? 16 baseOffset) = some parsedOffset)
    (offset : Nat) (delta : Int) :
    ofString? s offset delta =
      if maxOffset < parsedOffset + offset then none
      else if delta ≠ 0 ∧ (raw : Int) + delta ≤ 0 then none
      else checkBounds (raw + delta) (parsedOffset + offset) := by
  rw [ofString?]
  simp only [hpart, hraw, Option.bind_some, if_neg hunderscore, hoffset]

/-- The characters of the normal form: digits and the point. -/
theorem mem_normal {t : Timestamp} {c : Char} (hc : c ∈ t.normal) :
    c = '.' ∨ ∃ d < 16, c = d.digitChar := by
  rw [normal, zeroPad, List.mem_append, List.mem_append, List.mem_cons] at hc
  rcases hc with hc | hc | hc | hc
  · exact .inr ⟨0, by decide, (List.eq_of_mem_replicate hc).trans rfl⟩
  · exact .inr (mem_toDigits hc (by decide) (by decide))
  · exact .inl hc
  · exact .inr (mem_zeroPad_toDigits hc (by decide) (by decide))

theorem internal_ne_nil (t : Timestamp) : t.internal ≠ [] := by
  rw [internal]
  split <;> simp [normal, zeroPad]

theorem mem_internal {t : Timestamp} {c : Char} (hc : c ∈ t.internal) :
    c = '.' ∨ c = '_' ∨ ∃ d < 16, c = d.digitChar := by
  rw [internal] at hc
  split at hc
  · rw [List.mem_append, List.mem_cons] at hc
    rcases hc with hc | hc | hc
    · exact (mem_normal hc).imp_right .inr
    · exact .inr (.inl hc)
    · exact .inr (.inr (mem_zeroPad_toDigits hc (by decide) (by decide)))
  · exact (mem_normal hc).imp_right .inr

theorem not_mem_normal {t : Timestamp} {c : Char} (hc : c ≠ '.' ∧ ∀ d < 16, c ≠ d.digitChar) :
    c ∉ t.normal := fun hmem => by
  rcases mem_normal hmem with rfl | ⟨d, hd, rfl⟩
  · exact hc.1 rfl
  · exact hc.2 d hd rfl

/-- The normal form is read back as the raw value. -/
theorem rawOfDecimal?_normal (t : Timestamp) : rawOfDecimal? t.normal = some t.raw := by
  have hdot : ∀ d < 16, '.' ≠ d.digitChar := by decide
  have hfrac : '.' ∉ zeroPad 5 (Nat.toDigits 10 (t.raw % 10 ^ 5)) := fun hmem => by
    obtain ⟨d, hd, hc⟩ := mem_zeroPad_toDigits hmem (by decide) (by decide)
    exact hdot d hd hc
  have hwhole : '.' ∉ List.replicate (16 - (Nat.toDigits 10 (t.raw / 10 ^ 5) ++
      '.' :: zeroPad 5 (Nat.toDigits 10 (t.raw % 10 ^ 5))).length) '0' ++
      Nat.toDigits 10 (t.raw / 10 ^ 5) := by
    rw [List.mem_append, not_or]
    exact ⟨fun hmem => by simp at hmem,
      not_mem_toDigits hdot (by decide) (by decide)⟩
  have hlen : (zeroPad 5 (Nat.toDigits 10 (t.raw % 10 ^ 5))).length = 5 :=
    length_zeroPad_toDigits (by decide) (Nat.mod_lt _ (by decide))
  rw [rawOfDecimal?, normal, zeroPad, ← List.append_assoc,
    List.splitOn_append_cons_self_of_not_mem hwhole, List.splitOn_eq_singleton hfrac]
  dsimp only
  rw [hlen, if_pos ⟨le_rfl, .inr (List.ne_nil_of_length_pos (by omega))⟩,
    digitsValue?_replicate_zero (by decide), digitsValue?_toDigits (by decide) (by decide),
    Option.bind_some, digitsValue?_zeroPad (by decide) (by decide), Option.map_some]
  congr 1
  rw [Nat.sub_self, Nat.pow_zero, Nat.mul_one, Nat.mul_comm]
  exact Nat.div_add_mod t.raw (10 ^ 5)

/-- A string with no offset part reads as its numeral. -/
theorem ofString?_normal {t : Timestamp} (offset : Nat) (delta : Int) :
    ofString? t.normal offset delta =
      if maxOffset < offset then none
      else if delta ≠ 0 ∧ (t.raw : Int) + delta ≤ 0 then none
      else checkBounds (t.raw + delta) offset := by
  have hunderscore : '_' ∉ t.normal := not_mem_normal (by decide)
  rw [ofString?_eq (partition_of_not_mem hunderscore) (rawOfDecimal?_normal t)
    (List.not_mem_nil) (if_pos rfl), Nat.zero_add]

/-- The normal form followed by `'_'` and hex digits reads with those digits as the offset. -/
theorem ofString?_normal_append {t : Timestamp} {digits : List Char} (hne : digits ≠ [])
    (hdigits : ∀ c ∈ digits, ∃ d < 16, c = d.digitChar) {parsed : Nat}
    (hparsed : ofDigits? 16 digits = some parsed) (offset : Nat) (delta : Int) :
    ofString? (t.normal ++ '_' :: digits) offset delta =
      if maxOffset < parsed + offset then none
      else if delta ≠ 0 ∧ (t.raw : Int) + delta ≤ 0 then none
      else checkBounds (t.raw + delta) (parsed + offset) := by
  have hunderscore : '_' ∉ t.normal := not_mem_normal (by decide)
  have hpart : partition ['_'] (t.normal ++ '_' :: digits) = (t.normal, digits) := by
    rw [show t.normal ++ '_' :: digits = t.normal ++ ['_'] ++ digits by simp]
    exact partition_append hunderscore digits
  have hdigits_underscore : '_' ∉ digits := fun hmem => by
    obtain ⟨d, hd, hc⟩ := hdigits '_' hmem
    revert hc
    revert d
    decide
  exact ofString?_eq hpart (rawOfDecimal?_normal t) hdigits_underscore
    (by rw [if_neg hne, hparsed]) offset delta

/-- `Timestamp(t.short)` is `t`. -/
theorem ofString?_short {t : Timestamp} (h : t.Valid) : ofString? t.short 0 0 = some t := by
  obtain ⟨raw, offset⟩ := t
  obtain ⟨hraw, hoffset⟩ := h
  rw [short]
  split
  next hsome =>
    rw [ofString?_normal_append Nat.toDigits_ne_nil (fun c hc => mem_toDigits hc (by decide)
      (by decide)) (ofDigits?_toDigits (by decide) (by decide) offset)]
    simp only [Nat.add_zero, if_neg (Nat.not_lt.mpr hoffset), ne_eq, not_true_eq_false,
      false_and, if_false, Int.add_zero]
    exact checkBounds_eq hraw offset
  next hnone =>
    have hzero : offset = 0 := by simpa [forceInternal] using hnone
    subst hzero
    rw [ofString?_normal]
    simp only [if_neg (Nat.not_lt.mpr (Nat.zero_le maxOffset)), ne_eq, not_true_eq_false,
      false_and, if_false, Int.add_zero]
    exact checkBounds_eq hraw 0

/-- `Timestamp(t.internal)` is `t`. -/
theorem ofString?_internal {t : Timestamp} (h : t.Valid) : ofString? t.internal 0 0 = some t := by
  obtain ⟨raw, offset⟩ := t
  obtain ⟨hraw, hoffset⟩ := h
  rw [internal]
  split
  next hsome =>
    have hne : zeroPad 16 (Nat.toDigits 16 offset) ≠ [] := by
      simp [zeroPad, Nat.toDigits_ne_nil]
    rw [ofString?_normal_append hne (fun c hc => mem_zeroPad_toDigits hc (by decide) (by decide))
      (ofDigits?_zeroPad (by decide) (by decide) 16 offset)]
    simp only [Nat.add_zero, if_neg (Nat.not_lt.mpr hoffset), ne_eq, not_true_eq_false,
      false_and, if_false, Int.add_zero]
    exact checkBounds_eq hraw offset
  next hnone =>
    have hzero : offset = 0 := by simpa [forceInternal] using hnone
    subst hzero
    rw [ofString?_normal]
    simp only [if_neg (Nat.not_lt.mpr (Nat.zero_le maxOffset)), ne_eq, not_true_eq_false,
      false_and, if_false, Int.add_zero]
    exact checkBounds_eq hraw 0

end Timestamp

end Swift
