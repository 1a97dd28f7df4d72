import Swift.Common.Timestamp

/-!
# Three timestamps in one string

`encode_timestamps(t1, t2, t3, explicit)` writes `t1.short`, then the signed hex deltas
`t2.raw - t1.raw` and `t3.raw - t2.raw`, and leaves the deltas out when they are all zero and
`explicit` is not set. Container rows store an object's data, content-type and metadata times
this way in `created_at`, and `.meta` file names store their two times the same way.
`decode_timestamps(encoded, explicit)` splits the string at every `'+'` and then at every `'-'`,
and rebuilds each later time from the one before it.

## The round trip

Offsets are not encoded for `t2` and `t3`; the callers give them none. A zero delta decodes as
the time before it, offset included. So decoding gives `t1` back, and each later time given,
or the time before it when the two share their raw value (`Timestamp.decodedAfter`); a time that
was not encoded is `None` when decoding is explicit and the time before it otherwise
(`decodedComponents`). `decodeTimestamps_encodeTimestamps` proves this for every `t1` and every
`t2` and `t3` without offset inside the bounds of `Timestamp`.

The decoder is total on the strings the encoder writes: `'+'` and `'-'` occur in them only as
signs, so the components fall apart as written (`signedParts_append_signedHex`).
-/

namespace Swift

open Text

/-- `'{:+x}'.format(delta)`: the sign, then the hex digits of the magnitude. -/
def signedHex (delta : Int) : List Char :=
  (if delta < 0 then '-' else '+') :: Nat.toDigits 16 delta.natAbs

/-- `encode_timestamps(t1, t2, t3, explicit)`; `t3` is only read when `t2` is given. -/
def encodeTimestamps (t1 : Timestamp) (t2 t3 : Option Timestamp) (explicit : Bool) : List Char :=
  match t2 with
  | none => t1.short
  | some t2 =>
    let t2t1Delta : Int := t2.raw - t1.raw
    let explicit := explicit || t2t1Delta != 0
    match t3 with
    | none => if explicit then t1.short ++ signedHex t2t1Delta else t1.short
    | some t3 =>
      let t3t2Delta : Int := t3.raw - t2.raw
      if explicit || t3t2Delta != 0 then t1.short ++ signedHex t2t1Delta ++ signedHex t3t2Delta
      else t1.short

/-- The components of an encoded string and their signs, as the loop of `decode_timestamps`
collects them from `encoded.split('+')`, each piece split again at `'-'`: the first component of
a piece is positive and the others negative. -/
def signedParts (encoded : List Char) : List (List Char) × List Int :=
  let posParts := encoded.splitOn '+'
  (posParts.flatMap (·.splitOn '-'),
    posParts.flatMap fun part => 1 :: List.replicate ((part.splitOn '-').length - 1) (-1))

/-- A component decoded after `prev`: with a zero delta `prev` itself, offset included, and
otherwise `Timestamp((prev.raw + delta) * PRECISION)`. -/
def afterDelta? (prev : Timestamp) (part : List Char) (sign : Int) : Option Timestamp :=
  (ofDigits? 16 part).bind fun magnitude =>
    let delta := sign * magnitude
    if delta = 0 then some prev else Timestamp.ofRaw? (prev.raw + delta)

/-- `decode_timestamps(encoded, explicit)`; `none` where it raises. -/
def decodeTimestamps (encoded : List Char) (explicit : Bool) :
    Option (Timestamp × Option Timestamp × Option Timestamp) :=
  let parts := (signedParts encoded).1
  let signs := (signedParts encoded).2
  (Timestamp.ofString? (parts.getD 0 []) 0 0).bind fun t1 =>
    let t2? : Option (Option Timestamp) :=
      if 1 < parts.length then some <$> afterDelta? t1 (parts.getD 1 []) (signs.getD 1 1)
      else some (if explicit then none else some t1)
    t2?.bind fun t2 =>
      let t3? : Option (Option Timestamp) :=
        if 2 < parts.length then
          match t2 with
          | some t2 => some <$> afterDelta? t2 (parts.getD 2 []) (signs.getD 2 1)
          | none => none
        else some (if explicit then none else t2)
      t3?.map fun t3 => (t1, t2, t3)

/-! ### What decoding should return -/

/-- A component decoded after `prev`: `prev` itself when the two share their raw value. -/
def Timestamp.decodedAfter (prev t : Timestamp) : Timestamp := if t.raw = prev.raw then prev else t

/-- The components `decode_timestamps` gives back for `encode_timestamps(t1, t2, t3)`: each
component given, decoded after the one before it; one not encoded is `None` when decoding is
explicit and the one before it otherwise. -/
def decodedComponents (t1 : Timestamp) (t2 t3 : Option Timestamp) (explicit : Bool) :
    Timestamp × Option Timestamp × Option Timestamp :=
  let notEncoded (prev : Timestamp) : Option Timestamp := if explicit then none else some prev
  match t2, t3 with
  | some t2, some t3 =>
    (t1, some (t1.decodedAfter t2), some ((t1.decodedAfter t2).decodedAfter t3))
  | some t2, none => (t1, some (t1.decodedAfter t2), notEncoded (t1.decodedAfter t2))
  | none, _ => (t1, notEncoded t1, notEncoded t1)

/-! ### Splitting at the signs -/

/-- A string with no sign in it. -/
def Unsigned (s : List Char) : Prop := '+' ∉ s ∧ '-' ∉ s

theorem unsigned_toDigits (n : Nat) : Unsigned (Nat.toDigits 16 n) :=
  ⟨not_mem_toDigits (by decide) (by decide) (by decide),
    not_mem_toDigits (by decide) (by decide) (by decide)⟩

theorem unsigned_short (t : Timestamp) : Unsigned t.short := by
  have hnormal : Unsigned t.normal :=
    ⟨Timestamp.not_mem_normal (by decide), Timestamp.not_mem_normal (by decide)⟩
  rw [Timestamp.short]
  split
  · -- the offset part: `'_'` and hex digits
    obtain ⟨hplus, hminus⟩ := unsigned_toDigits (t.offset)
    refine ⟨?_, ?_⟩ <;> simp [hnormal.1, hnormal.2, hplus, hminus]
  · exact hnormal

theorem signedParts_of_unsigned {s : List Char} (hs : Unsigned s) : signedParts s = ([s], [1]) := by
  rw [signedParts, List.splitOn_eq_singleton hs.1]
  simp [List.splitOn_eq_singleton hs.2]

/-- A signed delta after an unsigned component: the component is the first part, the delta's
digits begin the next, and the delta's sign is that part's sign. -/
theorem signedParts_append_signedHex {s : List Char} (hs : Unsigned s) (delta : Int)
    {rest : List Char} {parts : List (List Char)} {signs : List Int}
    (hrest : signedParts (Nat.toDigits 16 delta.natAbs ++ rest) = (parts, 1 :: signs)) :
    signedParts (s ++ signedHex delta ++ rest) =
      (s :: parts, 1 :: (if delta < 0 then -1 else 1) :: signs) := by
  rw [signedHex, List.append_assoc, List.cons_append]
  generalize Nat.toDigits 16 delta.natAbs ++ rest = x at hrest
  rw [signedParts, Prod.mk.injEq] at hrest
  obtain ⟨hparts, hsigns⟩ := hrest
  split
  next hneg =>
    -- a `'-'` joins `s` to the first `'+'` piece of the rest, where it splits again
    obtain ⟨x₀, pieces, hx⟩ := List.exists_cons_of_ne_nil (List.splitOn_ne_nil '+' x)
    have hx₀ : (x₀.splitOn '-') ≠ [] := List.splitOn_ne_nil '-' x₀
    rw [hx, List.flatMap_cons] at hparts hsigns
    rw [signedParts, splitOn_append_cons_of_ne hs.1 (by decide), hx, List.modifyHead_cons,
      List.flatMap_cons, List.flatMap_cons, List.splitOn_append_cons_self_of_not_mem hs.2, ← hparts]
    obtain ⟨k, hk⟩ := Nat.exists_eq_add_one.mpr (List.length_pos_iff.mpr hx₀)
    rw [hk, Nat.add_sub_cancel, List.cons_append, List.cons.injEq] at hsigns
    rw [List.length_cons, hk, Nat.add_sub_cancel, List.replicate_succ]
    simp only [List.cons_append, hsigns.2]
  next =>
    rw [signedParts, List.splitOn_append_cons_self_of_not_mem hs.1, List.flatMap_cons,
      List.flatMap_cons, List.splitOn_eq_singleton hs.2, ← hparts, ← hsigns]
    rfl

/-! ### Decoding one delta -/

/-- A delta decodes as the component it was taken from. -/
theorem afterDelta?_signedHex (prev : Timestamp) {t : Timestamp} (ht : t.raw < 10 ^ 15)
    (hoffset : t.offset = 0) :
    afterDelta? prev (Nat.toDigits 16 ((t.raw : Int) - prev.raw).natAbs)
        (if (t.raw : Int) - prev.raw < 0 then -1 else 1) = some (prev.decodedAfter t) := by
  have hdelta : (if (t.raw : Int) - prev.raw < 0 then -1 else 1) *
      (((t.raw : Int) - prev.raw).natAbs : Int) = t.raw - prev.raw := by
    split <;> omega
  rw [afterDelta?, ofDigits?_toDigits (by decide) (by decide), Option.bind_some]
  dsimp only
  rw [hdelta, Timestamp.decodedAfter]
  by_cases hraw : t.raw = prev.raw
  · rw [if_pos (by omega), if_pos hraw]
  · rw [if_neg (by omega), if_neg hraw, Timestamp.ofRaw?, show (prev.raw : Int) + (t.raw - prev.raw) =
      (t.raw : Nat) by omega, Timestamp.checkBounds_eq ht]
    obtain ⟨raw, offset⟩ := t
    subst hoffset
    rfl

/-! ### The round trip -/

section RoundTrip

variable {t1 : Timestamp} (h1 : t1.Valid)
include h1

/-- A string of `t1` alone decodes as `t1`, with the later components not encoded. -/
theorem decodeTimestamps_short (explicit : Bool) :
    decodeTimestamps t1.short explicit =
      some (t1, if explicit then none else some t1, if explicit then none else some t1) := by
  rw [decodeTimestamps, signedParts_of_unsigned (unsigned_short t1)]
  simp only [List.getD_cons_zero, Timestamp.ofString?_short h1, Option.bind_some,
    List.length_singleton, Nat.lt_irrefl, if_false, Nat.not_lt.mpr (Nat.le_succ 1)]
  cases explicit <;> rfl

/-- `t1` and one delta. -/
theorem decodeTimestamps_short_signedHex {t2 : Timestamp} (h2 : t2.raw < 10 ^ 15)
    (hoff2 : t2.offset = 0) (explicit : Bool) :
    decodeTimestamps (t1.short ++ signedHex ((t2.raw : Int) - t1.raw)) explicit =
      some (t1, some (t1.decodedAfter t2),
        if explicit then none else some (t1.decodedAfter t2)) := by
  have hparts : signedParts (t1.short ++ signedHex ((t2.raw : Int) - t1.raw) ++ []) =
      ([t1.short, Nat.toDigits 16 ((t2.raw : Int) - t1.raw).natAbs],
        [1, if (t2.raw : Int) - t1.raw < 0 then -1 else 1]) :=
    signedParts_append_signedHex (unsigned_short t1) _
      (by rw [List.append_nil]; exact signedParts_of_unsigned (unsigned_toDigits _))
  rw [List.append_nil] at hparts
  rw [decodeTimestamps, hparts]
  simp only [List.getD_cons_zero, List.getD_cons_succ, Timestamp.ofString?_short h1,
    Option.bind_some, List.length_cons, List.length_nil, afterDelta?_signedHex t1 h2 hoff2,
    Option.map_some, if_pos (show 1 < 0 + 1 + 1 by decide), if_neg (show ¬2 < 0 + 1 + 1 by decide)]
  rfl

/-- `t1` and two deltas. -/
theorem decodeTimestamps_short_signedHex_signedHex {t2 t3 : Timestamp} (h2 : t2.raw < 10 ^ 15)
    (hoff2 : t2.offset = 0) (h3 : t3.raw < 10 ^ 15) (hoff3 : t3.offset = 0) (explicit : Bool) :
    decodeTimestamps
        (t1.short ++ signedHex ((t2.raw : Int) - t1.raw) ++ signedHex ((t3.raw : Int) - t2.raw))
        explicit =
      some (t1, some (t1.decodedAfter t2), some ((t1.decodedAfter t2).decodedAfter t3)) := by
  -- the second delta is taken from `t2`, whose raw value its decoded form shares
  have hraw2 : (t1.decodedAfter t2).raw = t2.raw := by
    rw [Timestamp.decodedAfter]
    split <;> simp_all
  have hlast : signedParts (Nat.toDigits 16 ((t2.raw : Int) - t1.raw).natAbs ++
      signedHex ((t3.raw : Int) - t2.raw) ++ []) =
      ([Nat.toDigits 16 ((t2.raw : Int) - t1.raw).natAbs,
          Nat.toDigits 16 ((t3.raw : Int) - t2.raw).natAbs],
        [1, if (t3.raw : Int) - t2.raw < 0 then -1 else 1]) :=
    signedParts_append_signedHex (unsigned_toDigits _) _
      (by rw [List.append_nil]; exact signedParts_of_unsigned (unsigned_toDigits _))
  rw [List.append_nil] at hlast
  have hparts := signedParts_append_signedHex (unsigned_short t1) ((t2.raw : Int) - t1.raw) hlast
  rw [decodeTimestamps, hparts]
  simp only [List.getD_cons_zero, List.getD_cons_succ, Timestamp.ofString?_short h1,
    Option.bind_some, List.length_cons, List.length_nil, afterDelta?_signedHex t1 h2 hoff2,
    Option.map_eq_map, Option.map_some, if_pos (show 1 < 0 + 1 + 1 + 1 by decide),
    if_pos (show 2 < 0 + 1 + 1 + 1 by decide)]
  rw [← hraw2, afterDelta?_signedHex _ h3 hoff3]
  rfl

end RoundTrip

/-- `decode_timestamps(encode_timestamps(t1, t2, t3, explicit), explicit)` gives back `t1`, and
each later component given, or the one before it when they share their raw value; one that is
not encoded is `None` when decoding is explicit and the one before it otherwise. -/
theorem decodeTimestamps_encodeTimestamps (t1 : Timestamp) (t2 t3 : Option Timestamp)
    (explicit : Bool) (h1 : t1.Valid) (h2 : ∀ t ∈ t2, t.Valid ∧ t.offset = 0)
    (h3 : ∀ t ∈ t3, t.Valid ∧ t.offset = 0) :
    decodeTimestamps (encodeTimestamps t1 t2 t3 explicit) explicit =
      some (decodedComponents t1 t2 t3 explicit) := by
  cases t2 with
  | none =>
    rw [encodeTimestamps, decodeTimestamps_short h1]
    rfl
  | some t2 =>
    obtain ⟨⟨hraw2, -⟩, hoff2⟩ := h2 t2 rfl
    cases t3 with
    | none =>
      rw [encodeTimestamps]
      split
      next => rw [decodeTimestamps_short_signedHex h1 hraw2 hoff2]; rfl
      next hquiet =>
        -- no delta is written: `t2` has the raw value of `t1`
        simp only [Bool.or_eq_true, bne_iff_ne, ne_eq, not_or, not_not] at hquiet
        have hsame : t1.decodedAfter t2 = t1 := if_pos (by omega)
        rw [decodeTimestamps_short h1, decodedComponents]
        simp only [hsame, hquiet.1]
        rfl
    | some t3 =>
      obtain ⟨⟨hraw3, -⟩, hoff3⟩ := h3 t3 rfl
      rw [encodeTimestamps]
      split
      next => rw [decodeTimestamps_short_signedHex_signedHex h1 hraw2 hoff2 hraw3 hoff3]; rfl
      next hquiet =>
        simp only [Bool.or_eq_true, bne_iff_ne, ne_eq, not_or, not_not] at hquiet
        have hsame2 : t1.decodedAfter t2 = t1 := if_pos (by omega)
        have hsame3 : t1.decodedAfter t3 = t1 := if_pos (by omega)
        rw [decodeTimestamps_short h1, decodedComponents]
        simp only [hsame2, hsame3, hquiet.1.1]
        rfl

/-- A data time with an offset, a metadata time one second later and a content-type time before
the data time. -/
theorem decodeTimestamps_encodeTimestamps_offset :
    decodeTimestamps (encodeTimestamps ⟨140246467704188, 1⟩ (some ⟨140246467804188, 0⟩)
        (some ⟨140246467700000, 0⟩) false) false =
      some (decodedComponents ⟨140246467704188, 1⟩ (some ⟨140246467804188, 0⟩)
        (some ⟨140246467700000, 0⟩) false) :=
  decodeTimestamps_encodeTimestamps _ _ _ false (by decide) (by decide) (by decide)

example : encodeTimestamps ⟨140246467704188, 1⟩ (some ⟨140246467804188, 0⟩)
    (some ⟨140246467700000, 0⟩) false = "1402464677.04188_1+186a0-196fc".toList := by
  decide

end Swift
