import Swift.Common.Timestamp

/-!
# The lines of the ssync missing check

The sender of an ssync job offers each object as one line (`encode_missing` in
`swift.obj.ssync_sender`): the quoted hash, the internal form of the data file's time, and a
comma-separated list of `key:value` items. The times of the newest `.meta` file and of the
content type are sent as hexadecimal deltas of their raw values from the data file's time,
followed by `__` and their own offset when they have one; durability is sent only when it is
false. The receiver reads the line back with `decode_missing` (`swift.obj.ssync_receiver`),
compares it with what it has (`encode_wanted`) and answers with the hash and the letters of what
it wants, which the sender reads with `decode_wanted`.

The receiver rebuilds a time from `ts_data.normal`, which drops the data file's offset, plus the
delta: the meta and content-type times come back with their own offsets only, and a delta of `0`
carries no information about the order of two times with the same raw value. That is why the
round trip asks the sender's times to be ordered, `ts_data ≤ ts_ctype ≤ ts_meta`, as the
diskfile's selection guarantees.

Strings are `List Char`; `line.encode('ascii')` and `line.decode('ascii')` are the identity on
what `quote` writes and are left out.
-/

namespace Swift

namespace Ssync

open Text

/-! ### The missing line -/

/-- What `decode_missing` returns. -/
structure Missing where
  objectHash : List Char
  tsData : Timestamp
  tsMeta : Timestamp
  tsCtype : Timestamp
  durable : Bool
  deriving DecidableEq, Repr

/-- `ts and ts != ts_data`, the test a later time must pass to be sent. -/
def differs (tsData t : Timestamp) : Bool := t.toBool && t != tsData

/-- `'%x' % delta`, followed by `'__%x' % offset` when the time has an offset: the value of an
`m:` or `t:` item. -/
def deltaValue (tsData t : Timestamp) : List Char :=
  signedDigits 16 ((t.raw : Int) - tsData.raw) ++
    if t.offset ≠ 0 then '_' :: '_' :: Nat.toDigits 16 t.offset else []

/-- `'m:%x' % delta` or `'t:%x' % delta`, with the offset. -/
def deltaItem (key : Char) (tsData t : Timestamp) : List Char := key :: ':' :: deltaValue tsData t

/-- The items for the meta and content-type times: the content type is only sent inside the
meta branch. -/
def metaParts (tsData : Timestamp) (tsMeta tsCtype : Option Timestamp) : List (List Char) :=
  match tsMeta.filter (differs tsData) with
  | some tsMeta => deltaItem 'm' tsData tsMeta ::
      ((tsCtype.filter (differs tsData)).map (deltaItem 't' tsData)).toList
  | none => []

/-- `'durable:%s' % kwargs['durable']`, sent only when the keyword is given and `False`. -/
def durableParts (durable : Option Bool) : List (List Char) :=
  if durable = some false then ["durable:False".toList] else []

/-- `encode_missing(object_hash, ts_data, ts_meta, ts_ctype, **kwargs)`; `durable` is `none`
when the keyword is not given. -/
def encodeMissing (objectHash : List Char) (tsData : Timestamp) (tsMeta tsCtype : Option Timestamp)
    (durable : Option Bool) : List Char :=
  let msg := quote objectHash ++ ' ' :: quote tsData.internal
  let extraParts := metaParts tsData tsMeta tsCtype ++ durableParts durable
  if extraParts = [] then msg else msg ++ ' ' :: [','].intercalate extraParts

/-- `config_true_value(value)` on a string; `str.lower` and `Char.toLower` agree on the ASCII
text of a line. -/
def configTrueValue (value : List Char) : Bool :=
  value.map Char.toLower ∈ ["true", "1", "yes", "on", "t", "y"].map String.toList

/-- `Timestamp(ts_data.normal, delta=int(v, 16), offset=int(o or '0', 16))` for the value
`v__o` of an `m:` or `t:` item. -/
def timestampAfter? (tsData : Timestamp) (value : List Char) : Option Timestamp :=
  let parts := partition ['_', '_'] value
  (ofSignedDigits? 16 parts.1).bind fun delta =>
    (ofDigits? 16 (if parts.2 = [] then ['0'] else parts.2)).bind fun offset =>
      Timestamp.ofString? tsData.normal offset delta

/-- One `k:v` item of the third part of a line, applied to what has been read so far; `none`
where `k, v = item.split(':')` raises. -/
def decodeItem (tsData : Timestamp) (result : Missing) (item : List Char) : Option Missing :=
  match item.splitOn ':' with
  | [k, v] =>
    if k = ['m'] then (timestampAfter? tsData v).map fun t => { result with tsMeta := t }
    -- the source rebuilds from `Timestamp(ts_data).normal`, which is `ts_data.normal`
    else if k = ['t'] then (timestampAfter? tsData v).map fun t => { result with tsCtype := t }
    else if k = "durable".toList then some { result with durable := configTrueValue v }
    else some result
  | _ => none

/-- `decode_missing(line)`; `none` where it raises. -/
def decodeMissing (line : List Char) : Option Missing := do
  let parts := splitWhitespace line
  let objectHash ← parts[0]?
  let tData ← parts[1]?
  let tsData ← Timestamp.ofString? (unquote tData) 0 0
  let result : Missing := ⟨unquote objectHash, tsData, tsData, tsData, true⟩
  match parts[2]? with
  | some extra =>
    (((unquote extra).splitOn ',').filter (':' ∈ ·)).foldlM (decodeItem tsData) result
  | none => some result

/-! ### Reading the items back

Each item is read on its own, from `ts_data.normal` and the item's text. A time `t` with
`ts_data.raw ≤ t.raw` comes back whole: the delta restores the raw value, and the offset after
`__` is `t`'s own. -/

section Items

variable {tsData t : Timestamp}

theorem differs_of_le (hle : tsData ≤ t) : differs tsData t = decide (t ≠ tsData) := by
  by_cases heq : t = tsData
  · simp [differs, heq]
  · have hlt : tsData < t := lt_of_le_of_ne hle (Ne.symm heq)
    simp [differs, Timestamp.toBool_of_lt hlt, heq]

theorem mem_deltaValue {c : Char} (hc : c ∈ deltaValue tsData t) :
    c = '-' ∨ c = '_' ∨ ∃ d < 16, c = d.digitChar := by
  rw [deltaValue, List.mem_append] at hc
  rcases hc with hc | hc
  · exact (mem_signedDigits hc (by decide) (by decide)).imp_right .inr
  · split at hc
    · rcases List.mem_cons.mp hc with hc | hc
      · exact .inr (.inl hc)
      rcases List.mem_cons.mp hc with hc | hc
      · exact .inr (.inl hc)
      · exact .inr (.inr (mem_toDigits hc (by decide) (by decide)))
    · exact absurd hc List.not_mem_nil

theorem quoteSafe_of_mem_deltaValue {c : Char} (hc : c ∈ deltaValue tsData t) :
    quoteSafe c = true := by
  have hhex : ∀ d < 16, quoteSafe d.digitChar = true := by decide
  rcases mem_deltaValue hc with rfl | rfl | ⟨d, hd, rfl⟩
  · decide
  · decide
  · exact hhex d hd

/-- The time rebuilt from `ts_data.normal`, the offset and the delta of the raw values. -/
theorem ofString?_normal_delta (ht : t.Valid) (hraw : tsData.raw ≤ t.raw) :
    Timestamp.ofString? tsData.normal t.offset ((t.raw : Int) - tsData.raw) = some t := by
  have hpos : ¬((t.raw : Int) - tsData.raw ≠ 0 ∧ (tsData.raw : Int) + ((t.raw : Int) - tsData.raw) ≤ 0) := by
    omega
  rw [Timestamp.ofString?_normal, if_neg (Nat.not_lt.mpr ht.2), if_neg hpos,
    show (tsData.raw : Int) + ((t.raw : Int) - tsData.raw) = (t.raw : Int) by omega,
    Timestamp.checkBounds_eq ht.1]

theorem timestampAfter?_deltaValue (ht : t.Valid) (hraw : tsData.raw ≤ t.raw) :
    timestampAfter? tsData (deltaValue tsData t) = some t := by
  have hsigned : '_' ∉ signedDigits 16 ((t.raw : Int) - tsData.raw) := fun h => by
    have hhex : ∀ d < 16, '_' ≠ d.digitChar := by decide
    rcases mem_signedDigits h (by decide) (by decide) with h | ⟨d, hd, h⟩
    · exact absurd h (by decide)
    · exact hhex d hd h
  -- the offset, if any, is what follows the first `__`
  by_cases hoff : t.offset = 0
  · have hpart : partition ['_', '_'] (deltaValue tsData t) =
        (signedDigits 16 ((t.raw : Int) - tsData.raw), []) := by
      rw [deltaValue, if_neg (not_not.mpr hoff), List.append_nil]
      exact partition_of_not_mem hsigned
    have hzero : ofDigits? 16 ['0'] = some t.offset := by rw [hoff]; decide
    simp only [timestampAfter?, hpart, ofSignedDigits?_signedDigits (b := 16) (by decide) (by decide),
      Option.bind_some, if_pos, hzero]
    exact ofString?_normal_delta ht hraw
  · have hpart : partition ['_', '_'] (deltaValue tsData t) =
        (signedDigits 16 ((t.raw : Int) - tsData.raw), Nat.toDigits 16 t.offset) := by
      rw [deltaValue, if_pos hoff,
        show ∀ a b : List Char, a ++ '_' :: '_' :: b = a ++ ['_', '_'] ++ b by simp]
      exact partition_append hsigned _
    simp only [timestampAfter?, hpart, ofSignedDigits?_signedDigits (b := 16) (by decide) (by decide),
      Option.bind_some, if_neg Nat.toDigits_ne_nil, ofDigits?_toDigits (b := 16) (by decide) (by decide)]
    exact ofString?_normal_delta ht hraw

theorem splitOn_deltaItem {key : Char} (hkey : key ≠ ':') (tsData t : Timestamp) :
    (deltaItem key tsData t).splitOn ':' = [[key], deltaValue tsData t] := by
  have hcolon : ':' ∉ deltaValue tsData t := fun h =>
    absurd (quoteSafe_of_mem_deltaValue h) (by decide)
  rw [deltaItem, show key :: ':' :: deltaValue tsData t = [key] ++ ':' :: deltaValue tsData t from rfl,
    List.splitOn_append_cons_self_of_not_mem (by simpa using Ne.symm hkey),
    List.splitOn_eq_singleton hcolon]

theorem decodeItem_meta (ht : t.Valid) (hraw : tsData.raw ≤ t.raw) (result : Missing) :
    decodeItem tsData result (deltaItem 'm' tsData t) = some { result with tsMeta := t } := by
  simp only [decodeItem, splitOn_deltaItem (by decide : 'm' ≠ ':'), if_pos,
    timestampAfter?_deltaValue ht hraw, Option.map_some]

theorem decodeItem_ctype (ht : t.Valid) (hraw : tsData.raw ≤ t.raw) (result : Missing) :
    decodeItem tsData result (deltaItem 't' tsData t) = some { result with tsCtype := t } := by
  simp only [decodeItem, splitOn_deltaItem (by decide : 't' ≠ ':'),
    if_neg (by decide : ['t'] ≠ ['m']), if_pos, timestampAfter?_deltaValue ht hraw,
    Option.map_some]

theorem decodeItem_durable (result : Missing) :
    decodeItem tsData result "durable:False".toList = some { result with durable := false } :=
  rfl

end Items

/-! ### The round trip of a missing line -/

/-- What every item of a line is: it has a `:`, and its other characters are ones `quote` keeps. -/
structure WellFormedItem (item : List Char) : Prop where
  has_colon : ':' ∈ item
  safe : ∀ c ∈ item, c = ':' ∨ quoteSafe c = true

namespace WellFormedItem

variable {item : List Char}

theorem ne_nil (h : WellFormedItem item) : item ≠ [] := List.ne_nil_of_mem h.has_colon

theorem comma_not_mem (h : WellFormedItem item) : ',' ∉ item := fun hc => by
  rcases h.safe ',' hc with hc | hc <;> exact absurd hc (by decide)

theorem printable (h : WellFormedItem item) {c : Char} (hc : c ∈ item) : '!' ≤ c ∧ c ≠ '%' := by
  rcases h.safe c hc with rfl | hsafe
  · decide
  · exact ⟨le_of_quoteSafe hsafe, fun hpercent => absurd (hpercent ▸ hsafe) (by decide)⟩

end WellFormedItem

/-- The third field of a line, the items joined by commas: not empty, and printable. -/
theorem printable_intercalate {items : List (List Char)} (hne : items ≠ [])
    (hwf : ∀ item ∈ items, WellFormedItem item) :
    [','].intercalate items ≠ [] ∧ ∀ c ∈ [','].intercalate items, '!' ≤ c ∧ c ≠ '%' := by
  constructor
  · obtain ⟨first, rest, rfl⟩ := List.exists_cons_of_ne_nil hne
    have hfirst : first ≠ [] := (hwf first List.mem_cons_self).ne_nil
    cases rest with
    | nil => simpa using hfirst
    | cons next rest =>
      rw [List.intercalate_cons_cons]
      exact List.append_ne_nil_of_left_ne_nil (List.append_ne_nil_of_left_ne_nil hfirst _) _
  · intro c hc
    rcases mem_intercalate_singleton hc with rfl | ⟨item, hitem, hc⟩
    · decide
    · exact (hwf item hitem).printable hc

section RoundTrip

variable {tsData tsMeta tsCtype : Timestamp}

theorem wellFormedItem_deltaItem {key : Char} (hkey : quoteSafe key = true) (t : Timestamp) :
    WellFormedItem (deltaItem key tsData t) where
  has_colon := List.mem_cons_of_mem _ List.mem_cons_self
  safe c hc := by
    rcases List.mem_cons.mp hc with rfl | hc
    · exact .inr hkey
    rcases List.mem_cons.mp hc with rfl | hc
    · exact .inl rfl
    · exact .inr (quoteSafe_of_mem_deltaValue hc)

theorem wellFormedItem_of_mem_extraParts {tsMeta tsCtype : Option Timestamp} {durable : Option Bool}
    {item : List Char} (hitem : item ∈ metaParts tsData tsMeta tsCtype ++ durableParts durable) :
    WellFormedItem item := by
  rcases List.mem_append.mp hitem with hitem | hitem
  · rw [metaParts] at hitem
    split at hitem
    · rcases List.mem_cons.mp hitem with rfl | hitem
      · exact wellFormedItem_deltaItem (by decide) _
      · obtain ⟨t, -, rfl⟩ : ∃ t, _ ∧ deltaItem 't' tsData t = item := by
          simpa using hitem
        exact wellFormedItem_deltaItem (by decide) t
    · exact absurd hitem List.not_mem_nil
  · rw [durableParts] at hitem
    split at hitem
    · rw [List.mem_singleton.mp hitem]
      exact ⟨by decide, forall_mem_of_all (by decide)⟩
    · exact absurd hitem List.not_mem_nil

/-- The items of the meta and content-type times, read in order from the data file's time. -/
theorem foldlM_decodeItem_metaParts (hctype : tsCtype.Valid) (hmeta : tsMeta.Valid)
    (hle : tsData ≤ tsCtype ∧ tsCtype ≤ tsMeta) (objectHash : List Char) (durable : Bool) :
    (metaParts tsData (some tsMeta) (some tsCtype)).foldlM (decodeItem tsData)
        ⟨objectHash, tsData, tsData, tsData, durable⟩ =
      some ⟨objectHash, tsData, tsMeta, tsCtype, durable⟩ := by
  have hctype_raw := Timestamp.raw_le_of_le hle.1
  have hmeta_raw := Timestamp.raw_le_of_le (le_trans hle.1 hle.2)
  by_cases hm : tsMeta = tsData
  · -- nothing is sent, and the content type lies between two equal times
    have hc : tsCtype = tsData := le_antisymm (hm ▸ hle.2) hle.1
    rw [metaParts, Option.filter_some, differs_of_le (le_trans hle.1 hle.2), if_neg (by simpa using hm)]
    rw [hm, hc]
    rfl
  · rw [metaParts, Option.filter_some, differs_of_le (le_trans hle.1 hle.2),
      if_pos (by simpa using hm), Option.filter_some, differs_of_le hle.1]
    by_cases hc : tsCtype = tsData
    · -- only the meta time is sent
      rw [if_neg (by simpa using hc), Option.map_none, Option.toList_none, List.foldlM_cons,
        decodeItem_meta hmeta hmeta_raw, hc]
      rfl
    · rw [if_pos (by simpa using hc), Option.map_some, Option.toList_some, List.foldlM_cons,
        decodeItem_meta hmeta hmeta_raw, Option.bind_eq_bind, Option.bind_some, List.foldlM_cons,
        decodeItem_ctype hctype hctype_raw]
      rfl

theorem foldlM_decodeItem_durableParts (result : Missing) (hresult : result.durable = true)
    (durable : Bool) :
    (durableParts (some durable)).foldlM (decodeItem tsData) result =
      some { result with durable := durable } := by
  cases durable with
  | false =>
    rw [durableParts, if_pos rfl, List.foldlM_cons, decodeItem_durable]
    rfl
  | true =>
    rw [durableParts, if_neg (by decide), ← hresult]
    rfl

/-- A line of two fields, written in characters `quote` keeps. -/
theorem decodeMissing_two_fields {hashPart dataPart : List Char}
    (hhash : hashPart ≠ [] ∧ ∀ c ∈ hashPart, quoteSafe c = true)
    (hdata : dataPart ≠ [] ∧ ∀ c ∈ dataPart, quoteSafe c = true)
    (hts : Timestamp.ofString? dataPart 0 0 = some tsData) :
    decodeMissing (hashPart ++ ' ' :: dataPart) = some ⟨hashPart, tsData, tsData, tsData, true⟩ := by
  have hsplit : splitWhitespace (hashPart ++ ' ' :: dataPart) = [hashPart, dataPart] := by
    rw [splitWhitespace_append_cons hhash.1 (fun c hc => isWhitespace_eq_false_of_le
        (le_of_quoteSafe (hhash.2 c hc))) (by decide),
      splitWhitespace_of_forall hdata.1 (fun c hc => isWhitespace_eq_false_of_le
        (le_of_quoteSafe (hdata.2 c hc)))]
  have hunquote_hash : unquote hashPart = hashPart :=
    unquote_of_not_mem fun h => absurd (hhash.2 _ h) (by decide)
  have hunquote_data : unquote dataPart = dataPart :=
    unquote_of_not_mem fun h => absurd (hdata.2 _ h) (by decide)
  simp only [decodeMissing, hsplit, List.getElem?_cons_zero, List.getElem?_cons_succ,
    List.getElem?_nil, Option.bind_eq_bind, Option.bind_some, hunquote_data, hts, hunquote_hash]

/-- A line of three fields, the first two written in characters `quote` keeps and the third in
printable ones other than `%`: its items are read from the data file's time. -/
theorem decodeMissing_three_fields {hashPart dataPart extra : List Char}
    (hhash : hashPart ≠ [] ∧ ∀ c ∈ hashPart, quoteSafe c = true)
    (hdata : dataPart ≠ [] ∧ ∀ c ∈ dataPart, quoteSafe c = true)
    (hextra : extra ≠ [] ∧ ∀ c ∈ extra, '!' ≤ c ∧ c ≠ '%')
    (hts : Timestamp.ofString? dataPart 0 0 = some tsData) :
    decodeMissing (hashPart ++ ' ' :: dataPart ++ ' ' :: extra) =
      ((extra.splitOn ',').filter (':' ∈ ·)).foldlM (decodeItem tsData)
        ⟨hashPart, tsData, tsData, tsData, true⟩ := by
  have hsplit : splitWhitespace (hashPart ++ ' ' :: dataPart ++ ' ' :: extra) =
      [hashPart, dataPart, extra] := by
    rw [List.append_assoc, List.cons_append, splitWhitespace_append_cons hhash.1 (fun c hc => isWhitespace_eq_false_of_le
        (le_of_quoteSafe (hhash.2 c hc))) (by decide),
      splitWhitespace_append_cons hdata.1 (fun c hc => isWhitespace_eq_false_of_le
        (le_of_quoteSafe (hdata.2 c hc))) (by decide),
      splitWhitespace_of_forall hextra.1 (fun c hc => isWhitespace_eq_false_of_le (hextra.2 c hc).1)]
  have hunquote_hash : unquote hashPart = hashPart :=
    unquote_of_not_mem fun h => absurd (hhash.2 _ h) (by decide)
  have hunquote_data : unquote dataPart = dataPart :=
    unquote_of_not_mem fun h => absurd (hdata.2 _ h) (by decide)
  have hunquote_extra : unquote extra = extra :=
    unquote_of_not_mem fun h => (hextra.2 _ h).2 rfl
  simp only [decodeMissing, hsplit, List.getElem?_cons_zero, List.getElem?_cons_succ,
    Option.bind_eq_bind, Option.bind_some, hunquote_data, hts, hunquote_hash, hunquote_extra]

/-- `decode_missing` reads back what `encode_missing` wrote, for a hash in lower-case hex and
ordered times. -/
theorem decodeMissing_encodeMissing {objectHash : List Char}
    (hhash : objectHash ≠ [] ∧ ∀ c ∈ objectHash, ∃ d < 16, c = d.digitChar)
    (hdata : tsData.Valid) (hctype : tsCtype.Valid) (hmeta : tsMeta.Valid)
    (hle : tsData ≤ tsCtype ∧ tsCtype ≤ tsMeta) (durable : Bool) :
    decodeMissing (encodeMissing objectHash tsData (some tsMeta) (some tsCtype) (some durable)) =
      some ⟨objectHash, tsData, tsMeta, tsCtype, durable⟩ := by
  have hhex : ∀ d < 16, quoteSafe d.digitChar = true := by decide
  have hsafe_hash : ∀ c ∈ objectHash, quoteSafe c = true := fun c hc => by
    obtain ⟨d, hd, rfl⟩ := hhash.2 c hc
    exact hhex d hd
  have hsafe_data : ∀ c ∈ tsData.internal, quoteSafe c = true := fun c hc => by
    rcases Timestamp.mem_internal hc with rfl | rfl | ⟨d, hd, rfl⟩
    · decide
    · decide
    · exact hhex d hd
  -- the items, read in order, give the meta and content-type times and then durability
  have hitems : (metaParts tsData (some tsMeta) (some tsCtype) ++ durableParts (some durable)).foldlM
      (decodeItem tsData) ⟨objectHash, tsData, tsData, tsData, true⟩ =
        some ⟨objectHash, tsData, tsMeta, tsCtype, durable⟩ := by
    rw [List.foldlM_append, foldlM_decodeItem_metaParts hctype hmeta hle, Option.bind_eq_bind,
      Option.bind_some, foldlM_decodeItem_durableParts _ rfl]
  rw [encodeMissing, quote_of_forall hsafe_hash, quote_of_forall hsafe_data]
  split
  next hnone =>
    rw [hnone] at hitems
    rw [decodeMissing_two_fields ⟨hhash.1, hsafe_hash⟩ ⟨tsData.internal_ne_nil, hsafe_data⟩
      (Timestamp.ofString?_internal hdata)]
    exact hitems
  next hsome =>
    have hwf : ∀ item ∈ metaParts tsData (some tsMeta) (some tsCtype) ++ durableParts (some durable),
        WellFormedItem item := fun _ hitem => wellFormedItem_of_mem_extraParts hitem
    rw [decodeMissing_three_fields ⟨hhash.1, hsafe_hash⟩ ⟨tsData.internal_ne_nil, hsafe_data⟩
      (printable_intercalate hsome hwf) (Timestamp.ofString?_internal hdata),
      List.splitOn_intercalate ',' (fun item hitem => (hwf item hitem).comma_not_mem) hsome,
      List.filter_eq_self.mpr (fun item hitem => by simpa using (hwf item hitem).has_colon), hitems]

end RoundTrip

/-! ### The wanted line -/

/-- What the receiver asks for: the `data` and `meta` keys of the `want` dict. -/
structure Wanted where
  data : Bool
  metadata : Bool
  deriving DecidableEq, Repr

/-- The times `Receiver._check_local` found on the receiver, where it found them. -/
structure LocalFiles where
  tsData : Option Timestamp
  tsMeta : Option Timestamp
  tsCtype : Option Timestamp

/-- The `want` dict of `encode_wanted(remote, local)`. -/
def want (remote : Missing) (localFiles : LocalFiles) : Wanted :=
  match localFiles.tsData with
  | some localData =>
    { data := decide (localData < remote.tsData)
      metadata := (localFiles.tsMeta.any fun t => decide (t < remote.tsMeta)) ||
        localFiles.tsCtype.any fun t =>
          decide (t < remote.tsCtype) && decide (remote.tsData < remote.tsCtype) }
  -- the receiver has nothing, so it takes whatever the remote has
  | none => ⟨true, true⟩

/-- `encode_wanted(remote, local)`: the quoted hash and `d` and `m` in key order, or `none` when
nothing is wanted. -/
def encodeWanted (remote : Missing) (localFiles : LocalFiles) : Option (List Char) :=
  let w := want remote localFiles
  if w.data || w.metadata then
    some (quote remote.objectHash ++
      ' ' :: ((if w.data then ['d'] else []) ++ if w.metadata then ['m'] else []))
  else none

/-- `decode_wanted(parts)`: the letters of the first part; a receiver that names nothing gets
the data. -/
def decodeWanted (parts : List (List Char)) : Wanted :=
  let wanted : Wanted :=
    match parts with
    | part :: _ => ⟨'d' ∈ part, 'm' ∈ part⟩
    | [] => ⟨false, false⟩
  if wanted.data || wanted.metadata then wanted else { wanted with data := true }

/-- `decode_wanted` of the letters `encode_wanted` writes is the `want` they were written from. -/
theorem decodeWanted_letters (data metadata : Bool) (hany : (data || metadata) = true) :
    decodeWanted [(if data then ['d'] else []) ++ if metadata then ['m'] else []] =
      ⟨data, metadata⟩ := by
  cases data <;> cases metadata
  · exact absurd hany (by decide)
  all_goals rfl

/-- A wanted line splits into two parts: the quoted hash, and the letters. -/
theorem splitWhitespace_encodeWanted {remote : Missing} {localFiles : LocalFiles}
    {line : List Char} (hhash : remote.objectHash ≠ [])
    (hline : encodeWanted remote localFiles = some line) :
    splitWhitespace line = [quote remote.objectHash,
      (if (want remote localFiles).data then ['d'] else []) ++
        if (want remote localFiles).metadata then ['m'] else []] := by
  rw [encodeWanted] at hline
  generalize want remote localFiles = w at hline ⊢
  obtain ⟨data, metadata⟩ := w
  split at hline
  next hany =>
    obtain rfl := Option.some.inj hline.symm
    have hletters : ((if data then ['d'] else []) ++ if metadata then ['m'] else []) ≠ [] ∧
        ∀ c ∈ (if data then ['d'] else []) ++ (if metadata then ['m'] else []), '!' ≤ c := by
      cases data <;> cases metadata
      · exact absurd hany (by decide)
      all_goals exact ⟨by decide, forall_mem_of_all (by decide)⟩
    rw [splitWhitespace_append_cons (quote_ne_nil hhash)
        (fun c hc => isWhitespace_eq_false_of_le (le_of_mem_quote hc)) (by decide),
      splitWhitespace_of_forall hletters.1 (fun c hc => isWhitespace_eq_false_of_le (hletters.2 c hc))]
  next => exact absurd hline (by simp)

/-- `encode_wanted` writes a line exactly when something is wanted. -/
theorem encodeWanted_isSome (remote : Missing) (localFiles : LocalFiles) :
    (encodeWanted remote localFiles).isSome =
      ((want remote localFiles).data || (want remote localFiles).metadata) := by
  rw [encodeWanted]
  split
  next hany => rw [hany]; rfl
  next hnone => rw [Bool.not_eq_true] at hnone; rw [hnone]; rfl

/-- When something is wanted, the receiver sends a line whose first part is the quoted hash and
from whose other parts the sender reads back what the receiver decided to want. -/
theorem decodeWanted_encodeWanted {remote : Missing} {localFiles : LocalFiles}
    (hhash : remote.objectHash ≠ [])
    (hany : ((want remote localFiles).data || (want remote localFiles).metadata) = true) :
    ∃ line, encodeWanted remote localFiles = some line ∧
      (splitWhitespace line).head? = some (quote remote.objectHash) ∧
      decodeWanted ((splitWhitespace line).drop 1) = want remote localFiles := by
  obtain ⟨line, hline⟩ := Option.isSome_iff_exists.mp
    ((encodeWanted_isSome remote localFiles).trans hany)
  have hsplit := splitWhitespace_encodeWanted hhash hline
  refine ⟨line, hline, by rw [hsplit]; rfl, ?_⟩
  rw [hsplit, List.drop_one, List.tail_cons, decodeWanted_letters _ _ hany]

/-- The missing check's two lines round-trip: `decode_missing` reads back the hash, the three
times and durability that `encode_missing` wrote; and when the receiver wants something it sends
the quoted hash and the letters, from which `decode_wanted` reads back what `encode_wanted`
decided to want, while when it wants nothing it sends no line. -/
theorem missingCheck_round_trip {objectHash : List Char}
    (hhash : objectHash ≠ [] ∧ ∀ c ∈ objectHash, ∃ d < 16, c = d.digitChar)
    {tsData tsCtype tsMeta : Timestamp} (hdata : tsData.Valid) (hctype : tsCtype.Valid)
    (hmeta : tsMeta.Valid) (hle : tsData ≤ tsCtype ∧ tsCtype ≤ tsMeta) (durable : Bool) :
    decodeMissing (encodeMissing objectHash tsData (some tsMeta) (some tsCtype) (some durable)) =
        some ⟨objectHash, tsData, tsMeta, tsCtype, durable⟩ ∧
      ∀ (remote : Missing) (localFiles : LocalFiles), remote.objectHash ≠ [] →
        (((want remote localFiles).data || (want remote localFiles).metadata) = true →
          ∃ line, encodeWanted remote localFiles = some line ∧
            (splitWhitespace line).head? = some (quote remote.objectHash) ∧
            decodeWanted ((splitWhitespace line).drop 1) = want remote localFiles) ∧
        (((want remote localFiles).data || (want remote localFiles).metadata) = false →
          encodeWanted remote localFiles = none) := by
  refine ⟨decodeMissing_encodeMissing hhash hdata hctype hmeta hle durable,
    fun remote localFiles hremote => ⟨decodeWanted_encodeWanted hremote, fun hnone => ?_⟩⟩
  -- wanting nothing, the receiver writes no line
  rw [← Option.not_isSome_iff_eq_none, encodeWanted_isSome, hnone]
  exact Bool.false_ne_true

/-- A content-type time with the data file's raw value and a larger offset, a later meta time and
a non-durable data file. -/
theorem missingCheck_round_trip_sameRawCtype :
    decodeMissing (encodeMissing "d41d8cd98f00b204e9800998ecf8427e".toList ⟨146000000000000, 1⟩
        (some ⟨146000000100000, 0⟩) (some ⟨146000000000000, 3⟩) (some false)) =
        some ⟨"d41d8cd98f00b204e9800998ecf8427e".toList, ⟨146000000000000, 1⟩,
          ⟨146000000100000, 0⟩, ⟨146000000000000, 3⟩, false⟩ ∧
      ∀ (remote : Missing) (localFiles : LocalFiles), remote.objectHash ≠ [] →
        (((want remote localFiles).data || (want remote localFiles).metadata) = true →
          ∃ line, encodeWanted remote localFiles = some line ∧
            (splitWhitespace line).head? = some (quote remote.objectHash) ∧
            decodeWanted ((splitWhitespace line).drop 1) = want remote localFiles) ∧
        (((want remote localFiles).data || (want remote localFiles).metadata) = false →
          encodeWanted remote localFiles = none) :=
  missingCheck_round_trip ⟨by decide, forall_mem_of_all (by decide)⟩ (by decide) (by decide) (by decide)
    (by decide) false

example : encodeMissing "d41d8cd98f00b204e9800998ecf8427e".toList ⟨146000000000000, 1⟩
    (some ⟨146000000100000, 0⟩) (some ⟨146000000000000, 3⟩) (some false) =
      ("d41d8cd98f00b204e9800998ecf8427e 1460000000.00000_0000000000000001 " ++
        "m:186a0,t:0__3,durable:False").toList := by
  decide +kernel

end Ssync

end Swift
