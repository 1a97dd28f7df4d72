import Swift.Data.PyBytes
import Swift.Data.Text

/-!
# The headers of a MIME document

`parse_mime_headers` decodes each header line it reads (UTF-8, else Latin-1), hands the text to
`email.parser.Parser().parsestr`, and makes a `HeaderKeyDict` of the message it gets back.
`multipart_byteranges_to_document_iters` then reads the `Content-Range` header with
`parse_content_range`.

## Scope

Of the standard library's `FeedParser`, only what makes the headers is kept, under the `compat32`
policy of `Parser()`. The text is cut into lines at `\r\n`, `\r` or `\n`, and lines are taken as
headers while they match `headerRE`; `_parse_headers` makes the (name, value) pairs from them.
What the parser does with the body, and the defects it records, change no header and are left
out. `HeaderKeyDict` is kept as the list of its items in insertion order, as the `dict` it is.

`\d` of `_content_range_pattern` is read as an ASCII digit: Python's `\d` on a `str` also takes the
other decimal digits of Unicode, which no header written by `document_iters_to_multipart_byteranges`
holds.

## Main results

* `decodeLine_encodeUtf8` — a line the encoder wrote as UTF-8 decodes back to its text
* `Email.parsestr_headerLines` — header lines the encoder writes, and the blank line after them,
  give back their headers
* `parseContentRange_formatted` — `parse_content_range` reads back the three numbers it is given
  in the form `bytes %d-%d/%d`
-/

namespace Swift

open PyBytes

/-! ### Decoding a header line -/

/-- `line.decode('utf-8')`, or `line.decode('latin1')` when that raises. -/
def decodeLine (line : List UInt8) : List Char :=
  match String.fromUTF8? line.toByteArray with
  | some s => s.toList
  | none => line.map fun b => Char.ofNat b.toNat

theorem decodeLine_encodeUtf8 (s : List Char) : decodeLine (encodeUtf8 s) = s := by
  have hbytes : (encodeUtf8 s).toByteArray = (String.ofList s).toByteArray := by
    rw [String.toByteArray_ofList]
    rfl
  rw [decodeLine, hbytes, String.fromUTF8?, dif_pos (String.ofList s).isValidUTF8]
  exact String.toList_ofList

/-! ### `email.parser.Parser().parsestr` -/

namespace Email

/-- The lines of a text, each with its end, which is `\r\n`, `\r` or `\n` (`NLCRE_crack`); a last
line with no end is kept. `cur` is the line read so far. -/
def crackLinesFrom (cur : List Char) : List Char → List (List Char)
  | [] => if cur = [] then [] else [cur]
  | '\r' :: '\n' :: rest => (cur ++ ['\r', '\n']) :: crackLinesFrom [] rest
  | '\r' :: rest => (cur ++ ['\r']) :: crackLinesFrom [] rest
  | '\n' :: rest => (cur ++ ['\n']) :: crackLinesFrom [] rest
  | c :: rest => crackLinesFrom (cur ++ [c]) rest

/-- A character of a header's name in `headerRE`: `[\041-\071\073-\176]`, printable ASCII but
`:`. -/
def isFieldChar (c : Char) : Bool := ('!' ≤ c && c ≤ '9') || (';' ≤ c && c ≤ '~')

/-- `headerRE.match(line)`, `headerRE` being `^(From |[\041-\071\073-\176]*:|[\t ])`. -/
def isHeaderLine (line : List Char) : Bool :=
  ['F', 'r', 'o', 'm', ' '].isPrefixOf line || (line.dropWhile isFieldChar).head? == some ':' ||
    line.head? == some ' ' || line.head? == some '\t'

/-- `compat32`'s `header_source_parse`: the name before the first `:` of the first line, and the
value after it, with its leading blanks dropped, the continuation lines added and the line ends
at its end dropped (`value.rstrip('\r\n')`). -/
def headerSourceParse (first : List Char) (continuation : List (List Char)) :
    List Char × List Char :=
  let value := ((first.dropWhile (· ≠ ':')).drop 1).dropWhile (fun c => c = ' ' || c = '\t')
  (first.takeWhile (· ≠ ':'),
    ((value ++ continuation.flatten).reverse.dropWhile (fun c => c = '\r' || c = '\n')).reverse)

/-- The header read so far by `_parse_headers`, as `set_raw` stores it. -/
def flushHeader : Option (List Char × List (List Char)) → List (List Char × List Char)
  | none => []
  | some (first, continuation) => [headerSourceParse first continuation]

/-- `_parse_headers(lines)`: the (name, value) pairs of the header lines, in order. `isFirst` says
that `line` is the first of all lines (`lineno == 0`), and `last` holds the first line and the
continuation lines of the header being read (`lastheader`, `lastvalue`). -/
def parseHeaders (isFirst : Bool) (last : Option (List Char × List (List Char))) :
    List (List Char) → List (List Char × List Char)
  | [] => flushHeader last
  | line :: rest =>
    if line.head? = some ' ' ∨ line.head? = some '\t' then
      match last with
      -- `FirstHeaderLineIsContinuationDefect`: the line is dropped
      | none => parseHeaders false none rest
      | some (first, continuation) => parseHeaders false (some (first, continuation ++ [line])) rest
    else if ['F', 'r', 'o', 'm', ' '].isPrefixOf line then
      -- the envelope line at the start, and a misplaced one, are no header; one at the end
      -- begins the body
      if !isFirst && rest = [] then flushHeader last
      else flushHeader last ++ parseHeaders false none rest
    -- a line that begins with `:` is an `InvalidHeaderDefect`, and dropped
    else if line.head? = some ':' then flushHeader last ++ parseHeaders false none rest
    else flushHeader last ++ parseHeaders false (some (line, [])) rest

/-- The headers `Parser().parsestr(text)` gives a message, in order: those of the lines that
match `headerRE`, up to the first that does not. -/
def parsestr (text : List Char) : List (List Char × List Char) :=
  parseHeaders true none ((crackLinesFrom [] text).takeWhile isHeaderLine)

/-! #### Header lines the encoder writes -/

/-- The line `name: value\r\n`. -/
def headerLine (name value : List Char) : List Char := name ++ [':', ' '] ++ value ++ ['\r', '\n']

/-- A header `parsestr` reads back from its line: the name is made of field characters, and the
value has no line end and does not begin with a blank. -/
structure PlainHeader (header : List Char × List Char) : Prop where
  name_ne : header.1 ≠ []
  field : ∀ c ∈ header.1, isFieldChar c = true
  no_cr : '\r' ∉ header.2
  no_lf : '\n' ∉ header.2
  no_blank : header.2.head? ≠ some ' ' ∧ header.2.head? ≠ some '\t'

/-- A line with no line end inside is cut at its `\r\n`. -/
theorem crackLinesFrom_append_crlf {l : List Char} (hr : '\r' ∉ l) (hn : '\n' ∉ l)
    (cur rest : List Char) :
    crackLinesFrom cur (l ++ '\r' :: '\n' :: rest) =
      (cur ++ l ++ ['\r', '\n']) :: crackLinesFrom [] rest := by
  induction l generalizing cur with
  | nil => simp [crackLinesFrom]
  | cons c l ih =>
    have hcr : c ≠ '\r' := fun h => hr (h ▸ List.mem_cons_self)
    have hcn : c ≠ '\n' := fun h => hn (h ▸ List.mem_cons_self)
    rw [List.cons_append, crackLinesFrom.eq_5 _ _ _ (fun _ h => absurd h hcr) hcr hcn,
      ih (fun h => hr (List.mem_cons_of_mem c h)) (fun h => hn (List.mem_cons_of_mem c h))]
    simp

/-- A character that is no field character, nor `:` or a blank, and not in the value, is not in
the line before its end. -/
theorem PlainHeader.not_mem_line {header : List Char × List Char} (h : PlainHeader header)
    {c : Char} (hfield : isFieldChar c = false) (hsep : c ≠ ':' ∧ c ≠ ' ') (hvalue : c ∉ header.2) :
    c ∉ header.1 ++ [':', ' '] ++ header.2 := by
  have hname : c ∉ header.1 := fun hm => by simp [h.field c hm] at hfield
  simp [hname, hsep.1, hsep.2, hvalue]

theorem PlainHeader.no_cr_line {header : List Char × List Char} (h : PlainHeader header) :
    '\r' ∉ header.1 ++ [':', ' '] ++ header.2 :=
  h.not_mem_line (by decide) (by decide) h.no_cr

theorem PlainHeader.no_lf_line {header : List Char × List Char} (h : PlainHeader header) :
    '\n' ∉ header.1 ++ [':', ' '] ++ header.2 :=
  h.not_mem_line (by decide) (by decide) h.no_lf

theorem crackLinesFrom_headerLines {headers : List (List Char × List Char)}
    (h : ∀ x ∈ headers, PlainHeader x) :
    crackLinesFrom [] ((headers.map fun x => headerLine x.1 x.2).flatten ++ ['\r', '\n']) =
      headers.map (fun x => headerLine x.1 x.2) ++ [['\r', '\n']] := by
  induction headers with
  | nil => rfl
  | cons x headers ih =>
    have hx := h x List.mem_cons_self
    have hsplit : ((x :: headers).map fun x => headerLine x.1 x.2).flatten ++ ['\r', '\n'] =
        (x.1 ++ [':', ' '] ++ x.2) ++ '\r' :: '\n' ::
          ((headers.map fun x => headerLine x.1 x.2).flatten ++ ['\r', '\n']) := by
      simp [headerLine]
    rw [hsplit, crackLinesFrom_append_crlf hx.no_cr_line hx.no_lf_line,
      ih (fun y hy => h y (List.mem_cons_of_mem x hy))]
    simp [headerLine]

/-- A header line is no envelope line: `From ` would need a space in the name or a `:` in
`From `. -/
theorem isPrefixOf_from_headerLine {header : List Char × List Char} (h : PlainHeader header) :
    ['F', 'r', 'o', 'm', ' '].isPrefixOf (headerLine header.1 header.2) = false := by
  rw [Bool.eq_false_iff]
  intro hpre
  rw [List.isPrefixOf_iff_prefix, headerLine, List.append_assoc, List.append_assoc] at hpre
  rcases List.prefix_or_prefix_of_prefix hpre (List.prefix_append header.1 _) with hin | ⟨q, hq⟩
  · have hspace := h.field ' ' (hin.subset (by simp))
    simp [isFieldChar] at hspace
  · -- the name is a proper prefix of `From `, so `:` follows it in `From `
    rw [← hq, List.prefix_append_right_inj] at hpre
    have hcolon : ':' ∈ ['F', 'r', 'o', 'm', ' '] := by
      cases q with
      | nil =>
        rw [List.append_nil] at hq
        have hspace := h.field ' ' (by simp [hq])
        simp [isFieldChar] at hspace
      | cons c cs =>
        obtain ⟨rfl, -⟩ := List.cons_prefix_cons.mp hpre
        exact hq ▸ List.mem_append_right _ List.mem_cons_self
    simp at hcolon

theorem isHeaderLine_headerLine {header : List Char × List Char} (h : PlainHeader header) :
    isHeaderLine (headerLine header.1 header.2) = true := by
  have hdrop : (headerLine header.1 header.2).dropWhile isFieldChar =
      ':' :: ' ' :: header.2 ++ ['\r', '\n'] := by
    rw [headerLine, List.append_assoc, List.append_assoc, List.dropWhile_append_of_pos h.field]
    simp [isFieldChar]
  simp [isHeaderLine, hdrop]

theorem headerSourceParse_headerLine {header : List Char × List Char} (h : PlainHeader header) :
    headerSourceParse (headerLine header.1 header.2) [] = header := by
  have hcolon : ':' ∉ header.1 := fun hm => by simpa [isFieldChar] using h.field _ hm
  have hname : (headerLine header.1 header.2).takeWhile (· ≠ ':') = header.1 := by
    rw [headerLine, List.append_assoc, List.append_assoc,
      List.takeWhile_append_of_pos (fun c hc => by simp; rintro rfl; exact hcolon hc)]
    simp
  have hvalue : (((headerLine header.1 header.2).dropWhile (· ≠ ':')).drop 1).dropWhile
      (fun c => c = ' ' || c = '\t') = header.2 ++ ['\r', '\n'] := by
    rw [headerLine, List.append_assoc, List.append_assoc,
      List.dropWhile_append_of_pos (fun c hc => by simp; rintro rfl; exact hcolon hc)]
    cases hv : header.2 with
    | nil => simp
    | cons c cs =>
      have hc : ¬(c = ' ' ∨ c = '\t') := by
        have := h.no_blank
        rw [hv] at this
        simpa using this
      simp [hc]
  -- the line end goes, and the value has none of its own
  have hend : ((header.2 ++ ['\r', '\n']).reverse.dropWhile
      (fun c => c = '\r' || c = '\n')).reverse = header.2 := by
    rcases List.eq_nil_or_concat header.2 with hv | ⟨init, last, hv⟩
    · simp [hv]
    · have hlast : ¬(last = '\r' ∨ last = '\n') := by
        rintro (rfl | rfl)
        · exact h.no_cr (by simp [hv])
        · exact h.no_lf (by simp [hv])
      simp [hv, hlast]
  simp only [headerSourceParse, hname, hvalue, List.flatten_nil, List.append_nil, hend]

theorem parseHeaders_headerLines {headers : List (List Char × List Char)}
    (h : ∀ x ∈ headers, PlainHeader x) (isFirst : Bool) (last : Option (List Char × List (List Char))) :
    parseHeaders isFirst last (headers.map fun x => headerLine x.1 x.2) =
      flushHeader last ++ headers := by
  induction headers generalizing isFirst last with
  | nil => simp [parseHeaders]
  | cons x headers ih =>
    have hx := h x List.mem_cons_self
    -- the line begins with its name, a field character: neither a blank, an envelope line nor `:`
    obtain ⟨c, cs, hname⟩ := List.exists_cons_of_ne_nil hx.name_ne
    have hc := hx.field c (by simp [hname])
    have hblank : ¬((headerLine x.1 x.2).head? = some ' ' ∨ (headerLine x.1 x.2).head? = some '\t') := by
      simp only [headerLine, hname, List.cons_append, List.head?_cons, Option.some.injEq]
      rintro (rfl | rfl) <;> simp [isFieldChar] at hc
    have hcolon : (headerLine x.1 x.2).head? ≠ some ':' := by
      simp only [headerLine, hname, List.cons_append, List.head?_cons, ne_eq, Option.some.injEq]
      rintro rfl
      simp [isFieldChar] at hc
    rw [List.map_cons, parseHeaders.eq_def]
    dsimp only
    rw [if_neg hblank,
      if_neg (by simp [isPrefixOf_from_headerLine hx]), if_neg hcolon,
      ih (fun y hy => h y (List.mem_cons_of_mem x hy))]
    simp [flushHeader, headerSourceParse_headerLine hx]

/-- Header lines the encoder writes, and the blank line after them, give back their headers. -/
theorem parsestr_headerLines {headers : List (List Char × List Char)}
    (h : ∀ x ∈ headers, PlainHeader x) :
    parsestr ((headers.map fun x => headerLine x.1 x.2).flatten ++ ['\r', '\n']) = headers := by
  rw [parsestr, crackLinesFrom_headerLines h,
    List.takeWhile_append_of_pos (fun l hl => by
      obtain ⟨x, hx, rfl⟩ := List.mem_map.mp hl
      exact isHeaderLine_headerLine (h x hx))]
  rw [show List.takeWhile isHeaderLine [['\r', '\n']] = [] from rfl, List.append_nil,
    parseHeaders_headerLines h]
  rfl

/-- The header names compare as `str.lower()` does on ASCII. -/
def lower (s : List Char) : List Char := s.map Char.toLower

/-- `message[name]` (`Message.get`): the value of the first header of that name, in any case. -/
def messageGet (headers : List (List Char × List Char)) (name : List Char) :
    Option (List Char) :=
  (headers.find? fun kv => lower kv.1 == lower name).map Prod.snd

end Email

/-! ### `HeaderKeyDict` -/

namespace HeaderKeyDict

/-- `bytes.title` from `prevCased`: a letter is upper case after a byte that is no letter and
lower case after one that is. -/
def titleFrom : Bool → List Char → List Char
  | _, [] => []
  | prevCased, c :: rest =>
    if c.isAlpha then (if prevCased then c.toLower else c.toUpper) :: titleFrom true rest
    else c :: titleFrom false rest

/-- `_title(s)` on Python 3: `s.encode('latin1').title().decode('latin1')`. -/
def title (s : List Char) : List Char := titleFrom false s

/-- `d[key] = value` on a dict kept as its items in insertion order. -/
def setItem (d : List (List Char × List Char)) (key value : List Char) :
    List (List Char × List Char) :=
  if d.any (·.1 == key) then d.map fun kv => if kv.1 = key then (key, value) else kv
  else d ++ [(key, value)]

/-- `HeaderKeyDict(message)`: `update` sets `self[_title(key)] = message[key]` for each key of
the message, in order. The message has every one of its keys, so `message[key]` is never
`None`. -/
def ofMessage (headers : List (List Char × List Char)) : List (List Char × List Char) :=
  headers.foldl (fun d kv => setItem d (title kv.1) ((Email.messageGet headers kv.1).getD kv.2)) []

/-- `headers.get(key)`. -/
def get (d : List (List Char × List Char)) (key : List Char) : Option (List Char) :=
  (d.find? fun kv => kv.1 == title key).map Prod.snd

/-- Two headers whose names are title case already and differ in any case are kept as they are. -/
theorem ofMessage_pair {n₁ v₁ n₂ v₂ : List Char} (h₁ : title n₁ = n₁) (h₂ : title n₂ = n₂)
    (hne : Email.lower n₁ ≠ Email.lower n₂) :
    ofMessage [(n₁, v₁), (n₂, v₂)] = [(n₁, v₁), (n₂, v₂)] := by
  have hne' : n₁ ≠ n₂ := fun h => hne (h ▸ rfl)
  simp [ofMessage, Email.messageGet, setItem, h₁, h₂, hne, hne']

theorem get_pair_snd {n₁ v₁ n₂ v₂ key : List Char} (hkey : title key = n₂) (hne : n₁ ≠ n₂) :
    get [(n₁, v₁), (n₂, v₂)] key = some v₂ := by
  simp [get, hkey, hne]

end HeaderKeyDict

/-! ### `parse_content_range` -/

/-- What `multipart_byteranges_to_document_iters` raises. -/
inductive MimeError where
  /-- `MimeInvalid('invalid starting boundary: wanted %r, got %r' % (boundary, got))`. -/
  | mimeInvalid (wanted got : List UInt8)
  /-- `ValueError("malformed Content-Range %r" % (content_range,))`. -/
  | malformedContentRange (contentRange : List Char)
  /-- `re.search` on a missing `Content-Range` header, `None`, raises `TypeError`. -/
  | noContentRange
  deriving DecidableEq, Repr

/-- A group `(\d+)` of `_content_range_pattern` and what follows it: the longest run of digits,
which must not be empty, read by `int`. -/
def digitRun (s : List Char) : Option (Nat × List Char) :=
  (Text.ofDigits? 10 (s.takeWhile Char.isDigit)).map fun n => (n, s.dropWhile Char.isDigit)

/-- `re.search(_content_range_pattern, content_range)` and `int` of its groups, with
`_content_range_pattern` being `^bytes (\d+)-(\d+)/(\d+)$`. `$` also matches before a `\n` that
ends the text. -/
def matchContentRange (s : List Char) : Option (Nat × Nat × Nat) := do
  let rest ← if ['b', 'y', 't', 'e', 's', ' '].isPrefixOf s then some (s.drop 6) else none
  let (firstByte, rest) ← digitRun rest
  let rest ← match rest with
    | '-' :: rest => some rest
    | _ => none
  let (lastByte, rest) ← digitRun rest
  let rest ← match rest with
    | '/' :: rest => some rest
    | _ => none
  let (length, rest) ← digitRun rest
  if rest = [] ∨ rest = ['\n'] then some (firstByte, lastByte, length) else none

/-- `parse_content_range(content_range)`, with `None` for a header that is not there. -/
def parseContentRange : Option (List Char) → Except MimeError (Nat × Nat × Nat)
  | none => .error .noContentRange
  | some s =>
    match matchContentRange s with
    | some r => .ok r
    | none => .error (.malformedContentRange s)

theorem digitRun_toDigits (n : Nat) {rest : List Char}
    (hrest : ∀ c ∈ rest.head?, c.isDigit = false) :
    digitRun (Nat.toDigits 10 n ++ rest) = some (n, rest) := by
  have hdigits : ∀ c ∈ Nat.toDigits 10 n, c.isDigit = true :=
    fun c hc => Nat.isDigit_of_mem_toDigits (by decide) (by decide) hc
  have hstop : rest.takeWhile Char.isDigit = [] ∧ rest.dropWhile Char.isDigit = rest := by
    cases rest with
    | nil => simp
    | cons c cs => simp [hrest c rfl]
  rw [digitRun, List.takeWhile_append_of_pos hdigits, List.dropWhile_append_of_pos hdigits,
    hstop.1, hstop.2, List.append_nil, Text.ofDigits?_toDigits (by decide) (by decide)]
  rfl

/-- `parse_content_range` reads back the numbers of `b"bytes %d-%d/%d"` when none is negative. -/
theorem parseContentRange_formatted (firstByte lastByte length : Nat) :
    parseContentRange (some ("bytes ".toList ++ Nat.toDigits 10 firstByte ++ ['-'] ++
      Nat.toDigits 10 lastByte ++ ['/'] ++ Nat.toDigits 10 length)) =
      .ok (firstByte, lastByte, length) := by
  have h6 : ("bytes ".toList).length = 6 := rfl
  have hdrop : ("bytes ".toList ++ Nat.toDigits 10 firstByte ++ ['-'] ++ Nat.toDigits 10 lastByte ++
      ['/'] ++ Nat.toDigits 10 length).drop 6 = Nat.toDigits 10 firstByte ++ '-' ::
        (Nat.toDigits 10 lastByte ++ '/' :: Nat.toDigits 10 length) := by
    rw [List.append_assoc, List.append_assoc, List.append_assoc, List.append_assoc,
      List.drop_left' h6]
    simp
  have hbytes : ['b', 'y', 't', 'e', 's', ' '].isPrefixOf ("bytes ".toList ++
      Nat.toDigits 10 firstByte ++ ['-'] ++ Nat.toDigits 10 lastByte ++ ['/'] ++
      Nat.toDigits 10 length) = true := by
    rw [List.isPrefixOf_iff_prefix, List.append_assoc, List.append_assoc, List.append_assoc,
      List.append_assoc]
    exact List.prefix_append _ _
  have hfirst := @digitRun_toDigits firstByte ('-' ::
    (Nat.toDigits 10 lastByte ++ '/' :: Nat.toDigits 10 length))
    (fun c hc => by simp only [List.head?_cons, Option.mem_def, Option.some.injEq] at hc; subst hc; rfl)
  have hlast := @digitRun_toDigits lastByte ('/' :: Nat.toDigits 10 length)
    (fun c hc => by simp only [List.head?_cons, Option.mem_def, Option.some.injEq] at hc; subst hc; rfl)
  have hlength := @digitRun_toDigits length [] (by simp)
  rw [List.append_nil] at hlength
  simp only [parseContentRange, matchContentRange, hbytes, if_true, hdrop, Option.bind_eq_bind,
    Option.bind_some, hfirst, hlast, hlength, true_or, if_true]

end Swift
