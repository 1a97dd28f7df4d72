import Swift.Common.FileLikeIter
import Swift.Common.MimeHeaders

/-!
# `multipart/byteranges` documents

`document_iters_to_multipart_byteranges` writes the parts of a multi-range response as one
`multipart/byteranges` document: each part is a divider `--B\r\n`, a `Content-Type` and a
`Content-Range` header, a blank line and the body, and a `\r\n` ends it; `--B--` ends the document.
`multipart_byteranges_to_document_iters` reads such a document back from a file. Its
`iter_multipart_mime_documents` checks the first line, then hands out one
`_MultipartMimeFileLikeObject` per part. A file object reads from the input into a buffer that the
next one takes over, and ends its part at the delimiter `\r\n--B`: it reads far enough ahead that
it never returns bytes of a delimiter, and what follows the delimiter tells whether another part
comes.

The input here is a `FileLikeIter` over chunks, and a caller reads each body with `read()` until
it gets `b''`, as `maybe_multipart_byteranges_to_document_iters` does.

## What does not come back

The round trip fails for documents that are not what a multi-range response sends:

* no parts: the document is `--B--` alone, and the first line is not the boundary
  (`multipartByterangesToDocumentIters_empty`);
* a boundary that ends with whitespace, which `got.strip()` drops from the first line, or holds a
  `\n`, which ends the first line inside the boundary: either way the first line is not the
  boundary;
* an empty chunk of the input, which `FileLikeIter` reads as its end;
* a negative number in the range, which `%d` writes with a sign that `\d+` does not read;
* a content type that begins with a blank, which the parser drops from the header's value.

## Main results

* `multipartByterangesToDocumentIters_empty` — for every boundary, chunking and read size, the
  document of no parts is refused as `MimeInvalid`
-/

namespace Swift

open PyBytes

/-- `b"\r\n"`. -/
def crlf : List UInt8 := [13, 10]

/-- `b"--"`. -/
def dashes : List UInt8 := [45, 45]

@[simp] theorem length_crlf : crlf.length = 2 := rfl

@[simp] theorem length_dashes : dashes.length = 2 := rfl

/-! ### `document_iters_to_multipart_byteranges` -/

/-- A range spec of `ranges_iter`, with the keys `document_iters_to_multipart_byteranges` reads. -/
structure RangeSpec where
  startByte : Int
  endByte : Int
  /-- `range_spec.get("entity_length", "*")`: `none` is `"*"`. -/
  entityLength : Option Int
  contentType : List Char
  /-- The chunks `part_iter` yields. -/
  partIter : List (List UInt8)

/-- `b"bytes %d-%d/%s" % (start_byte, end_byte, entity_length)`, as text. -/
def RangeSpec.contentRange (spec : RangeSpec) : List Char :=
  "bytes ".toList ++ Text.signedDigits 10 spec.startByte ++ ['-'] ++
    Text.signedDigits 10 spec.endByte ++ ['/'] ++
    (match spec.entityLength with
      | none => ['*']
      | some n => Text.signedDigits 10 n)

/-- The lines of `part_header` after the divider: the two headers and the blank line. -/
def RangeSpec.headerLines (spec : RangeSpec) : List UInt8 :=
  encodeUtf8 ("Content-Type: ".toList ++ spec.contentType ++ ['\r', '\n']) ++
    encodeUtf8 ("Content-Range: ".toList ++ spec.contentRange ++ ['\r', '\n']) ++ crlf

/-- `document_iters_to_multipart_byteranges(ranges_iter, boundary)`: the chunks it yields. -/
def documentItersToMultipartByteranges (rangesIter : List RangeSpec) (boundary : List UInt8) :
    List (List UInt8) :=
  let divider := dashes ++ boundary ++ crlf
  let terminator := dashes ++ boundary ++ dashes
  (rangesIter.flatMap fun spec => (divider ++ spec.headerLines) :: spec.partIter ++ [crlf]) ++
    [terminator]

/-! ### `_MultipartMimeFileLikeObject` -/

/-- `_MultipartMimeFileLikeObject`: the file object of one part, reading from the input that all
parts share. -/
structure MultipartMimeFileLikeObject where
  noMoreDataForThisFile : Bool
  noMoreFiles : Bool
  wsgiInput : FileLikeIter
  boundary : List UInt8
  inputBuffer : List UInt8
  readChunkSize : Nat

namespace MultipartMimeFileLikeObject

/-- `_MultipartMimeFileLikeObject(wsgi_input, boundary, input_buffer, read_chunk_size)`. -/
def init (wsgiInput : FileLikeIter) (boundary inputBuffer : List UInt8) (readChunkSize : Nat) :
    MultipartMimeFileLikeObject :=
  ⟨false, false, wsgiInput, boundary, inputBuffer, readChunkSize⟩

/-- The loop of `read` that reads `to_read` bytes ahead into the buffer, or up to the end of the
input. A pass that goes on reads a byte, so `to_read` passes are all it can make (`fuel`). -/
def readAhead : Nat → Nat → MultipartMimeFileLikeObject → MultipartMimeFileLikeObject
  | 0, _, m => m
  | fuel + 1, toRead, m =>
    if toRead = 0 then m
    else
      let r := m.wsgiInput.read toRead
      if r.1 = [] then { m with wsgiInput := r.2, noMoreFiles := true }
      else readAhead fuel (toRead - r.1.length)
        { m with wsgiInput := r.2, inputBuffer := m.inputBuffer ++ r.1 }

/-- `read(length)`, with `0` for `None`. -/
def read (m : MultipartMimeFileLikeObject) (length : Nat) :
    List UInt8 × MultipartMimeFileLikeObject :=
  let length := if length = 0 then m.readChunkSize else length
  if m.noMoreDataForThisFile then ([], m)
  else
    -- read enough data to know whether the next `length` bytes run into a boundary
    let need := length + m.boundary.length + 2
    let m := if m.inputBuffer.length < need then readAhead need need m else m
    match find? m.boundary m.inputBuffer with
    | some pos =>
      if pos ≤ length then
        let following := m.inputBuffer.drop (pos + m.boundary.length)
        (m.inputBuffer.take pos,
          { m with
            noMoreFiles := dashes.isPrefixOf following
            noMoreDataForThisFile := true
            inputBuffer := following.drop 2 })
      else (m.inputBuffer.take length, { m with inputBuffer := m.inputBuffer.drop length })
    | none => (m.inputBuffer.take length, { m with inputBuffer := m.inputBuffer.drop length })

/-- The loop of `readline` that reads chunks until the buffer holds a `\r\n` or the boundary, or
the input ends. A pass that goes on reads a byte, so there are no more passes than bytes of input
and one (`fuel`). -/
def scan : Nat → MultipartMimeFileLikeObject → MultipartMimeFileLikeObject
  | 0, m => m
  | fuel + 1, m =>
    let r := m.wsgiInput.read m.readChunkSize
    if r.1 = [] then { m with wsgiInput := r.2, noMoreFiles := true }
    else
      let m := { m with wsgiInput := r.2, inputBuffer := m.inputBuffer ++ r.1 }
      if find? crlf m.inputBuffer = none ∧ find? m.boundary m.inputBuffer = none then scan fuel m
      else m

/-- The loop of `readline` that reads up to the end of the line, `to_read` bytes, through `read`.
A pass that goes on reads a byte, so `to_read` passes are all it can make (`fuel`). -/
def readTo : Nat → Nat → List UInt8 → MultipartMimeFileLikeObject →
    List UInt8 × MultipartMimeFileLikeObject
  | 0, _, ret, m => (ret, m)
  | fuel + 1, toRead, ret, m =>
    if toRead = 0 then (ret, m)
    else
      let r := m.read toRead
      if r.1 = [] then (ret, r.2) else readTo fuel (toRead - r.1.length) (ret ++ r.1) r.2

/-- `readline()`: up to and with the next `\r\n` if it comes before the boundary, else what
`read` gives for the whole buffer. -/
def readline (m : MultipartMimeFileLikeObject) : List UInt8 × MultipartMimeFileLikeObject :=
  if m.noMoreDataForThisFile then ([], m)
  else
    let m := scan (m.wsgiInput.data.length + 1) m
    match find? crlf m.inputBuffer with
    | some newlinePos =>
      if (find? m.boundary m.inputBuffer).all (newlinePos < ·) then
        readTo (newlinePos + 2) (newlinePos + 2) [] m
      else m.read m.inputBuffer.length
    | none => m.read m.inputBuffer.length

end MultipartMimeFileLikeObject

/-! ### Reading the document -/

open MultipartMimeFileLikeObject

/-- The loop of `parse_mime_headers(doc_file)`: read lines, decoded, until a blank line or the
end; then parse the text and make a `HeaderKeyDict` of the message. `none` when the fuel runs
out. -/
def parseMimeHeaders : Nat → List (List Char) → MultipartMimeFileLikeObject →
    Option (List (List Char × List Char) × MultipartMimeFileLikeObject)
  | 0, _, _ => none
  | fuel + 1, headers, m =>
    let r := m.readline
    let headers := headers ++ [decodeLine r.1]
    if r.1 = crlf ∨ r.1 = [10] ∨ r.1 = [] then
      some (HeaderKeyDict.ofMessage (Email.parsestr headers.flatten), r.2)
    else parseMimeHeaders fuel headers r.2

/-- The caller's reads of a body: `read()` until it returns `b''`. `none` when the fuel runs
out. -/
def readBody : Nat → List UInt8 → MultipartMimeFileLikeObject →
    Option (List UInt8 × MultipartMimeFileLikeObject)
  | 0, _, _ => none
  | fuel + 1, body, m =>
    let r := m.read 0
    if r.1 = [] then some (body, r.2) else readBody fuel (body ++ r.1) r.2

/-- A 5-tuple that `multipart_byteranges_to_document_iters` yields, with the body as the bytes the
caller reads from it. -/
structure Document where
  firstByte : Nat
  lastByte : Nat
  length : Nat
  headers : List (List Char × List Char)
  body : List UInt8
  deriving DecidableEq, Repr

/-- The parts after the first boundary: the loop of `iter_multipart_mime_documents`, with the
headers of each file object parsed (`mime_to_document_iters`), its `Content-Range` read and its
body read to the end by the caller. `docs` are the documents yielded so far; the result is all of
them and the exception that ended the loop, if one did. `none` when the fuel runs out. -/
def documentsLoop (boundary : List UInt8) (readChunkSize : Nat) :
    Nat → List UInt8 → FileLikeIter → List Document → Option (List Document × Option MimeError)
  | 0, _, _, _ => none
  | fuel + 1, inputBuffer, wsgiInput, docs =>
    match parseMimeHeaders fuel [] (init wsgiInput boundary inputBuffer readChunkSize) with
    | none => none
    | some (headers, it) =>
      match parseContentRange (HeaderKeyDict.get headers "content-range".toList) with
      | .error e => some (docs, some e)
      | .ok (firstByte, lastByte, length) =>
        match readBody fuel [] it with
        | none => none
        | some (body, it) =>
          let docs := docs ++ [⟨firstByte, lastByte, length, headers, body⟩]
          if it.noMoreFiles then some (docs, none)
          else documentsLoop boundary readChunkSize fuel it.inputBuffer it.wsgiInput docs

/-- `while got == b'\r\n': got = wsgi_input.readline(blen)`. `none` when the fuel runs out. -/
def skipBlankLines (blen : Nat) : Nat → List UInt8 → FileLikeIter →
    Option (List UInt8 × FileLikeIter)
  | 0, _, _ => none
  | fuel + 1, got, input =>
    if got = crlf then skipBlankLines blen fuel (input.readline blen).1 (input.readline blen).2
    else some (got, input)

/-- `multipart_byteranges_to_document_iters(input_file, boundary, read_chunk_size)`, read to the
end: the documents it yields, and the exception it raises, if it does. `none` when the fuel runs
out. -/
def multipartByterangesToDocumentIters (inputFile : FileLikeIter) (boundary : List UInt8)
    (readChunkSize fuel : Nat) : Option (List Document × Option MimeError) :=
  let boundary := dashes ++ boundary
  let blen := boundary.length + 2
  match skipBlankLines blen fuel (inputFile.readline blen).1 (inputFile.readline blen).2 with
  | none => none
  | some (got, input) =>
    if strip got ≠ boundary then some ([], some (.mimeInvalid boundary got))
    else documentsLoop (crlf ++ boundary) readChunkSize fuel [] input []

/-! ### The document of no parts -/

theorem skipBlankLines_of_ne {blen fuel : Nat} {got : List UInt8} (input : FileLikeIter)
    (hgot : got ≠ crlf) : skipBlankLines blen (fuel + 1) got input = some (got, input) := by
  rw [skipBlankLines, if_neg hgot]

/-- With no parts the document is `--B--` alone. Its first line, which `readline` cuts at the
first `\n` or after `--B\r\n`'s length, does not strip to `--B`: it is all of `--B--`, or it ends
at a `\n` of the boundary, which `strip` drops. -/
theorem multipartByterangesToDocumentIters_empty (boundary : List UInt8)
    (chunks : List (List UInt8)) (hchunks : ∀ c ∈ chunks, c ≠ [])
    (hsplit : chunks.flatten = (documentItersToMultipartByteranges [] boundary).flatten)
    (readChunkSize fuel : Nat) (hfuel : 0 < fuel) :
    ∃ got, multipartByterangesToDocumentIters ⟨[], chunks⟩ boundary readChunkSize fuel =
      some ([], some (.mimeInvalid (dashes ++ boundary) got)) := by
  set data := dashes ++ boundary ++ dashes with hdata_def
  have hdata : (⟨[], chunks⟩ : FileLikeIter).data = data := by
    simp [hsplit, documentItersToMultipartByteranges, hdata_def]
  have hsize : (dashes ++ boundary).length + 2 = data.length := by simp [hdata_def, dashes]
  obtain ⟨hline, -, -⟩ := @FileLikeIter.readline_spec ⟨[], chunks⟩ hchunks
    ((dashes ++ boundary).length + 2)
  set got := (FileLikeIter.readline ⟨[], chunks⟩ ((dashes ++ boundary).length + 2)).1
  rw [hdata, hsize] at hline
  -- the line begins with `-`, so it is no blank line
  have hhead : got.head? = some 45 := by
    rw [hline, FileLikeIter.head?_lineOf (by simp [hdata_def, dashes])]
    simp [hdata_def, dashes]
  have hne : got ≠ crlf := fun h => by simp [h, crlf] at hhead
  have hstrip : strip got ≠ dashes ++ boundary := by
    intro h
    have hlen := congrArg List.length h
    by_cases hnl : 10 ∈ data.take data.length
    · -- the line ends at a `\n`, which comes before the final `--`
      have hlast : got.getLast? = some 10 := by rw [hline]; exact FileLikeIter.getLast?_lineOf hnl
      have hcut := length_strip_lt hlast (by decide)
      have hmem : 10 ∈ dashes ++ boundary := by
        rw [List.take_length, hdata_def, List.mem_append] at hnl
        exact hnl.resolve_right (by decide)
      have hidx : data.idxOf 10 < (dashes ++ boundary).length := by
        rw [hdata_def, List.idxOf_append_of_mem hmem]
        exact List.idxOf_lt_length_of_mem hmem
      have hgot : got.length ≤ (dashes ++ boundary).length := by
        rw [hline, FileLikeIter.lineOf, if_pos hnl, List.take_length]
        simp only [List.length_take]
        omega
      omega
    · -- the line is all of `--B--`, which has no whitespace at either end
      rw [FileLikeIter.lineOf_of_not_mem hnl, List.take_length] at hline
      have hlast : data.getLast? = some 45 := by
        rw [hdata_def, dashes, show ([45, 45] : List UInt8) = [45] ++ [45] from rfl,
          ← List.append_assoc, List.getLast?_concat]
      have hself : strip data = data := by
        have h := @strip_append data [] (by simp [hdata_def, dashes, isSpace])
          (by rw [hlast]; simp [isSpace]) (fun b hb => absurd hb List.not_mem_nil)
        rwa [List.append_nil] at h
      rw [hline, hself] at hlen
      simp [hdata_def, dashes] at hlen
  obtain ⟨k, rfl⟩ := Nat.exists_eq_add_of_lt hfuel
  refine ⟨got, ?_⟩
  simp only [multipartByterangesToDocumentIters, zero_add]
  rw [skipBlankLines_of_ne _ hne]
  simp only [ne_eq, hstrip, not_false_eq_true, if_true]

end Swift
