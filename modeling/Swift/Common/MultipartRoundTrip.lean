import Swift.Common.Multipart

/-!
# What comes back from a `multipart/byteranges` document

`multipart_byteranges_to_document_iters` gives back the parts that
`document_iters_to_multipart_byteranges` wrote, whenever the document is one that a multi-range
response sends.

## The file object

A `_MultipartMimeFileLikeObject` reads ahead into its buffer, and how far depends on how the input
was cut into chunks and on the sizes asked for. What it returns does not. All that matters is what
it has still to read, the buffer and then the input (`pending`). Its reads ahead keep that, and
change nothing else the file object looks at (`ReadsAhead`). So the state of a file object is
described by what is left of its part before the delimiter and what follows the delimiter
(`Reading`), or, once the delimiter is read, by what follows it (`Done`). Each operation is proved
once against these: `Reading.read`, `Reading.readline`, `Reading.parseMimeHeaders`,
`Within.readBody`.

## The document

A part comes back when the delimiter `\r\n--B` begins nowhere before its true place: not in a
header line (`noMatchBefore_line`), not in the body (`RangeSpec.Plain`), and not across the end of
the body, which needs no suffix of the delimiter to be a prefix of it (`PlainBoundary.noBorder`).
The boundary must also survive the first line, which `readline` cuts at a `\n` and `strip` trims.
A document of no parts is the other case: `multipartByterangesToDocumentIters_empty` shows it is
rejected.

## Main results

- `documentsLoop_part`: one pass of the loop reads a part back and leaves the file object past
  its delimiter.
- `documentsLoop_documentRest`: after the first boundary line, each part is read back in turn, and
  the `--` after the last delimiter ends the loop.
- `multipartByterangesToDocumentIters_documentItersToMultipartByteranges`: a document of one part
  or more, cut into chunks in any way and read with any chunk size, gives back its parts.
-/

namespace Swift

open PyBytes

namespace MultipartMimeFileLikeObject

variable {m m' : MultipartMimeFileLikeObject}

/-- What the file object has still to read: its buffer, then the input. -/
def pending (m : MultipartMimeFileLikeObject) : List UInt8 := m.inputBuffer ++ m.wsgiInput.data

/-! ### Reading ahead -/

/-- `m'` is `m` having read ahead into its buffer: what is left to read is the same, and so is all
that the reads do not touch. -/
structure ReadsAhead (m m' : MultipartMimeFileLikeObject) : Prop where
  pending_eq : m'.pending = m.pending
  boundary_eq : m'.boundary = m.boundary
  readChunkSize_eq : m'.readChunkSize = m.readChunkSize
  more_eq : m'.noMoreDataForThisFile = m.noMoreDataForThisFile
  chunks : m'.wsgiInput.NoEmptyChunk

theorem ReadsAhead.refl (hf : m.wsgiInput.NoEmptyChunk) : ReadsAhead m m :=
  ⟨rfl, rfl, rfl, rfl, hf⟩

theorem ReadsAhead.trans {m'' : MultipartMimeFileLikeObject} (h : ReadsAhead m m')
    (h' : ReadsAhead m' m'') : ReadsAhead m m'' :=
  ⟨h'.pending_eq.trans h.pending_eq, h'.boundary_eq.trans h.boundary_eq,
    h'.readChunkSize_eq.trans h.readChunkSize_eq, h'.more_eq.trans h.more_eq, h'.chunks⟩

/-- A read from the input, added to the buffer. -/
theorem readsAhead_append (hf : m.wsgiInput.NoEmptyChunk) (size : Nat) :
    ReadsAhead m
      { m with
        wsgiInput := (m.wsgiInput.read size).2
        inputBuffer := m.inputBuffer ++ (m.wsgiInput.read size).1 } := by
  refine ⟨?_, rfl, rfl, rfl, hf.read size⟩
  rw [pending, pending, List.append_assoc, FileLikeIter.read_append_data]

/-- A read from the input that returns nothing, which ends the input. -/
theorem readsAhead_end (hf : m.wsgiInput.NoEmptyChunk) {size : Nat}
    (hnil : (m.wsgiInput.read size).1 = []) :
    ReadsAhead m { m with wsgiInput := (m.wsgiInput.read size).2, noMoreFiles := true } := by
  refine ⟨?_, rfl, rfl, rfl, hf.read size⟩
  rw [pending, pending, ← FileLikeIter.read_append_data m.wsgiInput size, hnil, List.nil_append]

/-- The loop of `read` reads `to_read` bytes more into the buffer, or up to the end of the input. -/
theorem readAhead_spec (fuel : Nat) {toRead : Nat} (hfuel : toRead ≤ fuel)
    (hf : m.wsgiInput.NoEmptyChunk) :
    ReadsAhead m (readAhead fuel toRead m) ∧
      (m.inputBuffer.length + toRead ≤ (readAhead fuel toRead m).inputBuffer.length ∨
        (readAhead fuel toRead m).wsgiInput.data = []) := by
  induction fuel generalizing m toRead with
  | zero =>
    rw [readAhead]
    exact ⟨.refl hf, .inl (by omega)⟩
  | succ fuel ih =>
    rw [readAhead]
    split
    · exact ⟨.refl hf, .inl (by omega)⟩
    · rename_i hpos
      dsimp only
      split
      · rename_i hnil
        exact ⟨readsAhead_end hf hnil,
          .inr (FileLikeIter.data_eq_nil_of_read_eq_nil hf (by omega) hnil)⟩
      · -- a read returns at least a byte, so the fuel stays ahead of what is left to read
        rename_i hne
        have hlen := FileLikeIter.length_read_le m.wsgiInput toRead
        have hpos' : 0 < (m.wsgiInput.read toRead).1.length := List.length_pos_iff.mpr hne
        obtain ⟨hra, hgrow⟩ := @ih
          { m with
            wsgiInput := (m.wsgiInput.read toRead).2
            inputBuffer := m.inputBuffer ++ (m.wsgiInput.read toRead).1 }
          (toRead - (m.wsgiInput.read toRead).1.length) (by omega) (hf.read toRead)
        refine ⟨(readsAhead_append hf toRead).trans hra, ?_⟩
        rcases hgrow with hgrow | hend
        · left
          simp only [List.length_append] at hgrow
          omega
        · exact .inr hend

/-- The loop of `readline` reads chunks until the buffer holds a `\r\n` or the boundary, or the
input ends. -/
theorem scan_spec {fuel : Nat} (hfuel : m.wsgiInput.data.length < fuel)
    (hf : m.wsgiInput.NoEmptyChunk) (hsize : 0 < m.readChunkSize) :
    ReadsAhead m (scan fuel m) ∧
      (find? crlf (scan fuel m).inputBuffer ≠ none ∨
        find? m.boundary (scan fuel m).inputBuffer ≠ none ∨ (scan fuel m).wsgiInput.data = []) := by
  induction fuel generalizing m with
  | zero => omega
  | succ fuel ih =>
    rw [scan]
    dsimp only
    split
    · rename_i hnil
      exact ⟨readsAhead_end hf hnil,
        .inr (.inr (FileLikeIter.data_eq_nil_of_read_eq_nil hf hsize hnil))⟩
    · rename_i hne
      split
      · -- neither is in the buffer yet: the input is shorter by the chunk just read
        have hshort : (m.wsgiInput.read m.readChunkSize).2.data.length < fuel := by
          have happ := congrArg List.length
            (FileLikeIter.read_append_data m.wsgiInput m.readChunkSize)
          have hpos := List.length_pos_iff.mpr hne
          rw [List.length_append] at happ
          omega
        obtain ⟨hra, hexit⟩ := @ih
          { m with
            wsgiInput := (m.wsgiInput.read m.readChunkSize).2
            inputBuffer := m.inputBuffer ++ (m.wsgiInput.read m.readChunkSize).1 }
          hshort (hf.read _) hsize
        exact ⟨(readsAhead_append hf _).trans hra, hexit⟩
      · rename_i hfound
        refine ⟨readsAhead_append hf _, ?_⟩
        by_cases hcrlf : find? crlf (m.inputBuffer ++ (m.wsgiInput.read m.readChunkSize).1) = none
        · exact .inr (.inl fun hbnd => hfound ⟨hcrlf, hbnd⟩)
        · exact .inl hcrlf

/-! ### Inside a part -/

/-- The file object is inside its part: `c` is what is left of the part before the delimiter
`boundary`, and `following` what comes after it, with room for the `\r\n` or `--` that says
whether another part follows. The delimiter begins nowhere in `c`. -/
structure Reading (boundary : List UInt8) (readChunkSize : Nat) (m : MultipartMimeFileLikeObject)
    (c following : List UInt8) : Prop where
  boundary_eq : m.boundary = boundary
  readChunkSize_eq : m.readChunkSize = readChunkSize
  pending_eq : m.pending = c ++ boundary ++ following
  noMatch : NoMatchBefore boundary m.pending c.length
  two_le : 2 ≤ following.length
  more : m.noMoreDataForThisFile = false
  chunks : m.wsgiInput.NoEmptyChunk

/-- The file object has read its part and the delimiter, and the two bytes after it. -/
structure Done (m : MultipartMimeFileLikeObject) (following : List UInt8) : Prop where
  pending_eq : m.pending = following.drop 2
  noMoreFiles_eq : m.noMoreFiles = dashes.isPrefixOf following
  ended : m.noMoreDataForThisFile = true
  chunks : m.wsgiInput.NoEmptyChunk

/-- Where an operation leaves the file object: inside the part while some of it is left, and past
the delimiter once nothing is. -/
def Within (boundary : List UInt8) (readChunkSize : Nat) (m : MultipartMimeFileLikeObject)
    (c following : List UInt8) : Prop :=
  (c ≠ [] ∧ Reading boundary readChunkSize m c following) ∨ (c = [] ∧ Done m following)

section Reading

variable {boundary c following : List UInt8} {readChunkSize : Nat}

theorem Reading.readsAhead (h : Reading boundary readChunkSize m c following)
    (hm : ReadsAhead m m') : Reading boundary readChunkSize m' c following :=
  ⟨hm.boundary_eq.trans h.boundary_eq, hm.readChunkSize_eq.trans h.readChunkSize_eq,
    hm.pending_eq.trans h.pending_eq, hm.pending_eq ▸ h.noMatch, h.two_le,
    hm.more_eq.trans h.more, hm.chunks⟩

theorem Reading.buffer_prefix (h : Reading boundary readChunkSize m c following) :
    m.inputBuffer <+: c ++ (boundary ++ following) := by
  rw [← List.append_assoc, ← h.pending_eq]
  exact List.prefix_append _ _

/-- With the input at its end, the buffer holds all that is left. -/
theorem Reading.length_buffer (h : Reading boundary readChunkSize m c following)
    (hend : m.wsgiInput.data = []) :
    m.inputBuffer.length = c.length + boundary.length + following.length := by
  have hlen := congrArg List.length h.pending_eq
  rw [pending, hend, List.append_nil] at hlen
  simp only [List.length_append] at hlen
  omega

/-- The buffer holds the delimiter once it is long enough to. -/
theorem Reading.find?_boundary (h : Reading boundary readChunkSize m c following) :
    find? boundary m.inputBuffer =
      if c.length + boundary.length ≤ m.inputBuffer.length then some c.length else none := by
  refine find?_of_noMatchBefore h.noMatch ?_ (List.prefix_append _ _)
  rw [h.pending_eq, List.append_assoc, List.drop_left]
  exact List.prefix_append _ _

theorem Reading.take_buffer (h : Reading boundary readChunkSize m c following) {n : Nat}
    (hn : n ≤ c.length) (hbuf : n ≤ m.inputBuffer.length) : m.inputBuffer.take n = c.take n := by
  rw [List.prefix_iff_eq_take.mp h.buffer_prefix, List.take_take, Nat.min_eq_left hbuf,
    List.take_append_of_le_length hn]

/-- Handing out `n` bytes of the part from the buffer. -/
theorem Reading.drop_buffer (h : Reading boundary readChunkSize m c following) {n : Nat}
    (hn : n < c.length) (hbuf : n ≤ m.inputBuffer.length) :
    Reading boundary readChunkSize { m with inputBuffer := m.inputBuffer.drop n } (c.drop n)
      following := by
  have hpending : ({ m with inputBuffer := m.inputBuffer.drop n } : MultipartMimeFileLikeObject).pending =
      m.pending.drop n := by
    rw [pending, pending, List.drop_append_of_le_length hbuf]
  refine ⟨h.boundary_eq, h.readChunkSize_eq, ?_, ?_, h.two_le, h.more, h.chunks⟩
  · rw [hpending, h.pending_eq, List.append_assoc, List.append_assoc,
      List.drop_append_of_le_length hn.le]
  · rw [hpending, List.length_drop]
    exact NoMatchBefore.drop (by rw [Nat.add_sub_cancel' hn.le]; exact h.noMatch)

/-- Handing out fewer bytes than are left of the part keeps the file object inside it. -/
theorem Reading.take_drop_buffer (h : Reading boundary readChunkSize m c following) {n : Nat}
    (hn : n < c.length) (hbuf : n ≤ m.inputBuffer.length) :
    m.inputBuffer.take n = c.take n ∧
      Within boundary readChunkSize { m with inputBuffer := m.inputBuffer.drop n } (c.drop n)
        following := by
  refine ⟨h.take_buffer hn.le hbuf, .inl ⟨?_, h.drop_buffer hn hbuf⟩⟩
  rw [Ne, List.drop_eq_nil_iff]
  omega

/-- Splitting the buffer at the delimiter, with at least two bytes after it in the buffer or the
whole input read, leaves the file object past its part. -/
theorem Reading.split_buffer (h : Reading boundary readChunkSize m c following)
    (hbuf : c.length + boundary.length + 2 ≤ m.inputBuffer.length ∨ m.wsgiInput.data = []) :
    Done
      { m with
        noMoreFiles := dashes.isPrefixOf (m.inputBuffer.drop (c.length + m.boundary.length))
        noMoreDataForThisFile := true
        inputBuffer := (m.inputBuffer.drop (c.length + m.boundary.length)).drop 2 }
      following := by
  rw [h.boundary_eq]
  have hk : c.length + boundary.length + 2 ≤ m.inputBuffer.length := by
    rcases hbuf with hbuf | hend
    · exact hbuf
    · rw [h.length_buffer hend]
      have := h.two_le
      omega
  -- the buffer after the delimiter, and then the input, is what follows the delimiter
  have hrest : m.inputBuffer.drop (c.length + boundary.length) ++ m.wsgiInput.data = following := by
    have hpending := congrArg (List.drop (c ++ boundary).length) h.pending_eq
    rw [pending, List.drop_append_of_le_length (by simp only [List.length_append]; omega),
      List.drop_left, List.length_append] at hpending
    exact hpending
  have hlen : 2 ≤ (m.inputBuffer.drop (c.length + boundary.length)).length := by
    rw [List.length_drop]
    omega
  refine ⟨?_, ?_, rfl, h.chunks⟩
  · dsimp only [pending]
    rw [← hrest, List.drop_append_of_le_length hlen]
  · -- two bytes after the delimiter are in the buffer, as many as `--` has
    have hpre : m.inputBuffer.drop (c.length + boundary.length) <+: following :=
      hrest ▸ List.prefix_append _ _
    dsimp only
    rw [List.prefix_iff_eq_take.mp hpre, Bool.eq_iff_iff, List.isPrefixOf_iff_prefix,
      List.isPrefixOf_iff_prefix, List.prefix_take_iff]
    exact ⟨fun hd => hd.1, fun hd => ⟨hd, hlen⟩⟩

/-- The buffer after the read ahead of `read(length)`: long enough to see whether the delimiter
begins within the next `length` bytes and two bytes past it, or all that is left. -/
theorem Reading.readAhead_of_read (h : Reading boundary readChunkSize m c following)
    (length : Nat) {m' : MultipartMimeFileLikeObject}
    (hm' : m' = if m.inputBuffer.length < length + m.boundary.length + 2 then
      readAhead (length + m.boundary.length + 2) (length + m.boundary.length + 2) m else m) :
    Reading boundary readChunkSize m' c following ∧
      (length + boundary.length + 2 ≤ m'.inputBuffer.length ∨ m'.wsgiInput.data = []) := by
  rw [h.boundary_eq] at hm'
  split at hm'
  · obtain ⟨hra, hgrow⟩ := readAhead_spec (length + boundary.length + 2) le_rfl h.chunks
    rw [← hm'] at hra hgrow
    exact ⟨h.readsAhead hra, hgrow.imp_left (by omega)⟩
  · rename_i hlong
    subst hm'
    exact ⟨h, .inl (by omega)⟩

theorem Reading.read (h : Reading boundary readChunkSize m c following) {length : Nat}
    (hlength : 0 < length) :
    (m.read length).1 = c.take length ∧
      Within boundary readChunkSize (m.read length).2 (c.drop length) following := by
  rw [MultipartMimeFileLikeObject.read]
  simp only [if_neg (Nat.pos_iff_ne_zero.mp hlength), h.more, Bool.false_eq_true, if_false]
  generalize hm1 : (if m.inputBuffer.length < length + m.boundary.length + 2 then
      readAhead (length + m.boundary.length + 2) (length + m.boundary.length + 2) m else m) = m1
  obtain ⟨h1, hlong⟩ := h.readAhead_of_read length hm1.symm
  have hfind : find? m1.boundary m1.inputBuffer =
      if c.length + boundary.length ≤ m1.inputBuffer.length then some c.length else none := by
    rw [h1.boundary_eq]
    exact h1.find?_boundary
  by_cases hin : c.length + boundary.length ≤ m1.inputBuffer.length
  · rw [hfind, if_pos hin]
    dsimp only
    split
    · -- the delimiter begins within the next `length` bytes: the rest of the part is handed out
      -- and the delimiter read
      rename_i hle
      refine ⟨?_, .inr ⟨List.drop_eq_nil_of_le hle, h1.split_buffer ?_⟩⟩
      · rw [h1.take_buffer le_rfl (by omega), List.take_of_length_le hle, List.take_length]
      · rcases hlong with hlong | hend
        · exact .inl (by omega)
        · exact .inr hend
    · rename_i hgt
      exact h1.take_drop_buffer (by omega) (by omega)
  · -- the delimiter is not in the buffer, so the read ahead stopped more than `length` bytes
    -- before it
    rw [hfind, if_neg hin]
    dsimp only
    have hbuf : length + 2 ≤ m1.inputBuffer.length ∧ length < c.length := by
      rcases hlong with hlong | hend
      · omega
      · have := h1.length_buffer hend
        omega
    exact h1.take_drop_buffer hbuf.2 (by omega)

/-- `read()` reads `read_chunk_size` bytes. -/
theorem read_zero (hsize : 0 < m.readChunkSize) : m.read 0 = m.read m.readChunkSize := by
  rw [MultipartMimeFileLikeObject.read, MultipartMimeFileLikeObject.read, if_pos rfl,
    if_neg (Nat.pos_iff_ne_zero.mp hsize)]

theorem Done.read (h : Done m following) (length : Nat) : m.read length = ([], m) := by
  rw [MultipartMimeFileLikeObject.read]
  simp only [h.ended, if_true]

theorem Done.readline (h : Done m following) : m.readline = ([], m) := by
  rw [MultipartMimeFileLikeObject.readline, if_pos h.ended]

/-- The loop of `readline` that reads to the end of a line gets it in one read. -/
theorem Reading.readTo (h : Reading boundary readChunkSize m c following) {n : Nat}
    (hn : n + 2 ≤ c.length) :
    MultipartMimeFileLikeObject.readTo (n + 2) (n + 2) [] m = (c.take (n + 2), (m.read (n + 2)).2) := by
  obtain ⟨hret, -⟩ := h.read (by omega : 0 < n + 2)
  have hlen : (m.read (n + 2)).1.length = n + 2 := by
    rw [hret, List.length_take]
    omega
  have hne : (m.read (n + 2)).1 ≠ [] := by
    rw [← List.length_pos_iff, hlen]
    omega
  show MultipartMimeFileLikeObject.readTo ((n + 1) + 1) (n + 2) [] m = _
  rw [MultipartMimeFileLikeObject.readTo, if_neg (by omega)]
  dsimp only
  rw [if_neg hne, hlen, Nat.sub_self, MultipartMimeFileLikeObject.readTo, if_pos rfl,
    List.nil_append, hret]

theorem take_line {l c' : List UInt8} : (l ++ crlf ++ c').take (l.length + 2) = l ++ crlf :=
  List.take_left' (by rw [List.length_append, length_crlf])

theorem drop_line {l c' : List UInt8} : (l ++ crlf ++ c').drop (l.length + 2) = c' :=
  List.drop_left' (by rw [List.length_append, length_crlf])

/-- `readline()` inside the part returns its next line, with the `\r\n` that ends it. -/
theorem Reading.readline {l c' : List UInt8}
    (h : Reading boundary readChunkSize m (l ++ crlf ++ c') following) (hl : 13 ∉ l)
    (hsize : 0 < readChunkSize) :
    m.readline.1 = l ++ crlf ∧ Within boundary readChunkSize m.readline.2 c' following := by
  rw [MultipartMimeFileLikeObject.readline, if_neg (by rw [h.more]; decide)]
  dsimp only
  generalize hm1 : scan (m.wsgiInput.data.length + 1) m = m1
  obtain ⟨hra, hexit⟩ := scan_spec (Nat.lt_succ_self _) h.chunks (h.readChunkSize_eq ▸ hsize)
  rw [hm1] at hra hexit
  rw [h.boundary_eq] at hexit
  have h1 := h.readsAhead hra
  -- the first `\r\n` ends the line, and the delimiter comes after it
  have hpending : m1.pending = l ++ (crlf ++ (c' ++ (boundary ++ following))) := by
    rw [h1.pending_eq]
    simp only [List.append_assoc]
  have hcrlf : find? crlf m1.inputBuffer =
      if l.length + crlf.length ≤ m1.inputBuffer.length then some l.length else none := by
    have hnone : NoMatchBefore crlf m1.pending l.length := by
      rw [hpending]
      exact noMatchBefore_of_not_mem _ hl
    have hat : crlf <+: m1.pending.drop l.length := by
      rw [hpending, List.drop_left]
      exact List.prefix_append _ _
    exact find?_of_noMatchBefore hnone hat (List.prefix_append _ _)
  have hbnd := h1.find?_boundary
  have hlong : l.length + 2 ≤ m1.inputBuffer.length := by
    rcases hexit with hfound | hfound | hend
    · rw [hcrlf] at hfound
      split at hfound
      · rename_i hle
        rwa [length_crlf] at hle
      · exact absurd rfl hfound
    · rw [hbnd] at hfound
      split at hfound
      · rename_i hle
        rw [List.length_append, List.length_append, length_crlf] at hle
        omega
      · exact absurd rfl hfound
    · have hlen := h1.length_buffer hend
      rw [List.length_append, List.length_append, length_crlf] at hlen
      omega
  rw [hcrlf, if_pos (by rw [length_crlf]; omega)]
  dsimp only
  rw [if_pos]
  · rw [h1.readTo (by rw [List.length_append, List.length_append, length_crlf]; omega)]
    obtain ⟨-, hwithin⟩ := h1.read (by omega : 0 < l.length + 2)
    rw [drop_line] at hwithin
    exact ⟨take_line, hwithin⟩
  · rw [h1.boundary_eq, hbnd]
    split
    · simp only [Option.all_some, decide_eq_true_eq, List.length_append, crlf, List.length_cons,
        List.length_nil]
      omega
    · rfl

/-- A new file object over what is left of the input. -/
theorem reading_init {input : FileLikeIter} {inputBuffer : List UInt8}
    (hpending : inputBuffer ++ input.data = c ++ boundary ++ following)
    (hno : NoMatchBefore boundary (c ++ boundary ++ following) c.length)
    (htwo : 2 ≤ following.length) (hchunks : input.NoEmptyChunk) :
    Reading boundary readChunkSize (init input boundary inputBuffer readChunkSize) c following :=
  ⟨rfl, rfl, hpending, by rw [pending, init, hpending]; exact hno, htwo, rfl, hchunks⟩

/-- `parse_mime_headers` reads the header lines and the blank line after them, and leaves the file
object at the body. -/
theorem Reading.parseMimeHeaders {lines : List (List UInt8)} {body : List UInt8}
    (hlines : ∀ l ∈ lines, 13 ∉ l ∧ l ≠ []) (hsize : 0 < readChunkSize) {fuel : Nat}
    (hfuel : lines.length < fuel) (acc : List (List Char))
    (h : Reading boundary readChunkSize m ((lines.map (· ++ crlf)).flatten ++ crlf ++ body)
      following) :
    ∃ m', Swift.parseMimeHeaders fuel acc m =
      some (HeaderKeyDict.ofMessage (Email.parsestr
        (acc ++ lines.map (fun l => decodeLine (l ++ crlf)) ++ [decodeLine crlf]).flatten), m') ∧
      Within boundary readChunkSize m' body following := by
  induction lines generalizing acc m fuel with
  | nil =>
    -- the blank line ends the headers
    obtain ⟨f, rfl⟩ : ∃ f, fuel = f + 1 := ⟨fuel - 1, by simp at hfuel; omega⟩
    rw [List.map_nil, List.flatten_nil] at h
    obtain ⟨hline, hwithin⟩ := h.readline List.not_mem_nil hsize
    rw [List.nil_append] at hline
    rw [Swift.parseMimeHeaders, if_pos (.inl hline), hline]
    exact ⟨_, by rw [List.map_nil, List.append_nil], hwithin⟩
  | cons l lines ih =>
    obtain ⟨f, rfl⟩ : ∃ f, fuel = f + 1 := ⟨fuel - 1, by simp at hfuel; omega⟩
    obtain ⟨hl, hne⟩ := hlines l List.mem_cons_self
    have h' : Reading boundary readChunkSize m
        (l ++ crlf ++ ((lines.map (· ++ crlf)).flatten ++ crlf ++ body)) following := by
      simpa only [List.map_cons, List.flatten_cons, List.append_assoc] using h
    obtain ⟨hline, hwithin⟩ := h'.readline hl hsize
    -- a header line is no blank line: it has more than its line end
    have hmore : ¬(l ++ crlf = crlf ∨ l ++ crlf = [10] ∨ l ++ crlf = []) := by
      have hlen : 3 ≤ (l ++ crlf).length := by
        rw [List.length_append]
        have := List.length_pos_iff.mpr hne
        rw [length_crlf]
        omega
      rintro (heq | heq | heq) <;> rw [heq] at hlen <;> simp [crlf] at hlen
    have hrest : Reading boundary readChunkSize m.readline.2
        ((lines.map (· ++ crlf)).flatten ++ crlf ++ body) following := by
      rcases hwithin with ⟨-, hr⟩ | ⟨hnil, -⟩
      · exact hr
      · simp [crlf] at hnil
    obtain ⟨m', hparse, hbody⟩ := ih (fun l' hl' => hlines l' (List.mem_cons_of_mem l hl'))
      (by simp at hfuel; omega) (acc ++ [decodeLine (l ++ crlf)]) hrest
    refine ⟨m', ?_, hbody⟩
    rw [Swift.parseMimeHeaders, hline, if_neg hmore, hparse]
    simp only [List.map_cons, List.append_assoc, List.singleton_append]

/-- The caller's reads of a body get the rest of the part, and leave the file object past the
delimiter. -/
theorem Within.readBody (hsize : 0 < readChunkSize) {fuel : Nat} (hfuel : c.length < fuel)
    (acc : List UInt8) (h : Within boundary readChunkSize m c following) :
    ∃ m', Swift.readBody fuel acc m = some (acc ++ c, m') ∧ Done m' following := by
  induction fuel generalizing acc c m with
  | zero => omega
  | succ fuel ih =>
    rw [Swift.readBody]
    rcases h with ⟨hne, hr⟩ | ⟨rfl, hd⟩
    · -- a read hands out the next `read_chunk_size` bytes of the body
      rw [read_zero (by rw [hr.readChunkSize_eq]; exact hsize), hr.readChunkSize_eq]
      obtain ⟨hret, hwithin⟩ := hr.read hsize
      have hchunk : c.take readChunkSize ≠ [] := by
        simp only [Ne, List.take_eq_nil_iff, hne, or_false]
        omega
      rw [hret, if_neg hchunk]
      obtain ⟨m', hbody, hdone⟩ := ih
        (by rw [List.length_drop]; have := List.length_pos_iff.mpr hne; omega)
        (acc ++ c.take readChunkSize) hwithin
      rw [List.append_assoc, List.take_append_drop] at hbody
      exact ⟨m', hbody, hdone⟩
    · rw [hd.read, if_pos rfl, List.append_nil]
      exact ⟨m, rfl, hd⟩

end Reading

end MultipartMimeFileLikeObject

/-! ### The parts of a document -/

/-- A boundary that the first line gives back whole: no `\n` in it ends the line early, and no
whitespace at its end is stripped. -/
structure PlainBoundary (boundary : List UInt8) : Prop where
  no_lf : 10 ∉ boundary
  last : ∀ b ∈ boundary.getLast?, isSpace b = false

/-- A range spec that a multi-range response sends: numbers that are not negative, an entity
length, a content type that is one header line and does not begin with a blank, and a body that
does not hold the delimiter, also not at its start. -/
structure RangeSpec.Plain (boundary : List UInt8) (spec : RangeSpec) : Prop where
  startByte_nonneg : 0 ≤ spec.startByte
  endByte_nonneg : 0 ≤ spec.endByte
  entityLength_nonneg : ∃ n, spec.entityLength = some n ∧ 0 ≤ n
  no_cr : '\r' ∉ spec.contentType
  no_lf : '\n' ∉ spec.contentType
  no_blank : spec.contentType.head? ≠ some ' ' ∧ spec.contentType.head? ≠ some '\t'
  body : ¬(crlf ++ dashes ++ boundary) <:+: crlf ++ spec.partIter.flatten

/-- The 5-tuple a range spec should come back as: its range, its two headers and its body. -/
def RangeSpec.document (spec : RangeSpec) : Document :=
  ⟨spec.startByte.toNat, spec.endByte.toNat, (spec.entityLength.getD 0).toNat,
    [("Content-Type".toList, spec.contentType), ("Content-Range".toList, spec.contentRange)],
    spec.partIter.flatten⟩

/-- The document after its first `--B`: each part, with the `\r\n` before it and the delimiter
after it, and `--` at the end. -/
def documentRest (boundary : List UInt8) : List RangeSpec → List UInt8
  | [] => dashes
  | spec :: rest =>
    crlf ++ (spec.headerLines ++ spec.partIter.flatten) ++ (crlf ++ dashes ++ boundary) ++
      documentRest boundary rest

theorem flatten_documentItersToMultipartByteranges (parts : List RangeSpec)
    (boundary : List UInt8) :
    (documentItersToMultipartByteranges parts boundary).flatten =
      dashes ++ boundary ++ documentRest boundary parts := by
  induction parts with
  | nil => simp [documentItersToMultipartByteranges, documentRest]
  | cons spec parts ih =>
    simp only [documentItersToMultipartByteranges] at ih ⊢
    rw [List.flatMap_cons, List.append_assoc, List.flatten_append, ih]
    simp [documentRest, crlf, dashes]

section Document

variable {boundary : List UInt8}

/-- No proper suffix of the delimiter is a prefix of it: an occurrence of the delimiter that
begins inside a body cannot run on into the true one. -/
theorem PlainBoundary.noBorder (hB : PlainBoundary boundary) :
    ∀ k, 0 < k → k < (crlf ++ dashes ++ boundary).length →
      ¬(crlf ++ dashes ++ boundary).drop k <+: crlf ++ dashes ++ boundary := by
  intro k hk hlt hpre
  obtain _ | _ | _ | _ | j := k
  · omega
  all_goals simp only [crlf, dashes, List.cons_append, List.nil_append, List.drop_succ_cons,
    List.drop_zero, List.length_cons] at hpre hlt
  · simp at hpre
  · simp at hpre
  · simp at hpre
  · -- what is left of the boundary begins with `\r`, and then `\n` unless the `\r` is its last
    -- byte
    obtain ⟨b, rest, hdrop⟩ := List.exists_cons_of_ne_nil (by simp; omega : boundary.drop j ≠ [])
    rw [hdrop, List.cons_prefix_cons] at hpre
    obtain ⟨rfl, hrest⟩ := hpre
    cases rest with
    | nil =>
      have hlast := congrArg List.getLast? hdrop
      rw [List.getLast?_drop, if_neg (by omega)] at hlast
      exact absurd (hB.last 13 hlast) (by decide)
    | cons b' rest =>
      obtain ⟨rfl, -⟩ := List.cons_prefix_cons.mp hrest
      exact hB.no_lf (List.mem_of_mem_drop (hdrop ▸ List.mem_cons_of_mem _ List.mem_cons_self))

/-- The delimiter does not begin in a header line or at its `\r\n` when the next line does not
begin with `-`. -/
theorem noMatchBefore_line {rest l t : List UInt8} (hl : 13 ∉ l) (ht : t.head? ≠ some 45) :
    NoMatchBefore (crlf ++ dashes ++ rest) (l ++ crlf ++ t) (l ++ crlf).length := by
  show NoMatchBefore (13 :: 10 :: 45 :: 45 :: rest) _ _
  rw [List.append_assoc, List.length_append]
  refine (noMatchBefore_of_not_mem (crlf ++ t) hl).append_left ?_
  intro j hj hpre
  rw [length_crlf] at hj
  obtain _ | _ | j := j
  · -- at the `\r`: the delimiter's `-` would be the next line's first byte
    simp only [List.drop_zero, crlf, List.cons_append, List.nil_append, List.cons_prefix_cons,
      true_and] at hpre
    obtain ⟨u, rfl⟩ := hpre
    exact ht rfl
  · simp [crlf] at hpre
  · omega

theorem encodeUtf8_crlf : encodeUtf8 ['\r', '\n'] = crlf := rfl

/-- No `\r` in the text, no `\r` in its bytes. -/
theorem cr_not_mem_encodeUtf8 {s : List Char} (hs : '\r' ∉ s) : 13 ∉ encodeUtf8 s := by
  rw [mem_encodeUtf8 (by decide)]
  rintro ⟨c, hc, hcode⟩
  have hcr : c = '\r' := by
    rw [← Char.ofNat_toNat c, hcode]
    rfl
  exact hs (hcr ▸ hc)

namespace RangeSpec

variable {spec : RangeSpec}

/-- The header lines of a part as lines: the two headers, each with its `\r\n`, and the blank
line. -/
theorem headerLines_eq (spec : RangeSpec) :
    spec.headerLines = ([encodeUtf8 ("Content-Type: ".toList ++ spec.contentType),
      encodeUtf8 ("Content-Range: ".toList ++ spec.contentRange)].map (· ++ crlf)).flatten ++
      crlf := by
  simp only [headerLines, List.map_cons, List.map_nil, List.flatten_cons, List.flatten_nil,
    List.append_nil, encodeUtf8_append, encodeUtf8_crlf, List.append_assoc]

/-- `%d` of a number that is not negative writes its digits alone. -/
theorem signedDigits_of_nonneg {b : Nat} {n : Int} (h : 0 ≤ n) :
    Text.signedDigits b n = Nat.toDigits b n.toNat := by
  have habs : n.natAbs = n.toNat := Int.ofNat_inj.mp (by rw [Int.natAbs_of_nonneg h,
    Int.toNat_of_nonneg h])
  rw [Text.signedDigits, if_neg (by omega), habs]

theorem Plain.contentRange_eq (hp : spec.Plain boundary) :
    spec.contentRange = "bytes ".toList ++ Nat.toDigits 10 spec.startByte.toNat ++ ['-'] ++
      Nat.toDigits 10 spec.endByte.toNat ++ ['/'] ++
      Nat.toDigits 10 (spec.entityLength.getD 0).toNat := by
  obtain ⟨n, hn, hn0⟩ := hp.entityLength_nonneg
  have hcr : spec.contentRange = "bytes ".toList ++ Text.signedDigits 10 spec.startByte ++ ['-'] ++
      Text.signedDigits 10 spec.endByte ++ ['/'] ++ Text.signedDigits 10 n := by
    unfold contentRange
    rw [hn]
  rw [hcr, hn, Option.getD_some, signedDigits_of_nonneg hp.startByte_nonneg,
    signedDigits_of_nonneg hp.endByte_nonneg, signedDigits_of_nonneg hn0]

/-- Only the letters of `bytes `, `-`, `/` and digits stand in the `Content-Range` value. -/
theorem Plain.not_mem_contentRange (hp : spec.Plain boundary) {c : Char}
    (hbytes : c ∉ "bytes ".toList) (hdash : c ≠ '-') (hslash : c ≠ '/')
    (hdigit : ∀ d < 16, c ≠ d.digitChar) : c ∉ spec.contentRange := by
  have hnum : ∀ n : Nat, c ∉ Nat.toDigits 10 n :=
    fun _ => Text.not_mem_toDigits hdigit (by decide) (by decide)
  rw [hp.contentRange_eq]
  simp only [List.mem_append, List.mem_singleton, not_or]
  exact ⟨⟨⟨⟨⟨hbytes, hnum _⟩, hdash⟩, hnum _⟩, hslash⟩, hnum _⟩

/-- The `Content-Range` value has no line end and does not begin with a blank. -/
theorem Plain.plainHeader_contentRange (hp : spec.Plain boundary) :
    Email.PlainHeader ("Content-Range".toList, spec.contentRange) := by
  refine ⟨(by decide : "Content-Range".toList ≠ []),
    Text.forall_mem_of_all (by decide : "Content-Range".toList.all
      (fun c => decide (Email.isFieldChar c = true)) = true), ?_, ?_, ?_⟩
  · exact hp.not_mem_contentRange (by decide) (by decide) (by decide) (by decide)
  · exact hp.not_mem_contentRange (by decide) (by decide) (by decide) (by decide)
  · -- the value begins with `bytes `
    have hhead : spec.contentRange.head? = some 'b' := by
      rw [hp.contentRange_eq]
      rfl
    show spec.contentRange.head? ≠ some ' ' ∧ spec.contentRange.head? ≠ some '\t'
    rw [hhead]
    exact ⟨by decide, by decide⟩

theorem Plain.plainHeader_contentType (hp : spec.Plain boundary) :
    Email.PlainHeader ("Content-Type".toList, spec.contentType) :=
  ⟨(by decide : "Content-Type".toList ≠ []),
    Text.forall_mem_of_all (by decide : "Content-Type".toList.all
      (fun c => decide (Email.isFieldChar c = true)) = true), hp.no_cr, hp.no_lf, hp.no_blank⟩

/-- `parse_mime_headers` makes the two headers of the part out of its lines. -/
theorem Plain.headers (hp : spec.Plain boundary) :
    HeaderKeyDict.ofMessage (Email.parsestr ([] ++ [encodeUtf8 ("Content-Type: ".toList ++
      spec.contentType), encodeUtf8 ("Content-Range: ".toList ++ spec.contentRange)].map
      (fun l => decodeLine (l ++ crlf)) ++ [decodeLine crlf]).flatten) =
      [("Content-Type".toList, spec.contentType), ("Content-Range".toList, spec.contentRange)] := by
  have hline : ∀ name value : List Char,
      decodeLine (encodeUtf8 (name ++ [':', ' '] ++ value) ++ crlf) = Email.headerLine name value := by
    intro name value
    rw [← encodeUtf8_crlf, ← encodeUtf8_append, decodeLine_encodeUtf8, Email.headerLine]
  have htext : ([] ++ [encodeUtf8 ("Content-Type: ".toList ++ spec.contentType),
      encodeUtf8 ("Content-Range: ".toList ++ spec.contentRange)].map
      (fun l => decodeLine (l ++ crlf)) ++ [decodeLine crlf]).flatten =
      ([("Content-Type".toList, spec.contentType), ("Content-Range".toList, spec.contentRange)].map
        fun x => Email.headerLine x.1 x.2).flatten ++ ['\r', '\n'] := by
    rw [show "Content-Type: ".toList = "Content-Type".toList ++ [':', ' '] from rfl,
      show "Content-Range: ".toList = "Content-Range".toList ++ [':', ' '] from rfl]
    have hblank : decodeLine crlf = ['\r', '\n'] := by
      rw [← encodeUtf8_crlf, decodeLine_encodeUtf8]
    simp only [List.nil_append, List.map_cons, List.map_nil]
    rw [hline, hline, hblank]
    simp only [List.cons_append, List.nil_append, List.flatten_cons, List.flatten_nil,
      List.append_nil, List.append_assoc]
  rw [htext, Email.parsestr_headerLines (by
    intro x hx
    simp only [List.mem_cons, List.not_mem_nil, or_false] at hx
    rcases hx with rfl | rfl
    · exact hp.plainHeader_contentType
    · exact hp.plainHeader_contentRange)]
  exact HeaderKeyDict.ofMessage_pair (by decide) (by decide) (by decide)

theorem Plain.parseContentRange (hp : spec.Plain boundary) :
    Swift.parseContentRange (some spec.contentRange) =
      .ok (spec.startByte.toNat, spec.endByte.toNat, (spec.entityLength.getD 0).toNat) := by
  rw [hp.contentRange_eq]
  exact parseContentRange_formatted _ _ _

/-- The two header lines of a part hold no `\r`, and each begins with the `C` of its name. -/
theorem Plain.headerLine_ok (hp : spec.Plain boundary) :
    ∀ l ∈ [encodeUtf8 ("Content-Type: ".toList ++ spec.contentType),
      encodeUtf8 ("Content-Range: ".toList ++ spec.contentRange)],
      13 ∉ l ∧ ∀ u, (l ++ u).head? = some 67 := by
  have hline : ∀ name value : List Char, '\r' ∉ name → '\r' ∉ value →
      (encodeUtf8 name).head? = some 67 →
      13 ∉ encodeUtf8 (name ++ value) ∧ ∀ u, (encodeUtf8 (name ++ value) ++ u).head? = some 67 := by
    intro name value hname hvalue hhead
    refine ⟨cr_not_mem_encodeUtf8 ?_, fun u => ?_⟩
    · rw [List.mem_append, not_or]
      exact ⟨hname, hvalue⟩
    · rw [encodeUtf8_append, List.append_assoc, List.head?_append, hhead]
      rfl
  intro l hl
  simp only [List.mem_cons, List.not_mem_nil, or_false] at hl
  rcases hl with rfl | rfl
  · exact hline _ _ (by decide) hp.no_cr rfl
  · exact hline _ _ (by decide) hp.plainHeader_contentRange.no_cr rfl

/-- The delimiter begins nowhere in a part: not in its header lines, whose `\r\n` is followed by
a letter or by the blank line, and not in its body, nor across the body's end. -/
theorem Plain.noMatchBefore (hB : PlainBoundary boundary) (hp : spec.Plain boundary)
    (t : List UInt8) :
    NoMatchBefore (crlf ++ dashes ++ boundary)
      (spec.headerLines ++ spec.partIter.flatten ++ (crlf ++ dashes ++ boundary) ++ t)
      (spec.headerLines ++ spec.partIter.flatten).length := by
  obtain ⟨h1, -⟩ := hp.headerLine_ok _ List.mem_cons_self
  obtain ⟨h2, hhead⟩ := hp.headerLine_ok _ (List.mem_cons_of_mem _ List.mem_cons_self)
  have hbody := hp.body
  rw [headerLines_eq]
  generalize encodeUtf8 ("Content-Type: ".toList ++ spec.contentType) = l₁ at h1 ⊢
  generalize encodeUtf8 ("Content-Range: ".toList ++ spec.contentRange) = l₂ at h2 hhead ⊢
  generalize spec.partIter.flatten = body at hbody ⊢
  have key := (noMatchBefore_line h1 (by rw [List.append_assoc, hhead]; decide)).append_left
    ((noMatchBefore_line h2 (by simp [crlf])).append_left
      (noMatchBefore_straddle t hB.noBorder hbody))
  simp only [List.map_cons, List.map_nil, List.flatten_cons, List.flatten_nil, List.append_nil]
  simpa only [List.append_assoc, List.length_append, Nat.add_assoc] using key

end RangeSpec

theorem two_le_length_documentRest (boundary : List UInt8) (parts : List RangeSpec) :
    2 ≤ (documentRest boundary parts).length := by
  cases parts with
  | nil => simp [documentRest]
  | cons spec parts => simp [documentRest]

/-- The `--` that ends the document follows the delimiter after the last part only. -/
theorem dashes_isPrefixOf_documentRest (boundary : List UInt8) (parts : List RangeSpec) :
    dashes.isPrefixOf (documentRest boundary parts) = parts.isEmpty := by
  cases parts <;> rfl

/-- One pass of the loop reads a part back, its headers, its `Content-Range` and its body, and
leaves the file object past the delimiter, at what follows it. -/
theorem documentsLoop_part (hB : PlainBoundary boundary) {readChunkSize : Nat}
    (hsize : 0 < readChunkSize) {spec : RangeSpec} (hspec : spec.Plain boundary) {f : Nat}
    (hfuel : 2 + spec.partIter.flatten.length < f) {input : FileLikeIter}
    {inputBuffer following : List UInt8}
    (hdata : inputBuffer ++ input.data =
      spec.headerLines ++ spec.partIter.flatten ++ (crlf ++ dashes ++ boundary) ++ following)
    (htwo : 2 ≤ following.length) (hchunks : input.NoEmptyChunk) (docs : List Document) :
    ∃ m, MultipartMimeFileLikeObject.Done m following ∧
      documentsLoop (crlf ++ dashes ++ boundary) readChunkSize (f + 1) inputBuffer input docs =
        if m.noMoreFiles then some (docs ++ [spec.document], none)
        else documentsLoop (crlf ++ dashes ++ boundary) readChunkSize f m.inputBuffer m.wsgiInput
          (docs ++ [spec.document]) := by
  -- the file object stands at the part's header lines, as lines
  have hread : MultipartMimeFileLikeObject.Reading (crlf ++ dashes ++ boundary) readChunkSize
      (MultipartMimeFileLikeObject.init input (crlf ++ dashes ++ boundary) inputBuffer
        readChunkSize)
      (([encodeUtf8 ("Content-Type: ".toList ++ spec.contentType),
        encodeUtf8 ("Content-Range: ".toList ++ spec.contentRange)].map (· ++ crlf)).flatten ++
        crlf ++ spec.partIter.flatten) following := by
    rw [← RangeSpec.headerLines_eq spec]
    exact MultipartMimeFileLikeObject.reading_init hdata (hspec.noMatchBefore hB _) htwo hchunks
  have hlines : ∀ l ∈ [encodeUtf8 ("Content-Type: ".toList ++ spec.contentType),
      encodeUtf8 ("Content-Range: ".toList ++ spec.contentRange)], 13 ∉ l ∧ l ≠ [] := by
    intro l hl
    refine ⟨(hspec.headerLine_ok l hl).1, fun hnil => ?_⟩
    have hh := (hspec.headerLine_ok l hl).2 []
    rw [hnil] at hh
    cases hh
  obtain ⟨m1, hparse, hbody⟩ := hread.parseMimeHeaders hlines hsize (show 2 < f by omega) []
  rw [hspec.headers] at hparse
  obtain ⟨m2, hrb, hdone⟩ := hbody.readBody hsize
    (show spec.partIter.flatten.length < f by omega) []
  refine ⟨m2, hdone, ?_⟩
  rw [documentsLoop, hparse]
  simp only []
  rw [HeaderKeyDict.get_pair_snd (by decide) (by decide), hspec.parseContentRange]
  simp only []
  rw [hrb]
  rfl

/-- Each file object gives back its part, and the last one says that no part follows. -/
theorem documentsLoop_documentRest (hB : PlainBoundary boundary) {readChunkSize : Nat}
    (hsize : 0 < readChunkSize) {parts : List RangeSpec} (hparts : parts ≠ [])
    (hp : ∀ spec ∈ parts, spec.Plain boundary) {fuel : Nat}
    (hfuel : (documentRest boundary parts).length ≤ fuel) {input : FileLikeIter}
    {inputBuffer : List UInt8} (hdata : inputBuffer ++ input.data = (documentRest boundary parts).drop 2)
    (hchunks : input.NoEmptyChunk) (docs : List Document) :
    documentsLoop (crlf ++ dashes ++ boundary) readChunkSize fuel inputBuffer input docs =
      some (docs ++ parts.map RangeSpec.document, none) := by
  induction parts generalizing fuel input inputBuffer docs with
  | nil => exact absurd rfl hparts
  | cons spec parts ih =>
    have hlen : (documentRest boundary (spec :: parts)).length =
        2 + spec.headerLines.length + spec.partIter.flatten.length + (4 + boundary.length) +
          (documentRest boundary parts).length := by
      simp only [documentRest, List.length_append, length_crlf, length_dashes]
      omega
    obtain ⟨f, rfl⟩ : ∃ f, fuel = f + 1 := ⟨fuel - 1, by omega⟩
    have hdrop : (documentRest boundary (spec :: parts)).drop 2 = spec.headerLines ++
        spec.partIter.flatten ++ (crlf ++ dashes ++ boundary) ++ documentRest boundary parts := by
      rw [documentRest]
      simp only [List.append_assoc]
      exact List.drop_left' rfl
    obtain ⟨m, hdone, hloop⟩ := documentsLoop_part hB hsize (hp spec List.mem_cons_self)
      (show 2 + spec.partIter.flatten.length < f by omega) (hdata.trans hdrop) (two_le_length_documentRest _ _) hchunks docs
    rw [hloop, hdone.noMoreFiles_eq, dashes_isPrefixOf_documentRest]
    cases parts with
    | nil =>
      -- the closing `--` follows the last part
      rw [List.isEmpty_nil, if_pos rfl, List.map_singleton]
    | cons spec' parts =>
      rw [List.isEmpty_cons, if_neg Bool.false_ne_true, ih (List.cons_ne_nil _ _)
        (fun s hs => hp s (List.mem_cons_of_mem _ hs)) (by omega) hdone.pending_eq hdone.chunks]
      simp only [List.map_cons, List.append_assoc, List.cons_append, List.nil_append]

/-- The boundary line `--B\r\n` is no blank line. -/
theorem boundaryLine_ne_crlf (boundary : List UInt8) : dashes ++ boundary ++ crlf ≠ crlf := by
  intro h
  have hhead := congrArg List.head? h
  simp [dashes, crlf] at hhead

/-- `strip` takes the `\r\n` off the boundary line and leaves the boundary whole. -/
theorem PlainBoundary.strip_line (hB : PlainBoundary boundary) :
    strip (dashes ++ boundary ++ crlf) = dashes ++ boundary := by
  refine strip_append (by simp [dashes, isSpace]) ?_ (by simp [crlf, isSpace])
  intro b hb
  rw [List.getLast?_append, Option.mem_def] at hb
  cases hlast : boundary.getLast? with
  | none =>
    -- an empty boundary leaves the `-` of the dashes last
    rw [hlast, Option.none_or] at hb
    cases hb
    rfl
  | some c =>
    rw [hlast, Option.some_or] at hb
    cases hb
    exact hB.last _ hlast

/-- `readline` reads the boundary line to its `\n`, which is also where its size ends. -/
theorem PlainBoundary.readline_line (hB : PlainBoundary boundary) {f : FileLikeIter}
    (hf : f.NoEmptyChunk) {t : List UInt8} (hdata : f.data = dashes ++ boundary ++ crlf ++ t) :
    (f.readline ((dashes ++ boundary).length + 2)).1 = dashes ++ boundary ++ crlf ∧
      (f.readline ((dashes ++ boundary).length + 2)).2.data = t ∧
      (f.readline ((dashes ++ boundary).length + 2)).2.NoEmptyChunk := by
  have hno : 10 ∉ dashes ++ boundary ++ [13] := by
    simp only [List.mem_append, not_or]
    exact ⟨⟨by decide, hB.no_lf⟩, by decide⟩
  have hcut : dashes ++ boundary ++ crlf ++ t = (dashes ++ boundary ++ [13]) ++ 10 :: t := by
    simp only [crlf, List.append_assoc, List.cons_append, List.nil_append]
  have hsize : (dashes ++ boundary).length + 2 = (dashes ++ boundary ++ [13]).length + 1 := by
    simp only [List.length_append, List.length_singleton]
  have hline : FileLikeIter.lineOf ((dashes ++ boundary).length + 2) f.data =
      dashes ++ boundary ++ crlf := by
    rw [hdata, hcut, hsize, FileLikeIter.lineOf_append hno]
    simp only [crlf, List.append_assoc, List.cons_append, List.nil_append]
  obtain ⟨hgot, hinput, hchunks⟩ := FileLikeIter.readline_spec hf ((dashes ++ boundary).length + 2)
  rw [hline] at hgot hinput
  refine ⟨hgot, ?_, hchunks⟩
  rw [hinput, hdata, List.drop_left]

end Document

/-- A document of parts read back: the first line is the boundary line `--B\r\n`, which `strip`
cuts to `--B`, and after it every part comes back with its headers, its `Content-Range` and its
body, whatever the chunks the document arrives in. -/
theorem multipartByterangesToDocumentIters_documentItersToMultipartByteranges
    (parts : List RangeSpec) (hparts : parts ≠ []) (boundary : List UInt8)
    (hB : PlainBoundary boundary) (hp : ∀ spec ∈ parts, spec.Plain boundary)
    (chunks : List (List UInt8)) (hchunks : ∀ c ∈ chunks, c ≠ [])
    (hsplit : chunks.flatten = (documentItersToMultipartByteranges parts boundary).flatten)
    (readChunkSize : Nat) (hsize : 0 < readChunkSize) (fuel : Nat)
    (hfuel : (documentItersToMultipartByteranges parts boundary).flatten.length ≤ fuel) :
    multipartByterangesToDocumentIters ⟨[], chunks⟩ boundary readChunkSize fuel =
      some (parts.map RangeSpec.document, none) := by
  obtain ⟨spec, rest, rfl⟩ := List.exists_cons_of_ne_nil hparts
  obtain ⟨t, ht⟩ : ∃ t, documentRest boundary (spec :: rest) = crlf ++ t :=
    ⟨_, by rw [documentRest, List.append_assoc, List.append_assoc]⟩
  have hdata : (⟨[], chunks⟩ : FileLikeIter).data = dashes ++ boundary ++ crlf ++ t := by
    rw [FileLikeIter.data, List.nil_append, hsplit, flatten_documentItersToMultipartByteranges, ht,
      List.append_assoc (dashes ++ boundary)]
  have hf : FileLikeIter.NoEmptyChunk ⟨[], chunks⟩ := hchunks
  obtain ⟨hline, hinput, hchunks'⟩ := hB.readline_line hf hdata
  have hinput' : [] ++ (FileLikeIter.readline ⟨[], chunks⟩
      ((dashes ++ boundary).length + 2)).2.data = (documentRest boundary (spec :: rest)).drop 2 := by
    rw [List.nil_append, hinput, ht, List.drop_left' length_crlf]
  -- the fuel covers the boundary line and all that follows it
  rw [flatten_documentItersToMultipartByteranges, List.length_append, List.length_append,
    length_dashes] at hfuel
  obtain ⟨k, rfl⟩ : ∃ k, fuel = k + 1 := ⟨fuel - 1, by omega⟩
  simp only [multipartByterangesToDocumentIters]
  rw [hline, skipBlankLines_of_ne _ (boundaryLine_ne_crlf boundary)]
  simp only []
  rw [if_neg (not_not.mpr hB.strip_line), ← List.append_assoc]
  exact documentsLoop_documentRest hB hsize hparts hp (by omega) hinput' hchunks' []

/-- Two parts, one of them read from two chunks, behind the boundary `xyz`, read back from the
document in one chunk. -/
theorem multipartByterangesToDocumentIters_documentItersToMultipartByteranges_twoParts :
    multipartByterangesToDocumentIters
        ⟨[], [(documentItersToMultipartByteranges
          [⟨0, 2, some 10, "text/plain".toList, [[97, 98], [99]]⟩,
            ⟨5, 6, some 10, "text/plain".toList, [[102, 103]]⟩] [120, 121, 122]).flatten]⟩
        [120, 121, 122] 4096 200 =
      some ([⟨0, 2, some 10, "text/plain".toList, [[97, 98], [99]]⟩,
        ⟨5, 6, some 10, "text/plain".toList, [[102, 103]]⟩].map RangeSpec.document, none) := by
  refine multipartByterangesToDocumentIters_documentItersToMultipartByteranges _ (by simp)
    [120, 121, 122] ⟨by decide, fun b hb => by simp at hb; subst hb; rfl⟩ ?_ _ ?_ (by simp) 4096
    (by decide) 200 (by decide +kernel)
  · intro spec hspec
    simp only [List.mem_cons, List.not_mem_nil, or_false] at hspec
    rcases hspec with rfl | rfl
    · exact ⟨by decide, by decide, ⟨10, rfl, by decide⟩, by decide, by decide,
        ⟨by decide, by decide⟩, by decide⟩
    · exact ⟨by decide, by decide, ⟨10, rfl, by decide⟩, by decide, by decide,
        ⟨by decide, by decide⟩, by decide⟩
  · intro c hc
    rw [List.mem_singleton.mp hc]
    simp [documentItersToMultipartByteranges]

/-- The round trip needs each of its conditions beyond a boundary missing from the bodies. With no
parts the document is `--xyz--`, which is no first boundary line. A boundary `xy ` ending in a
blank is refused as well, since `strip` drops the blank from the line read. A content type
` text/plain` comes back as `text/plain`. A start of `-1` is written as `bytes -1-2/10`, which
`_content_range_pattern` does not match. -/
theorem multipartByterangesToDocumentIters_fails_outside_plain :
    multipartByterangesToDocumentIters ⟨[], documentItersToMultipartByteranges [] [120, 121, 122]⟩
        [120, 121, 122] 4096 100 ≠ some ([], none) ∧
      multipartByterangesToDocumentIters
          ⟨[], documentItersToMultipartByteranges
            [⟨0, 2, some 10, "text/plain".toList, [[97, 98, 99]]⟩] [120, 121, 32]⟩
          [120, 121, 32] 4096 100 ≠
        some ([(⟨0, 2, some 10, "text/plain".toList, [[97, 98, 99]]⟩ : RangeSpec).document], none) ∧
      multipartByterangesToDocumentIters
          ⟨[], documentItersToMultipartByteranges
            [⟨0, 2, some 10, " text/plain".toList, [[97, 98, 99]]⟩] [120, 121, 122]⟩
          [120, 121, 122] 4096 100 ≠
        some ([(⟨0, 2, some 10, " text/plain".toList, [[97, 98, 99]]⟩ : RangeSpec).document],
          none) ∧
      multipartByterangesToDocumentIters
          ⟨[], documentItersToMultipartByteranges
            [⟨-1, 2, some 10, "text/plain".toList, [[97, 98, 99]]⟩] [120, 121, 122]⟩
          [120, 121, 122] 4096 100 ≠
        some ([(⟨-1, 2, some 10, "text/plain".toList, [[97, 98, 99]]⟩ : RangeSpec).document],
          none) := by
  refine ⟨?_, by decide +kernel, by decide +kernel, by decide +kernel⟩
  -- no parts fail at every boundary, chunking and read size
  obtain ⟨got, hgot⟩ := multipartByterangesToDocumentIters_empty [120, 121, 122]
    (documentItersToMultipartByteranges [] [120, 121, 122]) (by decide) rfl 4096 100 (by decide)
  rw [hgot]
  simp

end Swift
