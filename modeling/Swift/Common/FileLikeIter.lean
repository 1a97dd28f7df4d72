import Mathlib.Data.List.Basic

/-!
# `FileLikeIter`

`FileLikeIter` wraps an iterable of byte strings as a file. `read(size)` hands out what is left
of the chunk a read last cut, or else the next chunk, cut to `size` bytes. `readline(size)` reads
until it holds a `\n` or `size` bytes, and puts back what came after the `\n`.

What one read returns depends on where the iterable cut its data. What `readline` returns does
not, as long as no chunk is empty: an empty chunk reads as the end of the file. `readline_spec`
says that it is the first line of the data, cut at `size` bytes.

## Main results

* `FileLikeIter.read_append_data`, `FileLikeIter.length_read_le` — a read returns at most `size`
  bytes from the front of the data, and `read_ne_nil` — not nothing while data is left
* `FileLikeIter.readline_spec` — `readline(size)` returns `lineOf size` of the data and leaves
  the rest
-/

namespace Swift

/-- A `FileLikeIter` over an iterable of byte strings: `buf`, what is left of the chunk a read
cut, and the chunks the iterator has still to yield. `None` for `buf` is `[]` here: `read` and
`readline` treat `None` and `b''` alike. -/
structure FileLikeIter where
  buf : List UInt8
  iterator : List (List UInt8)

namespace FileLikeIter

/-- The bytes left to read. -/
def data (f : FileLikeIter) : List UInt8 := f.buf ++ f.iterator.flatten

/-- No chunk the iterator has still to yield is empty. -/
def NoEmptyChunk (f : FileLikeIter) : Prop := ∀ c ∈ f.iterator, c ≠ []

/-- The end of `read`: a chunk longer than `size` is cut, and its rest kept in `buf`. -/
def cut (size : Nat) (chunk : List UInt8) (iterator : List (List UInt8)) :
    List UInt8 × FileLikeIter :=
  if size < chunk.length then (chunk.take size, ⟨chunk.drop size, iterator⟩)
  else (chunk, ⟨[], iterator⟩)

/-- `read(size)` for `size ≥ 0`: nothing reads with a negative size here. -/
def read (f : FileLikeIter) (size : Nat) : List UInt8 × FileLikeIter :=
  if size = 0 then ([], f)
  else
    match f.buf, f.iterator with
    -- `next(self.iterator)` raises `StopIteration`
    | [], [] => ([], f)
    | [], chunk :: rest => cut size chunk rest
    | b :: bs, rest => cut size (b :: bs) rest

/-- The loop of `readline(size)`: read until `data` holds a `\n` or `size` bytes, or a read
returns nothing. A pass that goes on adds a byte, so the loop makes at most `size` passes, and
`fuel` starts there. -/
def readlineLoop (size : Nat) : Nat → List UInt8 → FileLikeIter → List UInt8 × FileLikeIter
  | 0, data, f => (data, f)
  | fuel + 1, data, f =>
    if 10 ∉ data ∧ data.length < size then
      let r := f.read (size - data.length)
      if r.1 = [] then (data, r.2) else readlineLoop size fuel (data ++ r.1) r.2
    else (data, f)

/-- `readline(size)` for `size ≥ 0`: after the loop, `data.partition(b'\n')`, and what follows
the `\n` goes back in front of `buf`. -/
def readline (f : FileLikeIter) (size : Nat) : List UInt8 × FileLikeIter :=
  let r := readlineLoop size size [] f
  if 10 ∈ r.1 then
    (r.1.take (r.1.idxOf 10 + 1), ⟨r.1.drop (r.1.idxOf 10 + 1) ++ r.2.buf, r.2.iterator⟩)
  else r

/-- What `readline(size)` returns from `data`: the first `size` bytes, cut after the first `\n`
among them. -/
def lineOf (size : Nat) (data : List UInt8) : List UInt8 :=
  if 10 ∈ data.take size then (data.take size).take ((data.take size).idxOf 10 + 1)
  else data.take size

/-! ### `lineOf` -/

variable {size : Nat} {data : List UInt8}

/-- A line that holds a `\n` ends with it. -/
theorem getLast?_lineOf (h : 10 ∈ data.take size) : (lineOf size data).getLast? = some 10 := by
  have hlt := List.idxOf_lt_length_of_mem h
  rw [lineOf, if_pos h, List.getLast?_take, if_neg (by omega), Nat.add_sub_cancel,
    List.getElem?_eq_getElem hlt, List.getElem_idxOf hlt]
  rfl

theorem lineOf_of_not_mem (h : 10 ∉ data.take size) : lineOf size data = data.take size := by
  rw [lineOf, if_neg h]

theorem head?_lineOf (hsize : 0 < size) : (lineOf size data).head? = data.head? := by
  cases data with
  | nil => simp [lineOf]
  | cons b bs =>
    obtain ⟨k, rfl⟩ := Nat.exists_eq_add_of_lt hsize
    unfold lineOf
    split <;> simp

/-- The first line, when it fits in `size` bytes. -/
theorem lineOf_append {l : List UInt8} (hl : 10 ∉ l) (rest : List UInt8) :
    lineOf (l.length + 1) (l ++ 10 :: rest) = l ++ [10] := by
  have htake : (l ++ 10 :: rest).take (l.length + 1) = l ++ [10] := by
    rw [List.take_append, List.take_of_length_le (by omega), Nat.add_sub_cancel_left]
    rfl
  have hidx : (l ++ [10]).idxOf 10 = l.length := by
    rw [List.idxOf_append_of_notMem hl]
    simp
  rw [lineOf, htake, if_pos (by simp), hidx, List.take_of_length_le (by simp)]

/-! ### `read` -/

variable {f : FileLikeIter}

@[simp] theorem data_mk (buf : List UInt8) (iterator : List (List UInt8)) :
    (⟨buf, iterator⟩ : FileLikeIter).data = buf ++ iterator.flatten := rfl

theorem cut_append_data (size : Nat) (chunk : List UInt8) (iterator : List (List UInt8)) :
    (cut size chunk iterator).1 ++ (cut size chunk iterator).2.data =
      chunk ++ iterator.flatten := by
  unfold cut
  split <;> simp [← List.append_assoc]

theorem cut_ne_nil {size : Nat} {chunk : List UInt8} (hsize : 0 < size) (hchunk : chunk ≠ [])
    (iterator : List (List UInt8)) : (cut size chunk iterator).1 ≠ [] := by
  unfold cut
  split
  · simpa [List.take_eq_nil_iff] using ⟨by omega, hchunk⟩
  · exact hchunk

theorem length_cut_le (size : Nat) (chunk : List UInt8) (iterator : List (List UInt8)) :
    (cut size chunk iterator).1.length ≤ size := by
  unfold cut
  split
  · simp only [List.length_take]
    exact Nat.min_le_left _ _
  · rename_i hshort
    exact Nat.le_of_not_lt hshort

theorem read_append_data (f : FileLikeIter) (size : Nat) :
    (f.read size).1 ++ (f.read size).2.data = f.data := by
  unfold read
  split
  · simp
  · rcases f with ⟨_ | ⟨b, bs⟩, _ | ⟨c, cs⟩⟩ <;> simp [cut_append_data]

theorem length_read_le (f : FileLikeIter) (size : Nat) : (f.read size).1.length ≤ size := by
  unfold read
  split
  · simp
  · rcases f with ⟨_ | ⟨b, bs⟩, _ | ⟨c, cs⟩⟩ <;> simp [length_cut_le]

theorem read_ne_nil (hf : NoEmptyChunk f) {size : Nat} (hsize : 0 < size) (hdata : f.data ≠ []) :
    (f.read size).1 ≠ [] := by
  unfold read
  rw [if_neg (by omega)]
  rcases f with ⟨_ | ⟨b, bs⟩, _ | ⟨c, cs⟩⟩
  · simp at hdata
  · exact cut_ne_nil hsize (hf c List.mem_cons_self) cs
  all_goals exact cut_ne_nil hsize (List.cons_ne_nil _ _) _

/-- A read that returns nothing has found the end of the data. -/
theorem data_eq_nil_of_read_eq_nil (hf : NoEmptyChunk f) {size : Nat} (hsize : 0 < size)
    (hnil : (f.read size).1 = []) : (f.read size).2.data = [] := by
  have hdata : f.data = [] := by
    by_contra hne
    exact read_ne_nil hf hsize hne hnil
  have happ := read_append_data f size
  rwa [hnil, List.nil_append, hdata] at happ

theorem NoEmptyChunk.read (hf : NoEmptyChunk f) (size : Nat) : NoEmptyChunk (f.read size).2 := by
  unfold FileLikeIter.read
  split
  · exact hf
  · rcases f with ⟨_ | ⟨b, bs⟩, _ | ⟨c, cs⟩⟩ <;>
      simp only [cut] <;> (try split) <;>
      exact fun x hx => hf x (by simp_all [NoEmptyChunk])

/-! ### `readline` -/

/-- The loop stops with a `\n`, with `size` bytes or at the end of the data, having read a
prefix of the data. -/
theorem readlineLoop_spec {size fuel : Nat} {data : List UInt8} (hf : NoEmptyChunk f)
    (hdata : data.length ≤ size) (hfuel : size ≤ data.length + fuel) :
    (readlineLoop size fuel data f).1 ++ (readlineLoop size fuel data f).2.data = data ++ f.data ∧
    (readlineLoop size fuel data f).1.length ≤ size ∧
    (10 ∈ (readlineLoop size fuel data f).1 ∨ (readlineLoop size fuel data f).1.length = size ∨
      (readlineLoop size fuel data f).2.data = []) ∧
    NoEmptyChunk (readlineLoop size fuel data f).2 := by
  induction fuel generalizing data f with
  | zero => exact ⟨rfl, hdata, .inr (.inl (show data.length = size by omega)), hf⟩
  | succ fuel ih =>
    simp only [readlineLoop]
    split
    · rename_i hgo
      have hread := read_append_data f (size - data.length)
      split
      · -- an empty read is the end of the data
        rename_i hnil
        have hend : f.data = [] := by
          by_contra hne
          exact read_ne_nil hf (by omega) hne hnil
        rw [hnil, List.nil_append] at hread
        exact ⟨by rw [hread, hend], hdata, .inr (.inr (hread.trans hend)), hf.read _⟩
      · rename_i hne
        have hlen := length_read_le f (size - data.length)
        have hpos : 0 < (f.read (size - data.length)).1.length := List.length_pos_iff.mpr hne
        obtain ⟨happ, hle, hexit, hchunks⟩ :=
          @ih _ (data ++ (f.read (size - data.length)).1) (hf.read _)
            (by rw [List.length_append]; omega) (by rw [List.length_append]; omega)
        exact ⟨by rw [happ, List.append_assoc, hread], hle, hexit, hchunks⟩
    · rename_i hstop
      dsimp only
      refine ⟨rfl, hdata, ?_, hf⟩
      by_cases h : 10 ∈ data
      · exact .inl h
      · have hfull : ¬data.length < size := fun hlt => hstop ⟨h, hlt⟩
        exact .inr (.inl (by omega))

theorem readline_spec (hf : NoEmptyChunk f) (size : Nat) :
    (f.readline size).1 = lineOf size f.data ∧
    (f.readline size).2.data = f.data.drop (lineOf size f.data).length ∧
    NoEmptyChunk (f.readline size).2 := by
  obtain ⟨happ, hle, hexit, hchunks⟩ :=
    @readlineLoop_spec f size size [] hf (by simp) (by simp)
  simp only [List.nil_append] at happ
  set r := readlineLoop size size [] f with hr
  -- the loop read a prefix of the first `size` bytes
  have htake : f.data.take size = r.1 ++ (r.2.data.take (size - r.1.length)) := by
    rw [← happ, List.take_append, List.take_of_length_le (by omega)]
  unfold readline
  rw [← hr]
  by_cases hnl : 10 ∈ r.1
  · have hmem : 10 ∈ f.data.take size := by rw [htake]; exact List.mem_append_left _ hnl
    have hidx : (f.data.take size).idxOf 10 = r.1.idxOf 10 := by
      rw [htake, List.idxOf_append_of_mem hnl]
    have hlt : r.1.idxOf 10 < r.1.length := List.idxOf_lt_length_of_mem hnl
    have hline : lineOf size f.data = r.1.take (r.1.idxOf 10 + 1) := by
      rw [lineOf, if_pos hmem, hidx, htake, List.take_append_of_le_length (by omega)]
    simp only [hnl, if_true, hline, true_and]
    refine ⟨?_, hchunks⟩
    rw [List.length_take_of_le (by omega), ← happ, List.drop_append_of_le_length (by omega)]
    simp [data]
  · have hline : lineOf size f.data = r.1 := by
      have hcases : r.1 = f.data.take size := by
        rcases hexit with h | h | h
        · exact absurd h hnl
        · rw [htake, h, Nat.sub_self, List.take_zero, List.append_nil]
        · rw [htake, h]
          simp
      rw [lineOf, ← hcases, if_neg hnl]
    simp only [hnl, if_false, hline, true_and]
    exact ⟨by rw [← happ, List.drop_left], hchunks⟩

end FileLikeIter

end Swift
