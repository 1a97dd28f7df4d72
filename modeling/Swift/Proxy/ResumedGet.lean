import Mathlib.Data.List.ModifyLast
import Mathlib.Data.Nat.Init
import Swift.Common.Range

/-!
# Resumed object GETs

`GetOrHeadHandler._iter_parts_from_response` reads the parts of a backend's GET response and
hands each to the client. When a read fails (`ChunkReadTimeout`, `ShortReadError`) in the middle
of a part, `_iter_bytes_from_response_part` asks another object server for the rest, with a
`Range` header that it keeps up to date for that purpose:

* `learn_size_from_content_range` replaces the header's first spec with the range of the part
  just started, as its `Content-Range` gives it;
* `fast_forward` moves the first spec past the bytes already sent;
* `pop_range` drops the first spec once its part is done.

All three take the header's first spec to be the part being read. The replacement server
answers the header as swob does, and the reading goes on in its first part; the parts after it
come from the replacement too.

The model reads one byte at a time. A backend source is the parts of its response, and how many
bytes of body it still delivers before a read fails; `schedule` gives that number for the first
source and each replacement in turn (a source past the end of the schedule never fails). A
replacement is always found. A multipart body needs a read to find where a part ends and the
next begins, which a failed source cannot do; a single-part body does not.

## Main results

* `resumedGet_of_no_failures` — without failures the client gets the parts of the backend's
  answer to its own header
* `resumedGet_repeats_part` — a header whose first spec cannot be satisfied leaves the bookkeeping
  one spec behind, and a failure then makes the client get a part twice
-/

namespace Swift

namespace Getter

open Swob

/-- A byte-range-spec: first and last byte, either absent. -/
abbrev Spec := Option Nat × Option Nat

/-- A part of a backend response, as `http_response_to_document_iters` gives it: first and last
byte, the object's length, and the bytes. -/
structure Part (α : Type) where
  startByte : Nat
  endByte : Int
  length : Nat
  body : List α
  deriving DecidableEq, Repr

variable {α : Type}

/-- The parts of a backend's answer to a GET of `object` with the `Range` header `header`, as
swob makes it: the whole object (a 200) without a header, else one part per satisfiable spec in
header order (one range is a single-range 206); `none` for the 416 of a header no spec of which
can be satisfied. -/
def backendParts (object : List α) (header : Option (List Spec)) : Option (List (Part α)) :=
  let whole : Part α := ⟨0, (object.length : Int) - 1, object.length, object⟩
  match header with
  | none => some [whole]
  | some specs =>
    match (Range.mk specs).rangesForLength object.length with
    | none => some [whole]
    | some [] => none
    | some ranges => some (ranges.map fun range =>
        ⟨range.1, (range.2 : Int) - 1, object.length, (object.drop range.1).take (range.2 - range.1)⟩)

/-! ### The `Range` header's bookkeeping -/

/-- What `fast_forward` does to the header: a new header, or one of its two exceptions. -/
inductive FastForward where
  | header (header : Option (List Spec))
  /-- `RangeAlreadyComplete` -/
  | complete
  /-- `HTTPRequestedRangeNotSatisfiable` -/
  | notSatisfiable
  deriving DecidableEq, Repr

/-- `fast_forward(num_bytes)`: the first spec moved past `num_bytes` bytes; without a header,
`bytes=<num_bytes>-`. A parsed header always has a spec, and no spec lacks both bounds. -/
def fastForward (header : Option (List Spec)) (numBytes : Nat) : FastForward :=
  match header with
  | some ((none, stop) :: rest) =>
    -- a suffix `-N`: the last `N - num_bytes` bytes are left
    let stop : Int := (stop.getD 0 : Int) - numBytes
    if stop = 0 then .complete
    else if stop < 0 then .notSatisfiable
    else .header (some ((none, some stop.toNat) :: rest))
  | some ((some begin, stop) :: rest) =>
    let begin := begin + numBytes
    match stop with
    | some stop =>
      if begin = stop + 1 then .complete
      else if stop < begin then .notSatisfiable
      else .header (some ((some begin, some stop) :: rest))
    | none => .header (some ((some begin, none) :: rest))
  | _ => .header (some [(some numBytes, none)])

/-- `pop_range()`: the first spec dropped, and the header with it if it was the last. -/
def popRange : Option (List Spec) → Option (List Spec)
  | some (_ :: rest) => if rest = [] then none else some rest
  | header => header

/-- `learn_size_from_content_range(start, end, length)`: the first spec becomes the part's
range, unless the object is empty. -/
def learnSizeFromContentRange (header : Option (List Spec)) (start : Nat) (stop : Int)
    (length : Nat) : Option (List Spec) :=
  if length = 0 then header
  else some ((some start, some stop.toNat) :: (header.map List.tail).getD [])

/-! ### Reading -/

/-- A backend response being read: the parts not yet started, whether the body is multipart,
and how many more bytes of body it delivers before a read fails (`none`: never). -/
structure Source (α : Type) where
  parts : List (Part α)
  multipart : Bool
  budget : Option Nat
  deriving DecidableEq, Repr

/-- The source reading the response `parts`. -/
def Source.ofParts (parts : List (Part α)) (budget : Option Nat) : Source α :=
  ⟨parts, decide (2 ≤ parts.length), budget⟩

/-- What the handler carries while it reads. -/
structure GetState (α : Type) where
  /-- `backend_headers['Range']`, `none` when there is none -/
  header : Option (List Spec)
  bytesUsedFromBackend : Nat
  source : Source α
  /-- how many bytes each replacement delivers before a read fails, in order -/
  schedule : List Nat
  /-- the parts handed to the client: first and last byte, and the bytes sent -/
  yielded : List (Nat × Int × List α)
  deriving DecidableEq, Repr

/-- `_replace_source()`: the next server answers the current header; `none` for a 416. -/
def replaceSource (object : List α) (state : GetState α) : Option (GetState α) :=
  (backendParts object state.header).map fun parts =>
    { state with source := Source.ofParts parts state.schedule.head?, schedule := state.schedule.tail }

/-- `_get_next_response_part()`: `some none` for `StopIteration`, `none` where the GET fails. A
failed multipart source cannot read the next part's headers, and is replaced. -/
def nextPart (object : List α) : Nat → GetState α → Option (Option (Part α × GetState α))
  | 0, _ => none
  | fuel + 1, state =>
    match state.source.parts with
    | [] => some none
    | part :: rest =>
      if state.source.multipart ∧ state.source.budget = some 0 then
        (replaceSource object state).bind (nextPart object fuel)
      else some (some (part, { state with source := { state.source with parts := rest } }))

/-- A byte read from the current source, sent to the client in the last part. -/
def GetState.sendByte (state : GetState α) (byte : α) : GetState α :=
  { state with
    bytesUsedFromBackend := state.bytesUsedFromBackend + 1
    source := { state.source with budget := state.source.budget.map (· - 1) }
    yielded := state.yielded.modifyLast fun part => (part.1, part.2.1, part.2.2 ++ [byte]) }

/-- `_iter_bytes_from_response_part(part_file, nbytes)`, reading the bytes `partFile` with the
count `nbytes` and the enforcer's `bytesLeft`; `none` where the GET fails. A failed read
fast-forwards the header, and the rest of the part comes from the replacement's first part. -/
def iterBytes (object : List α) : Nat → GetState α → List α → Int → Int → Option (GetState α)
  | 0, _, _, _, _ => none
  | fuel + 1, state, partFile, nbytes, bytesLeft =>
    let timedOut := state.source.budget = some 0 ∧ (partFile ≠ [] ∨ state.source.multipart)
    -- `ChunkReadTimeout`, or the enforcer's `ShortReadError`
    if timedOut ∨ (partFile = [] ∧ 0 < bytesLeft) then
      match fastForward state.header state.bytesUsedFromBackend with
      | .notSatisfiable => none
      | .complete => some state
      | .header header =>
        (replaceSource object { state with header, bytesUsedFromBackend := 0 }).bind fun state =>
          (nextPart object fuel state).bind fun
            | none => none
            | some (part, state) => iterBytes object fuel state part.body nbytes nbytes
    else
      match partFile with
      | [] => some state
      | byte :: rest => iterBytes object fuel (state.sendByte byte) rest (nbytes - 1) (bytesLeft - 1)

/-- `_iter_parts_from_response()`: each part learns the header's first spec, is read to its end,
and pops it; `none` where the GET fails. -/
def iterParts (object : List α) : Nat → GetState α → Option (List (Nat × Int × List α))
  | 0, _ => none
  | fuel + 1, state =>
    match nextPart object fuel state with
    | none => none
    | some none => some state.yielded
    | some (some (part, state)) =>
      let byteCount := part.endByte - part.startByte + 1
      let state := { state with
        header := learnSizeFromContentRange state.header part.startByte part.endByte part.length
        bytesUsedFromBackend := 0
        yielded := state.yielded ++ [(part.startByte, part.endByte, [])] }
      (iterBytes object fuel state part.body byteCount byteCount).bind fun state =>
        iterParts object fuel { state with header := popRange state.header }

/-- An object GET with the client's `Range` header: the first server answers it as swob does, and
`schedule` says how many bytes the first source and each replacement deliver before a read fails.
The parts the client gets; `none` where the GET fails or `fuel` runs out. -/
def resumedGet (object : List α) (clientRange : Option (List Spec)) (schedule : List Nat)
    (fuel : Nat) : Option (List (Nat × Int × List α)) :=
  (backendParts object clientRange).bind fun parts =>
    iterParts object fuel ⟨clientRange, 0, Source.ofParts parts schedule.head?, schedule.tail, []⟩

/-- What a backend that never fails sends for the client's header. -/
def failureFree (object : List α) (clientRange : Option (List Spec)) :
    Option (List (Nat × Int × List α)) :=
  (backendParts object clientRange).map (·.map fun part => (part.startByte, part.endByte, part.body))

/-! ### Fuel

A run that returns with some fuel returns the same with more: fuel only cuts runs short, so a
result is what the code computes. -/

theorem nextPart_succ {object : List α} {fuel : Nat} {state : GetState α}
    {next : Option (Part α × GetState α)} (h : nextPart object fuel state = some next) :
    nextPart object (fuel + 1) state = some next := by
  induction fuel generalizing state with
  | zero => cases h
  | succ fuel ih =>
    rw [nextPart] at h ⊢
    cases hparts : state.source.parts with
    | nil => rw [hparts] at h; exact h
    | cons part rest =>
      rw [hparts] at h
      dsimp only at h ⊢
      split at h
      · rename_i hfailed
        rw [if_pos hfailed]
        obtain ⟨replaced, hreplaced, h⟩ := Option.bind_eq_some_iff.mp h
        exact Option.bind_eq_some_iff.mpr ⟨replaced, hreplaced, ih h⟩
      · rename_i hread
        rw [if_neg hread]
        exact h

theorem iterBytes_succ {object : List α} {fuel : Nat} {state : GetState α} {partFile : List α}
    {nbytes bytesLeft : Int} {result : GetState α}
    (h : iterBytes object fuel state partFile nbytes bytesLeft = some result) :
    iterBytes object (fuel + 1) state partFile nbytes bytesLeft = some result := by
  induction fuel generalizing state partFile nbytes bytesLeft with
  | zero => cases h
  | succ fuel ih =>
    -- the equation lemmas split on the part file; unfold the whole body instead
    rw [iterBytes.eq_def] at h ⊢
    dsimp only at h ⊢
    split at h
    · rename_i hfailed
      rw [if_pos hfailed]
      cases hforward : fastForward state.header state.bytesUsedFromBackend with
      | notSatisfiable => rw [hforward] at h; cases h
      | complete => rw [hforward] at h; exact h
      | header header =>
        rw [hforward] at h
        dsimp only at h ⊢
        -- the replacement and its first part are found as before, and the part read with more fuel
        obtain ⟨replaced, hreplaced, h⟩ := Option.bind_eq_some_iff.mp h
        obtain ⟨next, hnext, h⟩ := Option.bind_eq_some_iff.mp h
        refine Option.bind_eq_some_iff.mpr ⟨replaced, hreplaced, ?_⟩
        refine Option.bind_eq_some_iff.mpr ⟨next, nextPart_succ hnext, ?_⟩
        rcases next with _ | ⟨part, state⟩
        · cases h
        · exact ih h
    · rename_i hread
      rw [if_neg hread]
      cases partFile with
      | nil => exact h
      | cons byte rest => exact ih h

theorem iterParts_succ {object : List α} {fuel : Nat} {state : GetState α}
    {result : List (Nat × Int × List α)} (h : iterParts object fuel state = some result) :
    iterParts object (fuel + 1) state = some result := by
  induction fuel generalizing state with
  | zero => cases h
  | succ fuel ih =>
    rw [iterParts] at h ⊢
    cases hnext : nextPart object fuel state with
    | none => rw [hnext] at h; cases h
    | some next =>
      rw [hnext] at h
      rw [nextPart_succ hnext]
      rcases next with _ | ⟨part, state'⟩
      · exact h
      · dsimp only at h ⊢
        obtain ⟨read, hread, h⟩ := Option.bind_eq_some_iff.mp h
        exact Option.bind_eq_some_iff.mpr ⟨read, iterBytes_succ hread, ih h⟩

theorem iterParts_mono {object : List α} {fuel fuel' : Nat} {state : GetState α}
    {result : List (Nat × Int × List α)} (hle : fuel ≤ fuel')
    (h : iterParts object fuel state = some result) : iterParts object fuel' state = some result := by
  induction fuel', hle using Nat.le_induction with
  | base => exact h
  | succ fuel' _ ih => exact iterParts_succ ih

theorem resumedGet_mono {object : List α} {clientRange : Option (List Spec)} {schedule : List Nat}
    {fuel fuel' : Nat} {result : List (Nat × Int × List α)} (hle : fuel ≤ fuel')
    (h : resumedGet object clientRange schedule fuel = some result) :
    resumedGet object clientRange schedule fuel' = some result := by
  obtain ⟨parts, hparts, h⟩ := Option.bind_eq_some_iff.mp h
  exact Option.bind_eq_some_iff.mpr ⟨parts, hparts, iterParts_mono hle h⟩

/-! ### Runs without failures

A source that never fails is read to its end part by part: no read fails, no bytes are missing
from a part, and the header's bookkeeping is never used. -/

/-- A part a backend sends of `object`: no more bytes are expected of it than its body holds, and
its body is no longer than the object. -/
structure Part.Sent (object : List α) (part : Part α) : Prop where
  byteCount_le : part.endByte - part.startByte + 1 ≤ part.body.length
  length_le : part.body.length ≤ object.length

theorem backendParts_sent {object : List α} {header : Option (List Spec)} {parts : List (Part α)}
    (h : backendParts object header = some parts) :
    parts.length ≤ (header.getD []).length + 1 ∧ ∀ part ∈ parts, part.Sent object := by
  have hwhole : (⟨0, (object.length : Int) - 1, object.length, object⟩ : Part α).Sent object :=
    ⟨by simp, Nat.le_refl _⟩
  unfold backendParts at h
  rcases header with _ | specs
  · cases h
    simpa using hwhole
  · dsimp only at h
    split at h
    · cases h
      simpa using hwhole
    · cases h
    · rename_i ranges _ hranges
      cases h
      obtain ⟨hlength, hends⟩ := Range.rangesForLength_le hranges
      refine ⟨by simp at hlength ⊢; omega, fun part hpart => ?_⟩
      obtain ⟨range, hrange, rfl⟩ := List.mem_map.mp hpart
      have hend := hends range hrange
      constructor
      · simp only [List.length_take, List.length_drop]
        omega
      · simp only [List.length_take, List.length_drop]
        omega

@[simp] theorem foldl_sendByte_parts (bytes : List α) (state : GetState α) :
    (bytes.foldl GetState.sendByte state).source.parts = state.source.parts := by
  induction bytes generalizing state with
  | nil => rfl
  | cons byte rest ih => exact ih _

theorem foldl_sendByte_budget {bytes : List α} {state : GetState α}
    (hbudget : state.source.budget = none) : (bytes.foldl GetState.sendByte state).source.budget = none := by
  induction bytes generalizing state with
  | nil => exact hbudget
  | cons byte rest ih => exact ih (by simp [GetState.sendByte, hbudget])

/-- The bytes read go to the last part handed to the client. -/
theorem foldl_sendByte_yielded (bytes : List α) {state : GetState α} {done : List (Nat × Int × List α)}
    {start : Nat} {stop : Int} {sent : List α} (hyielded : state.yielded = done ++ [(start, stop, sent)]) :
    (bytes.foldl GetState.sendByte state).yielded = done ++ [(start, stop, sent ++ bytes)] := by
  induction bytes generalizing state sent with
  | nil => simpa using hyielded
  | cons byte rest ih =>
    have hsent : (state.sendByte byte).yielded = done ++ [(start, stop, sent ++ [byte])] := by
      simp [GetState.sendByte, hyielded, List.modifyLast_concat]
    simpa using ih hsent

/-- A source that never fails reads a part to its end. -/
theorem iterBytes_of_reliable {object : List α} {fuel : Nat} {state : GetState α} {partFile : List α}
    {nbytes bytesLeft : Int} (hbudget : state.source.budget = none)
    (hleft : bytesLeft ≤ partFile.length) (hfuel : partFile.length < fuel) :
    iterBytes object fuel state partFile nbytes bytesLeft = some (partFile.foldl GetState.sendByte state) := by
  obtain ⟨fuel, rfl⟩ := Nat.exists_eq_add_one_of_ne_zero (Nat.ne_zero_of_lt hfuel)
  induction partFile generalizing fuel state nbytes bytesLeft with
  | nil =>
    -- no bytes are missing: the enforcer is satisfied at the end of the part
    have hdone : ¬0 < bytesLeft := by simpa using hleft
    simp [iterBytes, hbudget, hdone]
  | cons byte rest ih =>
    obtain ⟨fuel, rfl⟩ := Nat.exists_eq_add_one_of_ne_zero (by simp at hfuel; omega : fuel ≠ 0)
    have hnext : iterBytes object (fuel + 1) (state.sendByte byte) rest (nbytes - 1) (bytesLeft - 1) =
        some (rest.foldl GetState.sendByte (state.sendByte byte)) :=
      ih (by simp [GetState.sendByte, hbudget]) (by simp at hleft; omega) fuel (by simp at hfuel; omega)
    rw [iterBytes.eq_def]
    dsimp only
    rw [if_neg (by simp [hbudget])]
    exact hnext

theorem nextPart_of_nil {object : List α} {state : GetState α} (fuel : Nat)
    (hparts : state.source.parts = []) : nextPart object (fuel + 1) state = some none := by
  simp [nextPart, hparts]

theorem nextPart_of_reliable {object : List α} {state : GetState α} {part : Part α}
    {rest : List (Part α)} (fuel : Nat) (hparts : state.source.parts = part :: rest)
    (hbudget : state.source.budget = none) :
    nextPart object (fuel + 1) state =
      some (some (part, { state with source := { state.source with parts := rest } })) := by
  simp [nextPart, hparts, hbudget]

/-- A source that never fails hands each of its parts to the client whole. The induction is on
the parts left; each takes one turn of the loop, and its bytes take fuel below that turn. -/
theorem iterParts_of_reliable {object : List α} {parts : List (Part α)} {fuel : Nat}
    {state : GetState α} (hparts : state.source.parts = parts) (hbudget : state.source.budget = none)
    (hsent : ∀ part ∈ parts, part.Sent object) (hfuel : parts.length + object.length + 2 ≤ fuel) :
    iterParts object fuel state =
      some (state.yielded ++ parts.map fun part => (part.startByte, part.endByte, part.body)) := by
  induction parts generalizing fuel state with
  | nil =>
    obtain ⟨fuel, rfl⟩ : ∃ fuel', fuel = fuel' + 1 + 1 := ⟨fuel - 2, by simp at hfuel; omega⟩
    simp [iterParts, nextPart_of_nil fuel hparts]
  | cons part rest ih =>
    obtain ⟨fuel, rfl⟩ : ∃ fuel', fuel = fuel' + 1 + 1 := ⟨fuel - 2, by simp at hfuel; omega⟩
    have hpart := hsent part List.mem_cons_self
    -- the part is started: its range learnt, an empty part handed over, then its bytes read
    let started : GetState α := { state with
      header := learnSizeFromContentRange state.header part.startByte part.endByte part.length
      bytesUsedFromBackend := 0
      source := { state.source with parts := rest }
      yielded := state.yielded ++ [(part.startByte, part.endByte, [])] }
    have hread : iterBytes object (fuel + 1) started part.body (part.endByte - part.startByte + 1)
        (part.endByte - part.startByte + 1) = some (part.body.foldl GetState.sendByte started) :=
      iterBytes_of_reliable hbudget hpart.byteCount_le (by have := hpart.length_le; simp at hfuel; omega)
    have hyielded : (part.body.foldl GetState.sendByte started).yielded =
        state.yielded ++ [(part.startByte, part.endByte, part.body)] := by
      simpa using foldl_sendByte_yielded part.body
        (show started.yielded = state.yielded ++ [(part.startByte, part.endByte, [])] from rfl)
    have hrest : iterParts object (fuel + 1) { part.body.foldl GetState.sendByte started with
          header := popRange (part.body.foldl GetState.sendByte started).header } =
        some ((part.body.foldl GetState.sendByte started).yielded ++
          rest.map fun part => (part.startByte, part.endByte, part.body)) :=
      ih (by simp [started]) (foldl_sendByte_budget hbudget)
        (fun part hmem => hsent part (List.mem_cons_of_mem _ hmem)) (by simp at hfuel; omega)
    rw [iterParts, nextPart_of_reliable _ hparts hbudget]
    refine Option.bind_eq_some_iff.mpr ⟨_, hread, ?_⟩
    refine hrest.trans ?_
    simp [hyielded]

/-- Without failures the client gets the parts the backend sends for its own header, given fuel
for the parts and the object's bytes. -/
theorem resumedGet_of_no_failures (object : List α) (clientRange : Option (List Spec)) {fuel : Nat}
    (hfuel : (clientRange.getD []).length + object.length + 3 ≤ fuel) :
    resumedGet object clientRange [] fuel = failureFree object clientRange := by
  unfold resumedGet failureFree
  cases hparts : backendParts object clientRange with
  | none => rfl
  | some parts =>
    obtain ⟨hlength, hsent⟩ := backendParts_sent hparts
    have hrun : iterParts object fuel ⟨clientRange, 0, Source.ofParts parts none, [], []⟩ =
        some ([] ++ parts.map fun part => (part.startByte, part.endByte, part.body)) :=
      iterParts_of_reliable rfl rfl hsent (by omega)
    simpa using hrun

/-- `bytes=1-2` of a four-byte object, with fuel for one spec and four bytes. -/
theorem resumedGet_of_no_failures_oneSpec :
    ((some [(some 1, some 2)] : Option (List Spec)).getD []).length + ['a', 'b', 'c', 'd'].length +
        3 ≤ 8 ∧
      resumedGet ['a', 'b', 'c', 'd'] (some [(some 1, some 2)]) [] 8 =
        failureFree ['a', 'b', 'c', 'd'] (some [(some 1, some 2)]) :=
  ⟨by decide, resumedGet_of_no_failures _ _ (by decide)⟩

example : resumedGet ['a', 'b', 'c', 'd'] (some [(some 1, some 2), (none, some 1)]) [] 10 =
    some [(1, 2, ['b', 'c']), (3, 3, ['d'])] := by decide

/-! ### A part sent twice

The client asks a four-byte object for `bytes=10-19,0-1,2-3`. The first spec cannot be satisfied,
and the backend answers with the two parts `0-1` and `2-3`; `learn_size_from_content_range` then
replaces the header's first spec, `10-19`, by `0-1`, and the header `0-1,0-1,2-3` names the part
being read twice. The source fails after one byte; `fast_forward(1)` makes the header
`1-1,0-1,2-3`, and the replacement answers with three parts. Its first completes the part the
client is reading, `pop_range` leaves `0-1,2-3`, and its second is handed to the client as a new
part: `0-1` again, before `2-3`. -/

theorem resumedGet_repeats_part {fuel : Nat} (hfuel : 6 ≤ fuel) :
    failureFree ['a', 'b', 'c', 'd'] (some [(some 10, some 19), (some 0, some 1), (some 2, some 3)]) =
      some [(0, 1, ['a', 'b']), (2, 3, ['c', 'd'])] ∧
    resumedGet ['a', 'b', 'c', 'd'] (some [(some 10, some 19), (some 0, some 1), (some 2, some 3)])
        [1] fuel =
      some [(0, 1, ['a', 'b']), (0, 1, ['a', 'b']), (2, 3, ['c', 'd'])] :=
  ⟨by decide, resumedGet_mono hfuel (by decide)⟩

theorem resumedGet_repeats_part_minimalFuel :
    6 ≤ 6 ∧
    failureFree ['a', 'b', 'c', 'd'] (some [(some 10, some 19), (some 0, some 1), (some 2, some 3)]) =
      some [(0, 1, ['a', 'b']), (2, 3, ['c', 'd'])] ∧
    resumedGet ['a', 'b', 'c', 'd'] (some [(some 10, some 19), (some 0, some 1), (some 2, some 3)])
        [1] 6 =
      some [(0, 1, ['a', 'b']), (0, 1, ['a', 'b']), (2, 3, ['c', 'd'])] :=
  ⟨Nat.le_refl 6, resumedGet_repeats_part (Nat.le_refl 6)⟩

end Getter

end Swift
