import Mathlib.Data.Rat.Defs
import Swift.Data.PyDict
import Swift.Data.Run
import Swift.Data.Text

/-!
# `hashes.pkl` and `hashes.invalid`

Replication compares partitions suffix by suffix, through the hashes that
`BaseDiskFileManager.__get_hashes` keeps in the partition's `hashes.pkl`. Writers of objects do not
touch that file. `invalidate_hash` appends the suffix to `hashes.invalid` under the partition
lock, and the next `__get_hashes` folds the invalidations into `hashes.pkl`
(`consolidate_hashes`, under the lock). It recomputes the hashes it finds missing outside the
lock, and writes them back, again under the lock, only if `hashes.pkl` still reads as it did
when it began. Otherwise it starts over. This file models the files, the partition directory,
the processes that run these functions, and every interleaving of their steps.

## The model

The state is the content of the two files, the suffix directories of the partition, and one
`Hasher` per call of `__get_hashes`. An `Event` is one atomic step: `invalidate_hash` (the whole
call holds the lock), a suffix directory made or removed, a new call, and each step of a call
that touches what others see: `consolidate_hashes`, the unlocked `read_hashes`, `os.listdir`,
one `_hash_suffix` call, and the locked compare and write at the end. `write_pickle` writes to a
temporary file and renames it, so a read sees a whole file.

The environment decides what the model cannot compute. Events bring the digest of a suffix or
the error of its hash call, and the outcome of `consolidate_hashes`, which may raise before it
writes or after. `time.time()` is a function `clock` of the step.

`hashes.pkl` is the pickled dict itself, `none` when it is missing or does not unpickle, and
`hashes.invalid` is the list of the names written to it, one per line. Python's `==` on the dict
compares `Value.plain`. A digest also carries the step of the `_hash_suffix` call that computed
it, and the state carries the log of invalidations, the step of the last write of
`hashes.pkl`, and for each name the last step at which its directory was missing. These ghost
fields change nothing the program computes; they let the safety statement in
`Swift.Obj.HashesSafety` say where each digest comes from.

## Scope

`_hash_suffix` is not computed here (`Swift.Obj.SuffixHash` models `_hash_suffix_dir`); its digest
or error is the environment's choice, except that a missing directory always gives `PathNotDir`.
A name holding a line break would be read back from `hashes.invalid` as two lines; names are kept
whole here.
-/

namespace Swift

namespace Hashes

open PyDict

/-! ### The pickled dict -/

/-- A value of the dict in `hashes.pkl`. `valid` holds a `bool`, `updated` a float, and each
suffix holds `None` or the hex digest of its directory. A digest also carries the step at which
the `_hash_suffix` call that computed it ran (ghost). -/
inductive Value where
  | bool (b : Bool)
  | num (q : ℚ)
  | none
  | str (s : List Char) (computedAt : Nat)
  deriving DecidableEq

/-- What `==` compares of a value: a `bool` compares as the number `0` or `1`. -/
inductive Plain where
  | num (q : ℚ)
  | none
  | str (s : List Char)
  deriving DecidableEq

/-- A value as `==` sees it, without its ghost step. -/
def Value.plain : Value → Plain
  | .bool b => .num (if b then 1 else 0)
  | .num q => .num q
  | .none => .none
  | .str s _ => .str s

/-- `not v`. -/
def Value.falsy : Value → Bool
  | .bool b => !b
  | .num q => q == 0
  | .none => true
  | .str s _ => s.isEmpty

/-- A dict of `hashes.pkl`, its items in insertion order. -/
abbrev Dict := List (List Char × Value)

/-- The key `'valid'`. -/
def validKey : List Char := "valid".toList

/-- The key `'updated'`. -/
def updatedKey : List Char := "updated".toList

/-- `valid_suffix(value)`: three lowercase hex digits. -/
def validSuffix (value : List Char) : Bool :=
  value.length == 3 && value.all (· ∈ "0123456789abcdef".toList)

/-- The keys `read_hashes` accepts. -/
def validHashesKey (k : List Char) : Bool := validSuffix k || k == validKey || k == updatedKey

theorem validSuffix_ne_validKey {s : List Char} (h : validSuffix s = true) : s ≠ validKey := by
  rintro rfl
  exact absurd h (by decide)

theorem validSuffix_ne_updatedKey {s : List Char} (h : validSuffix s = true) : s ≠ updatedKey := by
  rintro rfl
  exact absurd h (by decide)

/-- A line that holds a valid suffix strips to itself. -/
theorem strip_of_validSuffix {s : List Char} (h : validSuffix s = true) : Text.strip s = s := by
  have hspace : "0123456789abcdef".toList.all (fun c => !Text.isSpace c) = true := by decide
  apply Text.strip_of_forall
  intro c hc
  simp only [validSuffix, Bool.and_eq_true, List.all_eq_true, decide_eq_true_eq] at h
  simpa using List.all_eq_true.mp hspace c (h.2 c hc)

/-- `read_hashes(partition_dir)` of the content of `hashes.pkl`. -/
def readHashes (pkl : Option Dict) : Dict :=
  let hashes := pkl.getD [(validKey, .bool false)]
  if hashes.all (validHashesKey ·.1) then
    setdefault (setdefault hashes validKey (.bool true)) updatedKey (.num (-1))
  else [(validKey, .bool false)]

/-- A missing `hashes.pkl` reads as invalid and never updated. -/
theorem readHashes_none :
    readHashes none = [(validKey, .bool false), (updatedKey, .num (-1))] := rfl

/-- `write_hashes(partition_dir, hashes)` at time `t`: what is written, which is also what the
caller's `hashes` becomes. -/
def writeHashes (t : ℚ) (hashes : Dict) : Dict :=
  set (setdefault hashes validKey (.bool false)) updatedKey (.num t)

@[simp] theorem get_writeHashes_updated (t : ℚ) (hashes : Dict) :
    get (writeHashes t hashes) updatedKey = some (.num t) :=
  get_set_self _ _ _

theorem get_writeHashes_of_ne (t : ℚ) (hashes : Dict) {k : List Char} (hv : k ≠ validKey)
    (hu : k ≠ updatedKey) : get (writeHashes t hashes) k = get hashes k := by
  rw [writeHashes, get_set_of_ne _ hu, get_setdefault_of_ne _ hv]

/-- `hashes['valid']` read as a condition. -/
def isValid (hashes : Dict) : Bool := match get hashes validKey with
  | some v => !v.falsy
  | none => false

/-! ### `consolidate_hashes` -/

/-- The body of `consolidate_hashes` under the partition lock: the hashes read from
`hashes.pkl` with every suffix named in `hashes.invalid` set to `None`; whether it writes them
back (some line named a valid suffix); whether it empties `hashes.invalid` (it had a line). -/
def consolidate (pkl : Option Dict) (inv : List (List Char)) : Dict × Bool × Bool :=
  let suffixes := (inv.map Text.strip).filter validSuffix
  (suffixes.foldl (fun hashes s => set hashes s .none) (readHashes pkl), !suffixes.isEmpty,
    !inv.isEmpty)

/-- A suffix named by a line of `hashes.invalid` is `None` after `consolidate_hashes`; the
others are as read. -/
theorem get_consolidate (pkl : Option Dict) (inv : List (List Char)) {s : List Char}
    (hs : validSuffix s = true) :
    get (consolidate pkl inv).1 s =
      if s ∈ inv.map Text.strip then some .none else get (readHashes pkl) s := by
  show get (((inv.map Text.strip).filter validSuffix).foldl _ (readHashes pkl)) s = _
  rw [get_foldl_set]
  simp [List.mem_filter, hs]

theorem consolidate_write_of_mem {pkl : Option Dict} {inv : List (List Char)} {s : List Char}
    (hs : validSuffix s = true) (hmem : s ∈ inv.map Text.strip) :
    (consolidate pkl inv).2.1 = true := by
  show (!((inv.map Text.strip).filter validSuffix).isEmpty) = true
  rw [Bool.not_eq_true', List.isEmpty_eq_false_iff_exists_mem]
  exact ⟨s, List.mem_filter.mpr ⟨hmem, hs⟩⟩

/-- Without a line naming a valid suffix, `consolidate_hashes` returns the hashes it read. -/
theorem consolidate_fst_of_not_write {pkl : Option Dict} {inv : List (List Char)}
    (h : (consolidate pkl inv).2.1 = false) : (consolidate pkl inv).1 = readHashes pkl := by
  have hnil : (inv.map Text.strip).filter validSuffix = [] := by
    simpa [consolidate] using h
  show ((inv.map Text.strip).filter validSuffix).foldl _ (readHashes pkl) = _
  rw [hnil, List.foldl_nil]

/-- How a call of `consolidate_hashes` ends. It raises before it writes when the lock times out,
when `hashes.invalid` cannot be read, or when the write fails. It raises after the write when
`hashes.invalid` cannot be emptied. -/
inductive ConsolidateOutcome where
  | returns
  | raisesBeforeWrite
  | raisesAfterWrite
  deriving DecidableEq

/-- How a call of `_hash_suffix(suffix_dir)` ends: a digest, `PathNotDir` (the directory is
missing, or was empty and removed by the call), or another `OSError`, which is logged. -/
inductive HashOutcome where
  | digest (d : List Char)
  | notDir
  | osError
  deriving DecidableEq

/-! ### A call of `__get_hashes` -/

/-- Where a call of `__get_hashes` is. -/
inductive Stage where
  /-- At its top: `consolidate_hashes` comes next. -/
  | start
  /-- The hashes it read were not valid: `read_hashes` again, outside the lock. -/
  | reread
  /-- `os.listdir` of the partition comes next. -/
  | listing (orig hashes : Dict)
  /-- The loop over the items of `hashes`; `todo` are the keys still to visit. -/
  | hashing (orig hashes : Dict) (todo : List (List Char)) (modified : Bool)
  /-- It returned `(hashed, hashes)`. -/
  | done (hashed : Nat) (hashes : Dict)

/-- A call of `__get_hashes(device, partition, policy, recalculate, do_listdir)`. The last
three fields are ghost: the step at which the call began, the step at which it read the
`orig_hashes` it holds, and the write of `hashes.pkl` it read (`none`: the file the run began
with). -/
structure Hasher where
  recalculate : List (List Char)
  doListdir : Bool
  hashed : Nat
  stage : Stage
  startedAt : Nat
  readAt : Nat
  readVersion : Option Nat

/-- `hashes.update((suffix, None) for suffix in recalculate)`. -/
def Hasher.forceRecalculate (h : Hasher) (hashes : Dict) : Dict :=
  h.recalculate.foldl (fun hashes s => set hashes s .none) hashes

theorem Hasher.get_forceRecalculate (h : Hasher) (hashes : Dict) (s : List Char) :
    get (h.forceRecalculate hashes) s = if s ∈ h.recalculate then some .none else get hashes s := by
  -- the lemma decides membership through `DecidableEq`, the statement through `List`'s `BEq`
  rw [Hasher.forceRecalculate, get_foldl_set]
  congr

/-- Where the call goes once it holds `orig_hashes` and `hashes`: to `os.listdir` with
`do_listdir`, else to the loop, after the suffixes to recalculate are set to `None`. -/
def Hasher.afterRead (h : Hasher) (orig hashes : Dict) : Stage :=
  if h.doListdir then .listing orig hashes
  else
    let hashes := h.forceRecalculate hashes
    .hashing orig hashes (hashes.map (·.1)) false

/-! ### The state and its events -/

/-- The partition: its two files, its suffix directories, and the calls of `__get_hashes` made
so far. The last four fields are ghost: the step count, every completed `invalidate_hash` with
its step, the step of the last write of `hashes.pkl`, and for each name one past the last step
after which its directory was missing (`0`: never). -/
structure State where
  pkl : Option Dict
  inv : List (List Char)
  dirs : List (List Char)
  hashers : List Hasher
  now : Nat
  log : List (List Char × Nat)
  lastWrite : Option Nat
  lastAbsent : List Char → Nat

/-- A partition with these files and suffix directories, before any call. -/
def State.initial (pkl : Option Dict) (inv dirs : List (List Char)) : State :=
  ⟨pkl, inv, dirs, [], 0, [], none, fun _ => 0⟩

/-- One atomic step of the partition. -/
inductive Event where
  /-- `invalidate_hash` of a suffix directory with this name. -/
  | invalidate (name : List Char)
  /-- A writer makes a suffix directory. -/
  | mkdir (name : List Char)
  /-- An empty suffix directory is removed. -/
  | rmdir (name : List Char)
  /-- A new call `__get_hashes(..., recalculate, do_listdir)`. -/
  | call (recalculate : List (List Char)) (doListdir : Bool)
  /-- Call `p` runs `consolidate_hashes`. -/
  | consolidate (p : Nat) (outcome : ConsolidateOutcome)
  /-- Call `p` reads `hashes.pkl` again after an invalid read. -/
  | reread (p : Nat)
  /-- Call `p` lists the partition. -/
  | listdir (p : Nat)
  /-- Call `p` visits the next item of its loop, hashing it with this outcome if it must. -/
  | visit (p : Nat) (outcome : HashOutcome)
  /-- Call `p` leaves its loop: it returns, or takes the lock and writes back or starts over. -/
  | finish (p : Nat)

/-- Call `p`, if there is one. -/
def State.hasher? (S : State) (p : Nat) : Option Hasher := S.hashers[p]?

/-- Call `p` replaced. -/
def State.setHasher (S : State) (p : Nat) (h : Hasher) : State :=
  { S with hashers := S.hashers.set p h }

section SetHasher

variable (S : State) (p : Nat) (h : Hasher)

@[simp] theorem State.setHasher_pkl : (S.setHasher p h).pkl = S.pkl := rfl
@[simp] theorem State.setHasher_inv : (S.setHasher p h).inv = S.inv := rfl
@[simp] theorem State.setHasher_dirs : (S.setHasher p h).dirs = S.dirs := rfl
@[simp] theorem State.setHasher_hashers : (S.setHasher p h).hashers = S.hashers.set p h := rfl
@[simp] theorem State.setHasher_now : (S.setHasher p h).now = S.now := rfl
@[simp] theorem State.setHasher_log : (S.setHasher p h).log = S.log := rfl
@[simp] theorem State.setHasher_lastWrite : (S.setHasher p h).lastWrite = S.lastWrite := rfl
@[simp] theorem State.setHasher_lastAbsent : (S.setHasher p h).lastAbsent = S.lastAbsent := rfl

end SetHasher

theorem State.mem_hashers_of_hasher? {S : State} {p : Nat} {h : Hasher}
    (hp : S.hasher? p = some h) : h ∈ S.hashers :=
  List.mem_of_getElem? hp

/-- The first attempt of a call, and every attempt it starts over with: `orig_hashes` is read by
`consolidate_hashes`. A valid read goes on with a copy of it; an invalid one sets `do_listdir`
and goes to read the file again. -/
def consolidateStep (clock : Nat → ℚ) (S : State) (p : Nat) (h : Hasher)
    (outcome : ConsolidateOutcome) : State :=
  let (merged, write, found) := consolidate S.pkl S.inv
  let written := writeHashes (clock S.now) merged
  let pkl := if write then some written else S.pkl
  let lastWrite := if write then some S.now else S.lastWrite
  match outcome with
  | .returns =>
    let orig := if write then written else merged
    let S' := { S with pkl := pkl, inv := if found then [] else S.inv, lastWrite := lastWrite }
    if isValid orig then
      S'.setHasher p
        { h with
          stage := h.afterRead orig orig
          readAt := S.now
          readVersion := lastWrite }
    else S'.setHasher p { h with doListdir := true, stage := .reread }
  | .raisesBeforeWrite => S.setHasher p { h with doListdir := true, stage := .reread }
  | .raisesAfterWrite =>
    { S with pkl := pkl, lastWrite := lastWrite }.setHasher p
      { h with doListdir := true, stage := .reread }

/-- `read_hashes` again after an invalid read, with `hashes = {'valid': True}`; the call goes on
to `os.listdir`, since `do_listdir` is set. -/
def rereadStep (S : State) (p : Nat) (h : Hasher) : State :=
  S.setHasher p
    { h with
      stage := h.afterRead (readHashes S.pkl) [(validKey, .bool true)]
      readAt := S.now
      readVersion := S.lastWrite }

/-- `os.listdir` of the partition: every name of three characters becomes a key with `None`
unless it is one already; then the suffixes to recalculate are set to `None`. -/
def listdirStep (S : State) (p : Nat) (h : Hasher) (orig hashes : Dict) : State :=
  let hashes := (S.dirs.filter (·.length == 3)).foldl (fun hashes s => setdefault hashes s .none)
    hashes
  let hashes := h.forceRecalculate hashes
  S.setHasher p { h with stage := .hashing orig hashes (hashes.map (·.1)) true }

/-- The visit of key `k` by the loop: `valid`, `updated` and keys that hold a hash are passed
over; the others are hashed with the outcome the event brings. A missing directory can only give
`PathNotDir`, and a call that gives it leaves no directory behind. -/
def visitStep (S : State) (p : Nat) (h : Hasher) (orig hashes : Dict) (k : List Char)
    (todo : List (List Char)) (modified : Bool) (outcome : HashOutcome) : Option State :=
  let next (hashes : Dict) (hashed : Nat) (modified : Bool) : Hasher :=
    { h with hashed := hashed, stage := .hashing orig hashes todo modified }
  match get hashes k with
  | some v =>
    if k = validKey ∨ k = updatedKey ∨ v.falsy = false then
      some (S.setHasher p (next hashes h.hashed modified))
    else
      match outcome with
      | .digest d =>
        if S.dirs.contains k then
          some (S.setHasher p (next (set hashes k (.str d S.now)) (h.hashed + 1) true))
        else none
      | .notDir =>
        some ({ S with dirs := S.dirs.filter (· != k) }.setHasher p
          (next (erase hashes k) h.hashed true))
      | .osError =>
        if S.dirs.contains k then some (S.setHasher p (next hashes h.hashed true)) else none
  | none => some (S.setHasher p (next hashes h.hashed modified))

/-- The end of the loop. Unmodified hashes are returned. Modified ones are written back under the
lock if `hashes.pkl` still reads as `orig_hashes`, and then returned; otherwise the call starts
over, keeping `recalculate` and `do_listdir`. -/
def finishStep (clock : Nat → ℚ) (S : State) (p : Nat) (h : Hasher) (orig hashes : Dict)
    (modified : Bool) : State :=
  if modified then
    if pyEq Value.plain (readHashes S.pkl) orig then
      let written := writeHashes (clock S.now) hashes
      { S with pkl := some written, lastWrite := some S.now }.setHasher p
        { h with stage := .done h.hashed written }
    else S.setHasher p { h with hashed := 0, stage := .start }
  else S.setHasher p { h with stage := .done h.hashed hashes }

/-- Run `f` on call `p`; `none` if there is no such call. -/
def State.withHasher (S : State) (p : Nat) (f : Hasher → Option State) : Option State :=
  (S.hasher? p).bind f

/-- An event in state `S`, without the ghost step count; `none` when the call it names is not at
the point the event needs. -/
def act (clock : Nat → ℚ) (S : State) : Event → Option State
  | .invalidate name => some { S with inv := S.inv ++ [name], log := S.log ++ [(name, S.now)] }
  | .mkdir name => some { S with dirs := if S.dirs.contains name then S.dirs else S.dirs ++ [name] }
  | .rmdir name => some { S with dirs := S.dirs.filter (· != name) }
  | .call recalculate doListdir =>
    let h : Hasher := ⟨recalculate, doListdir, 0, .start, S.now, S.now, none⟩
    some { S with hashers := S.hashers ++ [h] }
  | .consolidate p outcome => S.withHasher p fun h => match h.stage with
    | .start => some (consolidateStep clock S p h outcome)
    | _ => none
  | .reread p => S.withHasher p fun h => match h.stage with
    | .reread => some (rereadStep S p h)
    | _ => none
  | .listdir p => S.withHasher p fun h => match h.stage with
    | .listing orig hashes => some (listdirStep S p h orig hashes)
    | _ => none
  | .visit p outcome => S.withHasher p fun h => match h.stage with
    | .hashing orig hashes (k :: todo) modified =>
      visitStep S p h orig hashes k todo modified outcome
    | _ => none
  | .finish p => S.withHasher p fun h => match h.stage with
    | .hashing orig hashes [] modified => some (finishStep clock S p h orig hashes modified)
    | _ => none

/-- The ghost bookkeeping of every step: the step count, and the names whose directory is missing
after it. -/
def tick (S : State) : State :=
  { S with
    now := S.now + 1
    lastAbsent := fun name => if S.dirs.contains name then S.lastAbsent name else S.now + 1 }

section Tick

variable (S : State)

@[simp] theorem tick_pkl : (tick S).pkl = S.pkl := rfl
@[simp] theorem tick_inv : (tick S).inv = S.inv := rfl
@[simp] theorem tick_dirs : (tick S).dirs = S.dirs := rfl
@[simp] theorem tick_hashers : (tick S).hashers = S.hashers := rfl
@[simp] theorem tick_now : (tick S).now = S.now + 1 := rfl
@[simp] theorem tick_log : (tick S).log = S.log := rfl
@[simp] theorem tick_lastWrite : (tick S).lastWrite = S.lastWrite := rfl

theorem tick_lastAbsent (name : List Char) :
    (tick S).lastAbsent name = if S.dirs.contains name then S.lastAbsent name else S.now + 1 :=
  rfl

end Tick

/-- One step of the partition. -/
def step (clock : Nat → ℚ) (S : State) (e : Event) : Option State := (act clock S e).map tick

/-- The state after a run of events. -/
def run (clock : Nat → ℚ) (S : State) (events : List Event) : Option State :=
  Run.run (step clock) S events

end Hashes

end Swift
