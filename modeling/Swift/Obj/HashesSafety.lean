import Swift.Obj.Hashes

/-!
# No call of `__get_hashes` returns a hash older than an invalidation before it

A writer that changes a suffix directory calls `invalidate_hash` after the change. Replication
relies on this: a call of `__get_hashes` that begins after `invalidate_hash` has returned must
not return a digest computed before that invalidation, and may leave the suffix out only if its
directory was missing at some point since. `getHashes_fresh` proves this for every interleaving
of invalidations, directory changes and calls, in the model of `Swift.Obj.Hashes`.

The argument is the one the comments in `__get_hashes` give. An invalidation stays in
`hashes.invalid` until a `consolidate_hashes` writes `None` for its suffix into `hashes.pkl`;
after that, every version of `hashes.pkl` either still says `None` or holds a digest computed
after a read of such a version. A call writes its hashes only when `hashes.pkl` reads as it did
when the call read it, and that read came after the invalidation was consolidated.

## Two assumptions

The comparison at the end of `__get_hashes` tells versions of `hashes.pkl` apart by their
`updated` time only when the clock never repeats: with `time.time()` returning one value at two
writes, a version can come back after a newer one (`clock_repeats_stale`). And it sees the
`updated` time only when `read_hashes` accepts every key: a suffix directory with a name of
three characters that are not hex digits puts its name into the hashes that are written, and the
file then reads as `{'valid': False}` whatever its time (`bad_name_stale`). So the theorem
assumes an injective clock, a first file whose `updated` no write can repeat, and directory and
`recalculate` names that are valid suffixes.

## Main definitions

* `Settled` — what `hashes.pkl` says of an invalidation once it is consolidated
* `Fresh`, `Present` — what a call's dict says of the invalidations before its read
* `ReadOf` — what a call knows of the version of `hashes.pkl` it read
* `Inv` — the invariant of the partition, with `HasherInv` for each call

## Main results

* `Inv.lastWrite_eq_of_pyEq` — a file that compares equal to what a call read is the version
  it read
* `Inv.step` — every event keeps the invariant
* `getHashes_fresh` — the safety statement over every run
-/

namespace Swift

namespace Hashes

open PyDict

/-! ### Keys `read_hashes` accepts -/

/-- Every key of `d` is one `read_hashes` accepts. -/
def KeysOk (d : Dict) : Prop := ∀ k ∈ d.map Prod.fst, validHashesKey k = true

theorem validHashesKey_of_validSuffix {s : List Char} (h : validSuffix s = true) :
    validHashesKey s = true := by
  simp [validHashesKey, h]

theorem keysOk_set {d : Dict} (hd : KeysOk d) {k : List Char} (hk : validHashesKey k = true)
    (v : Value) : KeysOk (set d k v) := by
  intro k' hk'
  rcases mem_keys_set.mp hk' with rfl | hk'
  · exact hk
  · exact hd k' hk'

theorem keysOk_setdefault {d : Dict} (hd : KeysOk d) {k : List Char}
    (hk : validHashesKey k = true) (v : Value) : KeysOk (setdefault d k v) := by
  intro k' hk'
  rcases mem_keys_setdefault.mp hk' with rfl | hk'
  · exact hk
  · exact hd k' hk'

theorem keysOk_erase {d : Dict} (hd : KeysOk d) (k : List Char) : KeysOk (erase d k) :=
  fun _ hk' => hd _ (mem_keys_erase.mp hk').2

/-- A fold that only adds valid suffixes as keys keeps every key acceptable. -/
theorem keysOk_foldl {f : Dict → List Char → Dict}
    (hf : ∀ d k, KeysOk d → validSuffix k = true → KeysOk (f d k)) {l : List (List Char)}
    (hl : ∀ s ∈ l, validSuffix s = true) {d : Dict} (hd : KeysOk d) : KeysOk (l.foldl f d) := by
  induction l generalizing d with
  | nil => exact hd
  | cons s l ih =>
    rw [List.foldl_cons]
    exact ih (fun s' hs' => hl s' (List.mem_cons_of_mem s hs')) (hf d s hd (hl s List.mem_cons_self))

theorem keysOk_foldl_set {d : Dict} (hd : KeysOk d) {l : List (List Char)}
    (hl : ∀ s ∈ l, validSuffix s = true) (v : Value) :
    KeysOk (l.foldl (fun d s => set d s v) d) :=
  keysOk_foldl (fun _ _ hd hk => keysOk_set hd (validHashesKey_of_validSuffix hk) v) hl hd

theorem keysOk_readHashes (pkl : Option Dict) : KeysOk (readHashes pkl) := by
  simp only [readHashes]
  split
  · rename_i hall
    refine keysOk_setdefault (keysOk_setdefault ?_ (by decide) _) (by decide) _
    intro k hk
    obtain ⟨⟨k', v⟩, hmem, rfl⟩ := List.mem_map.mp hk
    exact List.all_eq_true.mp hall _ hmem
  · intro k hk
    rw [List.map_singleton, List.mem_singleton] at hk
    rw [hk]
    decide

theorem keysOk_writeHashes {d : Dict} (hd : KeysOk d) (t : ℚ) : KeysOk (writeHashes t d) :=
  keysOk_set (keysOk_setdefault hd (by decide) _) (by decide) _

/-- What is written reads back as written, once every key is one `read_hashes` accepts. -/
theorem readHashes_writeHashes {d : Dict} (hd : KeysOk d) (t : ℚ) :
    readHashes (some (writeHashes t d)) = writeHashes t d := by
  have hk : KeysOk (writeHashes t d) := keysOk_writeHashes hd t
  have hall : (writeHashes t d).all (validHashesKey ·.1) = true :=
    List.all_eq_true.mpr fun p hp => hk p.1 (List.mem_map_of_mem hp)
  have hvalid : validKey ∈ (writeHashes t d).map Prod.fst :=
    mem_keys_set.mpr (.inr (mem_keys_setdefault.mpr (.inl rfl)))
  have hupdated : updatedKey ∈ (writeHashes t d).map Prod.fst := mem_keys_set.mpr (.inl rfl)
  simp only [readHashes, Option.getD_some, hall, if_true, setdefault_of_mem hvalid,
    setdefault_of_mem hupdated]

theorem mem_keys_writeHashes {d : Dict} {t : ℚ} {s : List Char} (h : s ∈ d.map Prod.fst) :
    s ∈ (writeHashes t d).map Prod.fst :=
  mem_keys_set.mpr (.inr (mem_keys_setdefault.mpr (.inr h)))

/-! ### Digests and invalidations -/

/-- No digest in `v` was computed at or before step `τ`. -/
def FreshAfter (τ : Nat) (v : Option Value) : Prop := ∀ c n, v = some (.str c n) → τ < n

theorem freshAfter_none_value (τ : Nat) : FreshAfter τ (some .none) := by
  intro c n h
  cases h

/-- The file accounts for the invalidation of `s` at step `τ`: it was written after it, it holds
no digest of `s` as old, and it holds `s` unless the directory of `s` was missing since. -/
def Settled (pkl : Option Dict) (lastWrite : Option Nat) (lastAbsent : List Char → Nat)
    (s : List Char) (τ : Nat) : Prop :=
  (∃ w, lastWrite = some w ∧ τ < w) ∧ FreshAfter τ (get (readHashes pkl) s) ∧
    (s ∈ (readHashes pkl).map Prod.fst ∨ τ < lastAbsent s)

theorem Settled.mono {pkl : Option Dict} {lastWrite : Option Nat} {a a' : List Char → Nat}
    {s : List Char} {τ : Nat} (h : Settled pkl lastWrite a s τ) (ha : ∀ x, a x ≤ a' x) :
    Settled pkl lastWrite a' s τ :=
  ⟨h.1, h.2.1, h.2.2.imp_right fun hlt => lt_of_lt_of_le hlt (ha s)⟩

/-- A write of `d` settles the invalidation at `τ` of a suffix `s` that `d` holds no old digest
of and holds unless its directory went missing. -/
theorem settled_writeHashes {d : Dict} (hd : KeysOk d) {t : ℚ} {w : Nat}
    {a : List Char → Nat} {s : List Char} {τ : Nat} (hs : validSuffix s = true) (hτ : τ < w)
    (hfresh : FreshAfter τ (get d s)) (hmem : s ∈ d.map Prod.fst ∨ τ < a s) :
    Settled (some (writeHashes t d)) (some w) a s τ := by
  rw [Settled, readHashes_writeHashes hd,
    get_writeHashes_of_ne t d (validSuffix_ne_validKey hs) (validSuffix_ne_updatedKey hs)]
  exact ⟨⟨w, rfl, hτ⟩, hfresh, hmem.imp_left mem_keys_writeHashes⟩

/-- No digest in a call's `hashes` is as old as an invalidation logged before its read. -/
def Fresh (S : State) (readAt : Nat) (hashes : Dict) : Prop :=
  ∀ s τ, (s, τ) ∈ S.log → validSuffix s = true → τ < readAt → FreshAfter τ (get hashes s)

/-- A call's `hashes` holds every suffix invalidated before its read, unless the directory was
missing since. -/
def Present (S : State) (readAt : Nat) (hashes : Dict) : Prop :=
  ∀ s τ, (s, τ) ∈ S.log → validSuffix s = true → τ < readAt →
    s ∈ hashes.map Prod.fst ∨ τ < S.lastAbsent s

/-- How the shared state may change while a call does not move: the clock and the log only
grow, a directory is only found missing later, and `hashes.pkl` is only written later. -/
structure Grows (S S' : State) : Prop where
  now_le : S.now ≤ S'.now
  log : ∀ s τ, (s, τ) ∈ S'.log → (s, τ) ∈ S.log ∨ S.now ≤ τ
  absent : ∀ s, S.lastAbsent s ≤ S'.lastAbsent s
  write : S'.lastWrite = S.lastWrite ∨ ∃ m, S'.lastWrite = some m ∧ S.now ≤ m

section Grows

variable {S S' : State} {readAt : Nat} {hashes : Dict}

theorem Fresh.mono (hg : Grows S S') (hr : readAt ≤ S.now) (hf : Fresh S readAt hashes) :
    Fresh S' readAt hashes := by
  intro s τ hlog hs hτ
  rcases hg.log s τ hlog with hlog | hle
  · exact hf s τ hlog hs hτ
  · omega

theorem Present.mono (hg : Grows S S') (hr : readAt ≤ S.now) (hp : Present S readAt hashes) :
    Present S' readAt hashes := by
  intro s τ hlog hs hτ
  rcases hg.log s τ hlog with hlog | hle
  · exact (hp s τ hlog hs hτ).imp_right fun hlt => lt_of_lt_of_le hlt (hg.absent s)
  · omega

end Grows

/-- `d'` holds no digest that `d` does not: it only sets values to `None` or drops keys. -/
def NoNewDigest (d d' : Dict) : Prop := ∀ s c n, get d' s = some (.str c n) → get d s = some (.str c n)

theorem noNewDigest_forceRecalculate (h : Hasher) (d : Dict) :
    NoNewDigest d (h.forceRecalculate d) := by
  intro s c n hget
  rw [Hasher.get_forceRecalculate] at hget
  split at hget
  · cases hget
  · exact hget

theorem noNewDigest_foldl_setdefault (l : List (List Char)) (d : Dict) :
    NoNewDigest d (l.foldl (fun d s => setdefault d s .none) d) := by
  intro s c n hget
  rw [get_foldl_setdefault] at hget
  split at hget
  · cases hd : get d s with
    | none =>
      rw [hd] at hget
      cases hget
    | some v =>
      rw [hd] at hget
      exact hget
  · exact hget

theorem noNewDigest_erase (d : Dict) (k : List Char) : NoNewDigest d (erase d k) := by
  intro s c n hget
  by_cases hs : s = k
  · rw [hs, get_erase_self] at hget
    cases hget
  · rwa [get_erase_of_ne d hs] at hget

theorem Fresh.of_noNewDigest {S : State} {readAt : Nat} {d d' : Dict} (hf : Fresh S readAt d)
    (hd : NoNewDigest d d') : Fresh S readAt d' :=
  fun s τ hlog hs hτ c n hget => hf s τ hlog hs hτ c n (hd s c n hget)

theorem Present.of_keys {S : State} {readAt : Nat} {d d' : Dict} (hp : Present S readAt d)
    (hd : ∀ s, s ∈ d.map Prod.fst → s ∈ d'.map Prod.fst) : Present S readAt d' :=
  fun s τ hlog hs hτ => (hp s τ hlog hs hτ).imp_left (hd s)

theorem mem_keys_forceRecalculate (h : Hasher) {d : Dict} {s : List Char}
    (hs : s ∈ d.map Prod.fst) : s ∈ (h.forceRecalculate d).map Prod.fst := by
  rw [mem_keys_iff] at hs ⊢
  rw [Hasher.get_forceRecalculate]
  split
  · rfl
  · exact hs

theorem keysOk_forceRecalculate {h : Hasher} (hrec : ∀ s ∈ h.recalculate, validSuffix s = true)
    {d : Dict} (hd : KeysOk d) : KeysOk (h.forceRecalculate d) :=
  keysOk_foldl_set hd hrec .none

/-- A call's dict written back: the suffixes keep their lookups and their keys. -/
theorem Fresh.writeHashes {S : State} {readAt : Nat} {d : Dict} (hf : Fresh S readAt d)
    (t : ℚ) : Fresh S readAt (writeHashes t d) := by
  intro s τ hlog hs hτ
  rw [get_writeHashes_of_ne t d (validSuffix_ne_validKey hs) (validSuffix_ne_updatedKey hs)]
  exact hf s τ hlog hs hτ

theorem Present.writeHashes {S : State} {readAt : Nat} {d : Dict} (hp : Present S readAt d)
    (t : ℚ) : Present S readAt (writeHashes t d) :=
  hp.of_keys fun _ => mem_keys_writeHashes

/-! ### The invariant -/

section Invariant

variable (clock : Nat → ℚ) (stamp₀ : Option Plain)

/-- The `updated` that `read_hashes` gives for a version of `hashes.pkl`: `stamp₀` for the file
the run began with, the clock at the write for the others. -/
def stampOf : Option Nat → Option Plain
  | none => stamp₀
  | some w => some (.num (clock w))

/-- What a call knows of the version of `hashes.pkl` it read into `orig`: when it read it, which
write it was, the `updated` it holds, and that only a later write can have replaced it. -/
structure ReadOf (S : State) (h : Hasher) (orig : Dict) : Prop where
  started_le : h.startedAt ≤ h.readAt
  read_lt : h.readAt < S.now
  version_le : ∀ w, h.readVersion = some w → w ≤ h.readAt
  stamp : (get orig updatedKey).map Value.plain = stampOf clock stamp₀ h.readVersion
  current : S.lastWrite = h.readVersion ∨ ∃ m, S.lastWrite = some m ∧ h.readAt ≤ m

/-- What holds of a call at each point of `__get_hashes`. Before `os.listdir` its `hashes` may
lack suffixes; from the loop on they are all there. -/
def StageInv (S : State) (h : Hasher) : Stage → Prop
  | .start => True
  | .reread => h.doListdir = true
  | .listing orig hashes =>
    ReadOf clock stamp₀ S h orig ∧ KeysOk hashes ∧ Fresh S h.readAt hashes
  | .hashing orig hashes _ _ =>
    ReadOf clock stamp₀ S h orig ∧ KeysOk hashes ∧ Fresh S h.readAt hashes ∧
      Present S h.readAt hashes
  | .done _ hashes =>
    h.startedAt ≤ h.readAt ∧ h.readAt < S.now ∧ Fresh S h.readAt hashes ∧
      Present S h.readAt hashes

/-- The invariant of one call. -/
structure HasherInv (S : State) (h : Hasher) : Prop where
  started_le : h.startedAt ≤ S.now
  recalculate : ∀ s ∈ h.recalculate, validSuffix s = true
  stage : StageInv clock stamp₀ S h h.stage

/-- The invariant of the partition. An invalidation is pending in `hashes.invalid` or settled
in `hashes.pkl`. -/
structure Inv (S : State) : Prop where
  stamp : (get (readHashes S.pkl) updatedKey).map Value.plain = stampOf clock stamp₀ S.lastWrite
  write_lt : ∀ w, S.lastWrite = some w → w < S.now
  log_lt : ∀ s τ, (s, τ) ∈ S.log → τ < S.now
  absent_le : ∀ s, S.lastAbsent s ≤ S.now
  dirs : ∀ s ∈ S.dirs, validSuffix s = true
  settled : ∀ s τ, (s, τ) ∈ S.log → validSuffix s = true →
    s ∈ S.inv.map Text.strip ∨ Settled S.pkl S.lastWrite S.lastAbsent s τ
  hashers : ∀ h ∈ S.hashers, HasherInv clock stamp₀ S h

variable {clock stamp₀}

theorem ReadOf.mono {S S' : State} {h : Hasher} {orig : Dict} (hg : Grows S S')
    (hr : ReadOf clock stamp₀ S h orig) : ReadOf clock stamp₀ S' h orig where
  started_le := hr.started_le
  read_lt := lt_of_lt_of_le hr.read_lt hg.now_le
  version_le := hr.version_le
  stamp := hr.stamp
  current := by
    rcases hg.write with hw | ⟨m, hm, hle⟩
    · rw [hw]
      exact hr.current
    · exact .inr ⟨m, hm, by have := hr.read_lt; omega⟩

theorem HasherInv.mono {S S' : State} {h : Hasher} (hg : Grows S S')
    (hh : HasherInv clock stamp₀ S h) : HasherInv clock stamp₀ S' h := by
  obtain ⟨hstart, hrec, hstage⟩ := hh
  refine ⟨le_trans hstart hg.now_le, hrec, ?_⟩
  revert hstage
  cases h.stage with
  | start | reread => exact id
  | listing orig hashes =>
    rintro ⟨hr, hk, hf⟩
    exact ⟨hr.mono hg, hk, hf.mono hg hr.read_lt.le⟩
  | hashing orig hashes todo modified =>
    rintro ⟨hr, hk, hf, hp⟩
    exact ⟨hr.mono hg, hk, hf.mono hg hr.read_lt.le, hp.mono hg hr.read_lt.le⟩
  | done hashed hashes =>
    rintro ⟨hsr, hlt, hf, hp⟩
    exact ⟨hsr, lt_of_lt_of_le hlt hg.now_le, hf.mono hg hlt.le, hp.mono hg hlt.le⟩

/-- The invariant holds of a partition before any call: the files may hold anything, and no
invalidation has been logged yet. -/
theorem Inv.initial (pkl₀ : Option Dict) (inv₀ dirs₀ : List (List Char))
    (hdirs : ∀ s ∈ dirs₀, validSuffix s = true) :
    Inv clock ((get (readHashes pkl₀) updatedKey).map Value.plain)
      (State.initial pkl₀ inv₀ dirs₀) where
  stamp := rfl
  write_lt := fun _ h => by cases h
  log_lt := fun _ _ h => by cases h
  absent_le := fun _ => le_refl 0
  dirs := hdirs
  settled := fun _ _ h => by cases h
  hashers := fun _ h => by cases h

/-- The step count moves on, and a name is found missing at the step that removed it: the
shared state after an event grows from the one before, when the event wrote `hashes.pkl` and
logged only at the present step. -/
theorem grows_tick {S T : State} (habs_le : ∀ s, S.lastAbsent s ≤ S.now) (hnow : T.now = S.now)
    (habs : T.lastAbsent = S.lastAbsent)
    (hw : T.lastWrite = S.lastWrite ∨ T.lastWrite = some S.now)
    (hlog : ∀ s τ, (s, τ) ∈ T.log → (s, τ) ∈ S.log ∨ τ = S.now) : Grows S (tick T) where
  now_le := by
    rw [tick_now, hnow]
    exact Nat.le_succ _
  log := fun s τ h => (hlog s τ h).imp_right fun (hτ : τ = S.now) => le_of_eq hτ.symm
  absent := fun s => by
    rw [tick_lastAbsent, habs, hnow]
    split
    · exact le_refl _
    · exact le_trans (habs_le s) (Nat.le_succ _)
  write := hw.imp_right fun h => ⟨S.now, h, le_refl _⟩

/-- The invariant after an event, from what the event does to the files, the directories and
the calls; the bounds on the ghost steps follow from `grows_tick`. -/
theorem Inv.tick_of {S T : State} (hS : Inv clock stamp₀ S) (hnow : T.now = S.now)
    (habs : T.lastAbsent = S.lastAbsent)
    (hw : T.lastWrite = S.lastWrite ∨ T.lastWrite = some S.now)
    (hlog : ∀ s τ, (s, τ) ∈ T.log → (s, τ) ∈ S.log ∨ τ = S.now)
    (hstamp : (get (readHashes T.pkl) updatedKey).map Value.plain =
      stampOf clock stamp₀ T.lastWrite)
    (hdirs : ∀ s ∈ T.dirs, validSuffix s = true)
    (hsettled : ∀ s τ, (s, τ) ∈ T.log → validSuffix s = true →
      s ∈ T.inv.map Text.strip ∨ Settled T.pkl T.lastWrite S.lastAbsent s τ)
    (hhashers : Grows S (tick T) → ∀ h ∈ T.hashers, HasherInv clock stamp₀ (tick T) h) :
    Inv clock stamp₀ (tick T) := by
  have hg := grows_tick hS.absent_le hnow habs hw hlog
  refine ⟨hstamp, ?_, ?_, ?_, hdirs, ?_, hhashers hg⟩
  · intro w hw'
    rw [tick_lastWrite] at hw'
    rw [tick_now]
    rcases hw with h | h
    · have := hS.write_lt w (h ▸ hw')
      omega
    · rw [h] at hw'
      cases hw'
      omega
  · intro s τ h
    rw [tick_now]
    rcases hlog s τ h with h | h
    · have := hS.log_lt s τ h
      omega
    · omega
  · intro s
    rw [tick_lastAbsent, tick_now, habs, hnow]
    split
    · exact le_trans (hS.absent_le s) (Nat.le_succ _)
    · exact le_refl _
  · intro s τ h hs
    exact (hsettled s τ h hs).imp_right fun hset => hset.mono hg.absent

/-- The calls other than `p` keep their invariant; call `p` has the one it is given. -/
theorem hashers_set {S S' : State} {l : List Hasher} {p : Nat} {h' : Hasher} (hg : Grows S S')
    (hall : ∀ g ∈ l, HasherInv clock stamp₀ S g) (hh : HasherInv clock stamp₀ S' h') :
    ∀ g ∈ l.set p h', HasherInv clock stamp₀ S' g := by
  intro g hg'
  rcases List.mem_or_eq_of_mem_set hg' with hmem | rfl
  · exact (hall g hmem).mono hg
  · exact hh

/-- An event that moves call `p` and touches nothing else keeps the invariant, if call `p`
keeps its own. -/
theorem Inv.setHasher {S : State} (hS : Inv clock stamp₀ S) {p : Nat} {h' : Hasher}
    (hh : HasherInv clock stamp₀ (tick (S.setHasher p h')) h') :
    Inv clock stamp₀ (tick (S.setHasher p h')) := by
  have hlog : ∀ s τ, (s, τ) ∈ S.log → (s, τ) ∈ S.log ∨ τ = S.now := fun _ _ h => .inl h
  exact hS.tick_of rfl rfl (.inl rfl) hlog hS.stamp hS.dirs hS.settled
    fun hg => hashers_set hg hS.hashers hh

/-- The comparison at the end of `__get_hashes`. With a clock that never repeats and a first
file whose `updated` no write repeats, a file that compares equal to what a call read is the
version it read. -/
theorem Inv.lastWrite_eq_of_pyEq (hclock : Function.Injective clock)
    (hstamp₀ : ∀ n, stamp₀ ≠ some (.num (clock n))) {S : State} {h : Hasher} {orig : Dict}
    (hS : Inv clock stamp₀ S) (hr : ReadOf clock stamp₀ S h orig)
    (heq : pyEq Value.plain (readHashes S.pkl) orig = true) : S.lastWrite = h.readVersion := by
  have hsame : stampOf clock stamp₀ S.lastWrite = stampOf clock stamp₀ h.readVersion := by
    rw [← hS.stamp, ← hr.stamp]
    exact get_eq_of_pyEq heq updatedKey
  rcases hr.current with hcur | ⟨m, hm, -⟩
  · exact hcur
  · rw [hm] at hsame ⊢
    cases hv : h.readVersion with
    | none =>
      rw [hv] at hsame
      exact absurd hsame.symm (hstamp₀ m)
    | some w =>
      rw [hv] at hsame
      have hclk : clock m = clock w := by simpa [stampOf] using hsame
      rw [hclock hclk]

/-! ### Events that do not run a call -/

theorem Inv.invalidate {S : State} (hS : Inv clock stamp₀ S) (name : List Char) :
    Inv clock stamp₀ (tick { S with inv := S.inv ++ [name], log := S.log ++ [(name, S.now)] }) := by
  have hlog : ∀ s τ, (s, τ) ∈ S.log ++ [(name, S.now)] → (s, τ) ∈ S.log ∨ τ = S.now := by
    intro s τ h
    rcases List.mem_append.mp h with h | h
    · exact .inl h
    · exact .inr (Prod.mk.inj (List.mem_singleton.mp h)).2
  refine hS.tick_of rfl rfl (.inl rfl) hlog hS.stamp hS.dirs ?_
    fun hg g hg' => (hS.hashers g hg').mono hg
  intro s τ h hs
  rw [List.map_append]
  rcases List.mem_append.mp h with h | h
  · exact (hS.settled s τ h hs).imp_left fun hm => List.mem_append_left _ hm
  · -- the new line names the suffix as it is, and a valid suffix strips to itself
    obtain ⟨rfl, -⟩ := Prod.mk.inj (List.mem_singleton.mp h)
    left
    simp [strip_of_validSuffix hs]

theorem Inv.mkdir {S : State} (hS : Inv clock stamp₀ S) {name : List Char}
    (hname : validSuffix name = true) :
    Inv clock stamp₀
      (tick { S with dirs := if S.dirs.contains name then S.dirs else S.dirs ++ [name] }) := by
  have hlog : ∀ s τ, (s, τ) ∈ S.log → (s, τ) ∈ S.log ∨ τ = S.now := fun _ _ h => .inl h
  refine hS.tick_of rfl rfl (.inl rfl) hlog hS.stamp ?_ hS.settled
    fun hg g hg' => (hS.hashers g hg').mono hg
  intro s hs
  split at hs
  · exact hS.dirs s hs
  · rcases List.mem_append.mp hs with hs | hs
    · exact hS.dirs s hs
    · rw [List.mem_singleton.mp hs]
      exact hname

theorem Inv.rmdir {S : State} (hS : Inv clock stamp₀ S) (name : List Char) :
    Inv clock stamp₀ (tick { S with dirs := S.dirs.filter (· != name) }) := by
  have hlog : ∀ s τ, (s, τ) ∈ S.log → (s, τ) ∈ S.log ∨ τ = S.now := fun _ _ h => .inl h
  exact hS.tick_of rfl rfl (.inl rfl) hlog hS.stamp
    (fun s hs => hS.dirs s (List.mem_of_mem_filter hs)) hS.settled
    fun hg g hg' => (hS.hashers g hg').mono hg

theorem Inv.call {S : State} (hS : Inv clock stamp₀ S) {recalculate : List (List Char)}
    (hrec : ∀ s ∈ recalculate, validSuffix s = true) (doListdir : Bool) :
    Inv clock stamp₀ (tick { S with hashers :=
      S.hashers ++ [⟨recalculate, doListdir, 0, .start, S.now, S.now, none⟩] }) := by
  have hlog : ∀ s τ, (s, τ) ∈ S.log → (s, τ) ∈ S.log ∨ τ = S.now := fun _ _ h => .inl h
  refine hS.tick_of rfl rfl (.inl rfl) hlog hS.stamp hS.dirs hS.settled ?_
  intro hg g hg'
  rcases List.mem_append.mp hg' with hg' | hg'
  · exact (hS.hashers g hg').mono hg
  · rw [List.mem_singleton.mp hg']
    exact ⟨Nat.le_succ _, hrec, trivial⟩

/-! ### Events of a call -/

theorem grows_setHasher {S : State} (hS : Inv clock stamp₀ S) (p : Nat) (h' : Hasher) :
    Grows S (tick (S.setHasher p h')) :=
  grows_tick hS.absent_le rfl rfl (.inl rfl) fun _ _ h => .inl h

theorem Inv.stageInv {S : State} (hS : Inv clock stamp₀ S) {p : Nat} {h : Hasher}
    (hp : S.hasher? p = some h) : StageInv clock stamp₀ S h h.stage :=
  (hS.hashers h (S.mem_hashers_of_hasher? hp)).stage

/-- A read of `hashes.pkl` at the present step, of the version `T.lastWrite`. -/
theorem readOf_tick {S T : State} (hS : Inv clock stamp₀ S) {h : Hasher} {orig : Dict}
    (hnow : T.now = S.now) (hstart : h.startedAt ≤ S.now) (hread : h.readAt = S.now)
    (hversion : h.readVersion = T.lastWrite)
    (hw : T.lastWrite = S.lastWrite ∨ T.lastWrite = some S.now)
    (hstamp : (get orig updatedKey).map Value.plain = stampOf clock stamp₀ T.lastWrite) :
    ReadOf clock stamp₀ (tick T) h orig where
  started_le := hread ▸ hstart
  read_lt := by
    rw [tick_now, hnow, hread]
    exact Nat.lt_succ_self _
  version_le := by
    intro w hv
    rw [hversion] at hv
    rw [hread]
    rcases hw with hw | hw
    · rw [hw] at hv
      exact (hS.write_lt w hv).le
    · rw [hw] at hv
      cases hv
      exact le_refl _
  stamp := hversion ▸ hstamp
  current := .inl hversion.symm

/-- The loop goes on with `hashes'`, which keeps the invariant of the loop. -/
theorem HasherInv.hashing {S S' : State} {h : Hasher} {orig hashes' : Dict}
    (hh : HasherInv clock stamp₀ S h) (hg : Grows S S') (hr : ReadOf clock stamp₀ S h orig)
    (hk : KeysOk hashes') (hf : Fresh S' h.readAt hashes') (hp : Present S' h.readAt hashes')
    (hashed : Nat) (todo : List (List Char)) (modified : Bool) :
    HasherInv clock stamp₀ S'
      { h with hashed := hashed, stage := .hashing orig hashes' todo modified } :=
  -- `ReadOf` reads only the ghost fields, which the new call shares with `h`
  have hr' := hr.mono hg
  ⟨le_trans hh.started_le hg.now_le, hh.recalculate,
    ⟨hr'.started_le, hr'.read_lt, hr'.version_le, hr'.stamp, hr'.current⟩, hk, hf, hp⟩

/-- The call returns `hashes'`. -/
theorem HasherInv.done {S S' : State} {h : Hasher} {orig hashes' : Dict}
    (hh : HasherInv clock stamp₀ S h) (hg : Grows S S') (hr : ReadOf clock stamp₀ S h orig)
    (hf : Fresh S' h.readAt hashes') (hp : Present S' h.readAt hashes') (hashed : Nat) :
    HasherInv clock stamp₀ S' { h with stage := .done hashed hashes' } :=
  ⟨le_trans hh.started_le hg.now_le, hh.recalculate, hr.started_le,
    lt_of_lt_of_le hr.read_lt hg.now_le, hf, hp⟩

/-- The call goes back to read `hashes.pkl` again. -/
theorem HasherInv.reread {S S' : State} {h : Hasher} (hh : HasherInv clock stamp₀ S h)
    (hg : Grows S S') : HasherInv clock stamp₀ S' { h with doListdir := true, stage := .reread } :=
  ⟨le_trans hh.started_le hg.now_le, hh.recalculate, rfl⟩

/-- A call that has just read `orig` and holds a copy of it goes on to `os.listdir`, or to the
loop once the suffixes to recalculate are set to `None`. -/
theorem stageInv_afterRead {S : State} {h : Hasher} {orig : Dict}
    (hrec : ∀ s ∈ h.recalculate, validSuffix s = true) (hr : ReadOf clock stamp₀ S h orig)
    (hk : KeysOk orig) (hf : Fresh S h.readAt orig) (hp : Present S h.readAt orig) :
    StageInv clock stamp₀ S h (h.afterRead orig orig) := by
  rw [Hasher.afterRead]
  split
  · exact ⟨hr, hk, hf⟩
  · exact ⟨hr, keysOk_forceRecalculate hrec hk,
      hf.of_noNewDigest (noNewDigest_forceRecalculate _ _),
      hp.of_keys fun _ => mem_keys_forceRecalculate _⟩

/-! #### `consolidate_hashes` -/

section Consolidate

variable {S : State} {merged : Dict} {write found : Bool}

theorem keysOk_consolidate (pkl : Option Dict) (inv : List (List Char)) :
    KeysOk (consolidate pkl inv).1 :=
  keysOk_foldl_set (keysOk_readHashes pkl) (fun _ hs => (List.mem_filter.mp hs).2) .none

/-- What `read_hashes` gives after `consolidate_hashes`: the dict it returned. -/
theorem readHashes_consolidate (hc : consolidate S.pkl S.inv = (merged, write, found)) (t : ℚ) :
    readHashes (if write then some (writeHashes t merged) else S.pkl) =
      if write then writeHashes t merged else merged := by
  have hk : KeysOk merged := by simpa [hc] using keysOk_consolidate S.pkl S.inv
  cases write with
  | true => exact readHashes_writeHashes hk t
  | false =>
    have := consolidate_fst_of_not_write (by rw [hc])
    rw [hc] at this
    exact this.symm

theorem Inv.stamp_consolidate (hS : Inv clock stamp₀ S)
    (hc : consolidate S.pkl S.inv = (merged, write, found)) :
    (get (readHashes (if write then some (writeHashes (clock S.now) merged) else S.pkl))
      updatedKey).map Value.plain =
      stampOf clock stamp₀ (if write then some S.now else S.lastWrite) := by
  cases write with
  | true =>
    rw [readHashes_consolidate hc]
    simp [stampOf, Value.plain]
  | false => exact hS.stamp

/-- After `consolidate_hashes`, whether it wrote or not, every invalidation logged so far is
settled in `hashes.pkl`: a pending one is written as `None`, and a settled one stays so. -/
theorem Inv.settled_consolidate (hS : Inv clock stamp₀ S)
    (hc : consolidate S.pkl S.inv = (merged, write, found)) {s : List Char} {τ : Nat}
    (hlog : (s, τ) ∈ S.log) (hs : validSuffix s = true) :
    Settled (if write then some (writeHashes (clock S.now) merged) else S.pkl)
      (if write then some S.now else S.lastWrite) S.lastAbsent s τ := by
  have hk : KeysOk merged := by simpa [hc] using keysOk_consolidate S.pkl S.inv
  have hget : get merged s =
      if s ∈ S.inv.map Text.strip then some .none else get (readHashes S.pkl) s := by
    simpa [hc] using get_consolidate S.pkl S.inv hs
  have hτ : τ < S.now := hS.log_lt s τ hlog
  by_cases hpend : s ∈ S.inv.map Text.strip
  · -- pending: `consolidate_hashes` writes, with `None` for the suffix
    have hw : write = true := by
      simpa [hc] using (consolidate_write_of_mem hs hpend : (consolidate S.pkl S.inv).2.1 = true)
    rw [if_pos hpend] at hget
    subst hw
    refine settled_writeHashes hk hs hτ ?_ (.inl ?_)
    · rw [hget]
      exact freshAfter_none_value τ
    · rw [mem_keys_iff, hget]
      rfl
  · -- settled already: the write, if any, keeps what the file says of the suffix
    obtain ⟨-, hfresh, hmem⟩ := (hS.settled s τ hlog hs).resolve_left hpend
    obtain ⟨w, hw, hτw⟩ := ((hS.settled s τ hlog hs).resolve_left hpend).1
    rw [if_neg hpend] at hget
    cases write with
    | true =>
      refine settled_writeHashes hk hs hτ (hget ▸ hfresh) (hmem.imp_left fun hm => ?_)
      rw [mem_keys_iff, hget]
      exact mem_keys_iff.mp hm
    | false => exact ⟨⟨w, hw, hτw⟩, hfresh, hmem⟩

end Consolidate

/-- The partition after the write of `consolidate_hashes`, with `hashes.invalid` then holding
`inv'`. -/
def afterConsolidate (clock : Nat → ℚ) (S : State) (merged : Dict) (write : Bool)
    (inv' : List (List Char)) : State :=
  { S with
    pkl := if write then some (writeHashes (clock S.now) merged) else S.pkl
    inv := inv'
    lastWrite := if write then some S.now else S.lastWrite }

theorem afterConsolidate_lastWrite (clock : Nat → ℚ) (S : State) (merged : Dict) (write : Bool)
    (inv' : List (List Char)) :
    (afterConsolidate clock S merged write inv').lastWrite = S.lastWrite ∨
      (afterConsolidate clock S merged write inv').lastWrite = some S.now := by
  cases write
  · exact .inl rfl
  · exact .inr rfl

/-- `consolidate_hashes` keeps the invariant of the partition whatever it leaves in
`hashes.invalid`, if the call that ran it keeps its own. -/
theorem Inv.afterConsolidate {S : State} (hS : Inv clock stamp₀ S) {merged : Dict}
    {write found : Bool} (hc : consolidate S.pkl S.inv = (merged, write, found))
    (inv' : List (List Char)) (p : Nat) {h' : Hasher}
    (hh : Grows S (tick ((afterConsolidate clock S merged write inv').setHasher p h')) →
      HasherInv clock stamp₀ (tick ((afterConsolidate clock S merged write inv').setHasher p h'))
        h') :
    Inv clock stamp₀ (tick ((afterConsolidate clock S merged write inv').setHasher p h')) :=
  hS.tick_of rfl rfl (afterConsolidate_lastWrite clock S merged write inv') (fun _ _ h => .inl h)
    (hS.stamp_consolidate hc) hS.dirs (fun _ _ hlog hs => .inr (hS.settled_consolidate hc hlog hs))
    fun hg => hashers_set hg hS.hashers (hh hg)

/-- `consolidate_hashes` by call `p`, however it ends. The call that reads a valid dict goes on
with it; the others go back to read the file. -/
theorem Inv.consolidate {S : State} (hS : Inv clock stamp₀ S) {p : Nat} {h : Hasher}
    (hp : S.hasher? p = some h) (outcome : ConsolidateOutcome) :
    Inv clock stamp₀ (tick (consolidateStep clock S p h outcome)) := by
  have hh := hS.hashers h (S.mem_hashers_of_hasher? hp)
  rcases hc : Hashes.consolidate S.pkl S.inv with ⟨merged, write, found⟩
  cases outcome with
  | returns =>
    simp only [consolidateStep, hc]
    by_cases hvalid : isValid (if write then writeHashes (clock S.now) merged else merged) = true
    · -- a valid read: the call holds the file as it now is
      rw [if_pos hvalid]
      have horig := readHashes_consolidate hc (clock S.now)
      refine hS.afterConsolidate hc _ p fun hg => ⟨le_trans hh.started_le hg.now_le,
        hh.recalculate, stageInv_afterRead hh.recalculate
          (readOf_tick hS rfl hh.started_le rfl rfl
            (afterConsolidate_lastWrite clock S merged write (if found then [] else S.inv))
            (horig ▸ hS.stamp_consolidate hc))
          (horig ▸ keysOk_readHashes _) ?_ ?_⟩
      · intro s τ hlog hs _
        rw [← horig]
        exact (hS.settled_consolidate hc hlog hs).2.1
      · intro s τ hlog hs _
        rw [← horig]
        exact (hS.settled_consolidate hc hlog hs).2.2.imp_right
          fun hlt => lt_of_lt_of_le hlt (hg.absent s)
    · rw [if_neg hvalid]
      exact hS.afterConsolidate hc _ p hh.reread
  | raisesBeforeWrite =>
    simp only [consolidateStep]
    exact hS.setHasher (hh.reread (grows_setHasher hS p _))
  | raisesAfterWrite =>
    simp only [consolidateStep, hc]
    exact hS.afterConsolidate hc S.inv p hh.reread

/-- The unlocked `read_hashes` after an invalid read. -/
theorem Inv.reread {S : State} (hS : Inv clock stamp₀ S) {p : Nat} {h : Hasher}
    (hp : S.hasher? p = some h) (hst : h.stage = .reread) :
    Inv clock stamp₀ (tick (rereadStep S p h)) := by
  have hh := hS.hashers h (S.mem_hashers_of_hasher? hp)
  have hdl : h.doListdir = true := by
    have := hS.stageInv hp
    rwa [hst] at this
  apply hS.setHasher
  refine ⟨Nat.le_succ_of_le hh.started_le, hh.recalculate, ?_⟩
  show StageInv clock stamp₀ _ _ (h.afterRead (readHashes S.pkl) [(validKey, .bool true)])
  rw [Hasher.afterRead, if_pos hdl]
  refine ⟨readOf_tick hS rfl hh.started_le rfl rfl (.inl rfl) hS.stamp, ?_, ?_⟩
  · intro k hk
    rw [List.map_singleton, List.mem_singleton] at hk
    rw [hk]
    decide
  · -- `{'valid': True}` holds no suffix
    intro s τ _ hs _ c n hget
    rw [get_cons, if_neg (validSuffix_ne_validKey hs).symm] at hget
    cases hget

/-- `os.listdir`: every suffix directory that exists becomes a key. -/
theorem Inv.listdir {S : State} (hS : Inv clock stamp₀ S) {p : Nat} {h : Hasher}
    {orig hashes : Dict} (hp : S.hasher? p = some h) (hst : h.stage = .listing orig hashes) :
    Inv clock stamp₀ (tick (listdirStep S p h orig hashes)) := by
  have hh := hS.hashers h (S.mem_hashers_of_hasher? hp)
  obtain ⟨hr, hk, hf⟩ : ReadOf clock stamp₀ S h orig ∧ KeysOk hashes ∧ Fresh S h.readAt hashes := by
    have := hS.stageInv hp
    rwa [hst] at this
  have hg := grows_setHasher hS p
  simp only [listdirStep]
  apply hS.setHasher
  refine hh.hashing (hg _) hr ?_ ?_ ?_ h.hashed _ true
  · refine keysOk_forceRecalculate hh.recalculate (keysOk_foldl
      (fun _ _ hd hk => keysOk_setdefault hd (validHashesKey_of_validSuffix hk) _) ?_ hk)
    intro s hs
    exact hS.dirs s (List.mem_filter.mp hs).1
  · exact ((hf.mono (hg _) hr.read_lt.le).of_noNewDigest
      (noNewDigest_foldl_setdefault _ _)).of_noNewDigest (noNewDigest_forceRecalculate _ _)
  · -- a suffix with a directory is listed; one without is missing at this step
    intro s τ hlog hs hτ
    by_cases hd : S.dirs.contains s = true
    · left
      apply mem_keys_forceRecalculate
      rw [mem_keys_iff, get_foldl_setdefault, if_pos]
      · rfl
      · have hlen : s.length = 3 := by
          simpa [validSuffix] using (Bool.and_eq_true _ _).mp hs |>.1
        exact List.mem_filter.mpr ⟨List.contains_iff_mem.mp hd, by simp [hlen]⟩
    · right
      have := hr.read_lt
      simp only [tick_lastAbsent, State.setHasher_dirs, State.setHasher_now,
        State.setHasher_lastAbsent, hd, Bool.false_eq_true, if_false]
      omega

/-- One turn of the loop. A digest is computed at this step, after the read; `PathNotDir` drops
the key of a suffix whose directory is missing after this step. -/
theorem Inv.visit {S T : State} (hS : Inv clock stamp₀ S) {p : Nat} {h : Hasher}
    {orig hashes : Dict} {k : List Char} {todo : List (List Char)} {modified : Bool}
    {outcome : HashOutcome} (hp : S.hasher? p = some h)
    (hst : h.stage = .hashing orig hashes (k :: todo) modified)
    (hT : visitStep S p h orig hashes k todo modified outcome = some T) :
    Inv clock stamp₀ (tick T) := by
  have hh := hS.hashers h (S.mem_hashers_of_hasher? hp)
  obtain ⟨hr, hk, hf, hpr⟩ : ReadOf clock stamp₀ S h orig ∧ KeysOk hashes ∧
      Fresh S h.readAt hashes ∧ Present S h.readAt hashes := by
    have := hS.stageInv hp
    rwa [hst] at this
  have hg := grows_setHasher hS p
  -- the loop goes on with `hashes'`, and nothing else changes
  have hnext : ∀ hashes' hashed' modified', KeysOk hashes' → Fresh S h.readAt hashes' →
      Present S h.readAt hashes' → Inv clock stamp₀ (tick (S.setHasher p
        { h with hashed := hashed', stage := .hashing orig hashes' todo modified' })) :=
    fun _ _ _ hk' hf' hp' => hS.setHasher (hh.hashing (hg _) hr hk' (hf'.mono (hg _) hr.read_lt.le)
      (hp'.mono (hg _) hr.read_lt.le) _ _ _)
  cases hv : get hashes k with
  | none =>
    simp only [visitStep, hv, Option.some.injEq] at hT
    subst hT
    exact hnext hashes h.hashed modified hk hf hpr
  | some v =>
    by_cases hskip : k = validKey ∨ k = updatedKey ∨ v.falsy = false
    · -- `valid`, `updated` and suffixes that hold a hash are passed over
      simp only [visitStep, hv, if_pos hskip, Option.some.injEq] at hT
      subst hT
      exact hnext hashes h.hashed modified hk hf hpr
    · simp only [visitStep, hv, if_neg hskip] at hT
      cases outcome with
      | digest d =>
        by_cases hd : S.dirs.contains k = true
        · simp only [hd, if_true, Option.some.injEq] at hT
          subst hT
          refine hnext _ _ _ (keysOk_set hk (hk k (mem_keys_iff.mpr (by rw [hv]; rfl))) _) ?_
            (hpr.of_keys fun _ hs => mem_keys_set.mpr (.inr hs))
          -- the new digest is computed at this step, after the read
          intro s τ hlog hs hτ c n hget
          by_cases hsk : s = k
          · rw [hsk, get_set_self] at hget
            cases hget
            exact lt_trans hτ hr.read_lt
          · rw [get_set_of_ne _ hsk] at hget
            exact hf s τ hlog hs hτ c n hget
        · dsimp only at hT
          rw [if_neg hd] at hT
          cases hT
      | notDir =>
        simp only [Option.some.injEq] at hT
        subst hT
        refine hS.tick_of rfl rfl (.inl rfl) (fun _ _ h => .inl h) hS.stamp
          (fun s hs => hS.dirs s (List.mem_of_mem_filter hs)) hS.settled fun hg' =>
            hashers_set hg' hS.hashers (hh.hashing hg' hr (keysOk_erase hk k)
              ((hf.mono hg' hr.read_lt.le).of_noNewDigest (noNewDigest_erase _ _)) ?_ _ _ _)
        intro s τ hlog hs hτ
        by_cases hsk : s = k
        · -- the directory of `k` is missing after this step
          right
          have := hr.read_lt
          rw [hsk]
          simp only [tick_lastAbsent, State.setHasher_dirs, State.setHasher_now]
          simp
          omega
        · rcases hpr s τ hlog hs hτ with hm | hlt
          · exact .inl (mem_keys_erase.mpr ⟨hsk, hm⟩)
          · exact .inr (lt_of_lt_of_le hlt (hg'.absent s))
      | osError =>
        by_cases hd : S.dirs.contains k = true
        · simp only [hd, if_true, Option.some.injEq] at hT
          subst hT
          exact hnext hashes h.hashed true hk hf hpr
        · dsimp only at hT
          rw [if_neg hd] at hT
          cases hT

/-- The locked write at the end of `__get_hashes`. `hashes.pkl` reads as the call read it, so
it is the version the call read, and every invalidation settled in that version was logged
before the read: the call's hashes settle it too. -/
theorem Inv.commit (hclock : Function.Injective clock)
    (hstamp₀ : ∀ n, stamp₀ ≠ some (.num (clock n))) {S : State} (hS : Inv clock stamp₀ S)
    {p : Nat} {h : Hasher} {orig hashes : Dict} (hh : HasherInv clock stamp₀ S h)
    (hr : ReadOf clock stamp₀ S h orig) (hk : KeysOk hashes) (hf : Fresh S h.readAt hashes)
    (hpr : Present S h.readAt hashes) (heq : pyEq Value.plain (readHashes S.pkl) orig = true) :
    Inv clock stamp₀ (tick ({ S with
      pkl := some (writeHashes (clock S.now) hashes)
      lastWrite := some S.now }.setHasher p
        { h with stage := .done h.hashed (writeHashes (clock S.now) hashes) })) := by
  have hver : S.lastWrite = h.readVersion := hS.lastWrite_eq_of_pyEq hclock hstamp₀ hr heq
  refine hS.tick_of rfl rfl (.inr rfl) (fun _ _ h => .inl h) ?_ hS.dirs ?_ fun hg =>
    hashers_set hg hS.hashers (hh.done hg hr ((hf.writeHashes _).mono hg hr.read_lt.le)
      ((hpr.writeHashes _).mono hg hr.read_lt.le) _)
  · dsimp only [State.setHasher_pkl, State.setHasher_lastWrite]
    rw [readHashes_writeHashes hk, get_writeHashes_updated]
    rfl
  · intro s τ hlog hs
    refine (hS.settled s τ hlog hs).imp_right fun hset => ?_
    obtain ⟨w, hw, hτw⟩ := hset.1
    have hτ : τ < h.readAt := lt_of_lt_of_le hτw (hr.version_le w (hver ▸ hw))
    exact settled_writeHashes hk hs (hS.log_lt s τ hlog) (hf s τ hlog hs hτ) (hpr s τ hlog hs hτ)

/-- The end of the loop: the call returns what it holds, writes it back, or starts over. -/
theorem Inv.finish (hclock : Function.Injective clock)
    (hstamp₀ : ∀ n, stamp₀ ≠ some (.num (clock n))) {S : State} (hS : Inv clock stamp₀ S)
    {p : Nat} {h : Hasher} {orig hashes : Dict} {modified : Bool} (hp : S.hasher? p = some h)
    (hst : h.stage = .hashing orig hashes [] modified) :
    Inv clock stamp₀ (tick (finishStep clock S p h orig hashes modified)) := by
  have hh := hS.hashers h (S.mem_hashers_of_hasher? hp)
  obtain ⟨hr, hk, hf, hpr⟩ : ReadOf clock stamp₀ S h orig ∧ KeysOk hashes ∧
      Fresh S h.readAt hashes ∧ Present S h.readAt hashes := by
    have := hS.stageInv hp
    rwa [hst] at this
  have hg := grows_setHasher hS p
  rw [finishStep]
  split
  · split
    · rename_i heq
      exact hS.commit hclock hstamp₀ hh hr hk hf hpr heq
    · exact hS.setHasher ⟨Nat.le_succ_of_le hh.started_le, hh.recalculate, trivial⟩
  · exact hS.setHasher (hh.done (hg _) hr (hf.mono (hg _) hr.read_lt.le)
      (hpr.mono (hg _) hr.read_lt.le) h.hashed)

/-! ### Every step -/

/-- What the theorem assumes of the environment's events: a directory made and a suffix to
recalculate have valid suffix names. -/
def Event.NamesValid : Event → Prop
  | .mkdir name => validSuffix name = true
  | .call recalculate _ => ∀ s ∈ recalculate, validSuffix s = true
  | _ => True

/-- Every event keeps the invariant. -/
theorem Inv.step (hclock : Function.Injective clock)
    (hstamp₀ : ∀ n, stamp₀ ≠ some (.num (clock n))) {S S' : State} {e : Event}
    (hS : Inv clock stamp₀ S) (he : e.NamesValid) (h : step clock S e = some S') :
    Inv clock stamp₀ S' := by
  obtain ⟨T, hT, rfl⟩ := Option.map_eq_some_iff.mp h
  cases e with
  | invalidate name =>
    cases hT
    exact hS.invalidate name
  | mkdir name =>
    cases hT
    exact hS.mkdir he
  | rmdir name =>
    cases hT
    exact hS.rmdir name
  | call recalculate doListdir =>
    cases hT
    exact hS.call he doListdir
  | consolidate p outcome =>
    obtain ⟨h, hp, hT⟩ := Option.bind_eq_some_iff.mp hT
    cases hst : h.stage <;> simp only [hst, reduceCtorEq, Option.some.injEq] at hT
    subst hT
    exact hS.consolidate hp outcome
  | reread p =>
    obtain ⟨h, hp, hT⟩ := Option.bind_eq_some_iff.mp hT
    cases hst : h.stage <;> simp only [hst, reduceCtorEq, Option.some.injEq] at hT
    subst hT
    exact hS.reread hp hst
  | listdir p =>
    obtain ⟨h, hp, hT⟩ := Option.bind_eq_some_iff.mp hT
    cases hst : h.stage <;> simp only [hst, reduceCtorEq, Option.some.injEq] at hT
    subst hT
    exact hS.listdir hp hst
  | visit p outcome =>
    obtain ⟨h, hp, hT⟩ := Option.bind_eq_some_iff.mp hT
    cases hst : h.stage with
    | hashing orig hashes todo modified =>
      cases todo with
      | nil => simp [hst] at hT
      | cons k todo =>
        simp only [hst] at hT
        exact hS.visit hp hst hT
    | start | reread | listing | done => simp [hst] at hT
  | finish p =>
    obtain ⟨h, hp, hT⟩ := Option.bind_eq_some_iff.mp hT
    cases hst : h.stage with
    | hashing orig hashes todo modified =>
      cases todo with
      | nil =>
        simp only [hst, Option.some.injEq] at hT
        subst hT
        exact hS.finish hclock hstamp₀ hp hst
      | cons k todo => simp [hst] at hT
    | start | reread | listing | done => simp [hst] at hT

end Invariant

/-! ### Safety -/

/-- **No call of `__get_hashes` returns a hash older than an invalidation before it.** In every
run from any `hashes.pkl` and `hashes.invalid`, with a clock that never repeats and valid names:
when a call that began after `invalidate_hash` of suffix `s` returned, every digest of `s` it
returned was computed after the invalidation, and if it returned no entry for `s`, the directory
of `s` was missing at some step after the invalidation. -/
theorem getHashes_fresh (clock : Nat → ℚ) (hclock : Function.Injective clock)
    (pkl₀ : Option Dict) (inv₀ dirs₀ : List (List Char))
    (hstamp₀ : ∀ n, (get (readHashes pkl₀) updatedKey).map Value.plain ≠ some (.num (clock n)))
    (hdirs₀ : ∀ s ∈ dirs₀, validSuffix s = true) (events : List Event)
    (hevents : ∀ e ∈ events, e.NamesValid) (S : State)
    (hrun : run clock (State.initial pkl₀ inv₀ dirs₀) events = some S) (h : Hasher)
    (hh : h ∈ S.hashers) (hashed : Nat) (result : Dict) (hdone : h.stage = .done hashed result)
    (s : List Char) (τ : Nat) (hlog : (s, τ) ∈ S.log) (hs : validSuffix s = true)
    (hτ : τ < h.startedAt) :
    (∀ c n, get result s = some (.str c n) → τ < n) ∧
      (s ∉ result.map Prod.fst → τ < S.lastAbsent s) := by
  have hS : Inv clock ((get (readHashes pkl₀) updatedKey).map Value.plain) S :=
    Run.invariant_of_forall (fun _ _ _ he hS h => hS.step hclock hstamp₀ he h) hevents
      (Inv.initial pkl₀ inv₀ dirs₀ hdirs₀) hrun
  obtain ⟨hsr, -, hf, hp⟩ : h.startedAt ≤ h.readAt ∧ h.readAt < S.now ∧
      Fresh S h.readAt result ∧ Present S h.readAt result := by
    have := (hS.hashers h hh).stage
    rwa [hdone] at this
  -- the invalidation came before the call's last read of `hashes.pkl`
  have hτr : τ < h.readAt := lt_of_lt_of_le hτ hsr
  exact ⟨hf s τ hlog hs hτr, fun hmem => (hp s τ hlog hs hτr).resolve_left hmem⟩


theorem getHashes_fresh_rebuilt :
    (∀ c n, get [(validKey, Value.bool true), (updatedKey, .num ((6 : ℕ) : ℚ))] "abc".toList =
        some (.str c n) → 0 < n) ∧
      ("abc".toList ∉ ([(validKey, .bool true), (updatedKey, .num ((6 : ℕ) : ℚ))] : Dict).map
        Prod.fst → 0 < 7) :=
  -- `abc` is invalidated, and a call rebuilds `hashes.pkl` from a missing file; `abc` has no
  -- directory, so the call returns no entry for it
  getHashes_fresh (fun n => (n : ℚ)) Nat.cast_injective none [] []
    (fun n h => by
      rw [readHashes_none] at h
      change some (Plain.num (-1)) = some (Plain.num (n : ℚ)) at h
      rw [Option.some.injEq, Plain.num.injEq] at h
      have : (0 : ℚ) ≤ n := Nat.cast_nonneg n
      linarith)
    (fun _ h => by cases h)
    [.invalidate "abc".toList, .call [] false, .consolidate 0 .returns, .reread 0, .listdir 0,
      .visit 0 .osError, .finish 0]
    (by simp [Event.NamesValid])
    ⟨some [(validKey, .bool true), (updatedKey, .num ((6 : ℕ) : ℚ))], [], [],
      [⟨[], true, 0, .done 0 [(validKey, .bool true), (updatedKey, .num ((6 : ℕ) : ℚ))], 1, 3,
        some 2⟩], 7, [("abc".toList, 0)], some 6, fun _ => 7⟩
    rfl _ (List.mem_singleton_self _) 0 _ rfl "abc".toList 0 (List.mem_singleton_self _)
    (by decide) (by decide)

/-- The clock assumption cannot be dropped. With `time.time()` giving one value at every write,
the version of `hashes.pkl` that `consolidate_hashes` writes for a second invalidation of `abc`
compares equal to the one the first call read before it, so that call writes back its digest of
`abc` from before the invalidation, and a call made after the invalidation returns it. -/
theorem clock_repeats_stale :
    ∃ S, run (fun _ => 0) (State.initial none [] ["abc".toList])
      [.invalidate "abc".toList, .call [] false, .consolidate 0 .returns, .reread 0, .listdir 0,
        .visit 0 .osError, .visit 0 (.digest "old".toList), .invalidate "abc".toList,
        .call [] false, .consolidate 1 .returns, .finish 0, .call [] false,
        .consolidate 2 .returns, .visit 2 .osError, .visit 2 .osError, .visit 2 .osError,
        .finish 2] = some S ∧
      ∃ h ∈ S.hashers, ∃ hashed result, h.stage = .done hashed result ∧
        ∃ τ, ("abc".toList, τ) ∈ S.log ∧ τ < h.startedAt ∧
          ∃ c n, get result "abc".toList = some (.str c n) ∧ n ≤ τ := by
  -- the third call began at step 11 and returns the digest computed at step 6, while `abc` was
  -- invalidated at step 7
  have hrun : ((run (fun _ => 0) (State.initial none [] ["abc".toList])
      [.invalidate "abc".toList, .call [] false, .consolidate 0 .returns, .reread 0, .listdir 0,
        .visit 0 .osError, .visit 0 (.digest "old".toList), .invalidate "abc".toList,
        .call [] false, .consolidate 1 .returns, .finish 0, .call [] false,
        .consolidate 2 .returns, .visit 2 .osError, .visit 2 .osError, .visit 2 .osError,
        .finish 2]).bind fun S => (S.hasher? 2).map fun h => (h.startedAt, h.stage, S.log)) =
      some (11, .done 0 [(validKey, .bool true), ("abc".toList, .str "old".toList 6),
        (updatedKey, .num 0)], [("abc".toList, 0), ("abc".toList, 7)]) := rfl
  obtain ⟨S, hS, hx⟩ := Option.bind_eq_some_iff.mp hrun
  obtain ⟨h, hh, he⟩ := Option.map_eq_some_iff.mp hx
  simp only [Prod.mk.injEq] at he
  obtain ⟨hstart, hstage, hlog⟩ := he
  refine ⟨S, hS, h, S.mem_hashers_of_hasher? hh, 0, _, hstage, 7, ?_, by omega, "old".toList, 6,
    rfl, by omega⟩
  rw [hlog]
  simp

end Hashes

end Swift
