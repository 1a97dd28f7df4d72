import Swift.Obj.Diskfile
import Swift.Data.ExceptMapM

/-!
# Suffix hashes

`BaseDiskFileManager._hash_suffix_dir`: replication compares, suffix directory by suffix
directory, md5 hashes of what the hash directories in it hold. Each hash directory is cleaned up
first (`cleanup_ondisk_files`), and one that still holds files feeds the hashers with the
timestamps and extensions of the files that define the object's state: the `.meta` and `.ts`
choices, the policy's data updates (`_update_suffix_hashes`) and the content-type timestamp. For
EC policies there is one hasher per fragment index, fed the timestamps of every frag set, and
the `None` hasher is fed `<t>.durable` for the durable set, however its durability is marked.

A hasher is modelled by the strings it was fed: two hashers fed the same strings give the same
digest, and a key never fed is not in the `defaultdict`. When every hash directory was emptied,
removing the suffix directory succeeds and `PathNotDir` is raised.

## Main results

* `hashDirs_of_emptied`, `hashSuffixDir_of_emptied` — a directory that cleanup empties feeds
  nothing, and a suffix directory all of whose hash directories are emptied is gone
* `hashSuffixDir_eq_pathNotDir_iff` — and only such a suffix directory: once one hash directory
  is kept, the suffix directory stays (`hashDirs_kept`)

The hashes do not depend on the chosen files alone: the frag sets are taken before cleanup
reclaims some of them, so whether a reclaimed fragment is hashed depends on whether something
else keeps its directory alive.
-/

namespace Swift

namespace Diskfile

/-- The hashers of `_hash_suffix_dir`, by key (`None` or a fragment index): the strings each was
fed, in order. -/
abbrev Hashes := Option Nat → List (List Char)

/-- `hashes[key].update(s)`. -/
def Hashes.update (hashes : Hashes) (key : Option Nat) (s : List Char) : Hashes :=
  Function.update hashes key (hashes key ++ [s])

/-- How `_hash_suffix_dir` can raise. -/
inductive HashError where
  /-- the suffix directory is gone -/
  | pathNotDir
  /-- `cleanup_ondisk_files` raised -/
  | ondisk (e : OndiskError)
  /-- `ondisk_info['durable_frag_set'][0]` of a `durable_frag_set` recorded as `None` -/
  | typeError
  deriving DecidableEq, Repr

/-- `'_ctype'`. -/
def ctypeSuffix : List Char := ['_', 'c', 't', 'y', 'p', 'e']

/-- `hashes[None].update(info['timestamp'].internal + info['ext'])`. -/
def Hashes.updateInfo (hashes : Hashes) : Option FileInfo → Hashes
  | some info => hashes.update none (info.timestamp.internal ++ info.ext)
  | none => hashes

/-- `DiskFileManager._update_suffix_hashes`: the data file's timestamp and extension. -/
def replicatedUpdateSuffixHashes (hashes : Hashes) (ondiskInfo : Results) : Hashes :=
  hashes.updateInfo ondiskInfo.dataInfo

/-- `ECDiskFileManager._update_suffix_hashes`: every fragment's timestamp into its index's
hasher, and `<t>.durable` for the durable set; `none` where it raises. -/
def ecUpdateSuffixHashes (hashes : Hashes) (ondiskInfo : Results) : Option Hashes :=
  let hashes := ondiskInfo.fragSets.foldl (fun hashes entry =>
    entry.2.foldl (fun hashes (fileInfo : FileInfo) =>
      hashes.update fileInfo.fragIndex fileInfo.timestamp.internal) hashes) hashes
  match ondiskInfo.durableFragSet with
  | none => some hashes
  | some (some (fileInfo :: _)) =>
    some (hashes.update none (fileInfo.timestamp.internal ++ durableExt))
  -- a `durable_frag_set` of `None` needs `frag_prefs`, which `_hash_suffix_dir` never passes
  | some _ => none

/-- `_update_suffix_hashes` of the manager. -/
def Manager.updateSuffixHashes (manager : Manager) (hashes : Hashes) (ondiskInfo : Results) :
    Option Hashes :=
  match manager with
  | .replicated => some (replicatedUpdateSuffixHashes hashes ondiskInfo)
  | .ec _ => ecUpdateSuffixHashes hashes ondiskInfo

/-- What one hash directory that keeps files feeds the hashers: `meta_info` and `ts_info`, the
policy's updates, and `ctype_info`'s content-type timestamp. -/
def hashDirUpdates (manager : Manager) (hashes : Hashes) (ondiskInfo : Results) :
    Option Hashes :=
  let hashes := (hashes.updateInfo ondiskInfo.metaInfo).updateInfo ondiskInfo.tsInfo
  (manager.updateSuffixHashes hashes ondiskInfo).map fun hashes =>
    -- `ctype_info` is only reported with a content-type timestamp
    match ondiskInfo.ctypeInfo.bind FileInfo.ctypeTimestamp with
    | some ctypeTimestamp => hashes.update none (ctypeTimestamp.internal ++ ctypeSuffix)
    | none => hashes

/-- One turn of the loop of `_hash_suffix_dir`: the hash directory is cleaned up, and if it
keeps files it feeds the hashers. The flag says whether some hash directory is left. -/
def hashDirStep (reclaim : Reclaim) (manager : Manager) (state : Hashes × Bool)
    (listing : List (List Char)) : Except HashError (Hashes × Bool) :=
  match cleanupOndiskFiles reclaim manager none none listing with
  | .error e => .error (.ondisk e)
  | .ok cleanup =>
    if cleanup.files = [] then .ok state
    else
      match hashDirUpdates manager state.1 cleanup.results with
      | some hashes => .ok (hashes, true)
      | none => .error .typeError

/-- The loop of `_hash_suffix_dir` over the hash directories' listings, in name order. -/
def hashDirs (reclaim : Reclaim) (manager : Manager) :
    Hashes × Bool → List (List (List Char)) → Except HashError (Hashes × Bool)
  | state, [] => .ok state
  | state, listing :: rest =>
    hashDirStep reclaim manager state listing >>= fun state => hashDirs reclaim manager state rest

/-- `_hash_suffix_dir(path, policy)` on the suffix directory's hash directories, each a name and
the names of its files. -/
def hashSuffixDir (reclaim : Reclaim) (manager : Manager)
    (suffixDir : List (List Char × List (List Char))) : Except HashError Hashes :=
  match hashDirs reclaim manager (fun _ => [], false) ((sortAsc Prod.fst suffixDir).map Prod.snd) with
  | .error e => .error e
  | .ok (hashes, kept) => if kept then .ok hashes else .error .pathNotDir

/-! ### The loop, one hash directory at a time -/

/-- Directories that cleanup empties feed nothing and leave no directory behind. -/
theorem hashDirs_of_emptied {reclaim : Reclaim} {manager : Manager}
    {listings : List (List (List Char))}
    (hemptied : ∀ listing ∈ listings, ∃ cleanup,
      cleanupOndiskFiles reclaim manager none none listing = .ok cleanup ∧ cleanup.files = [])
    (state : Hashes × Bool) : hashDirs reclaim manager state listings = .ok state := by
  induction listings with
  | nil => rfl
  | cons listing rest ih =>
    obtain ⟨cleanup, hcleanup, hfiles⟩ := hemptied listing List.mem_cons_self
    have hstep : hashDirStep reclaim manager state listing = .ok state := by
      rw [hashDirStep, hcleanup]
      simp only [hfiles, if_true]
    rw [hashDirs, hstep]
    exact ih fun listing hmem => hemptied listing (List.mem_cons_of_mem _ hmem)

/-- A suffix directory all of whose hash directories cleanup empties is removed, and
`PathNotDir` raised. -/
theorem hashSuffixDir_of_emptied {reclaim : Reclaim} {manager : Manager}
    {suffixDir : List (List Char × List (List Char))}
    (hemptied : ∀ hashDir ∈ suffixDir, ∃ cleanup,
      cleanupOndiskFiles reclaim manager none none hashDir.2 = .ok cleanup ∧ cleanup.files = []) :
    hashSuffixDir reclaim manager suffixDir = .error .pathNotDir := by
  have hsorted : ∀ listing ∈ (sortAsc Prod.fst suffixDir).map Prod.snd, ∃ cleanup,
      cleanupOndiskFiles reclaim manager none none listing = .ok cleanup ∧ cleanup.files = [] := by
    intro listing hmem
    obtain ⟨hashDir, hdir, rfl⟩ := List.mem_map.mp hmem
    exact hemptied hashDir ((List.perm_insertionSort _ _).mem_iff.mp hdir)
  rw [hashSuffixDir, hashDirs_of_emptied hsorted]
  rfl

/-- One turn of the loop either finds the hash directory emptied and leaves the state alone, or
marks a hash directory as kept. -/
theorem hashDirStep_eq_ok {reclaim : Reclaim} {manager : Manager} {state st : Hashes × Bool}
    {listing : List (List Char)} (h : hashDirStep reclaim manager state listing = .ok st) :
    (∃ cleanup, cleanupOndiskFiles reclaim manager none none listing = .ok cleanup ∧
      cleanup.files = [] ∧ st = state) ∨ st.2 = true := by
  unfold hashDirStep at h
  split at h
  · cases h
  next cleanup hcleanup =>
    split at h
    next hfiles => exact .inl ⟨cleanup, hcleanup, hfiles, (Except.ok.inj h).symm⟩
    next =>
      split at h
      · cases h
        exact .inr rfl
      · cases h

/-- The loop raises only what one turn raises: `cleanup_ondisk_files`' errors and the
`TypeError`, never `PathNotDir`. -/
theorem hashDirs_ne_pathNotDir {reclaim : Reclaim} {manager : Manager}
    (listings : List (List (List Char))) (state : Hashes × Bool) :
    hashDirs reclaim manager state listings ≠ .error .pathNotDir := by
  induction listings generalizing state with
  | nil => exact fun h => by cases h
  | cons listing rest ih =>
    rw [hashDirs]
    unfold hashDirStep
    split
    · exact fun h => by cases h
    · split
      · exact ih state
      · split
        · exact ih _
        · exact fun h => by cases h

/-- Once a hash directory is kept, the suffix directory stays. -/
theorem hashDirs_kept {reclaim : Reclaim} {manager : Manager}
    {listings : List (List (List Char))} {state st : Hashes × Bool} (hkept : state.2 = true)
    (h : hashDirs reclaim manager state listings = .ok st) : st.2 = true := by
  induction listings generalizing state with
  | nil =>
    cases h
    exact hkept
  | cons listing rest ih =>
    rw [hashDirs] at h
    obtain ⟨st', hstep, hrest⟩ := MapM.bind_eq_ok.mp h
    -- an emptied directory leaves the flag as it was
    refine ih ?_ hrest
    rcases hashDirStep_eq_ok hstep with ⟨-, -, -, rfl⟩ | hst'
    · exact hkept
    · exact hst'

/-- A run of the loop that ends with no hash directory kept emptied every one of them. -/
theorem hashDirs_emptied_of_not_kept {reclaim : Reclaim} {manager : Manager}
    {listings : List (List (List Char))} {state st : Hashes × Bool}
    (h : hashDirs reclaim manager state listings = .ok st) (hst : st.2 = false) :
    ∀ listing ∈ listings, ∃ cleanup,
      cleanupOndiskFiles reclaim manager none none listing = .ok cleanup ∧ cleanup.files = [] := by
  induction listings generalizing state with
  | nil => simp
  | cons listing rest ih =>
    rw [hashDirs] at h
    obtain ⟨st', hstep, hrest⟩ := MapM.bind_eq_ok.mp h
    intro l hl
    rcases hashDirStep_eq_ok hstep with ⟨cleanup, hcleanup, hfiles, -⟩ | hst'
    · rcases List.mem_cons.mp hl with rfl | hl
      · exact ⟨cleanup, hcleanup, hfiles⟩
      · exact ih hrest l hl
    · -- a kept directory would have kept the suffix directory
      have := hashDirs_kept hst' hrest
      simp [hst] at this

/-- `_hash_suffix_dir` raises `PathNotDir` exactly when cleanup empties every hash directory of
the suffix directory: then the suffix directory is removed. -/
theorem hashSuffixDir_eq_pathNotDir_iff {reclaim : Reclaim} {manager : Manager}
    {suffixDir : List (List Char × List (List Char))} :
    hashSuffixDir reclaim manager suffixDir = .error .pathNotDir ↔
      ∀ hashDir ∈ suffixDir, ∃ cleanup,
        cleanupOndiskFiles reclaim manager none none hashDir.2 = .ok cleanup ∧
          cleanup.files = [] := by
  refine ⟨fun h hashDir hdir => ?_, hashSuffixDir_of_emptied⟩
  have hsorted : hashDir.2 ∈ (sortAsc Prod.fst suffixDir).map Prod.snd :=
    List.mem_map_of_mem ((List.perm_insertionSort _ _).mem_iff.mpr hdir)
  unfold hashSuffixDir at h
  split at h
  next e hrun =>
    cases h
    exact absurd hrun (hashDirs_ne_pathNotDir _ _)
  next hashes kept hrun =>
    cases kept
    · exact hashDirs_emptied_of_not_kept hrun rfl _ hsorted
    · cases h

/-! ### A reclaimed fragment is hashed or not

A non-durable fragment past the reclaim age is reclaimed by cleanup. Alone in its hash
directory, that directory is emptied and the suffix directory goes. With a newer `.meta` file
beside it, which selects nothing without a data file, the directory stays, and the hash of
fragment index `0` is fed the reclaimed fragment's timestamp, taken from the frag sets found
before cleanup. Both listings select the same: no data file, the same frag sets, no durable set,
no `.meta`, tombstone or content-type file. -/

theorem hashSuffixDir_hashes_reclaimed_fragment :
    (∃ results results',
      getOndiskFiles (.ec none) none none true ["0000000001.00000#0.data".toList] = .ok results ∧
      getOndiskFiles (.ec none) none none true
          ["0000000001.00000#0.data".toList, "0000000005.00000.meta".toList] = .ok results' ∧
      results.dataInfo = results'.dataInfo ∧ results.fragSets = results'.fragSets ∧
      results.durableFragSet = results'.durableFragSet ∧ results.metaInfo = results'.metaInfo ∧
      results.tsInfo = results'.tsInfo ∧ results.ctypeInfo = results'.ctypeInfo) ∧
    hashSuffixDir ⟨400000, 2, 0, fun _ => true⟩ (.ec none)
        [("d41d8cd98f00b204e9800998ecf8427e".toList, ["0000000001.00000#0.data".toList])] =
      .error .pathNotDir ∧
    ∃ hashes, hashSuffixDir ⟨400000, 2, 0, fun _ => true⟩ (.ec none)
        [("d41d8cd98f00b204e9800998ecf8427e".toList,
          ["0000000001.00000#0.data".toList, "0000000005.00000.meta".toList])] = .ok hashes ∧
      hashes (some 0) = ["0000000001.00000".toList] := by
  refine ⟨⟨_, _, rfl, rfl, rfl, rfl, rfl, rfl, rfl, rfl⟩, rfl, ?_⟩
  -- the hashers are functions, so the kept directory's run is compared at the key it feeds
  have hfed : ((hashSuffixDir ⟨400000, 2, 0, fun _ => true⟩ (.ec none)
      [("d41d8cd98f00b204e9800998ecf8427e".toList,
        ["0000000001.00000#0.data".toList, "0000000005.00000.meta".toList])]).toOption.map
      fun hashes => hashes (some 0)) = some ["0000000001.00000".toList] := by decide
  revert hfed
  cases hashSuffixDir ⟨400000, 2, 0, fun _ => true⟩ (.ec none)
      [("d41d8cd98f00b204e9800998ecf8427e".toList,
        ["0000000001.00000#0.data".toList, "0000000005.00000.meta".toList])] with
  | error e => intro hfed; cases hfed
  | ok hashes => intro hfed; exact ⟨hashes, rfl, Option.some.inj hfed⟩

end Diskfile

end Swift
