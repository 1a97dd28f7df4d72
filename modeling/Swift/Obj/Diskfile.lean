import Mathlib.Data.Char
import Mathlib.Data.List.Lex
import Mathlib.Data.List.Sort
import Swift.Common.EncodeTimestamps
import Swift.Data.PySet

/-!
# Choosing an object's files

`swift.obj.diskfile`: an object's hash directory holds files named by a timestamp and an
extension. There are `.data` files (for EC policies `<t>#<frag_index>[#d].data`, the `#d` marking
the fragment durable), `.ts` tombstones, `.meta` files whose name may carry a content-type
timestamp, legacy `.durable` markers of EC policies, and whatever else ended up there.
`BaseDiskFileManager.get_ondisk_files` reads the list of names and picks the files that define the
object's state: a data file and the `.meta` files on top of it, or a tombstone. It also lists the
files those make obsolete, and the ones that may be reclaimed once old enough.
`cleanup_ondisk_files` unlinks both kinds.

The selection is a pipeline over `exts`, the parsed files of each extension, newest first:

* a tombstone makes everything not newer than it obsolete, and older tombstones too;
* of the `.meta` files the newest is kept, and with it the one with the newest content-type
  timestamp when that is newer than the newest file's;
* the policy's `_process_ondisk_files` picks the data file. For a replicated policy that is the
  newest `.data`, and everything not newer is obsolete. For an EC policy the `.data` files are
  cut into frag sets by timestamp, newest first, down to the durable one. The durable set is
  taken, or the set `frag_prefs` asks for, and everything older than the durable timestamp is
  obsolete.

`Exts` keeps the extensions in the order they were first met, as the `defaultdict` does. A read
`exts['.meta']` of a missing key inserts an empty list into the `defaultdict`; the model reads it
as empty and inserts nothing, which no later step can tell apart.
-/

namespace Swift

namespace Diskfile

open Text

/-- The info dict of a parsed file name, with the `filename` that `get_ondisk_files` adds. -/
structure FileInfo where
  filename : List Char
  timestamp : Timestamp
  ext : List Char
  ctypeTimestamp : Option Timestamp
  /-- `frag_index`: a number for EC `.data` files. -/
  fragIndex : Option Nat
  /-- `durable`: only EC `.data` files have the key. -/
  durable : Option Bool
  deriving DecidableEq, Repr

/-- `'.data'`. -/
def dataExt : List Char := ['.', 'd', 'a', 't', 'a']

/-- `'.meta'`. -/
def metaExt : List Char := ['.', 'm', 'e', 't', 'a']

/-- `'.ts'`. -/
def tsExt : List Char := ['.', 't', 's']

/-- `'.durable'`. -/
def durableExt : List Char := ['.', 'd', 'u', 'r', 'a', 'b', 'l', 'e']

/-! ### Parsing file names -/

/-- `os.path.splitext(filename)` for a bare file name: the extension runs from the last `'.'`,
unless only dots come before it. -/
def splitext (filename : List Char) : List Char × List Char :=
  match filename.reverse.findIdx? (· = '.') with
  | none => (filename, [])
  | some j =>
    let dotIndex := filename.length - 1 - j
    if (filename.take dotIndex).any (· != '.') then (filename.take dotIndex, filename.drop dotIndex)
    else (filename, [])

/-- `BaseDiskFileManager.parse_on_disk_filename(filename, policy)`: a `.meta` name decodes its
timestamp and content-type timestamp, any other name is a timestamp; `none` where it raises
`DiskFileError`. -/
def parseOnDiskFilename (filename : List Char) : Option FileInfo :=
  let (fname, ext) := splitext filename
  if ext = metaExt then
    (decodeTimestamps fname true).map fun decoded =>
      ⟨filename, decoded.1, ext, decoded.2.1, none, none⟩
  else
    (Timestamp.ofString? fname 0 0).map fun timestamp => ⟨filename, timestamp, ext, none, none, none⟩

/-- `ECDiskFileManager.validate_fragment_index(frag_index, policy)`: `int(str(frag_index))`, not
negative and, given a policy, below its `ec_ndata + ec_nparity`. A missing index is `None`, which
`int` refuses. -/
def validateFragmentIndex (fragmentCount : Option Nat) : Option (List Char) → Option Nat
  | none => none
  | some s =>
    (ofSignedDigits? 10 s).bind fun i =>
      if i < 0 then none
      else
        match fragmentCount with
        | some n => if (n : Int) ≤ i then none else some i.toNat
        | none => some i.toNat

/-- `ECDiskFileManager.parse_on_disk_filename(filename, policy)`: a `.data` name is
`<timestamp>#<frag_index>[#d]`; other names parse as for every policy, with no fragment index. -/
def parseEcOnDiskFilename (fragmentCount : Option Nat) (filename : List Char) : Option FileInfo :=
  let (floatFrag, ext) := splitext filename
  if ext = dataExt then
    let parts := floatFrag.splitOn '#'
    (Timestamp.ofString? (parts.getD 0 []) 0 0).bind fun timestamp =>
      (validateFragmentIndex fragmentCount parts[1]?).map fun fragIndex =>
        ⟨filename, timestamp, ext, none, some fragIndex, some (parts[2]? = some ['d'])⟩
  else (parseOnDiskFilename filename).map fun info => { info with fragIndex := none }

/-! ### The files of each extension -/

/-- `exts`: the extensions met, in the order first met, each with its files. -/
abbrev Exts := List (List Char × List FileInfo)

/-- `exts.get(ext)`, a missing extension read as no files. -/
def Exts.get (exts : Exts) (ext : List Char) : List FileInfo := (exts.lookup ext).getD []

/-- `exts[ext] = files`. -/
def Exts.set (exts : Exts) (ext : List Char) (files : List FileInfo) : Exts :=
  if (exts.lookup ext).isSome then exts.map fun entry => if entry.1 = ext then (ext, files) else entry
  else exts ++ [(ext, files)]

/-- `exts.pop(ext)`. -/
def Exts.erase (exts : Exts) (ext : List Char) : Exts := exts.filter (·.1 != ext)

/-- `for ext in exts: exts[ext], older = split(ext, exts[ext])`, with the `older` parts of all
extensions in order, as the loops add them to `obsolete`. -/
def Exts.splitEach (exts : Exts) (split : List Char → List FileInfo → List FileInfo × List FileInfo) :
    Exts × List FileInfo :=
  (exts.map fun entry => (entry.1, (split entry.1 entry.2).1),
    exts.flatMap fun entry => (split entry.1 entry.2).2)

/-- `sorted(l, key=key, reverse=True)`: a stable sort, largest key first. Insertion sort puts an
element before the first one whose key is not larger, so equal keys keep their order. -/
def sortDesc {α β : Type} [LinearOrder β] (key : α → β) (l : List α) : List α :=
  l.insertionSort fun a b => key b ≤ key a

/-- `l.sort(key=key)`: a stable sort, smallest key first. -/
def sortAsc {α β : Type} [LinearOrder β] (key : α → β) (l : List α) : List α :=
  l.insertionSort fun a b => key a ≤ key b

/-- The loop of `get_ondisk_files` that files each name under its extension, then sorts each
extension's files newest first; the names that do not parse are `unexpected`. -/
def categorize (parse : List Char → Option FileInfo) (files : List (List Char)) :
    Exts × List (List Char) :=
  let grouped := files.foldl (fun (acc : Exts × List (List Char)) afile =>
    match parse afile with
    | some info => (acc.1.set info.ext (acc.1.get info.ext ++ [info]), acc.2)
    | none => (acc.1, acc.2 ++ [afile])) ([], [])
  (grouped.1.map fun entry => (entry.1, sortDesc FileInfo.timestamp entry.2), grouped.2)

/-- `_split_gt_timestamp(file_info_list, timestamp)`: the files newer than `timestamp` at the
front of the list, and the rest. -/
def splitGtTimestamp (fileInfoList : List FileInfo) (timestamp : Timestamp) :
    List FileInfo × List FileInfo :=
  fileInfoList.span fun x => decide (timestamp < x.timestamp)

/-- `_split_gte_timestamp(file_info_list, timestamp)`. -/
def splitGteTimestamp (fileInfoList : List FileInfo) (timestamp : Timestamp) :
    List FileInfo × List FileInfo :=
  fileInfoList.span fun x => decide (timestamp ≤ x.timestamp)

/-! ### The results -/

/-- The results dict of `get_ondisk_files`. The EC keys `durable_frag_set` and
`chosen_frag_set` are only set when a fragment was chosen, and then may hold `None`. -/
structure Results where
  dataInfo : Option FileInfo := none
  metaInfo : Option FileInfo := none
  ctypeInfo : Option FileInfo := none
  tsInfo : Option FileInfo := none
  obsolete : List FileInfo := []
  possibleReclaim : List FileInfo := []
  unexpected : List (List Char) := []
  durableFragSet : Option (Option (List FileInfo)) := none
  chosenFragSet : Option (Option (List FileInfo)) := none
  fragSets : List (Timestamp × List FileInfo) := []
  deriving DecidableEq, Repr

/-! ### The steps common to every policy -/

/-- Tombstones: everything not newer than the newest `.ts` is obsolete, and the older `.ts`
files. -/
def tombstoneStep (exts : Exts) : Exts × List FileInfo :=
  match exts.get tsExt with
  | [] => (exts, [])
  | newest :: older =>
    let split := exts.splitEach fun ext l =>
      if ext = tsExt then (l, []) else splitGtTimestamp l newest.timestamp
    (split.1.set tsExt [newest], split.2 ++ older)

/-- `info['ctype_timestamp'] or 0`. -/
def ctypeKey (info : FileInfo) : Timestamp := info.ctypeTimestamp.getD ⟨0, 0⟩

/-- The `.meta` files kept, newest first, and how many of them: the newest, and the one with the
newest content-type timestamp when that is newer than the newest file's. At the same timestamp
that one takes the newest's place. -/
def retainedMetas (newest : FileInfo) (rest : List FileInfo) : List FileInfo × Nat :=
  match sortDesc ctypeKey rest with
  | [] => ([newest], 1)
  | second :: others =>
    if ctypeKey newest < ctypeKey second then
      if second.timestamp = newest.timestamp then (second :: newest :: others, 1)
      else (newest :: second :: others, 2)
    else (newest :: second :: others, 1)

/-- `.meta` files: all but the retained ones are obsolete. -/
def metaStep (exts : Exts) : Exts × List FileInfo :=
  match exts.get metaExt with
  | [] => (exts, [])
  | newest :: rest =>
    let retained := retainedMetas newest rest
    (exts.set metaExt (retained.1.take retained.2), retained.1.drop retained.2)

/-! ### Replicated policies -/

/-- The newest `.data` file is the data file, and everything not newer than it, older `.data`
files included, is obsolete. -/
def chooseNewestData (exts : Exts) (results : Results) : Exts × Results :=
  match exts.get dataExt with
  | [] => (exts, results)
  | newest :: _ =>
    let split := exts.splitEach fun ext l =>
      if ext = dataExt then splitGteTimestamp l newest.timestamp
      else splitGtTimestamp l newest.timestamp
    (split.1, { results with obsolete := results.obsolete ++ split.2,
                             dataInfo := (split.1.get dataExt).head? })

/-- `DiskFileManager._process_ondisk_files`: the newest data file; without one the `.meta` files
may be reclaimed. -/
def processReplicated (exts : Exts) (results : Results) : Exts × Results :=
  let chosen := chooseNewestData exts results
  if chosen.1.get metaExt ≠ [] ∧ chosen.1.get dataExt = [] then
    (chosen.1, { chosen.2 with possibleReclaim := chosen.2.possibleReclaim ++ chosen.1.get metaExt })
  else chosen

/-! ### EC policies -/

/-- One per-timestamp entry of `frag_prefs`: fragment indexes not to choose at that time. -/
structure FragPref where
  timestamp : Timestamp
  exclude : List Nat
  deriving DecidableEq, Repr

/-- What the `while all_frags` loop finds: the frag sets newest first, the durable one, and the
durable timestamp's file, a legacy `.durable` or a durable fragment. -/
structure FragScan where
  fragSets : List (Timestamp × List FileInfo)
  durableFragSet : Option (List FileInfo)
  durableInfo : Option FileInfo

/-- `frag['durable'] = True`. -/
def markDurable (info : FileInfo) : FileInfo := { info with durable := some true }

/-- The `while all_frags` loop: the files at the newest timestamp left form a frag set, sorted by
fragment index. A durable fragment in it newer than the durable timestamp so far becomes the
durable timestamp, and the loop stops at the set at the durable timestamp, marking its fragments
durable. Each round takes at least one file, so `fuel` at the list's length is enough. -/
def scanFragSets : Nat → Option FileInfo → List FileInfo → List (Timestamp × List FileInfo) → FragScan
  | 0, durableInfo, _, fragSets => ⟨fragSets, none, durableInfo⟩
  | _ + 1, durableInfo, [], fragSets => ⟨fragSets, none, durableInfo⟩
  | fuel + 1, durableInfo, first :: rest, fragSets =>
    let split := splitGteTimestamp (first :: rest) first.timestamp
    let fragSet := sortAsc (fun info => info.fragIndex.getD 0) split.1
    let timestamp := (fragSet.headD first).timestamp
    -- a data file marked as durable may supersede a legacy durable file if it is newer
    let durableInfo := match fragSet.find? (·.durable = some true) with
      | some frag => if durableInfo.all (·.timestamp < timestamp) then some frag else durableInfo
      | none => durableInfo
    if durableInfo.any (·.timestamp = timestamp) then
      let fragSet := fragSet.map markDurable
      ⟨fragSets ++ [(timestamp, fragSet)], some fragSet, durableInfo⟩
    else scanFragSets fuel durableInfo split.2 (fragSets ++ [(timestamp, fragSet)])

/-- `list(set(available_indexes) - set(exclude_indexes))`: the frag set's indexes that are not
excluded, in the order of the slots of the set CPython builds. -/
def acceptableIndexes (fragSet : List FileInfo) (exclude : List Nat) : List Nat :=
  PySet.sub (PySet.ofList (fragSet.filterMap (·.fragIndex))) (PySet.ofList exclude)

/-- `sorted(candidate_frag_sets.keys())[-1]`'s frag set. -/
def newestCandidate (candidates : List (Timestamp × List FileInfo)) : Option (List FileInfo) :=
  ((sortAsc Prod.fst candidates).getLast?).map Prod.snd

/-- The `for ... else` over the per-timestamp preferences: the first timestamp that still has an
acceptable fragment index gives its frag set and the last of its acceptable indexes, which is
not always the highest; a timestamp with none drops out of the candidates; with no preference
left, the newest candidate. `none` is the `KeyError` of a timestamp named again after it dropped
out. -/
def preferredFragSet :
    List (Timestamp × List FileInfo) → List (Timestamp × List Nat) →
      Option (Option (List FileInfo × Option Nat))
  | candidates, [] => some ((newestCandidate candidates).map fun fragSet => (fragSet, none))
  | candidates, (timestamp, exclude) :: prefs =>
    match candidates.lookup timestamp with
    | none => none
    | some fragSet =>
      match (acceptableIndexes fragSet exclude).getLast? with
      | some fragIndex => some (some (fragSet, some fragIndex))
      | none => preferredFragSet (candidates.filter (·.1 != timestamp)) prefs

/-- The frag set to use, and a fragment index that overrides the `frag_index` argument: the
durable set, or with `frag_prefs` the preferred one. -/
def chooseFragSet (fragPrefs : Option (List FragPref)) (scan : FragScan) :
    Option (Option (List FileInfo × Option Nat)) :=
  match fragPrefs with
  | none => some (scan.durableFragSet.map fun fragSet => (fragSet, none))
  | some prefs =>
    preferredFragSet scan.fragSets (prefs.filterMap fun pref =>
      if (scan.fragSets.lookup pref.timestamp).isSome then some (pref.timestamp, pref.exclude)
      else none)

/-- The chosen fragment: the one with the asked-for index, or the highest. -/
def chosenFrag (fragIndex : Option Nat) (chosenFragSet : List FileInfo) : Option FileInfo :=
  match fragIndex with
  | some i => chosenFragSet.find? (·.fragIndex = some i)
  | none => chosenFragSet.getLast?

/-- The durable set's fragments are marked durable; `exts` holds the same dicts, so its `.data`
files at that timestamp are marked too. -/
def markDurableSet (scan : FragScan) (exts : Exts) : Exts :=
  match scan.durableFragSet with
  | some (frag :: _) => exts.set dataExt ((exts.get dataExt).map fun (info : FileInfo) =>
      if info.timestamp = frag.timestamp then markDurable info else info)
  | _ => exts

/-- Recording the chosen fragment: `data_info`, `durable_frag_set` and `chosen_frag_set`. When
the fragment is not from the durable set, the `.meta` files not newer than it are hidden, so that
they are not marked obsolete. -/
def recordChosen (scan : FragScan) (chosenFragSet : Option (List FileInfo))
    (fragIndex : Option Nat) (exts : Exts) (results : Results) : Exts × Results :=
  match chosenFragSet.bind (chosenFrag fragIndex) with
  | some frag =>
    let results := { results with dataInfo := some frag,
                                  durableFragSet := some scan.durableFragSet,
                                  chosenFragSet := some chosenFragSet }
    if chosenFragSet ≠ scan.durableFragSet then
      (exts.set metaExt (splitGtTimestamp (exts.get metaExt) frag.timestamp).1, results)
    else (exts, results)
  | none => (exts, results)

/-- Everything older than the durable timestamp is obsolete. -/
def obsoleteBeforeDurable (scan : FragScan) (exts : Exts) (results : Results) : Exts × Results :=
  match scan.durableInfo with
  | some durableInfo =>
    let split := exts.splitEach fun _ l => splitGteTimestamp l durableInfo.timestamp
    (split.1, { results with obsolete := results.obsolete ++ split.2 })
  | none => (exts, results)

/-- Everything older than the durable timestamp is obsolete, and so is an isolated legacy
`.durable`. -/
def ecObsolete (scan : FragScan) (exts : Exts) (results : Results) : Exts × Results :=
  let older := obsoleteBeforeDurable scan exts results
  if older.1.get durableExt ≠ [] ∧ scan.durableFragSet = none then
    (older.1.erase durableExt,
      { older.2 with obsolete := older.2.obsolete ++ older.1.get durableExt })
  else older

/-- The frag sets other than the durable and the chosen one may be reclaimed, and without a
durable set the `.meta` files. -/
def ecPossibleReclaim (scan : FragScan) (chosenFragSet : Option (List FileInfo)) (exts : Exts)
    (results : Results) : Results :=
  let results := { results with possibleReclaim := results.possibleReclaim ++
    (scan.fragSets.filter fun (entry : Timestamp × List FileInfo) =>
      some entry.2 ≠ scan.durableFragSet ∧ some entry.2 ≠ chosenFragSet).flatMap Prod.snd }
  if exts.get metaExt ≠ [] ∧ scan.durableFragSet = none then
    { results with possibleReclaim := results.possibleReclaim ++ exts.get metaExt }
  else results

/-- `ECDiskFileManager._process_ondisk_files(exts, results, frag_index, frag_prefs)`; `none` where
it raises `KeyError`. A legacy `.durable` is the durable timestamp to begin with. -/
def processEc (fragIndex : Option Nat) (fragPrefs : Option (List FragPref)) (exts : Exts)
    (results : Results) : Option (Exts × Results) :=
  let scan := scanFragSets (exts.get dataExt).length (exts.get durableExt).head? (exts.get dataExt) []
  let exts := markDurableSet scan exts
  (chooseFragSet fragPrefs scan).map fun chosen =>
    let chosenFragSet := chosen.map Prod.fst
    let recorded :=
      recordChosen scan chosenFragSet ((chosen.bind Prod.snd).or fragIndex) exts results
    let cleaned := ecObsolete scan recorded.1 { recorded.2 with fragSets := scan.fragSets }
    (cleaned.1, ecPossibleReclaim scan chosenFragSet cleaned.1 cleaned.2)

/-! ### `get_ondisk_files` -/

/-- The policy half of a disk-file manager: `DiskFileManager`, or `ECDiskFileManager` with the
policy's fragment count when a policy is given. -/
inductive Manager where
  | replicated
  | ec (fragmentCount : Option Nat)
  deriving DecidableEq, Repr

/-- The `.meta` and `.ts` files reported: the `.meta` files only on a data file, the newest as
`meta_info` and the last kept as `ctype_info` when its content type is newer than the data; else
the tombstone. -/
def finalChoice (exts : Exts) (results : Results) : Results :=
  match results.dataInfo with
  | some dataInfo =>
    match exts.get metaExt with
    | [] => results
    | newest :: rest =>
      let ctypeInfo := (newest :: rest).getLast (List.cons_ne_nil _ _)
      { results with
        metaInfo := some newest
        ctypeInfo := if ctypeInfo.ctypeTimestamp.any (dataInfo.timestamp < ·) then some ctypeInfo
          else none }
  | none =>
    match exts.get tsExt with
    | newest :: _ => { results with tsInfo := some newest }
    | [] => results

/-- `BaseDiskFileManager._verify_ondisk_files`: nothing, a tombstone alone, or a data file with no
tombstone. -/
def verifyOndiskFiles (results : Results) : Bool :=
  (results.dataInfo.isNone && results.metaInfo.isNone && results.tsInfo.isNone) ||
    (results.tsInfo.isSome && results.dataInfo.isNone && results.metaInfo.isNone) ||
    (results.dataInfo.isSome && results.tsInfo.isNone)

/-- `_verify_ondisk_files` of the manager; for EC a data file goes with a durable frag set, or
with `frag_prefs`. -/
def Manager.verify (manager : Manager) (fragPrefs : Option (List FragPref)) (results : Results) :
    Bool :=
  match manager with
  | .replicated => verifyOndiskFiles results
  | .ec _ =>
    verifyOndiskFiles results &&
      (results.dataInfo.isSome ==
        ((results.durableFragSet.bind id).isSome || results.dataInfo.isSome && fragPrefs.isSome))

/-- How `get_ondisk_files` can raise. -/
inductive OndiskError where
  /-- the `KeyError` of a timestamp named twice in `frag_prefs` -/
  | keyError
  /-- "On-disk file search algorithm contract is broken" -/
  | contractBroken
  /-- the `ValueError` of `files.remove(name)` in `cleanup_ondisk_files`, for an obsolete name
  listed twice -/
  | valueError
  deriving DecidableEq, Repr

/-- The selection up to the policy's handler: files by extension, tombstones, `.meta` files. -/
def commonSteps (exts : Exts) : Exts × List FileInfo :=
  let tombstones := tombstoneStep exts
  let metas := metaStep tombstones.1
  (metas.1, tombstones.2 ++ metas.2)

/-- The results of `get_ondisk_files` before the check; `none` where it raises `KeyError`. The
file paths are `datadir` joined with the chosen infos' names, which the results keep. -/
def ondiskSelection (manager : Manager) (fragIndex : Option Nat)
    (fragPrefs : Option (List FragPref)) (files : List (List Char)) : Option Results :=
  let parse := match manager with
    | .replicated => parseOnDiskFilename
    | .ec fragmentCount => parseEcOnDiskFilename fragmentCount
  let categorized := categorize parse files
  let common := commonSteps categorized.1
  let results : Results := { obsolete := common.2, unexpected := categorized.2 }
  let processed := match manager with
    | .replicated => some (processReplicated common.1 results)
    | .ec _ => processEc fragIndex fragPrefs common.1 results
  processed.map fun selected => finalChoice selected.1 selected.2

/-- `get_ondisk_files(files, datadir, verify, policy, frag_index=..., frag_prefs=...)`. -/
def getOndiskFiles (manager : Manager) (fragIndex : Option Nat) (fragPrefs : Option (List FragPref))
    (verify : Bool) (files : List (List Char)) : Except OndiskError Results :=
  match ondiskSelection manager fragIndex fragPrefs files with
  | none => .error .keyError
  | some results =>
    if verify && !manager.verify fragPrefs results then .error .contractBroken else .ok results

/-! ### `cleanup_ondisk_files` -/

/-- What `cleanup_ondisk_files` reads besides the names: the clock (`time.time()`, in ticks of
ten microseconds), `reclaim_age` and `commit_window` in seconds, and `is_file_older(path,
commit_window)` for each name. -/
structure Reclaim where
  now : Nat
  reclaimAge : Nat
  commitWindow : Nat
  isFileOlder : List Char → Bool

/-- `is_reclaimable(timestamp)`: `time.time() - float(timestamp) > reclaim_age`. -/
def Reclaim.isReclaimable (reclaim : Reclaim) (timestamp : Timestamp) : Bool :=
  decide ((timestamp.raw : Int) + reclaim.reclaimAge * 10 ^ 5 < reclaim.now)

/-- What `cleanup_ondisk_files` leaves: the results, with a reclaimed tombstone dropped from
them; the files it unlinked, in order; and the names left (`results['files']`). -/
structure Cleanup where
  results : Results
  unlinked : List (List Char)
  files : List (List Char)

/-- `files.remove(name)`: the first copy of the name goes, and `ValueError` is raised when there is
none. -/
def removeName (files : List (List Char)) (name : List Char) :
    Except OndiskError (List (List Char)) :=
  if files.contains name then .ok (files.erase name) else .error .valueError

/-- A reclaimable tombstone is unlinked and dropped from the results. Its name is one of the
files the results were chosen from, so `files.remove` finds it. -/
def reclaimTombstone (reclaim : Reclaim) (cleanup : Cleanup) : Cleanup :=
  match cleanup.results.tsInfo with
  | some tsInfo =>
    if reclaim.isReclaimable tsInfo.timestamp then
      ⟨{ cleanup.results with tsInfo := none }, cleanup.unlinked ++ [tsInfo.filename],
        cleanup.files.erase tsInfo.filename⟩
    else cleanup
  | none => cleanup

/-- `cleanup_ondisk_files(hsh_path, frag_index=..., frag_prefs=...)` on the directory's names:
a reclaimable tombstone is unlinked, possibly reclaimable files join `obsolete` once reclaimable
(a non-durable fragment only when older than `commit_window` too), and every obsolete file is
unlinked and removed from `files`, which raises `ValueError` for a name `obsolete` lists twice. -/
def cleanupOndiskFiles (reclaim : Reclaim) (manager : Manager) (fragIndex : Option Nat)
    (fragPrefs : Option (List FragPref)) (listing : List (List Char)) :
    Except OndiskError Cleanup :=
  let files := sortDesc id listing
  (getOndiskFiles manager fragIndex fragPrefs false files).bind fun results =>
    let tombstone := reclaimTombstone reclaim ⟨results, [], files⟩
    let reclaimed := tombstone.results.possibleReclaim.filter fun info =>
      reclaim.isReclaimable info.timestamp &&
        (info.durable.getD true || reclaim.commitWindow = 0 || reclaim.isFileOlder info.filename)
    let obsolete := tombstone.results.obsolete ++ reclaimed
    let obsoleteNames := obsolete.map FileInfo.filename
    (obsoleteNames.foldlM removeName tombstone.files).map fun files =>
      ⟨{ tombstone.results with obsolete := obsolete }, tombstone.unlinked ++ obsoleteNames, files⟩

end Diskfile

end Swift
