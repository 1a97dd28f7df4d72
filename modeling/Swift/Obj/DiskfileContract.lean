import Swift.Obj.Diskfile

/-!
# The on-disk file contract

What `get_ondisk_files` guarantees of the files it picks.

## The assertion never fires

`_verify_ondisk_files` asks for nothing, a tombstone alone, or a data file with no tombstone,
and for EC policies a data file exactly when there is a durable frag set or `frag_prefs`. The
policy handlers never write the `.meta` and `.ts` choices: `finalChoice` makes them last, and it
reports `.meta` files only on a data file and a tombstone only without one. So the common check
holds of every selection. For EC, `durable_frag_set` is recorded together with `data_info`, and
without `frag_prefs` the chosen set is the durable set, which is then not `None`.

## Main results

* `Unreported` — the invariant of the policy handlers: no `.meta` or `.ts` choice yet
* `verifyOndiskFiles_finalChoice` — the common check holds after the final choice
* `DurableAgrees`, `durableAgrees_processEc` — the EC half of the check
* `verify_ondiskSelection`, `getOndiskFiles_verify_eq` — `verify=True` changes nothing
* `chooseFragSet_acceptable` — an index `frag_prefs` pick is available and not excluded

The rest of the contract fails at edge cases, shown at concrete listings: with `frag_prefs` the
chosen fragment can be obsolete, and which of two `.meta` files at one timestamp is kept depends
on the listing order.
-/

namespace Swift

namespace Diskfile

/-! ### The policy handlers leave the `.meta` and `.ts` choices alone -/

/-- No `.meta` file and no tombstone has been reported yet. -/
structure Unreported (results : Results) : Prop where
  metaInfo : results.metaInfo = none
  tsInfo : results.tsInfo = none

namespace Unreported

variable {results : Results}

theorem chooseNewestData (h : Unreported results) (exts : Exts) :
    Unreported (chooseNewestData exts results).2 := by
  unfold Diskfile.chooseNewestData
  split
  · exact h
  · exact ⟨h.metaInfo, h.tsInfo⟩

theorem processReplicated (h : Unreported results) (exts : Exts) :
    Unreported (processReplicated exts results).2 := by
  have hchosen := h.chooseNewestData exts
  unfold Diskfile.processReplicated
  dsimp only
  split
  · exact ⟨hchosen.metaInfo, hchosen.tsInfo⟩
  · exact hchosen

theorem recordChosen (h : Unreported results) (scan : FragScan)
    (chosenFragSet : Option (List FileInfo)) (fragIndex : Option Nat) (exts : Exts) :
    Unreported (recordChosen scan chosenFragSet fragIndex exts results).2 := by
  unfold Diskfile.recordChosen
  split
  · split
    · exact ⟨h.metaInfo, h.tsInfo⟩
    · exact ⟨h.metaInfo, h.tsInfo⟩
  · exact h

theorem ecObsolete (h : Unreported results) (scan : FragScan) (exts : Exts) :
    Unreported (ecObsolete scan exts results).2 := by
  have holder : Unreported (obsoleteBeforeDurable scan exts results).2 := by
    unfold obsoleteBeforeDurable
    split
    · exact ⟨h.metaInfo, h.tsInfo⟩
    · exact h
  unfold Diskfile.ecObsolete
  dsimp only
  split
  · exact ⟨holder.metaInfo, holder.tsInfo⟩
  · exact holder

theorem ecPossibleReclaim (h : Unreported results) (scan : FragScan)
    (chosenFragSet : Option (List FileInfo)) (exts : Exts) :
    Unreported (ecPossibleReclaim scan chosenFragSet exts results) := by
  unfold Diskfile.ecPossibleReclaim
  split
  · exact ⟨h.metaInfo, h.tsInfo⟩
  · exact ⟨h.metaInfo, h.tsInfo⟩

theorem processEc (h : Unreported results) {fragIndex : Option Nat}
    {fragPrefs : Option (List FragPref)} {exts : Exts} {selected : Exts × Results}
    (hsel : Diskfile.processEc fragIndex fragPrefs exts results = some selected) :
    Unreported selected.2 := by
  unfold Diskfile.processEc at hsel
  obtain ⟨chosen, -, rfl⟩ := Option.map_eq_some_iff.mp hsel
  dsimp only
  refine (Unreported.ecObsolete ?_ _ _).ecPossibleReclaim _ _ _
  -- `fragSets` is written between the two steps
  exact ⟨(h.recordChosen _ _ _ _).metaInfo, (h.recordChosen _ _ _ _).tsInfo⟩

end Unreported

/-- The final choice passes the common check: a `.meta` file is only reported on a data file,
and a tombstone only without one. -/
theorem verifyOndiskFiles_finalChoice {results : Results} (h : Unreported results)
    (exts : Exts) : verifyOndiskFiles (finalChoice exts results) = true := by
  unfold finalChoice
  split
  · split
    · simp [verifyOndiskFiles, *, h.tsInfo]
    · simp [verifyOndiskFiles, *, h.tsInfo]
  · split
    · simp [verifyOndiskFiles, *, h.metaInfo]
    · simp [verifyOndiskFiles, *, h.metaInfo, h.tsInfo]

@[simp] theorem finalChoice_dataInfo (exts : Exts) (results : Results) :
    (finalChoice exts results).dataInfo = results.dataInfo := by
  unfold finalChoice
  split
  · split <;> rfl
  · split <;> rfl

@[simp] theorem finalChoice_durableFragSet (exts : Exts) (results : Results) :
    (finalChoice exts results).durableFragSet = results.durableFragSet := by
  unfold finalChoice
  split
  · split <;> rfl
  · split <;> rfl

/-! ### The EC half of the check -/

/-- `have_data_file == have_durable` of `ECDiskFileManager._verify_ondisk_files`. -/
def DurableAgrees (fragPrefs : Option (List FragPref)) (results : Results) : Prop :=
  results.dataInfo.isSome =
    ((results.durableFragSet.bind id).isSome || results.dataInfo.isSome && fragPrefs.isSome)

/-- Without `frag_prefs` the chosen set is the durable one. -/
theorem chooseFragSet_none {scan : FragScan} {chosen : Option (List FileInfo × Option Nat)}
    (h : chooseFragSet none scan = some chosen) : chosen.map Prod.fst = scan.durableFragSet := by
  simp only [chooseFragSet, Option.some.injEq] at h
  subst h
  rw [Option.map_map]
  exact Option.map_id'

/-- Recording the chosen fragment writes `data_info` and `durable_frag_set` together; without
`frag_prefs` the chosen set, which holds the fragment, is the durable set. -/
theorem durableAgrees_recordChosen {fragPrefs : Option (List FragPref)} {scan : FragScan}
    {chosenFragSet : Option (List FileInfo)}
    (hchosen : fragPrefs = none → chosenFragSet = scan.durableFragSet) (fragIndex : Option Nat)
    (exts : Exts) {results : Results} (hdata : results.dataInfo = none)
    (hdurable : results.durableFragSet = none) :
    DurableAgrees fragPrefs (recordChosen scan chosenFragSet fragIndex exts results).2 := by
  unfold recordChosen
  split
  case h_1 frag hfrag =>
    -- the chosen set is not `None`, since a fragment was found in it
    have hset : chosenFragSet.isSome := by
      cases hcs : chosenFragSet with
      | none => simp [hcs] at hfrag
      | some _ => rfl
    cases fragPrefs with
    | none =>
      rw [← hchosen rfl]
      split <;> simp [DurableAgrees, hset]
    | some _ => split <;> simp [DurableAgrees]
  case h_2 => simp [DurableAgrees, hdata, hdurable]

theorem durableAgrees_ecPossibleReclaim {fragPrefs : Option (List FragPref)}
    {results : Results} (h : DurableAgrees fragPrefs results) (scan : FragScan)
    (chosenFragSet : Option (List FileInfo)) (exts : Exts) :
    DurableAgrees fragPrefs (ecPossibleReclaim scan chosenFragSet exts results) := by
  unfold ecPossibleReclaim
  split
  · exact h
  · exact h

theorem durableAgrees_ecObsolete {fragPrefs : Option (List FragPref)} {results : Results}
    (h : DurableAgrees fragPrefs results) (scan : FragScan) (exts : Exts) :
    DurableAgrees fragPrefs (ecObsolete scan exts results).2 := by
  have holder : DurableAgrees fragPrefs (obsoleteBeforeDurable scan exts results).2 := by
    unfold obsoleteBeforeDurable
    split
    · exact h
    · exact h
  unfold ecObsolete
  dsimp only
  split
  · exact holder
  · exact holder

/-- The EC handler leaves `data_info` and `durable_frag_set` in agreement. -/
theorem durableAgrees_processEc {fragIndex : Option Nat} {fragPrefs : Option (List FragPref)}
    {exts : Exts} {results : Results} (hdata : results.dataInfo = none)
    (hdurable : results.durableFragSet = none) {selected : Exts × Results}
    (hsel : processEc fragIndex fragPrefs exts results = some selected) :
    DurableAgrees fragPrefs selected.2 := by
  unfold processEc at hsel
  generalize scanFragSets (exts.get dataExt).length (exts.get durableExt).head?
    (exts.get dataExt) [] = scan at hsel
  obtain ⟨chosen, hchosen, rfl⟩ := Option.map_eq_some_iff.mp hsel
  dsimp only
  refine durableAgrees_ecPossibleReclaim (durableAgrees_ecObsolete ?_ _ _) _ _ _
  exact durableAgrees_recordChosen (fun hnone => chooseFragSet_none (hnone ▸ hchosen)) _ _
    hdata hdurable

/-! ### `verify=True` -/

/-- Every selection `get_ondisk_files` makes passes `_verify_ondisk_files`. -/
theorem verify_ondiskSelection {manager : Manager} {fragIndex : Option Nat}
    {fragPrefs : Option (List FragPref)} {files : List (List Char)} {results : Results}
    (h : ondiskSelection manager fragIndex fragPrefs files = some results) :
    manager.verify fragPrefs results = true := by
  unfold ondiskSelection at h
  obtain ⟨selected, hsel, rfl⟩ := Option.map_eq_some_iff.mp h
  -- the handlers start from results with nothing chosen
  generalize hstart : ({ obsolete := _, unexpected := _ } : Results) = start at hsel
  have hunreported : Unreported start := ⟨hstart ▸ rfl, hstart ▸ rfl⟩
  cases manager with
  | replicated =>
    obtain rfl := Option.some.inj hsel
    exact verifyOndiskFiles_finalChoice (hunreported.processReplicated _) _
  | ec fragmentCount =>
    have hagree := durableAgrees_processEc (hstart ▸ rfl) (hstart ▸ rfl) hsel
    simp only [Manager.verify, verifyOndiskFiles_finalChoice (hunreported.processEc hsel),
      Bool.true_and, finalChoice_dataInfo, finalChoice_durableFragSet]
    exact beq_iff_eq.mpr hagree

/-- `verify=True` changes nothing: the assertion of `get_ondisk_files` never fires. -/
theorem getOndiskFiles_verify_eq (manager : Manager) (fragIndex : Option Nat)
    (fragPrefs : Option (List FragPref)) (files : List (List Char)) :
    getOndiskFiles manager fragIndex fragPrefs true files =
      getOndiskFiles manager fragIndex fragPrefs false files := by
  unfold getOndiskFiles
  split
  case h_1 => rfl
  case h_2 results hselection => simp [verify_ondiskSelection hselection]

/-! ### What `frag_prefs` choose -/

/-- `list(set(available_indexes) - set(exclude_indexes))` holds the available indexes that are
not excluded, in whatever order the set gives them. -/
theorem mem_acceptableIndexes {fragSet : List FileInfo} {exclude : List Nat} {i : Nat} :
    i ∈ acceptableIndexes fragSet exclude ↔ i ∈ fragSet.filterMap (·.fragIndex) ∧ i ∉ exclude := by
  rw [acceptableIndexes, PySet.mem_sub, PySet.mem_toList_ofList, PySet.mem_toList_ofList]

/-- `candidate_frag_sets.pop(ts)` removes the frag set of `ts` and leaves the others. -/
theorem lookup_filter_ne (candidates : List (Timestamp × List FileInfo)) (t ts : Timestamp) :
    (candidates.filter (·.1 != t)).lookup ts = if ts = t then none else candidates.lookup ts := by
  induction candidates with
  | nil => simp
  | cons c candidates ih =>
    obtain ⟨k, v⟩ := c
    by_cases hts : ts = k
    · -- the pair's own key
      subst hts
      by_cases hk : ts = t
      · subst hk
        rw [List.filter_cons_of_neg (by simp), ih, if_pos rfl, if_pos rfl]
      · rw [List.filter_cons_of_pos (by simpa using hk), if_neg hk, List.lookup_cons_self,
          List.lookup_cons_self]
    · have hbeq : (ts == k) = false := beq_false_of_ne hts
      by_cases hk : k = t
      · rw [List.filter_cons_of_neg (by simpa using hk), ih, List.lookup_cons, hbeq]
      · rw [List.filter_cons_of_pos (by simpa using hk), List.lookup_cons, List.lookup_cons, hbeq,
          ih]

/-- The fragment index a preference picks is one its frag set has and the preference does not
exclude, at a timestamp the preferences name. -/
theorem preferredFragSet_acceptable {candidates : List (Timestamp × List FileInfo)}
    {prefs : List (Timestamp × List Nat)} {fragSet : List FileInfo} {i : Nat}
    (h : preferredFragSet candidates prefs = some (some (fragSet, some i))) :
    ∃ p ∈ prefs, candidates.lookup p.1 = some fragSet ∧
      i ∈ fragSet.filterMap (·.fragIndex) ∧ i ∉ p.2 := by
  induction prefs generalizing candidates with
  | nil =>
    -- with no preference left the newest candidate comes with no index
    simp only [preferredFragSet, Option.some.injEq, Option.map_eq_some_iff] at h
    obtain ⟨_, -, h⟩ := h
    cases h
  | cons p prefs ih =>
    obtain ⟨t, exclude⟩ := p
    simp only [preferredFragSet] at h
    split at h
    · cases h
    next fs hfs =>
      split at h
      next j hj =>
        cases h
        exact ⟨(t, exclude), List.mem_cons_self, hfs,
          mem_acceptableIndexes.mp (List.mem_of_getLast? hj)⟩
      next =>
        -- the timestamp dropped out; the pick comes from a later preference
        obtain ⟨q, hq, hlook, hmem⟩ := ih h
        refine ⟨q, List.mem_cons_of_mem _ hq, ?_, hmem⟩
        rw [lookup_filter_ne] at hlook
        split at hlook
        · cases hlook
        · exact hlook

/-- With `frag_prefs`, an index that overrides `frag_index` is one the chosen frag set has and
that the preference for its timestamp does not exclude. -/
theorem chooseFragSet_acceptable {prefs : List FragPref} {scan : FragScan}
    {fragSet : List FileInfo} {i : Nat}
    (h : chooseFragSet (some prefs) scan = some (some (fragSet, some i))) :
    ∃ pref ∈ prefs, scan.fragSets.lookup pref.timestamp = some fragSet ∧
      i ∈ fragSet.filterMap (·.fragIndex) ∧ i ∉ pref.exclude := by
  obtain ⟨p, hp, hlook, hi, hex⟩ := preferredFragSet_acceptable h
  obtain ⟨pref, hpref, hsome⟩ := List.mem_filterMap.mp hp
  split at hsome
  · cases hsome
    exact ⟨pref, hpref, hlook, hi, hex⟩
  · cases hsome

/-- Fragments `0` and `2` at one timestamp. -/
def twoFragments : List FileInfo :=
  [⟨[], ⟨1, 0⟩, dataExt, none, some 0, none⟩, ⟨[], ⟨1, 0⟩, dataExt, none, some 2, none⟩]

/-- A preference for that timestamp that excludes index `2` overrides `frag_index` with `0`. -/
theorem chooseFragSet_acceptable_twoFragments :
    chooseFragSet (some [⟨⟨1, 0⟩, [2]⟩]) ⟨[(⟨1, 0⟩, twoFragments)], none, none⟩ =
        some (some (twoFragments, some 0)) ∧
      ∃ pref ∈ [(⟨⟨1, 0⟩, [2]⟩ : FragPref)],
        ([(⟨1, 0⟩, twoFragments)] : List (Timestamp × List FileInfo)).lookup pref.timestamp =
          some twoFragments ∧
        0 ∈ twoFragments.filterMap (·.fragIndex) ∧ 0 ∉ pref.exclude := by
  have h : chooseFragSet (some [⟨⟨1, 0⟩, [2]⟩]) ⟨[(⟨1, 0⟩, twoFragments)], none, none⟩ =
      some (some (twoFragments, some 0)) := by decide
  exact ⟨h, chooseFragSet_acceptable h⟩

/-! ### What is chosen can be obsolete

With `frag_prefs` every frag set the scan found is a candidate. A legacy `<t>.durable` with no
fragment at `t` does not stop the scan, so the sets older than it are candidates too, and the
chosen one is then made obsolete with everything older than the durable timestamp. The check
passes all the same, since with `frag_prefs` a data file needs no durable set. -/

theorem getOndiskFiles_obsoletes_chosen_fragment :
    ∃ results dataInfo, getOndiskFiles (.ec none) none (some []) true
        ["0000000001.00000#0.data".toList, "0000000002.00000.durable".toList] = .ok results ∧
      results.dataInfo = some dataInfo ∧ dataInfo ∈ results.obsolete ∧
      dataInfo.filename = "0000000001.00000#0.data".toList :=
  ⟨_, _, rfl, rfl, by decide, rfl⟩

/-! ### Ties in the listing order

The `.meta` files are sorted newest first by a stable sort, so of two at the same timestamp the
one listed first is the newest; the next is compared with it by content-type timestamp only. So
which of the two is kept depends on the order. -/

theorem getOndiskFiles_metaFile_depends_on_order :
    List.Perm ["0000000010.00000-7a120.meta".toList, "0000000010.00000-dbba0.meta".toList,
        "0000000009.00000-186a0.meta".toList, "0000000005.00000.data".toList]
      ["0000000010.00000-dbba0.meta".toList, "0000000010.00000-7a120.meta".toList,
        "0000000009.00000-186a0.meta".toList, "0000000005.00000.data".toList] ∧
    ∃ results results',
      getOndiskFiles .replicated none none true
          ["0000000010.00000-dbba0.meta".toList, "0000000010.00000-7a120.meta".toList,
            "0000000009.00000-186a0.meta".toList, "0000000005.00000.data".toList] = .ok results ∧
      getOndiskFiles .replicated none none true
          ["0000000010.00000-7a120.meta".toList, "0000000010.00000-dbba0.meta".toList,
            "0000000009.00000-186a0.meta".toList, "0000000005.00000.data".toList] = .ok results' ∧
      results.metaInfo.map FileInfo.filename = some "0000000010.00000-dbba0.meta".toList ∧
      results'.metaInfo.map FileInfo.filename = some "0000000010.00000-7a120.meta".toList ∧
      results.obsolete.map FileInfo.filename = ["0000000010.00000-7a120.meta".toList] ∧
      results'.obsolete.map FileInfo.filename = ["0000000010.00000-dbba0.meta".toList] :=
  ⟨List.Perm.swap _ _ _, _, _, rfl, rfl, rfl, rfl, rfl, rfl⟩

end Diskfile

end Swift
