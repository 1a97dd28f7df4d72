import Swift.Data.PySort
import Mathlib.Data.String.Basic

/-!
# Which storage policy a container has: `cmp_policy_info`

Replicas of a container can disagree on its storage policy. The reconciler picks one with
`best_policy_index`, which sorts the replicas' infos with `cmp_policy_info` as the comparison and
takes the first. The replicator makes the same comparison, two infos at a time.

`cmp_policy_info` has three regimes. A deleted info loses to one that is not deleted, and
between two deleted infos the later status change wins. Otherwise a recreated info, whose put
came after a delete, beats one that is not recreated. Between two recreated infos, a put older
than the later of the two deletes loses. Everything else goes to the earlier status change.

The comparison is antisymmetric (`cmpPolicyInfo_swap`) but not transitive. Three recreated
infos can each beat the next by their status changes while the last beats the first by its
delete. `list.sort` leaves a list with no descent between neighbours as it is, so two orders of
the same three replicas get two different policies from `best_policy_index`.

Timestamps are any linear order here, with `zero` for `Timestamp(0)`. The headers carry
timestamps in their internal form, whose order as strings is their order in time, and
`best_policy_index` compares them as strings.

## Main results

* `cmpPolicyInfo_swap` — swapping the infos negates the comparison
* `cmpPolicyInfo_antisymm` — so two replicas never both take the other's policy
* `bestPolicyIndex_depends_on_order` — a cycle of three recreated infos, and the two policies
  `best_policy_index` gives for two orders of them
-/

namespace Swift

namespace Reconciler

/-- The fields of a container info `cmp_policy_info` and `best_policy_index` read. -/
structure ContainerInfo (T : Type*) where
  /-- `info['storage_policy_index']`, absent from some infos. -/
  storagePolicyIndex : Option Int
  putTimestamp : T
  deleteTimestamp : T
  statusChangedAt : T
  /-- `info['count']`, if present. -/
  count : Option Nat
  /-- `info['object_count']`, if present. -/
  objectCount : Option Nat

variable {T : Type*} [LinearOrder T]

/-- The local `cmp(a, b)` of `cmp_policy_info`. -/
def cmp (a b : T) : Int := if a < b then -1 else if b < a then 1 else 0

/-- `is_deleted(info)`: a delete after the put, and no objects. -/
def isDeleted (info : ContainerInfo T) : Bool :=
  decide (info.putTimestamp < info.deleteTimestamp) &&
    (info.count.getD (info.objectCount.getD 0) == 0)

/-- `has_been_recreated(info)`: a put after a delete, which came after `Timestamp(0)`. -/
def hasBeenRecreated (zero : T) (info : ContainerInfo T) : Bool :=
  decide (info.deleteTimestamp < info.putTimestamp ∧ zero < info.deleteTimestamp)

/-- `cmp_policy_info(info, remote_info)`: `-1` if `info` is right, `1` if `remote_info` is. -/
def cmpPolicyInfo (zero : T) (info remoteInfo : ContainerInfo T) : Int :=
  let deleted := isDeleted info
  let remoteDeleted := isDeleted remoteInfo
  if deleted || remoteDeleted then
    if !deleted then -1
    else if !remoteDeleted then 1
    else cmp remoteInfo.statusChangedAt info.statusChangedAt
  else
    let remoteRecreated := hasBeenRecreated zero remoteInfo
    let recreated := hasBeenRecreated zero info
    if remoteRecreated || recreated then
      if !recreated then 1
      else if !remoteRecreated then -1
      else
        -- both have been recreated
        let mostRecentSuccessfulDelete := max info.deleteTimestamp remoteInfo.deleteTimestamp
        if info.putTimestamp < mostRecentSuccessfulDelete then 1
        else if remoteInfo.putTimestamp < mostRecentSuccessfulDelete then -1
        else cmp info.statusChangedAt remoteInfo.statusChangedAt
    else cmp info.statusChangedAt remoteInfo.statusChangedAt

/-- `incorrect_policy_index(info, remote_info)`: the remote info names another policy, and it is
the better one. -/
def incorrectPolicyIndex (zero : T) (info remoteInfo : ContainerInfo T) : Bool :=
  match remoteInfo.storagePolicyIndex with
  | none => false
  | some index =>
    if some index = info.storagePolicyIndex then false
    else decide (cmpPolicyInfo zero info remoteInfo > 0)

/-! ### Antisymmetry -/

theorem cmp_swap (a b : T) : cmp b a = -cmp a b := by
  unfold cmp
  rcases lt_trichotomy a b with h | rfl | h
  · simp [h, not_lt.mpr h.le]
  · simp
  · simp [h, not_lt.mpr h.le]

/-- Two recreated infos do not both have a put older than the later delete: the info whose
delete is the later one was put after it. -/
theorem not_both_put_lt_max {zero : T} {a b : ContainerInfo T}
    (ha : hasBeenRecreated zero a = true) (hb : hasBeenRecreated zero b = true) :
    ¬(a.putTimestamp < max a.deleteTimestamp b.deleteTimestamp ∧
      b.putTimestamp < max a.deleteTimestamp b.deleteTimestamp) := by
  simp only [hasBeenRecreated, decide_eq_true_eq] at ha hb
  rintro ⟨hpa, hpb⟩
  rcases le_total a.deleteTimestamp b.deleteTimestamp with hle | hle
  · rw [max_eq_right hle] at hpa hpb
    exact absurd hb.1 (not_lt.mpr hpb.le)
  · rw [max_eq_left hle] at hpa hpb
    exact absurd ha.1 (not_lt.mpr hpa.le)

/-- Swapping the infos negates the comparison. -/
theorem cmpPolicyInfo_swap (zero : T) (a b : ContainerInfo T) :
    cmpPolicyInfo zero b a = -cmpPolicyInfo zero a b := by
  unfold cmpPolicyInfo
  -- the deleted regime, decided by the two flags
  cases hda : isDeleted a <;> cases hdb : isDeleted b
  case true.true =>
    simp only [Bool.or_self, Bool.not_true, Bool.false_eq_true, if_true, if_false]
    exact cmp_swap _ _
  case true.false => simp
  case false.true => simp
  case false.false =>
    simp only [Bool.or_false, Bool.false_eq_true, if_false]
    -- the recreated regime
    cases hra : hasBeenRecreated zero a <;> cases hrb : hasBeenRecreated zero b
    case false.false =>
      simp only [Bool.or_self, Bool.false_eq_true, if_false]
      exact cmp_swap _ _
    case true.false => simp
    case false.true => simp
    case true.true =>
      have hboth := not_both_put_lt_max hra hrb
      simp only [Bool.or_self, Bool.not_true, Bool.false_eq_true, if_false, if_true,
        max_comm b.deleteTimestamp a.deleteTimestamp]
      by_cases hpa : a.putTimestamp < max a.deleteTimestamp b.deleteTimestamp
      · have hpb : ¬b.putTimestamp < max a.deleteTimestamp b.deleteTimestamp :=
          fun hpb => hboth ⟨hpa, hpb⟩
        simp [hpa, hpb]
      · by_cases hpb : b.putTimestamp < max a.deleteTimestamp b.deleteTimestamp
        · simp [hpa, hpb]
        · simp only [hpa, hpb, if_false]
          exact cmp_swap _ _

/-- `incorrect_policy_index` says switch only when `cmp_policy_info` prefers the remote info. -/
theorem cmpPolicyInfo_pos_of_incorrectPolicyIndex {zero : T} {info remoteInfo : ContainerInfo T}
    (h : incorrectPolicyIndex zero info remoteInfo = true) : 0 < cmpPolicyInfo zero info remoteInfo := by
  unfold incorrectPolicyIndex at h
  split at h
  · cases h
  · split at h
    · cases h
    · exact of_decide_eq_true h

/-- The comparison is antisymmetric, an info ties with itself, and so two replicas that compare
their infos, as the replicator does on both ends of a sync (`_handle_sync_response` and the
RPC's `_get_synced_replication_info`), never both take the other's policy. -/
theorem cmpPolicyInfo_antisymm (zero : T) (a b : ContainerInfo T) :
    cmpPolicyInfo zero b a = -cmpPolicyInfo zero a b ∧ cmpPolicyInfo zero a a = 0 ∧
      ¬(incorrectPolicyIndex zero a b = true ∧ incorrectPolicyIndex zero b a = true) := by
  have hswap := cmpPolicyInfo_swap zero a b
  have hself : cmpPolicyInfo zero a a = 0 := by
    have := cmpPolicyInfo_swap zero a a
    omega
  refine ⟨hswap, hself, fun ⟨hab, hba⟩ => ?_⟩
  have hpos := cmpPolicyInfo_pos_of_incorrectPolicyIndex hab
  have hpos' := cmpPolicyInfo_pos_of_incorrectPolicyIndex hba
  omega

/-! ### `best_policy_index` -/

/-- The headers of a container `HEAD` that `translate_container_headers_to_info` reads. -/
structure ContainerHeaders where
  /-- `int(headers['X-Backend-Storage-Policy-Index'])`. -/
  storagePolicyIndex : Int
  /-- `x-backend-put-timestamp`. -/
  putTimestamp : Option String
  /-- `x-backend-delete-timestamp`. -/
  deleteTimestamp : Option String
  /-- `x-backend-status-changed-at`. -/
  statusChangedAt : Option String

/-- `Timestamp(0).internal`. -/
def defaultTimestamp : String := "0000000000.00000"

/-- `translate_container_headers_to_info(headers)`: the info has no count. -/
def translateContainerHeadersToInfo (headers : ContainerHeaders) : ContainerInfo String :=
  ⟨some headers.storagePolicyIndex, headers.putTimestamp.getD defaultTimestamp,
    headers.deleteTimestamp.getD defaultTimestamp, headers.statusChangedAt.getD defaultTimestamp,
    none, none⟩

/-- `best_policy_index(headers)`: the policy of the first info once sorted with
`cmp_to_key(cmp_policy_info)`. `none` for 64 header sets or more, which the model of the sort
leaves out. -/
def bestPolicyIndex (headers : List ContainerHeaders) : Option (Except String (Option Int)) :=
  (PySort.sortShort? (fun a b => decide (cmpPolicyInfo defaultTimestamp a b < 0))
      (headers.map translateContainerHeadersToInfo)).map fun
    | [] => .error "list index out of range"
    | info :: _ => .ok info.storagePolicyIndex

/-- A replica of policy `index` that was deleted at `delete`, put again at `put` and last changed
status then. -/
def recreatedHeaders (index : Int) (delete put : String) : ContainerHeaders :=
  ⟨index, some put, some delete, some put⟩

/-- Three replicas, each recreated: `a` deleted at 1 and put at 2, `b` deleted at 1 and put at 4,
`c` deleted at 3 and put at 5. -/
def replicaA : ContainerHeaders := recreatedHeaders 0 "0000000001.00000" "0000000002.00000"

def replicaB : ContainerHeaders := recreatedHeaders 1 "0000000001.00000" "0000000004.00000"

def replicaC : ContainerHeaders := recreatedHeaders 2 "0000000003.00000" "0000000005.00000"

/-- `a` beats `b` and `b` beats `c` by their earlier status changes, but `c` beats `a`: `a` was put
before `c`'s delete. `list.sort` leaves `[a, b, c]` and `[c, a, b]` as they are, so
`best_policy_index` gives policy 0 for one order and policy 2 for the other. -/
theorem bestPolicyIndex_depends_on_order :
    cmpPolicyInfo defaultTimestamp (translateContainerHeadersToInfo replicaA)
        (translateContainerHeadersToInfo replicaB) = -1 ∧
    cmpPolicyInfo defaultTimestamp (translateContainerHeadersToInfo replicaB)
        (translateContainerHeadersToInfo replicaC) = -1 ∧
    cmpPolicyInfo defaultTimestamp (translateContainerHeadersToInfo replicaA)
        (translateContainerHeadersToInfo replicaC) = 1 ∧
    bestPolicyIndex [replicaA, replicaB, replicaC] = some (.ok (some 0)) ∧
    bestPolicyIndex [replicaC, replicaA, replicaB] = some (.ok (some 2)) := by
  refine ⟨by decide +kernel, by decide +kernel, by decide +kernel, ?_, ?_⟩
  · rw [bestPolicyIndex, PySort.sortShort?_of_chain (by decide +kernel) (by decide +kernel)]
    rfl
  · rw [bestPolicyIndex, PySort.sortShort?_of_chain (by decide +kernel) (by decide +kernel)]
    rfl

end Reconciler

end Swift
