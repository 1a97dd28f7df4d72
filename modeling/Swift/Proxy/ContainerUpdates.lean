import Swift.Data.ListUpdate
import Mathlib.Data.List.Perm.Subperm

/-!
# Container updates carried by object requests

When the proxy writes an object it tells the object servers which container replicas to update
once the object is stored. `BaseObjectController._backend_requests` names container nodes in the
`X-Container-Host` and `X-Container-Device` headers of the `n_outgoing` object requests: update
`k` goes in request `k % n_outgoing` and names the `k`-th node of a cycle over the container
nodes, for `k < num_container_updates(Rc, Qc, Ro, Qo)`. The expirer-queue nodes are named the same
way, from the last request backwards.

## What the count guarantees

`num_container_updates` sends `max(Qc + Ro - Qo, Rc)` updates. Its docstring counts updates: if
only `Qo` object requests succeed, the failed ones carried at most `Ro - Qo` updates, so at least
`Qc` remain. Every container node is named (`backendRequests_names_containers`), and the count
is right when no request carries two updates (`quorumSize_le_survivingContainerNodes`). But the
updates that remain need not reach `Qc` distinct nodes. Once there are more updates than
container nodes, the cycle names a node twice, and the requests that fail may be exactly those
that name the other nodes (`backendRequests_loses_container_quorum`).

## The model

A node is any value; the headers hold the nodes they name, where the source joins their
`ip:port` and device names with commas. `X-Container-Partition`, the container path and the
expirer-queue container and partition are the same in every request that names a node and are
left out.
-/

namespace Swift

namespace Proxy

open ListUpdate

/-- `quorum_size(n)`: the majority of the replicas of an account or a container. -/
def quorumSize (n : Nat) : Nat := (n + 1) / 2

/-- `num_container_updates(container_replicas, container_quorum, object_replicas,
object_quorum)`. -/
def numContainerUpdates (containerReplicas containerQuorum objectReplicas objectQuorum : Nat) :
    Nat :=
  max (containerQuorum + objectReplicas - objectQuorum) containerReplicas

/-- `n_desired_queue_updates`. -/
def nDesiredQueueUpdates : Nat := 2

/-- The headers of one object request, as far as updates go. -/
structure BackendHeaders (Node : Type) where
  /-- `X-Container-Host` and `X-Container-Device`: the container nodes named, in order -/
  containerNodes : List Node
  /-- `X-Delete-At-Host` and `X-Delete-At-Device` -/
  deleteAtNodes : List Node
  /-- `X-Backend-Clean-Expiring-Object-Queue`, `'t'` or `'f'`, when the request carries it -/
  cleanExpiringObjectQueue : Option Bool
  deriving DecidableEq, Repr

variable {Node : Type}

/-- What the `k`-th `next` of `itertools.cycle(nodes)` returns; the cycle of an empty list stops
at once. -/
def cycleNth (nodes : List Node) (k : Nat) : Option Node := nodes[k % nodes.length]?

/-- `set_container_update(index, container_node)`, on the headers of request `index`. -/
def setContainerUpdate (node : Node) (h : BackendHeaders Node) : BackendHeaders Node :=
  { h with containerNodes := h.containerNodes ++ [node] }

/-- `set_delete_at_headers(index, delete_at_node)`. -/
def setDeleteAtHeaders (node : Node) (h : BackendHeaders Node) : BackendHeaders Node :=
  { h with deleteAtNodes := h.deleteAtNodes ++ [node] }

/-- One round of `while existing_updates < n_updates_needed`. `existing_updates % n_outgoing`
raises when there are no requests, and `next(container_iter)` when there are no container
nodes. -/
def updateStep (nOutgoing : Nat) (containers deleteAtNodes : List Node)
    (headers : List (BackendHeaders Node)) (existingUpdates : Nat) :
    Option (List (BackendHeaders Node)) :=
  if nOutgoing = 0 then none
  else do
    let index := existingUpdates % nOutgoing
    let container ← cycleNth containers existingUpdates
    let headers := headers.modify index (setContainerUpdate container)
    if deleteAtNodes = [] then pure headers
    else
      -- the expirer-queue nodes go in the requests in reverse
      let deleteAtNode ← cycleNth deleteAtNodes existingUpdates
      pure (headers.modify (nOutgoing - 1 - index) (setDeleteAtHeaders deleteAtNode))

/-- `headers[i].setdefault('X-Backend-Clean-Expiring-Object-Queue', 't' if i <
n_desired_queue_updates else 'f')`. -/
def setCleanExpiringObjectQueue (i : Nat) (h : BackendHeaders Node) : BackendHeaders Node :=
  { h with cleanExpiringObjectQueue := some (h.cleanExpiringObjectQueue.getD (decide (i < nDesiredQueueUpdates))) }

/-- `_backend_requests`, for `n_outgoing` requests whose headers start as `base`, the container
nodes, the expirer-queue nodes (`[]` when there are none) and the policy's object quorum. -/
def backendRequests (base : BackendHeaders Node) (nOutgoing : Nat)
    (containers deleteAtNodes : List Node) (objectQuorum : Nat) :
    Option (List (BackendHeaders Node)) := do
  let nUpdatesNeeded :=
    numContainerUpdates containers.length (quorumSize containers.length) nOutgoing objectQuorum
  let headers ← (List.range nUpdatesNeeded).foldlM (updateStep nOutgoing containers deleteAtNodes)
    (List.replicate nOutgoing base)
  pure (headers.mapIdx setCleanExpiringObjectQueue)

/-- The container nodes named by the requests whose index is not in `failed`, in request
order. -/
def survivingContainerNodes (headers : List (BackendHeaders Node)) (failed : List Nat) :
    List Node :=
  ((List.range headers.length).filter (· ∉ failed)).flatMap fun i =>
    (headers[i]?.map BackendHeaders.containerNodes).getD []

/-! ### The headers in closed form -/

/-- The nodes that the first `nUpdates` rounds name in request `index`, where `slot` sends
round `k` to a request. -/
def assignedBy (slot : Nat → Nat) (nodes : List Node) (nUpdates index : Nat) : List Node :=
  (List.range nUpdates).filterMap fun k => if slot k = index then cycleNth nodes k else none

/-- The headers of request `index` after `nUpdates` rounds. -/
def loopHeaders (base : BackendHeaders Node) (nOutgoing : Nat) (containers deleteAtNodes : List Node)
    (nUpdates index : Nat) : BackendHeaders Node :=
  { base with
    containerNodes := base.containerNodes ++ assignedBy (· % nOutgoing) containers nUpdates index
    deleteAtNodes := base.deleteAtNodes ++
      assignedBy (fun k => nOutgoing - 1 - k % nOutgoing) deleteAtNodes nUpdates index }

theorem cycleNth_of_lt {nodes : List Node} {k : Nat} (h : k < nodes.length) :
    cycleNth nodes k = some nodes[k] := by
  rw [cycleNth, Nat.mod_eq_of_lt h, List.getElem?_eq_getElem h]

theorem exists_cycleNth {nodes : List Node} (h : nodes ≠ []) (k : Nat) :
    ∃ node, cycleNth nodes k = some node :=
  ⟨_, List.getElem?_eq_getElem (Nat.mod_lt k (List.length_pos_of_ne_nil h))⟩

@[simp] theorem assignedBy_nil (slot : Nat → Nat) (nUpdates index : Nat) :
    assignedBy slot ([] : List Node) nUpdates index = [] := by
  simp [assignedBy, cycleNth]

theorem assignedBy_succ (slot : Nat → Nat) (nodes : List Node) (nUpdates index : Nat) :
    assignedBy slot nodes (nUpdates + 1) index = assignedBy slot nodes nUpdates index ++
      if slot nUpdates = index then (cycleNth nodes nUpdates).toList else [] := by
  rw [assignedBy, List.range_succ, List.filterMap_append, ← assignedBy]
  congr 1
  by_cases h : slot nUpdates = index
  · rw [if_pos h, List.filterMap_cons, List.filterMap_nil, if_pos h]
    cases cycleNth nodes nUpdates <;> rfl
  · simp [h]

theorem mem_assignedBy {slot : Nat → Nat} {nodes : List Node} {nUpdates index k : Nat}
    {node : Node} (hk : k < nUpdates) (hslot : slot k = index) (hnode : cycleNth nodes k = some node) :
    node ∈ assignedBy slot nodes nUpdates index :=
  List.mem_filterMap.mpr ⟨k, List.mem_range.mpr hk, by rw [if_pos hslot, hnode]⟩

/-- One more round appends its container node to request `k % n` and its expirer-queue node
to request `n - 1 - k % n`. -/
theorem loopHeaders_succ (base : BackendHeaders Node) (nOutgoing : Nat)
    (containers deleteAtNodes : List Node) (k index : Nat) :
    loopHeaders base nOutgoing containers deleteAtNodes (k + 1) index =
      { containerNodes := (loopHeaders base nOutgoing containers deleteAtNodes k index).containerNodes ++
          if k % nOutgoing = index then (cycleNth containers k).toList else []
        deleteAtNodes := (loopHeaders base nOutgoing containers deleteAtNodes k index).deleteAtNodes ++
          if nOutgoing - 1 - k % nOutgoing = index then (cycleNth deleteAtNodes k).toList else []
        cleanExpiringObjectQueue := base.cleanExpiringObjectQueue } := by
  simp only [loopHeaders, assignedBy_succ, List.append_assoc]

section Loop

variable {base : BackendHeaders Node} {nOutgoing : Nat} {containers deleteAtNodes : List Node}

/-- A round of the loop, on the headers in closed form. -/
theorem updateStep_loopHeaders (hn : 0 < nOutgoing) (hc : containers ≠ []) (k : Nat) :
    updateStep nOutgoing containers deleteAtNodes
        ((List.range nOutgoing).map (loopHeaders base nOutgoing containers deleteAtNodes k)) k =
      some ((List.range nOutgoing).map (loopHeaders base nOutgoing containers deleteAtNodes (k + 1))) := by
  obtain ⟨container, hcontainer⟩ := exists_cycleNth hc k
  rw [updateStep, if_neg (Nat.pos_iff_ne_zero.mp hn), hcontainer]
  dsimp only [Option.bind_eq_bind, Option.bind_some]
  rw [modify_map_range]
  split
  next hd =>
    -- no expirer-queue nodes: only the container headers change
    subst hd
    refine congrArg some (List.map_congr_left fun i _ => ?_)
    rw [loopHeaders_succ]
    split <;> simp_all [setContainerUpdate, loopHeaders, cycleNth]
  next hd =>
    obtain ⟨node, hnode⟩ := exists_cycleNth hd k
    rw [hnode]
    dsimp only [Option.bind_some]
    rw [modify_map_range]
    refine congrArg some (List.map_congr_left fun i _ => ?_)
    rw [loopHeaders_succ, hcontainer, hnode]
    -- request `i` may take the container node, the expirer-queue node, both or neither
    by_cases hci : k % nOutgoing = i
    · subst hci
      by_cases hdi : nOutgoing - 1 - k % nOutgoing = k % nOutgoing <;>
        simp [hdi, setContainerUpdate, setDeleteAtHeaders, loopHeaders]
    · by_cases hdi : nOutgoing - 1 - k % nOutgoing = i
      · subst hdi
        simp [hci, setDeleteAtHeaders, loopHeaders]
      · simp [hci, hdi, loopHeaders]

/-- The loop of `_backend_requests` fills in the headers in closed form. -/
theorem foldlM_updateStep (hn : 0 < nOutgoing) (hc : containers ≠ []) (nUpdates : Nat) :
    (List.range nUpdates).foldlM (updateStep nOutgoing containers deleteAtNodes)
        (List.replicate nOutgoing base) =
      some ((List.range nOutgoing).map (loopHeaders base nOutgoing containers deleteAtNodes nUpdates)) := by
  induction nUpdates with
  | zero =>
    have hbase : loopHeaders base nOutgoing containers deleteAtNodes 0 = fun _ => base := by
      funext i
      simp [loopHeaders, assignedBy]
    rw [List.range_zero, List.foldlM_nil, hbase, List.map_const', List.length_range]
    rfl
  | succ k ih =>
    rw [List.range_succ, List.foldlM_append, ih]
    simp only [Option.bind_eq_bind, Option.bind_some, List.foldlM_cons, List.foldlM_nil]
    rw [updateStep_loopHeaders hn hc k]
    rfl

/-- `_backend_requests` succeeds when there are requests and container nodes, and request `i`
carries the nodes of the rounds sent to it. -/
theorem backendRequests_eq (hn : 0 < nOutgoing) (hc : containers ≠ []) (objectQuorum : Nat) :
    backendRequests base nOutgoing containers deleteAtNodes objectQuorum =
      some ((List.range nOutgoing).map fun i => setCleanExpiringObjectQueue i
        (loopHeaders base nOutgoing containers deleteAtNodes
          (numContainerUpdates containers.length (quorumSize containers.length) nOutgoing
            objectQuorum) i)) := by
  rw [backendRequests, foldlM_updateStep hn hc]
  exact congrArg some (mapIdx_map_range _ _ _)

end Loop

/-! ### What the requests name -/

theorem le_numContainerUpdates (containerReplicas containerQuorum objectReplicas objectQuorum : Nat) :
    containerReplicas ≤ numContainerUpdates containerReplicas containerQuorum objectReplicas objectQuorum :=
  Nat.le_max_right _ _

/-- `_backend_requests` succeeds when there are requests and container nodes, and names every
container node in some request: the first `Rc` rounds name each node once. -/
theorem backendRequests_names_containers (base : BackendHeaders Node) {nOutgoing : Nat}
    (hn : 0 < nOutgoing) {containers : List Node} (hc : containers ≠ [])
    (deleteAtNodes : List Node) (objectQuorum : Nat) :
    ∃ headers, backendRequests base nOutgoing containers deleteAtNodes objectQuorum = some headers ∧
      ∀ c ∈ containers, ∃ h ∈ headers, c ∈ h.containerNodes := by
  refine ⟨_, backendRequests_eq hn hc objectQuorum, fun c hmem => ?_⟩
  obtain ⟨j, hj, rfl⟩ := List.getElem_of_mem hmem
  refine ⟨_, List.mem_map_of_mem (List.mem_range.mpr (Nat.mod_lt j hn)), ?_⟩
  -- round `j` names the `j`-th node, in request `j % n_outgoing`
  have hround : j < numContainerUpdates containers.length (quorumSize containers.length) nOutgoing
      objectQuorum :=
    Nat.lt_of_lt_of_le hj (le_numContainerUpdates _ _ _ _)
  exact List.mem_append_right _ (mem_assignedBy hround rfl (cycleNth_of_lt hj))

theorem countP_le_length_flatMap {L : List Nat} {p : Nat → Bool} {G : Nat → List Node}
    (h : ∀ i ∈ L, p i = true → G i ≠ []) : L.countP p ≤ (L.flatMap G).length := by
  induction L with
  | nil => simp
  | cons i L ih =>
    have hL := ih fun j hj => h j (List.mem_cons_of_mem _ hj)
    rw [List.countP_cons, List.flatMap_cons, List.length_append]
    by_cases hp : p i = true
    · have hG := List.length_pos_of_ne_nil (h i List.mem_cons_self hp)
      rw [if_pos hp]
      omega
    · rw [if_neg hp]
      omega

theorem countP_le_countP_and_add {α : Type*} (p q : α → Bool) (L : List α) :
    L.countP p ≤ L.countP (fun a => p a && q a) + L.countP (fun a => !q a) := by
  induction L with
  | nil => simp
  | cons a L ih =>
    simp only [List.countP_cons]
    cases p a <;> cases q a <;> simp <;> omega

theorem countP_lt_range (bound n : Nat) :
    (List.range n).countP (fun i => decide (i < bound)) = min bound n := by
  induction n with
  | zero => simp
  | succ n ih =>
    rw [List.range_succ, List.countP_append, ih]
    by_cases h : n < bound <;> simp [h] <;> omega

/-- Indices that are not in `failed` number at least as many as the others less `failed`'s
length. -/
theorem countP_lt_range_not_mem (bound n : Nat) (failed : List Nat) :
    min bound n ≤ (List.range n).countP (fun i => decide (i < bound) && decide (i ∉ failed)) +
      failed.length := by
  have hfailed : (List.range n).countP (fun i => !decide (i ∉ failed)) ≤ failed.length := by
    rw [List.countP_eq_length_filter]
    refine (List.Nodup.subperm (List.nodup_range.filter _) fun i hi => ?_).length_le
    simpa using (List.mem_filter.mp hi).2
  have hsplit := countP_le_countP_and_add (fun i => decide (i < bound)) (fun i => decide (i ∉ failed))
    (List.range n)
  rw [countP_lt_range] at hsplit
  omega

/-- The count of `num_container_updates`' docstring: when no request carries two updates, the
requests left after at most `Ro - Qo` failures carry at least `Qc` updates. -/
theorem quorumSize_le_survivingContainerNodes {base : BackendHeaders Node} {nOutgoing : Nat}
    (hn : 0 < nOutgoing) {containers : List Node} (hc : containers ≠ [])
    {deleteAtNodes : List Node} {objectQuorum : Nat}
    (hone : numContainerUpdates containers.length (quorumSize containers.length) nOutgoing
      objectQuorum ≤ nOutgoing)
    {headers : List (BackendHeaders Node)}
    (hheaders : backendRequests base nOutgoing containers deleteAtNodes objectQuorum = some headers)
    {failed : List Nat} (hfailed : failed.length ≤ nOutgoing - objectQuorum) :
    quorumSize containers.length ≤ (survivingContainerNodes headers failed).length := by
  rw [backendRequests_eq hn hc, Option.some.injEq] at hheaders
  subst hheaders
  generalize hU : numContainerUpdates containers.length (quorumSize containers.length) nOutgoing
    objectQuorum = nUpdates at hone
  have hcount := countP_lt_range_not_mem nUpdates nOutgoing failed
  -- each request left whose index is a round carries that round's node
  have hcarried : ((List.range nOutgoing).filter (· ∉ failed)).countP (fun i => decide (i < nUpdates)) ≤
      (survivingContainerNodes ((List.range nOutgoing).map fun i => setCleanExpiringObjectQueue i
        (loopHeaders base nOutgoing containers deleteAtNodes nUpdates i)) failed).length := by
    rw [survivingContainerNodes, List.length_map, List.length_range]
    refine countP_le_length_flatMap fun i hi hround => ?_
    have hi' : i < nOutgoing := List.mem_range.mp (List.mem_filter.mp hi).1
    rw [List.getElem?_map, List.getElem?_range hi']
    obtain ⟨node, hnode⟩ := exists_cycleNth hc i
    exact List.ne_nil_of_mem (List.mem_append_right _
      (mem_assignedBy (of_decide_eq_true hround) (Nat.mod_eq_of_lt hi') hnode))
  rw [List.countP_filter] at hcarried
  have hmin : nUpdates ≤ min nUpdates nOutgoing := Nat.le_min.mpr ⟨Nat.le_refl _, hone⟩
  have hquorum : quorumSize containers.length + nOutgoing - objectQuorum ≤ nUpdates := by
    rw [← hU]
    exact Nat.le_max_left _ _
  have hle : quorumSize containers.length ≤ containers.length := by
    unfold quorumSize
    omega
  have hreplicas : containers.length ≤ nUpdates := hU ▸ le_numContainerUpdates _ _ _ _
  omega

/-- What `_backend_requests` guarantees of the container updates: it builds the requests, every
container node is named in one of them, and, when no request carries two updates, the requests
left after at most `Ro - Qo` failures still carry `Qc` updates. -/
theorem backendRequests_carries_container_updates (base : BackendHeaders Node) {nOutgoing : Nat}
    (hn : 0 < nOutgoing) {containers : List Node} (hc : containers ≠ [])
    (deleteAtNodes : List Node) (objectQuorum : Nat) :
    ∃ headers, backendRequests base nOutgoing containers deleteAtNodes objectQuorum = some headers ∧
      (∀ c ∈ containers, ∃ h ∈ headers, c ∈ h.containerNodes) ∧
      (numContainerUpdates containers.length (quorumSize containers.length) nOutgoing
          objectQuorum ≤ nOutgoing →
        ∀ failed : List Nat, failed.length ≤ nOutgoing - objectQuorum →
          quorumSize containers.length ≤ (survivingContainerNodes headers failed).length) := by
  obtain ⟨headers, hheaders, hnamed⟩ :=
    backendRequests_names_containers base hn hc deleteAtNodes objectQuorum
  exact ⟨headers, hheaders, hnamed, fun hone _ hfailed =>
    quorumSize_le_survivingContainerNodes hn hc hone hheaders hfailed⟩

/-- Three object requests and three container nodes: one update per request. -/
theorem backendRequests_carries_container_updates_three :
    0 < 3 ∧ [0, 1, 2] ≠ [] ∧
    ∃ headers, backendRequests (⟨[], [], none⟩ : BackendHeaders Nat) 3 [0, 1, 2] [] 2 =
        some headers ∧
      (∀ c ∈ [0, 1, 2], ∃ h ∈ headers, c ∈ h.containerNodes) ∧
      (numContainerUpdates [0, 1, 2].length (quorumSize [0, 1, 2].length) 3 2 ≤ 3 →
        ∀ failed : List Nat, failed.length ≤ 3 - 2 →
          quorumSize [0, 1, 2].length ≤ (survivingContainerNodes headers failed).length) :=
  ⟨by decide, by decide,
    backendRequests_carries_container_updates _ (by decide) (by decide) [] 2⟩

/-- Four object requests (an object ring of four replicas, quorum two) and three container
nodes `0`, `1`, `2` (quorum two): the four updates go to requests `0` to `3` and name nodes
`0`, `1`, `2`, `0`. When requests `1` and `2` fail, which the object quorum allows, the requests
left name only node `0`. -/
theorem backendRequests_loses_container_quorum :
    backendRequests (⟨[], [], none⟩ : BackendHeaders Nat) 4 [0, 1, 2] [] (quorumSize 4) =
        some [⟨[0], [], some true⟩, ⟨[1], [], some true⟩, ⟨[2], [], some false⟩,
          ⟨[0], [], some false⟩] ∧
      [1, 2].length ≤ 4 - quorumSize 4 ∧
      (survivingContainerNodes [⟨[0], [], some true⟩, ⟨[1], [], some true⟩, ⟨[2], [], some false⟩,
          ⟨[0], [], some false⟩] [1, 2]).dedup = [0] ∧
      [0].length < quorumSize [0, 1, 2].length :=
  ⟨by decide, by decide, by decide, by decide⟩

end Proxy

end Swift
