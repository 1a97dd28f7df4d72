import Swift.Common.Namespace
import Mathlib.Data.List.Sort
import Mathlib.Data.List.Dedup

/-!
# `find_paths`: the paths through a set of shard ranges

The sharder's `find_paths` treats the bounds of shard ranges as nodes and each range that is not
`SHRINKING` as an edge from its lower bound to its upper bound. It visits the nodes in ascending
order. `paths_to_node[node]` lists the paths that arrive at a node, and each of them is extended
with every edge leaving it: a clone of the path for all edges but the last, and the path itself
for the last. A node no path arrives at starts a new path.

Paths are mutable lists shared between `paths` and `paths_to_node`. Here `paths` holds the
content of every path made so far, in the order `clone_path` made them, and `paths_to_node` holds
the positions of paths in it. An edge is a shard range with its place in the input, so that a
range given twice is two edges, as two objects are in the source.

The loop over `paths_to_node[node]` walks a list that the loop body appends to. An edge whose
lower bound is its upper bound, which `Namespace` allows, appends to the very list being walked,
once for every path walked, and the loop never ends.

## Main results

* `length_pathsToNode_extendEdges` — extending a path adds an entry at the upper bound of each
  edge
* `findPaths_loops` — with a range that is not `SHRINKING` and whose bounds are equal,
  `find_paths` never returns
* `extendEdges_append_singleton` — one path's extension, in closed form
* `PathsState.Inv.foldlM` — the invariant of the search over the nodes: every path is a chain of
  edges, and every edge leaving a visited node lies on a path
* `findPaths_isSome`, `findPaths_paths` — when every range's lower bound is below its upper bound,
  `find_paths` returns, its paths are chains of the ranges that are not `SHRINKING`, and every
  such range lies on one of them
-/

namespace Swift

namespace Sharder

/-- `ShardRange.SHRINKING`. -/
def shrinking : Nat := 50

/-- A shard range as the sharder's path search reads it: its namespace and its state. -/
structure ShardRange extends Namespace where
  state : Nat

instance : DecidableEq ShardRange := fun a b =>
  decidable_of_iff (a.toNamespace = b.toNamespace ∧ a.state = b.state) (by
    constructor
    · rintro ⟨h₁, h₂⟩
      cases a
      cases b
      cases h₁
      cases h₂
      rfl
    · rintro rfl
      exact ⟨rfl, rfl⟩)

/-- A shard range with its place in the input. -/
abbrev Edge := ShardRange × Nat

/-- The locals of `find_paths`: the content of every path made so far, and `paths_to_node`, the
positions of the paths arriving at each node. -/
structure PathsState where
  paths : List (List Edge)
  pathsToNode : Bound → List Nat

/-- The edges of `find_paths`: the input ranges that are not `SHRINKING`, in input order. -/
def viableEdges (shardRanges : List ShardRange) : List Edge :=
  shardRanges.zipIdx.filter fun e => e.1.state != shrinking

/-- `sorted(node_successors.items())`: each lower bound of an edge, in ascending order, with the
edges leaving it in input order. -/
def nodeSuccessors (shardRanges : List ShardRange) : List (Bound × List Edge) :=
  (((viableEdges shardRanges).map (·.1.lower)).dedup.insertionSort (· ≤ ·)).map fun node =>
    (node, (viableEdges shardRanges).filter fun e => e.1.lower = node)

/-- `clone_path(other)`: a new path with the content of `other`, added to `paths`; its
position. -/
def clonePath (st : PathsState) (other : List Edge) : PathsState × Nat :=
  (⟨st.paths ++ [other], st.pathsToNode⟩, st.paths.length)

/-- `path.append(edge)` and `paths_to_node[edge.upper].append(path)`. -/
def extendPath (st : PathsState) (path : Nat) (edge : Edge) : PathsState :=
  ⟨st.paths.modify path (· ++ [edge]),
    Function.update st.pathsToNode edge.1.upper (st.pathsToNode edge.1.upper ++ [path])⟩

/-- The loop over the edges leaving a node, for one path arriving at it: a clone of the path for
each edge but the last, then the path itself for the last. -/
def extendEdges (pathToNode : Nat) : List Edge → PathsState → PathsState
  | [], st => st
  | [edge], st => extendPath st pathToNode edge
  | edge :: edge' :: rest, st =>
    let cloned := clonePath st (st.paths.getD pathToNode [])
    extendEdges pathToNode (edge' :: rest) (extendPath cloned.1 cloned.2 edge)

/-- `for path_to_node in paths_to_node[node]`, from position `i` of a list the body may append
to; `none` when `fuel` passes are not enough. -/
def visitPaths (node : Bound) (edges : List Edge) : Nat → Nat → PathsState → Option PathsState
  | 0, _, _ => none
  | fuel + 1, i, st =>
    match (st.pathsToNode node)[i]? with
    | none => some st
    | some pathToNode => visitPaths node edges fuel (i + 1) (extendEdges pathToNode edges st)

/-- A new path for a node no path arrives at: `paths_to_node[node].append(clone_path([]))`. -/
def startPath (st : PathsState) (node : Bound) : PathsState :=
  let cloned := clonePath st []
  ⟨cloned.1.paths,
    Function.update cloned.1.pathsToNode node (cloned.1.pathsToNode node ++ [cloned.2])⟩

/-- The visit of one node and the edges leaving it. -/
def visitNode (fuel : Nat) (st : PathsState) (entry : Bound × List Edge) : Option PathsState :=
  if entry.2 = [] then some st
  else
    let st := if st.pathsToNode entry.1 = [] then startPath st entry.1 else st
    visitPaths entry.1 entry.2 fuel 0 st

/-- `find_paths(shard_ranges)`, each node's loop allowed `fuel` passes: the paths, each as its
edges. -/
def findPaths (shardRanges : List ShardRange) (fuel : Nat) : Option (List (List Edge)) :=
  ((nodeSuccessors shardRanges).foldlM (visitNode fuel) ⟨[], fun _ => []⟩).map (·.paths)

/-! ### `paths_to_node` only grows -/

theorem pathsToNode_extendPath (st : PathsState) (path : Nat) (edge : Edge) (x : Bound) :
    (extendPath st path edge).pathsToNode x =
      if x = edge.1.upper then st.pathsToNode x ++ [path] else st.pathsToNode x := by
  simp only [extendPath, Function.update_apply]
  split
  next h => rw [h]
  next => rfl

/-- Extending a path adds an entry at `x` for each edge ending there, and changes no entry. -/
theorem length_pathsToNode_extendEdges (pathToNode : Nat) (edges : List Edge) (st : PathsState)
    (x : Bound) :
    ∃ ys, (extendEdges pathToNode edges st).pathsToNode x = st.pathsToNode x ++ ys ∧
      (edges.filter fun e => e.1.upper = x).length ≤ ys.length := by
  induction edges generalizing st with
  | nil => exact ⟨[], by simp [extendEdges]⟩
  | cons edge rest ih =>
    -- the first edge adds an entry at its upper bound, to a clone or to the path itself
    have hstep : ∀ (st' : PathsState) (p : Nat), st'.pathsToNode = st.pathsToNode →
        ∃ zs, (extendPath st' p edge).pathsToNode x = st.pathsToNode x ++ zs ∧
          (if edge.1.upper = x then 1 else 0) ≤ zs.length := by
      intro st' p hsame
      rw [pathsToNode_extendPath, hsame]
      by_cases hx : x = edge.1.upper
      · exact ⟨[p], by simp [hx]⟩
      · exact ⟨[], by simp [hx, Ne.symm hx]⟩
    cases rest with
    | nil =>
      obtain ⟨zs, hzs, hlen⟩ := hstep st pathToNode rfl
      refine ⟨zs, hzs, ?_⟩
      by_cases hx : edge.1.upper = x <;> simp_all
    | cons edge' rest =>
      obtain ⟨zs, hzs, hlen⟩ := hstep (clonePath st (st.paths.getD pathToNode [])).1
        (clonePath st (st.paths.getD pathToNode [])).2 rfl
      obtain ⟨ys, hys, hlen'⟩ := ih (extendPath (clonePath st (st.paths.getD pathToNode [])).1
        (clonePath st (st.paths.getD pathToNode [])).2 edge)
      refine ⟨zs ++ ys, ?_, ?_⟩
      · rw [extendEdges, hys, hzs, List.append_assoc]
      · rw [List.filter_cons, List.length_append]
        split <;> simp_all <;> omega

/-! ### An edge from a node to itself -/

section Loop

variable {node : Bound} {edges : List Edge}

/-- When an edge leaving the node ends at it, each pass over `paths_to_node[node]` adds to it, so
the walk is never past its end. -/
theorem visitPaths_loops (hloop : ∃ e ∈ edges, e.1.upper = node) (fuel : Nat) :
    ∀ i (st : PathsState), i < (st.pathsToNode node).length →
      visitPaths node edges fuel i st = none := by
  induction fuel with
  | zero => intro i st _; rfl
  | succ fuel ih =>
    intro i st hi
    rw [visitPaths, List.getElem?_eq_getElem hi]
    dsimp only
    apply ih
    obtain ⟨ys, hys, hlen⟩ := length_pathsToNode_extendEdges (st.pathsToNode node)[i] edges st node
    -- the self-loop adds at least one entry
    have hpos : 0 < (edges.filter fun e => e.1.upper = node).length := by
      obtain ⟨e, he, heq⟩ := hloop
      exact List.length_pos_of_mem (List.mem_filter.mpr ⟨he, by simp [heq]⟩)
    rw [hys, List.length_append]
    omega

/-- The visit of a node with an edge to itself never ends. -/
theorem visitNode_loops (hloop : ∃ e ∈ edges, e.1.upper = node) (fuel : Nat) (st : PathsState) :
    visitNode fuel st (node, edges) = none := by
  have hne : edges ≠ [] := by
    obtain ⟨e, he, -⟩ := hloop
    exact List.ne_nil_of_mem he
  rw [visitNode, if_neg hne]
  dsimp only
  apply visitPaths_loops hloop
  split
  next hnil =>
    simp [startPath, clonePath]
  next hnil =>
    exact List.length_pos_of_ne_nil hnil

theorem foldlM_eq_none {α β : Type*} {f : β → α → Option β} {l : List α} {a : α} (ha : a ∈ l)
    (hf : ∀ b, f b a = none) (init : β) : l.foldlM f init = none := by
  obtain ⟨l₁, l₂, rfl⟩ := List.append_of_mem ha
  rw [List.foldlM_append]
  cases h : l₁.foldlM f init with
  | none => rfl
  | some b => simp [hf b]

theorem mem_nodeSuccessors {shardRanges : List ShardRange} {e : Edge}
    (he : e ∈ viableEdges shardRanges) :
    (e.1.lower, (viableEdges shardRanges).filter fun e' => e'.1.lower = e.1.lower) ∈
      nodeSuccessors shardRanges := by
  refine List.mem_map.mpr ⟨e.1.lower, ?_, rfl⟩
  exact (List.mem_insertionSort _).mpr (List.mem_dedup.mpr (List.mem_map_of_mem he))

end Loop

/-- A range that is not `SHRINKING` is an edge, at its place in the input. -/
theorem exists_mem_viableEdges {shardRanges : List ShardRange} {range : ShardRange}
    (hrange : range ∈ shardRanges) (hstate : range.state ≠ shrinking) :
    ∃ i, (range, i) ∈ viableEdges shardRanges := by
  obtain ⟨i, hi, hget⟩ := List.getElem_of_mem hrange
  refine ⟨i, List.mem_filter.mpr ⟨?_, by simpa using hstate⟩⟩
  rw [List.mem_zipIdx_iff_getElem?]
  simp [← hget]

/-- A range that is not `SHRINKING` and whose lower bound is its upper bound is an edge from its
node to itself. Whatever the other ranges, `find_paths` never returns: the visit of that node
walks `paths_to_node[node]` while adding to it. -/
theorem findPaths_loops (shardRanges : List ShardRange) (range : ShardRange)
    (hrange : range ∈ shardRanges) (hstate : range.state ≠ shrinking)
    (hbounds : range.lower = range.upper) (fuel : Nat) : findPaths shardRanges fuel = none := by
  obtain ⟨i, hedge⟩ := exists_mem_viableEdges hrange hstate
  rw [findPaths, foldlM_eq_none (mem_nodeSuccessors hedge) (visitNode_loops ⟨(range, i), ?_, ?_⟩ fuel),
    Option.map_none]
  · exact List.mem_filter.mpr ⟨hedge, by simp⟩
  · exact hbounds.symm

/-- An `ACTIVE` range (state `40`) over the empty namespace `(c, c]`. -/
def pointRange : ShardRange := ⟨⟨".shards_a/c-0", .name "c" (by decide), .name "c" (by decide), le_rfl⟩, 40⟩

theorem findPaths_loops_pointRange :
    pointRange.state ≠ shrinking ∧ pointRange.lower = pointRange.upper ∧
      findPaths [pointRange] 100 = none :=
  ⟨by decide, rfl,
    findPaths_loops [pointRange] pointRange (List.mem_singleton_self _) (by decide) rfl 100⟩

/-! ### One path's extension, all at once -/

theorem modify_append_of_lt {α : Type*} (l l' : List α) {i : Nat} (hi : i < l.length)
    (f : α → α) : (l ++ l').modify i f = l.modify i f ++ l' := by
  refine List.ext_getElem? fun j => ?_
  rw [List.getElem?_modify]
  rcases Nat.lt_or_ge j l.length with hj | hj
  · rw [List.getElem?_append_left hj, List.getElem?_append_left (by simpa using hj),
      List.getElem?_modify]
  · have hij : i ≠ j := by omega
    rw [List.getElem?_append_right hj, List.getElem?_append_right (by simpa using hj),
      List.length_modify]
    simp [hij]

theorem modify_concat_length {α : Type*} (l : List α) (a : α) (f : α → α) :
    (l ++ [a]).modify l.length f = l ++ [f a] := by
  refine List.ext_getElem? fun j => ?_
  rw [List.getElem?_modify]
  rcases Nat.lt_trichotomy j l.length with hj | rfl | hj
  · simp [List.getElem?_append_left hj, Nat.ne_of_gt hj]
  · simp
  · rw [List.getElem?_eq_none (by simp; omega), List.getElem?_eq_none (by simp; omega)]
    rfl

theorem extendEdges_cons_of_ne_nil (p : Nat) (edge : Edge) {rest : List Edge} (hrest : rest ≠ [])
    (st : PathsState) :
    extendEdges p (edge :: rest) st =
      extendEdges p rest (extendPath (clonePath st (st.paths.getD p [])).1
        (clonePath st (st.paths.getD p [])).2 edge) := by
  cases rest with
  | nil => exact absurd rfl hrest
  | cons edge' rest => rfl

/-- Extending the path at position `p` with the edges `init ++ [last]`: the path takes `last`, a
clone of it takes each edge of `init`, and each lands in `paths_to_node` at its edge's upper
bound, clones first. -/
theorem extendEdges_append_singleton (p : Nat) (init : List Edge) (last : Edge) (st : PathsState)
    (hp : p < st.paths.length) :
    extendEdges p (init ++ [last]) st =
      ⟨st.paths.modify p (· ++ [last]) ++ init.map fun e => st.paths.getD p [] ++ [e],
        fun x => st.pathsToNode x ++
          ((init.zipIdx st.paths.length).filter fun e => e.1.1.upper = x).map Prod.snd ++
          if x = last.1.upper then [p] else []⟩ := by
  induction init generalizing st with
  | nil =>
    simp only [List.nil_append, extendEdges, extendPath, List.map_nil, List.append_nil,
      List.zipIdx_nil, List.filter_nil]
    congr 1
    funext x
    rw [Function.update_apply]
    split <;> simp_all
  | cons edge init ih =>
    rw [List.cons_append, extendEdges_cons_of_ne_nil p edge (by simp)]
    -- the clone of the path takes `edge` and goes to the end of `paths`
    have hpaths : (extendPath (clonePath st (st.paths.getD p [])).1
        (clonePath st (st.paths.getD p [])).2 edge).paths =
        st.paths ++ [st.paths.getD p [] ++ [edge]] := by
      simp only [extendPath, clonePath]
      exact modify_concat_length _ _ _
    have hp' : p < (extendPath (clonePath st (st.paths.getD p [])).1
        (clonePath st (st.paths.getD p [])).2 edge).paths.length := by
      rw [hpaths, List.length_append]
      omega
    rw [ih _ hp']
    simp only [hpaths]
    have hget : (st.paths ++ [st.paths.getD p [] ++ [edge]]).getD p [] = st.paths.getD p [] := by
      rw [List.getD_eq_getElem?_getD, List.getD_eq_getElem?_getD, List.getElem?_append_left hp]
    rw [hget, modify_append_of_lt _ _ hp]
    congr 1
    · simp
    · funext x
      simp only [extendPath, clonePath, List.length_append, List.length_singleton,
        List.zipIdx_cons, List.filter_cons, Function.update_apply]
      by_cases hx : x = edge.1.upper
      · subst hx
        simp
      · simp [hx, Ne.symm hx]

/-! ### What the search keeps when no edge leaves and enters the same node -/

/-- A path of edges of `edges`, each beginning where the one before it ends. -/
def PathOf (edges : List Edge) (c : List Edge) : Prop :=
  (∀ e ∈ c, e ∈ edges) ∧ c.IsChain fun a b => a.1.upper = b.1.lower

/-- What holds between two node visits, with `U` the nodes not visited yet: every path is a path
of the edges, the paths listed at an unvisited node end there, each once, and every edge leaving
a visited node lies on a path. -/
structure PathsState.Inv (edges : List Edge) (U : Bound → Prop) (st : PathsState) : Prop where
  chain : ∀ c ∈ st.paths, PathOf edges c
  arrive : ∀ x, U x → ∀ p ∈ st.pathsToNode x,
    ∃ c, st.paths[p]? = some c ∧ c.getLast?.map (·.1.upper) = some x
  nodup : ∀ x, U x → (st.pathsToNode x).Nodup
  covered : ∀ e ∈ edges, ¬U e.1.lower → ∃ c ∈ st.paths, e ∈ c

theorem pathOf_append_singleton {edges : List Edge} {c : List Edge} {e : Edge}
    (hc : PathOf edges c) (he : e ∈ edges) (hend : c = [] ∨ c.getLast?.map (·.1.upper) = some e.1.lower) :
    PathOf edges (c ++ [e]) := by
  refine ⟨fun e' he' => ?_, ?_⟩
  · rcases List.mem_append.mp he' with h | h
    · exact hc.1 e' h
    · rw [List.mem_singleton.mp h]; exact he
  · rcases hend with rfl | hend
    · exact List.isChain_singleton e
    · obtain ⟨last, hlast, hup⟩ := Option.map_eq_some_iff.mp hend
      rw [List.isChain_append]
      refine ⟨hc.2, List.isChain_singleton e, fun a ha b hb => ?_⟩
      rw [hlast, Option.mem_some_iff] at ha
      rw [List.head?_cons, Option.mem_some_iff] at hb
      subst ha hb
      exact hup

/-! ### One extension, path by path -/

section Extension

variable {st : PathsState} {p : Nat} {c : List Edge} {init : List Edge} {last : Edge}

theorem lt_length_of_getElem? (hc : st.paths[p]? = some c) : p < st.paths.length :=
  (List.getElem?_eq_some_iff.mp hc).1

/-- A path listed before the extension keeps its content, unless it is the one extended. -/
theorem getElem?_paths_extendEdges_of_lt (hc : st.paths[p]? = some c) {q : Nat}
    (hq : q < st.paths.length) :
    (extendEdges p (init ++ [last]) st).paths[q]? =
      if p = q then some (c ++ [last]) else st.paths[q]? := by
  rw [extendEdges_append_singleton p init last st (lt_length_of_getElem? hc)]
  dsimp only
  rw [List.getElem?_append_left (by simpa using hq), List.getElem?_modify]
  split
  next h => subst h; rw [hc]; rfl
  next => cases st.paths[q]? <;> rfl

/-- The clones come after the paths there were, one for each edge but the last. -/
theorem getElem?_paths_extendEdges_add (hc : st.paths[p]? = some c) (j : Nat) :
    (extendEdges p (init ++ [last]) st).paths[st.paths.length + j]? =
      init[j]?.map fun e => c ++ [e] := by
  rw [extendEdges_append_singleton p init last st (lt_length_of_getElem? hc)]
  dsimp only
  rw [List.getElem?_append_right (by simp), List.length_modify, Nat.add_sub_cancel_left,
    List.getElem?_map, List.getD_eq_getElem?_getD, hc]
  rfl

/-- Every path after the extension is one there was, or the extended path's content followed by
one of the edges. -/
theorem mem_paths_extendEdges (hc : st.paths[p]? = some c) {c' : List Edge}
    (h : c' ∈ (extendEdges p (init ++ [last]) st).paths) :
    c' ∈ st.paths ∨ ∃ e ∈ init ++ [last], c' = c ++ [e] := by
  obtain ⟨q, hq⟩ := List.mem_iff_getElem?.mp h
  rcases Nat.lt_or_ge q st.paths.length with hlt | hge
  · rw [getElem?_paths_extendEdges_of_lt hc hlt] at hq
    split at hq
    · cases hq
      exact Or.inr ⟨last, by simp, rfl⟩
    · exact Or.inl (List.mem_iff_getElem?.mpr ⟨q, hq⟩)
  · obtain ⟨j, rfl⟩ := Nat.exists_eq_add_of_le hge
    rw [getElem?_paths_extendEdges_add hc] at hq
    obtain ⟨e, he, rfl⟩ := Option.map_eq_some_iff.mp hq
    exact Or.inr ⟨e, List.mem_append_left _ (List.mem_of_getElem? he), rfl⟩

/-- What the extension adds to `paths_to_node[x]`: the clones and the path whose new edge ends at
`x`, each once, and each listed with its new content. -/
theorem pathsToNode_extendEdges (hc : st.paths[p]? = some c) (x : Bound) :
    ∃ ys, (extendEdges p (init ++ [last]) st).pathsToNode x = st.pathsToNode x ++ ys ∧
      ys.Nodup ∧ ∀ q ∈ ys, (q = p ∨ st.paths.length ≤ q) ∧
        ∃ e ∈ init ++ [last], e.1.upper = x ∧
          (extendEdges p (init ++ [last]) st).paths[q]? = some (c ++ [e]) := by
  have hp := lt_length_of_getElem? hc
  have hform := extendEdges_append_singleton p init last st hp
  refine ⟨((init.zipIdx st.paths.length).filter fun e => e.1.1.upper = x).map Prod.snd ++
      (if x = last.1.upper then [p] else []), ?_, ?_, ?_⟩
  · rw [hform]
    exact List.append_assoc _ _ _
  · -- the clones' positions are distinct and past the path's
    have hclones : (((init.zipIdx st.paths.length).filter fun e => e.1.1.upper = x).map
        Prod.snd).Nodup := by
      refine List.Nodup.sublist (List.Sublist.map _ List.filter_sublist) ?_
      rw [List.zipIdx_map_snd]
      exact List.nodup_range'
    split
    · refine List.nodup_append.mpr ⟨hclones, List.nodup_singleton p, fun a ha b hb => ?_⟩
      rw [List.mem_singleton.mp hb]
      obtain ⟨⟨e, i⟩, hmem, rfl⟩ := List.mem_map.mp ha
      have := (List.mem_zipIdx (List.mem_filter.mp hmem).1).1
      simp only at this ⊢
      omega
    · simpa using hclones
  · intro q hq
    rcases List.mem_append.mp hq with hq | hq
    · obtain ⟨⟨e, i⟩, hmem, rfl⟩ := List.mem_map.mp hq
      obtain ⟨hzip, hup⟩ := List.mem_filter.mp hmem
      obtain ⟨hle, -, -⟩ := List.mem_zipIdx hzip
      obtain ⟨j, rfl⟩ := Nat.exists_eq_add_of_le hle
      have hj : init[j]? = some e := List.mk_add_mem_zipIdx_iff_getElem?.mp hzip
      refine ⟨Or.inr hle, e, List.mem_append_left _ (List.mem_of_getElem? hj), by simpa using hup, ?_⟩
      rw [getElem?_paths_extendEdges_add hc, hj]
      rfl
    · split at hq
      next hx =>
        rw [List.mem_singleton.mp hq]
        refine ⟨Or.inl rfl, last, by simp, hx.symm, ?_⟩
        rw [getElem?_paths_extendEdges_of_lt hc hp, if_pos rfl]
      next => cases hq

end Extension

/-! ### The visit of a node -/

/-- Contents only grow: every path keeps what it had, perhaps with more after it. -/
def Grows (st st' : PathsState) : Prop :=
  ∀ (q : Nat) (c : List Edge), st.paths[q]? = some c → ∃ c', st'.paths[q]? = some c' ∧ c <+: c'

theorem grows_refl (st : PathsState) : Grows st st := fun _ c hc => ⟨c, hc, List.prefix_refl c⟩

theorem Grows.trans {st st' st'' : PathsState} (h : Grows st st') (h' : Grows st' st'') :
    Grows st st'' := by
  intro q c hc
  obtain ⟨c', hc', hpre⟩ := h q c hc
  obtain ⟨c'', hc'', hpre'⟩ := h' q c' hc'
  exact ⟨c'', hc'', hpre.trans hpre'⟩

/-- An edge on a path stays on a path. -/
theorem Grows.covers {st st' : PathsState} (h : Grows st st') {e : Edge}
    (he : ∃ c ∈ st.paths, e ∈ c) : ∃ c ∈ st'.paths, e ∈ c := by
  obtain ⟨c, hc, hec⟩ := he
  obtain ⟨q, hq⟩ := List.mem_iff_getElem?.mp hc
  obtain ⟨c', hc', hpre⟩ := h q c hq
  exact ⟨c', List.mem_of_getElem? hc', hpre.subset hec⟩

theorem grows_extendEdges {st : PathsState} {p : Nat} {c : List Edge} {init : List Edge}
    {last : Edge} (hc : st.paths[p]? = some c) : Grows st (extendEdges p (init ++ [last]) st) := by
  intro q c' hq
  rw [getElem?_paths_extendEdges_of_lt hc (lt_length_of_getElem? hq)]
  split
  next h =>
    subst h
    rw [hc] at hq
    cases hq
    exact ⟨_, rfl, List.prefix_append c [last]⟩
  next => exact ⟨c', hq, List.prefix_refl c'⟩

/-- Extending paths never touches `paths_to_node` at a node no edge ends at. -/
theorem pathsToNode_extendEdges_of_ne {x : Bound} (p : Nat) {edges : List Edge}
    (hne : ∀ e ∈ edges, e.1.upper ≠ x) (st : PathsState) :
    (extendEdges p edges st).pathsToNode x = st.pathsToNode x := by
  induction edges generalizing st with
  | nil => rfl
  | cons edge rest ih =>
    have hedge : x ≠ edge.1.upper := fun h => hne edge List.mem_cons_self h.symm
    cases rest with
    | nil => rw [extendEdges, pathsToNode_extendPath, if_neg hedge]
    | cons edge' rest =>
      rw [extendEdges_cons_of_ne_nil p edge (List.cons_ne_nil _ _),
        ih (fun e he => hne e (List.mem_cons_of_mem _ he)), pathsToNode_extendPath,
        if_neg hedge]
      rfl

section Visit

variable {edges : List Edge} {U : Bound → Prop} {node : Bound}

/-- What holds during the visit of `node`, with `todo` the paths arriving at it still to be
extended: those end at `node`, or are the new empty path, and no other unvisited node lists
them. -/
structure VisitInv (edges : List Edge) (U : Bound → Prop) (node : Bound) (todo : List Nat)
    (st : PathsState) : Prop where
  chain : ∀ c ∈ st.paths, PathOf edges c
  todo_end : ∀ p ∈ todo, ∃ c, st.paths[p]? = some c ∧
    (c = [] ∨ c.getLast?.map (·.1.upper) = some node)
  todo_nodup : todo.Nodup
  arrive : ∀ x, U x → x ≠ node → ∀ q ∈ st.pathsToNode x,
    ∃ c, st.paths[q]? = some c ∧ c.getLast?.map (·.1.upper) = some x
  nodup : ∀ x, U x → x ≠ node → (st.pathsToNode x).Nodup
  todo_unlisted : ∀ x, U x → x ≠ node → ∀ p ∈ todo, p ∉ st.pathsToNode x

/-- The step: extending the first path still to extend keeps the invariant, lets every path
grow, and puts every edge leaving the node on a path. -/
theorem VisitInv.extendEdges {p : Nat} {todo : List Nat} {st : PathsState}
    {nodeEdges : List Edge} (hinv : VisitInv edges U node (p :: todo) st) (hne : nodeEdges ≠ [])
    (hedges : ∀ e ∈ nodeEdges, e ∈ edges ∧ e.1.lower = node) :
    VisitInv edges U node todo (Sharder.extendEdges p nodeEdges st) ∧
      Grows st (Sharder.extendEdges p nodeEdges st) ∧
      ∀ e ∈ nodeEdges, ∃ c ∈ (Sharder.extendEdges p nodeEdges st).paths, e ∈ c := by
  obtain ⟨c, hc, hend⟩ := hinv.todo_end p List.mem_cons_self
  obtain ⟨init, last, rfl⟩ : ∃ init last, nodeEdges = init ++ [last] :=
    ⟨_, _, (List.dropLast_append_getLast hne).symm⟩
  have hp := lt_length_of_getElem? hc
  -- the path ends where the node's edges begin, so each extension is a path
  have hnew : ∀ e ∈ init ++ [last], PathOf edges (c ++ [e]) := fun e he =>
    pathOf_append_singleton (hinv.chain c (List.mem_of_getElem? hc)) (hedges e he).1
      (by rw [(hedges e he).2]; exact hend)
  -- the paths still to extend are other paths, made before the clones
  have htodo : ∀ q ∈ todo, q ≠ p ∧ q < st.paths.length := by
    intro q hq
    refine ⟨fun h => (List.nodup_cons.mp hinv.todo_nodup).1 (h ▸ hq), ?_⟩
    obtain ⟨c', hc', -⟩ := hinv.todo_end q (List.mem_cons_of_mem _ hq)
    exact lt_length_of_getElem? hc'
  -- a path listed at another unvisited node is not the extended one
  have hlisted : ∀ x, U x → x ≠ node → ∀ q ∈ st.pathsToNode x, q ≠ p ∧ q < st.paths.length := by
    intro x hx hxn q hq
    refine ⟨fun h => hinv.todo_unlisted x hx hxn p List.mem_cons_self (h ▸ hq), ?_⟩
    obtain ⟨c', hc', -⟩ := hinv.arrive x hx hxn q hq
    exact lt_length_of_getElem? hc'
  refine ⟨⟨?_, ?_, (List.nodup_cons.mp hinv.todo_nodup).2, ?_, ?_, ?_⟩, grows_extendEdges hc, ?_⟩
  · intro c' hc'
    rcases mem_paths_extendEdges hc hc' with h | ⟨e, he, rfl⟩
    · exact hinv.chain c' h
    · exact hnew e he
  · intro q hq
    obtain ⟨hqp, hqlt⟩ := htodo q hq
    rw [getElem?_paths_extendEdges_of_lt hc hqlt, if_neg (Ne.symm hqp)]
    exact hinv.todo_end q (List.mem_cons_of_mem _ hq)
  · intro x hx hxn q hq
    obtain ⟨ys, hys, -, hyq⟩ := pathsToNode_extendEdges hc x
    rw [hys] at hq
    rcases List.mem_append.mp hq with hq | hq
    · obtain ⟨hqp, hqlt⟩ := hlisted x hx hxn q hq
      rw [getElem?_paths_extendEdges_of_lt hc hqlt, if_neg (Ne.symm hqp)]
      exact hinv.arrive x hx hxn q hq
    · obtain ⟨-, e, -, hup, hget⟩ := hyq q hq
      exact ⟨c ++ [e], hget, by simp [hup]⟩
  · intro x hx hxn
    obtain ⟨ys, hys, hnd, hyq⟩ := pathsToNode_extendEdges hc x
    rw [hys]
    refine List.nodup_append.mpr ⟨hinv.nodup x hx hxn, hnd, fun a ha b hb hab => ?_⟩
    subst hab
    obtain ⟨hap, halt⟩ := hlisted x hx hxn a ha
    rcases (hyq a hb).1 with h | h
    · exact hap h
    · omega
  · intro x hx hxn q hq hmem
    obtain ⟨ys, hys, -, hyq⟩ := pathsToNode_extendEdges hc x
    rw [hys] at hmem
    obtain ⟨hqp, hqlt⟩ := htodo q hq
    rcases List.mem_append.mp hmem with h | h
    · exact hinv.todo_unlisted x hx hxn q (List.mem_cons_of_mem _ hq) h
    · rcases (hyq q h).1 with h' | h'
      · exact hqp h'
      · omega
  · intro e he
    rcases List.mem_append.mp he with he | he
    · obtain ⟨j, hj⟩ := List.mem_iff_getElem?.mp he
      have hget : (Sharder.extendEdges p (init ++ [last]) st).paths[st.paths.length + j]? =
          some (c ++ [e]) := by
        rw [getElem?_paths_extendEdges_add hc, hj]
        rfl
      exact ⟨c ++ [e], List.mem_of_getElem? hget, by simp⟩
    · rw [List.mem_singleton.mp he]
      have hget : (Sharder.extendEdges p (init ++ [last]) st).paths[p]? = some (c ++ [last]) := by
        rw [getElem?_paths_extendEdges_of_lt hc hp, if_pos rfl]
      exact ⟨c ++ [last], List.mem_of_getElem? hget, by simp⟩

/-- The run over the paths arriving at the node: the invariant holds at the end, every path has
grown, and when some path arrived every edge leaving the node lies on a path. -/
theorem VisitInv.foldl {nodeEdges : List Edge} (hne : nodeEdges ≠ [])
    (hedges : ∀ e ∈ nodeEdges, e ∈ edges ∧ e.1.lower = node) :
    ∀ {todo : List Nat} {st : PathsState}, VisitInv edges U node todo st →
      VisitInv edges U node [] (todo.foldl (fun st p => Sharder.extendEdges p nodeEdges st) st) ∧
      Grows st (todo.foldl (fun st p => Sharder.extendEdges p nodeEdges st) st) ∧
      (todo ≠ [] → ∀ e ∈ nodeEdges,
        ∃ c ∈ (todo.foldl (fun st p => Sharder.extendEdges p nodeEdges st) st).paths, e ∈ c)
  | [], _, hinv => ⟨hinv, grows_refl _, fun h => absurd rfl h⟩
  | p :: todo, st, hinv => by
    obtain ⟨hinv', hgrow, hcover⟩ := hinv.extendEdges hne hedges
    obtain ⟨hend, hgrow', -⟩ := VisitInv.foldl hne hedges hinv'
    exact ⟨hend, hgrow.trans hgrow', fun _ e he => hgrow'.covers (hcover e he)⟩

/-- The state the visit of a node starts from: a new empty path when no path arrives. -/
theorem PathsState.Inv.visitStart {st : PathsState} (hinv : st.Inv edges U) (hU : U node) :
    let st₀ := if st.pathsToNode node = [] then startPath st node else st
    VisitInv edges U node (st₀.pathsToNode node) st₀ ∧ Grows st st₀ ∧ st₀.pathsToNode node ≠ [] := by
  dsimp only
  split
  next hnil =>
    -- the new path is last in `paths`, and listed at the node only
    have hold : ∀ (q : Nat) (c : List Edge), st.paths[q]? = some c →
        (startPath st node).paths[q]? = some c := by
      intro q c hq
      simp only [startPath, clonePath]
      rw [List.getElem?_append_left (lt_length_of_getElem? hq), hq]
    have hto : ∀ x, x ≠ node → (startPath st node).pathsToNode x = st.pathsToNode x := by
      intro x hx
      simp [startPath, clonePath, hx]
    have hat : (startPath st node).pathsToNode node = [st.paths.length] := by
      simp [startPath, clonePath, hnil]
    refine ⟨⟨?_, ?_, ?_, ?_, ?_, ?_⟩, fun q c hq => ⟨c, hold q c hq, List.prefix_refl c⟩, ?_⟩
    · intro c hc
      simp only [startPath, clonePath, List.mem_append, List.mem_singleton] at hc
      rcases hc with hc | rfl
      · exact hinv.chain c hc
      · exact ⟨fun _ h => absurd h List.not_mem_nil, List.isChain_nil⟩
    · intro p hp
      rw [hat, List.mem_singleton] at hp
      subst hp
      exact ⟨[], by simp [startPath, clonePath], Or.inl rfl⟩
    · rw [hat]
      exact List.nodup_singleton _
    · intro x hx hxn q hq
      rw [hto x hxn] at hq
      obtain ⟨c, hc, hlast⟩ := hinv.arrive x hx q hq
      exact ⟨c, hold q c hc, hlast⟩
    · intro x hx hxn
      rw [hto x hxn]
      exact hinv.nodup x hx
    · intro x hx hxn p hp hmem
      rw [hat, List.mem_singleton] at hp
      rw [hto x hxn] at hmem
      obtain ⟨c, hc, -⟩ := hinv.arrive x hx p hmem
      have := lt_length_of_getElem? hc
      omega
    · rw [hat]
      exact List.cons_ne_nil _ _
  next hnil =>
    refine ⟨⟨hinv.chain, fun p hp => ?_, hinv.nodup node hU, fun x hx _ => hinv.arrive x hx,
      fun x hx _ => hinv.nodup x hx, fun x hx hxn p hp hmem => ?_⟩, grows_refl st, hnil⟩
    · obtain ⟨c, hc, hlast⟩ := hinv.arrive node hU p hp
      exact ⟨c, hc, Or.inr hlast⟩
    · -- a path ends at one node only
      obtain ⟨c, hc, hlast⟩ := hinv.arrive node hU p hp
      obtain ⟨c', hc', hlast'⟩ := hinv.arrive x hx p hmem
      rw [hc] at hc'
      cases hc'
      rw [hlast] at hlast'
      exact hxn (Option.some.inj hlast').symm

end Visit

/-! ### `for path_to_node in paths_to_node[node]` when no edge comes back -/

section NoLoop

variable {node : Bound} {edges : List Edge}

/-- Without an edge back to the node, the walk over `paths_to_node[node]` walks a list that
stays as it was: it is the extension of each path in turn. -/
theorem visitPaths_eq_some (hloop : ∀ e ∈ edges, e.1.upper ≠ node) :
    ∀ fuel i (st st' : PathsState), visitPaths node edges fuel i st = some st' →
      st' = ((st.pathsToNode node).drop i).foldl (fun st p => extendEdges p edges st) st := by
  intro fuel
  induction fuel with
  | zero => intro i st st' h; cases h
  | succ fuel ih =>
    intro i st st' h
    rw [visitPaths] at h
    split at h
    next hnone =>
      cases h
      rw [List.drop_eq_nil_of_le (List.getElem?_eq_none_iff.mp hnone), List.foldl_nil]
    next p hp =>
      rw [ih (i + 1) _ st' h, pathsToNode_extendEdges_of_ne p hloop,
        List.drop_eq_getElem_cons (List.getElem?_eq_some_iff.mp hp).1]
      rw [(List.getElem?_eq_some_iff.mp hp).2]
      rfl

/-- Enough fuel for the walk: one pass more than the paths left to walk. -/
theorem visitPaths_isSome (hloop : ∀ e ∈ edges, e.1.upper ≠ node) :
    ∀ fuel i (st : PathsState), (st.pathsToNode node).length - i < fuel →
      (visitPaths node edges fuel i st).isSome := by
  intro fuel
  induction fuel with
  | zero => intro i st h; omega
  | succ fuel ih =>
    intro i st h
    rw [visitPaths]
    split
    next => rfl
    next p hp =>
      apply ih
      rw [pathsToNode_extendEdges_of_ne p hloop]
      have := (List.getElem?_eq_some_iff.mp hp).1
      omega

/-- With enough fuel, the walk is the extension of each path arriving at the node in turn. -/
theorem visitNode_eq_some (hloop : ∀ e ∈ edges, e.1.upper ≠ node) (hne : edges ≠ [])
    (st : PathsState) {fuel : Nat}
    (hfuel : ((if st.pathsToNode node = [] then startPath st node else st).pathsToNode node).length
      < fuel) :
    visitNode fuel st (node, edges) =
      some (((if st.pathsToNode node = [] then startPath st node else st).pathsToNode node).foldl
        (fun st p => extendEdges p edges st)
        (if st.pathsToNode node = [] then startPath st node else st)) := by
  rw [visitNode, if_neg hne]
  dsimp only
  obtain ⟨st', h'⟩ := Option.isSome_iff_exists.mp (visitPaths_isSome hloop fuel 0 _ (by omega))
  rw [h', visitPaths_eq_some hloop _ _ _ _ h', List.drop_zero]

end NoLoop

/-! ### More fuel -/

section Fuel

/-- Once the walk has returned, more fuel gives the same result. -/
theorem visitPaths_mono {node : Bound} {edges : List Edge} {fuel fuel' : Nat}
    (hle : fuel ≤ fuel') :
    ∀ {i : Nat} {st st' : PathsState}, visitPaths node edges fuel i st = some st' →
      visitPaths node edges fuel' i st = some st' := by
  induction fuel generalizing fuel' with
  | zero => intro i st st' h; cases h
  | succ fuel ih =>
    obtain ⟨fuel', rfl⟩ : ∃ f, fuel' = f + 1 := ⟨fuel' - 1, by omega⟩
    intro i st st' h
    rw [visitPaths] at h ⊢
    cases hget : (st.pathsToNode node)[i]? with
    | none => simpa [hget] using h
    | some p =>
      simp only [hget] at h ⊢
      exact ih (by omega) h

theorem visitNode_mono {fuel fuel' : Nat} (hle : fuel ≤ fuel') {st st' : PathsState}
    {entry : Bound × List Edge} (h : visitNode fuel st entry = some st') :
    visitNode fuel' st entry = some st' := by
  unfold visitNode at h ⊢
  split at h
  next hnil => rwa [if_pos hnil]
  next hne =>
    rw [if_neg hne]
    exact visitPaths_mono hle h

theorem foldlM_visitNode_mono {fuel fuel' : Nat} (hle : fuel ≤ fuel') :
    ∀ {entries : List (Bound × List Edge)} {st st' : PathsState},
      entries.foldlM (visitNode fuel) st = some st' →
        entries.foldlM (visitNode fuel') st = some st'
  | [], _, _, h => h
  | entry :: rest, st, st', h => by
    rw [List.foldlM_cons] at h ⊢
    cases hv : visitNode fuel st entry with
    | none => rw [hv] at h; cases h
    | some st₁ =>
      rw [hv] at h
      rw [visitNode_mono hle hv]
      exact foldlM_visitNode_mono hle h

/-- Once `find_paths` has returned, more fuel gives the same paths. -/
theorem findPaths_mono {shardRanges : List ShardRange} {fuel fuel' : Nat}
    {paths : List (List Edge)} (h : findPaths shardRanges fuel = some paths) (hle : fuel ≤ fuel') :
    findPaths shardRanges fuel' = some paths := by
  obtain ⟨st, hst, rfl⟩ := Option.map_eq_some_iff.mp h
  rw [findPaths, foldlM_visitNode_mono hle hst]
  rfl

end Fuel

/-! ### The search over all nodes -/

section Search

variable {edges : List Edge}

theorem PathsState.Inv.of_iff {U V : Bound → Prop} {st : PathsState} (hinv : st.Inv edges U)
    (h : ∀ x, U x ↔ V x) : st.Inv edges V :=
  ⟨hinv.chain, fun x hx => hinv.arrive x ((h x).mpr hx), fun x hx => hinv.nodup x ((h x).mpr hx),
    fun e he hnot => hinv.covered e he fun hU => hnot ((h _).mp hU)⟩

/-- The visit of a node with edges leaving it, none back to it, keeps the invariant with the node
visited. -/
theorem PathsState.Inv.visitNode {U : Bound → Prop} {st st' : PathsState}
    (hinv : st.Inv edges U) {node : Bound} (hU : U node) {nodeEdges : List Edge}
    (hne : nodeEdges ≠ []) (hedges : ∀ e ∈ nodeEdges, e ∈ edges ∧ e.1.lower = node)
    (hall : ∀ e ∈ edges, e.1.lower = node → e ∈ nodeEdges)
    (hloop : ∀ e ∈ nodeEdges, e.1.upper ≠ node) {fuel : Nat}
    (h : Sharder.visitNode fuel st (node, nodeEdges) = some st') :
    st'.Inv edges fun x => U x ∧ x ≠ node := by
  rw [Sharder.visitNode, if_neg hne] at h
  dsimp only at h
  obtain ⟨hstart, hgrow, hnil⟩ := hinv.visitStart hU
  rw [visitPaths_eq_some hloop _ _ _ _ h, List.drop_zero]
  obtain ⟨hend, hgrow', hcover⟩ := VisitInv.foldl hne hedges hstart
  refine ⟨hend.chain, fun x hx => hend.arrive x hx.1 hx.2, fun x hx => hend.nodup x hx.1 hx.2, ?_⟩
  intro e he hnot
  by_cases hlow : U e.1.lower
  · -- an edge leaving this node
    have hat : e.1.lower = node := by
      by_contra hother
      exact hnot ⟨hlow, hother⟩
    exact hcover hnil e (hall e he hat)
  · exact (hgrow.trans hgrow').covers (hinv.covered e he hlow)

/-- An entry of `sorted(node_successors.items())`: the edges leaving the node, all of them, and
none back to it. -/
def EntryOk (edges : List Edge) (entry : Bound × List Edge) : Prop :=
  entry.2 ≠ [] ∧ (∀ e ∈ entry.2, e ∈ edges ∧ e.1.lower = entry.1) ∧
    (∀ e ∈ edges, e.1.lower = entry.1 → e ∈ entry.2) ∧ ∀ e ∈ entry.2, e.1.upper ≠ entry.1

/-- The run over the node entries keeps the invariant, with their nodes visited. -/
theorem PathsState.Inv.foldlM {fuel : Nat} :
    ∀ {entries : List (Bound × List Edge)} {U : Bound → Prop} {st st' : PathsState},
      st.Inv edges U → (∀ entry ∈ entries, EntryOk edges entry ∧ U entry.1) →
      (entries.map Prod.fst).Nodup → entries.foldlM (Sharder.visitNode fuel) st = some st' →
      st'.Inv edges fun x => U x ∧ x ∉ entries.map Prod.fst
  | [], _, _, _, hinv, _, _, h => by
    cases h
    exact hinv.of_iff fun x => by simp
  | (node, nodeEdges) :: rest, U, st, st', hinv, hok, hnd, h => by
    rw [List.foldlM_cons] at h
    cases hv : Sharder.visitNode fuel st (node, nodeEdges) with
    | none => rw [hv] at h; cases h
    | some st₁ =>
      rw [hv] at h
      obtain ⟨⟨hne, hedges, hall, hloop⟩, hU⟩ := hok _ List.mem_cons_self
      have hinv₁ := hinv.visitNode hU hne hedges hall hloop hv
      have hnode : node ∉ rest.map Prod.fst := (List.nodup_cons.mp hnd).1
      -- the nodes still to visit are other nodes
      have hother : ∀ entry ∈ rest, entry.1 ≠ node := fun entry hentry heq =>
        hnode (heq ▸ List.mem_map_of_mem hentry)
      have hrest := PathsState.Inv.foldlM hinv₁ (fun entry hentry =>
        ⟨(hok entry (List.mem_cons_of_mem _ hentry)).1,
          (hok entry (List.mem_cons_of_mem _ hentry)).2, hother entry hentry⟩)
        (List.nodup_cons.mp hnd).2 h
      exact hrest.of_iff fun x => by simp [and_assoc]

/-- Once every visit has enough fuel, the run over the node entries returns. -/
theorem foldlM_visitNode_isSome :
    ∀ {entries : List (Bound × List Edge)} (st : PathsState),
      (∀ entry ∈ entries, ∀ e ∈ entry.2, e.1.upper ≠ entry.1) →
      ∃ bound, ∀ fuel, bound ≤ fuel → (entries.foldlM (visitNode fuel) st).isSome
  | [], _, _ => ⟨0, fun _ _ => rfl⟩
  | (node, nodeEdges) :: rest, st, hloop => by
    have hrest : ∀ entry ∈ rest, ∀ e ∈ entry.2, e.1.upper ≠ entry.1 :=
      fun entry hentry => hloop entry (List.mem_cons_of_mem _ hentry)
    by_cases hne : nodeEdges = []
    · -- a node with no edges is skipped
      obtain ⟨bound, hbound⟩ := foldlM_visitNode_isSome st hrest
      refine ⟨bound, fun fuel hfuel => ?_⟩
      rw [List.foldlM_cons, visitNode, if_pos hne]
      exact hbound fuel hfuel
    · have hnode : ∀ e ∈ nodeEdges, e.1.upper ≠ node := hloop _ List.mem_cons_self
      obtain ⟨bound, hbound⟩ := foldlM_visitNode_isSome
        (((if st.pathsToNode node = [] then startPath st node else st).pathsToNode node).foldl
          (fun st p => extendEdges p nodeEdges st)
          (if st.pathsToNode node = [] then startPath st node else st)) hrest
      refine ⟨max bound
        (((if st.pathsToNode node = [] then startPath st node else st).pathsToNode node).length + 1),
        fun fuel hfuel => ?_⟩
      rw [List.foldlM_cons, visitNode_eq_some hnode hne st (by omega)]
      exact hbound fuel (by omega)

end Search

/-! ### `find_paths` on ranges that are not empty -/

section Spec

variable {shardRanges : List ShardRange}

theorem mem_of_mem_viableEdges {e : Edge} (he : e ∈ viableEdges shardRanges) :
    e.1 ∈ shardRanges := by
  obtain ⟨-, -, heq⟩ := List.mem_zipIdx (List.mem_filter.mp he).1
  rw [heq]
  exact List.getElem_mem _

/-- The entries of `sorted(node_successors.items())`, when no range begins where it ends. -/
theorem entryOk_nodeSuccessors (hlt : ∀ r ∈ shardRanges, r.lower < r.upper) :
    ∀ entry ∈ nodeSuccessors shardRanges, EntryOk (viableEdges shardRanges) entry := by
  intro entry hentry
  obtain ⟨node, hnode, rfl⟩ := List.mem_map.mp hentry
  obtain ⟨e, he, hlow⟩ :=
    List.mem_map.mp (List.mem_dedup.mp ((List.mem_insertionSort _).mp hnode))
  refine ⟨List.ne_nil_of_mem (List.mem_filter.mpr ⟨he, by simp [hlow]⟩), ?_, ?_, ?_⟩
  · intro e' he'
    obtain ⟨hmem, heq⟩ := List.mem_filter.mp he'
    exact ⟨hmem, by simpa using heq⟩
  · intro e' he' heq
    exact List.mem_filter.mpr ⟨he', by simpa using heq⟩
  · intro e' he' heq
    obtain ⟨hmem, hlow'⟩ := List.mem_filter.mp he'
    have := hlt _ (mem_of_mem_viableEdges hmem)
    simp only [decide_eq_true_eq] at hlow'
    rw [← hlow'] at heq
    exact absurd heq (ne_of_gt this)

theorem nodup_nodes_nodeSuccessors : ((nodeSuccessors shardRanges).map Prod.fst).Nodup := by
  rw [nodeSuccessors, List.map_map]
  exact ((List.perm_insertionSort _ _).nodup_iff).mpr (List.nodup_dedup _) |>.map_on
    (fun _ _ _ _ h => h) |> fun h => by simpa [Function.comp_def] using h

theorem lower_mem_nodes {e : Edge} (he : e ∈ viableEdges shardRanges) :
    e.1.lower ∈ (nodeSuccessors shardRanges).map Prod.fst := by
  rw [nodeSuccessors, List.map_map]
  simp only [Function.comp_def, List.map_id']
  exact (List.mem_insertionSort _).mpr (List.mem_dedup.mpr (List.mem_map_of_mem he))

/-- When no range begins where it ends, `find_paths` returns once each visit has enough fuel. -/
theorem findPaths_isSome (hlt : ∀ r ∈ shardRanges, r.lower < r.upper) :
    ∃ bound, ∀ fuel, bound ≤ fuel → (findPaths shardRanges fuel).isSome := by
  obtain ⟨bound, hbound⟩ := foldlM_visitNode_isSome ⟨[], fun _ => []⟩
    (fun entry hentry => (entryOk_nodeSuccessors hlt entry hentry).2.2.2)
  refine ⟨bound, fun fuel hfuel => ?_⟩
  rw [findPaths, Option.isSome_map]
  exact hbound fuel hfuel

/-- When no range begins where it ends, every path `find_paths` returns is a path of the ranges
that are not `SHRINKING`, each beginning where the one before it ends, and every such range lies
on one of them. -/
theorem findPaths_paths (hlt : ∀ r ∈ shardRanges, r.lower < r.upper) {fuel : Nat}
    {paths : List (List Edge)} (h : findPaths shardRanges fuel = some paths) :
    (∀ c ∈ paths, PathOf (viableEdges shardRanges) c) ∧
      ∀ e ∈ viableEdges shardRanges, ∃ c ∈ paths, e ∈ c := by
  obtain ⟨st, hrun, rfl⟩ := Option.map_eq_some_iff.mp h
  have hinit : PathsState.Inv (viableEdges shardRanges) (fun _ => True) ⟨[], fun _ => []⟩ :=
    ⟨fun c hc => absurd hc List.not_mem_nil, fun _ _ _ hp => absurd hp List.not_mem_nil,
      fun _ _ => List.nodup_nil, fun _ _ hnot => absurd trivial hnot⟩
  have hinv := hinit.foldlM
    (fun entry hentry => ⟨entryOk_nodeSuccessors hlt entry hentry, trivial⟩)
    nodup_nodes_nodeSuccessors hrun
  exact ⟨hinv.chain, fun e he => hinv.covered e he fun hU => hU.2 (lower_mem_nodes he)⟩

end Spec

end Sharder

end Swift
