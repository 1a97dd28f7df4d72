import Swift.Container.GetNamespaces

/-!
# Where the proxy sends an object update

`BaseObjectController._get_update_target` on a root container that is sharding or sharded: the
update goes to the shard whose namespace holds the object name, or to the root itself when the
proxy finds no such shard. The proxy finds it in one of two ways.

* With caching disabled, `_get_update_shard_caching_disabled` asks the root for the updating
  namespaces that include the object name and takes the first it is sent.
* Otherwise `_get_update_shard` asks the root for all updating namespaces, keeps their lower
  bounds and names as a `NamespaceBoundList`, and looks the object name up in that. The model
  is the request that finds the list in neither the infocache nor memcache, and so fetches it.

Both requests reach `ContainerController.GET_shard` with `states=updating` in namespace format,
which calls `get_namespaces(marker='', end_marker=None, includes, reverse=False,
states=SHARD_UPDATE_STATES, fill_gaps=True)` on the root's broker. The namespaces travel as
records of strings, and `_parse_namespaces` reads them back (`parseNamespaces_map_shardRecord`).

## The two routes

A `NamespaceBoundList` stores only lower bounds, so an object name in a gap between two updating
namespaces is looked up as if the namespace before the gap reached on to the next one; the query
with `includes` finds no namespace for it, and the update goes to the root (`getUpdateShard_gap`).
When the updating namespaces tile the object namespace from `MIN`, the root's filler completes
them to a tiling up to `MAX`, and the two routes send every update to the same container
(`getUpdateShard_agrees_of_tiles`).
-/

namespace Swift

namespace Proxy

open Container Tiling

/-- `_parse_namespaces`: each record read back as a `Namespace`; `None` if one of them
raises. -/
def parseNamespaces (listing : List (String × String × String)) : Option (List Namespace) :=
  match listing.mapM fun data => Namespace.make data.1 data.2.1 data.2.2 with
  | .ok namespaces => some namespaces
  | .error _ => none

/-- `_get_updating_namespaces(req, account, container, includes)` against the root at `path`
holding the shard-range rows `rows`: `includes` is sent only when it is not `''`; `None` if
the request fails. -/
def getUpdatingNamespaces (rows : List ShardRange) (path includes : String) :
    Option (List Namespace) :=
  let includes := if includes = "" then none else some includes
  match getNamespaces rows path (rootShardRange path) "" "" includes false shardUpdateStates true with
  | .ok namespaces => parseNamespaces (namespaces.map shardRecord)
  | .error _ => none

/-- `_get_update_shard_caching_disabled`: the first namespace the root sends for the object
name. -/
def getUpdateShardCachingDisabled (rows : List ShardRange) (path obj : String) :
    Option Namespace :=
  match getUpdatingNamespaces rows path obj with
  | some (ns :: _) => some ns
  | _ => none

/-- `_get_update_shard` on a cache miss: all updating namespaces, parsed into a
`NamespaceBoundList` in which the object name is looked up; `get_namespace` may raise. -/
def getUpdateShard (rows : List ShardRange) (path obj : String) : Except String (Option Namespace) :=
  match getUpdatingNamespaces rows path "" with
  | none => .ok none
  | some namespaces =>
    match NamespaceBoundList.parse namespaces with
    | none => .ok none
    | some nsBoundList => some <$> nsBoundList.getNamespace obj

/-- The container `_get_update_target` sends the update to: the shard found, or the root. -/
def updateContainer (path : String) : Option Namespace → String
  | some ns => ns.name
  | none => path

/-! ### From the root's broker to the proxy -/

section Fetch

variable {rows : List ShardRange} {path : String}

/-- The proxy reads back exactly the namespaces the root lists, when they print faithfully. -/
theorem parseNamespaces_map_shardRecord {L : List Namespace} (h : ∀ ns ∈ L, ns.Printable) :
    parseNamespaces (L.map shardRecord) = some L := by
  have hread : (L.map shardRecord).mapM (fun data => Namespace.make data.1 data.2.1 data.2.2) =
      .ok L :=
    MapM.mapM_map_eq_ok fun ns hns => Namespace.make_toStr ns (h ns hns).1 (h ns hns).2
  rw [parseNamespaces, hread]

/-- When the root's broker answers, the proxy gets its namespaces. -/
theorem getUpdatingNamespaces_of_eq_ok {includes : String} {inc : Option String}
    (hinc : (if includes = "" then none else some includes) = inc) {L : List Namespace}
    (hL : getNamespaces rows path (rootShardRange path) "" "" inc false shardUpdateStates true =
      .ok L) :
    getUpdatingNamespaces rows path includes = some L := by
  rw [getUpdatingNamespaces]
  simp only [hinc, hL]
  exact parseNamespaces_map_shardRecord (printable_of_getNamespaces hL)

/-- Without caching, the update goes to the first updating namespace that includes the name. -/
theorem getUpdateShardCachingDisabled_of_query {obj : String} (hobj : obj ≠ "")
    {U : List Namespace}
    (hU : queryNamespaces rows path shardUpdateStates "" "" (some obj) = .ok U) :
    getUpdateShardCachingDisabled rows path obj = U.head? := by
  rw [getUpdateShardCachingDisabled,
    getUpdatingNamespaces_of_eq_ok (by simp [hobj]) (getNamespaces_includes hobj hU)]
  cases U <;> rfl

/-- With caching, once the proxy has fetched namespaces that tile from `MIN` to `MAX`, the
update goes to the one that holds the name. -/
theorem getUpdateShard_of_fetch {obj : String} (hobj : obj ≠ "") {C : List Namespace}
    (hfetch : getUpdatingNamespaces rows path "" = some C) (hne : C ≠ [])
    (hT : Tiles (C.map Namespace.bounds)) (hprint : ∀ ns ∈ C, ns.Printable)
    (hmin : (C.head hne).lower = .minBound) (hmax : (C.getLast hne).upper = .maxBound) :
    ∃ ns ∈ C, getUpdateShard rows path obj = .ok (some ns) ∧
      Bound.name obj hobj ∈ Set.Ioc ns.lower ns.upper := by
  obtain ⟨p, hp, hget, hmem⟩ :=
    NamespaceBoundList.getNamespace_of_tiles hne hT hprint hmin hmax hobj
  refine ⟨C[p], List.getElem_mem hp, ?_, hmem⟩
  rw [getUpdateShard, hfetch]
  simp only [NamespaceBoundList.parse_eq_of_tiles hne hT, hget]
  rfl

end Fetch

/-! ### The two routes on a tiling -/

section Tiles

variable {rows : List ShardRange} {path obj : String} (hobj : obj ≠ "") {N : List Namespace}
  (hN : queryNamespaces rows path shardUpdateStates "" "" none = .ok N)
  (hT : Tiles (N.map Namespace.bounds)) (hmin : ∀ ns ∈ N.head?, ns.lower = .minBound)
include hN hT hmin

/-- With caching, the update goes to the namespace of the completed tiling that holds the
name. -/
theorem getUpdateShard_of_tiles :
    ∃ ns ∈ N ++ (makeFillerShardRange (rootShardRange path) N "" "").toList,
      getUpdateShard rows path obj = .ok (some ns) ∧
        Bound.name obj hobj ∈ Set.Ioc ns.lower ns.upper := by
  -- the root lists the namespaces found and its filler, which together tile the whole namespace
  have hL : getNamespaces rows path (rootShardRange path) "" "" none false shardUpdateStates true =
      .ok (N ++ (makeFillerShardRange (rootShardRange path) N "" "").toList) :=
    getNamespaces_fillGaps hN
  obtain ⟨hne, hTC, hminC, hmaxC⟩ :=
    tiles_append_filler (rfl : (rootShardRange path).upper = .maxBound) rfl hT hmin
  exact getUpdateShard_of_fetch hobj (getUpdatingNamespaces_of_eq_ok (by simp) hL) hne hTC
    (printable_of_getNamespaces hL) hminC hmaxC

end Tiles

/-- When the updating namespaces of a root tile its namespace from `MIN`, the proxy sends an
update to the same container with and without caching. -/
theorem getUpdateShard_agrees_of_tiles (rows : List ShardRange) (path obj : String)
    (hobj : obj ≠ "") (N : List Namespace)
    (hN : queryNamespaces rows path shardUpdateStates "" "" none = .ok N)
    (hT : Tiles (N.map Namespace.bounds)) (hmin : ∀ ns ∈ N.head?, ns.lower = .minBound) :
    updateContainer path <$> getUpdateShard rows path obj =
      .ok (updateContainer path (getUpdateShardCachingDisabled rows path obj)) := by
  obtain ⟨hne, hTC, -, -⟩ :=
    tiles_append_filler (rfl : (rootShardRange path).upper = .maxBound) rfl hT hmin
  obtain ⟨ns, hnsC, hcached, hmem⟩ := getUpdateShard_of_tiles hobj hN hT hmin
  obtain ⟨U, hU, hUmem⟩ := mem_queryNamespaces_includes hobj hN
  rw [hcached, getUpdateShardCachingDisabled_of_query hobj hU]
  cases U with
  | nil =>
    -- no updating namespace holds the name, so the one that does is the root's filler
    have hnsN : ns ∉ N := fun h => by simpa using (hUmem ns).mpr ⟨h, hmem⟩
    have hfill := Option.mem_toList.mp ((List.mem_append.mp hnsC).resolve_left hnsN)
    show Except.ok ns.name = Except.ok path
    rw [makeFillerShardRange_name hfill]
    rfl
  | cons u us =>
    -- the first updating namespace that holds the name is the one the bound list finds
    obtain ⟨huN, hu⟩ := (hUmem u).mp List.mem_cons_self
    obtain rfl : u = ns := hTC.eq_of_mem_map (List.mem_append_left _ huN) hnsC hu hmem
    rfl

/-- An active row of the shard-range table. -/
def activeRow (name lower upper : String) : ShardRange :=
  ⟨name, ⟨1, 0⟩, lower, upper, 0, 0, ⟨1, 0⟩, false, 40, ⟨1, 0⟩, none, false, 0⟩

/-- Two shards of `a/c` that tile the names up to `e`. -/
def tiledRows : List ShardRange :=
  [activeRow ".shards_a/c-1" "" "b", activeRow ".shards_a/c-2" "b" "e"]

theorem getUpdateShard_agrees_of_tiles_tiledRows :
    updateContainer "a/c" <$> getUpdateShard tiledRows "a/c" "c" =
      .ok (updateContainer "a/c" (getUpdateShardCachingDisabled tiledRows "a/c" "c")) :=
  getUpdateShard_agrees_of_tiles tiledRows "a/c" "c" (by decide) _ rfl ⟨by decide, by decide⟩
    (by decide)

/-- Two shards of `a/c` with the names `("b", "d"]` between them in neither. -/
def gapRows : List ShardRange :=
  [activeRow ".shards_a/c-1" "" "b", activeRow ".shards_a/c-2" "d" "e"]

/-- An update of `c`, in the gap, goes to the shard before the gap when the proxy caches the
updating namespaces, and to the root when it does not. -/
theorem getUpdateShard_gap :
    updateContainer "a/c" <$> getUpdateShard gapRows "a/c" "c" = .ok ".shards_a/c-1" ∧
      updateContainer "a/c" (getUpdateShardCachingDisabled gapRows "a/c" "c") = "a/c" :=
  ⟨by decide, by decide⟩

end Proxy

end Swift
