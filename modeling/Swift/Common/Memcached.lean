import Swift.Hashing.Md5
import Swift.Data.Bisect
import Swift.Data.Text
import Mathlib.Data.String.Basic
import Mathlib.Data.List.Dedup
import Mathlib.Data.List.Sort

/-!
# The memcache ring: which servers a key goes to

`MemcacheRing.__init__` puts `NODE_WEIGHT` points on a ring for each configured server, keyed by
`md5hash('%s-%s' % (server, i))`. It caps the number of servers to try at the length of the
configured list. `_get_conns(cmd)` walks the ring from the point after
`bisect(self._sorted, cmd.hash_key)`. It skips servers it has already served and stops once it
has served `_tries` of them. A server that is error limited, or whose pool gives no connection,
counts as served without being yielded.

The cap counts the entries of the configured list, but the ring merges duplicate entries. With
one server listed twice and `tries` of two or more, the walk serves that server and then goes
round the ring forever looking for a second one.

The key hash is a parameter. The theorems hold for every hash into a linear order, `md5hash`
among them.

## Main results

* `Conns.Inv.connsStep` — a pass serves a server once at most, and yields only what it serves
* `getConns_yields_available_servers` — so a walk that ends yields each server once at most,
  only available ones, and no more than `tries`
* `getConns_never_ends` — with fewer distinct servers than entries, and fewer than `tries`, the
  walk never ends and never raises
-/

namespace Swift

namespace Memcached

/-- `NODE_WEIGHT`. -/
def nodeWeight : Nat := 50

/-- `TRY_COUNT`, the default of the `tries` option. -/
def tryCount : Nat := 3

/-- `md5hash(key)`: the hex digest of the key's UTF-8 bytes. -/
def md5hash (key : String) : String :=
  String.ofList ((md5 key.toUTF8.toList).flatMap fun b => Text.zeroPad 2 (Nat.toDigits 16 b.toNat))

variable {K : Type*} [LinearOrder K]

/-- The assignments `self._ring[md5hash('%s-%s' % (server, i))] = server` of `__init__`, in the
order it makes them: servers sorted, `NODE_WEIGHT` points each. -/
def ringAssignments (hash : String → K) (servers : List String) : List (K × String) :=
  (servers.insertionSort (· ≤ ·)).flatMap fun server =>
    (List.range nodeWeight).map fun i => (hash (server ++ "-" ++ toString i), server)

/-- `self._ring[key]` for the dict those assignments build: the server assigned last, and `none`
for a `KeyError`. -/
def ringLookup (ring : List (K × String)) (key : K) : Option String :=
  (ring.reverse.find? fun entry => entry.1 = key).map (·.2)

/-- The fields of a `MemcacheRing` that `_get_conns` reads. -/
structure MemcacheRing (K : Type*) where
  /-- `self._ring`, as the assignments that built it. -/
  ring : List (K × String)
  /-- `self._sorted`. -/
  sorted : List K
  /-- `self._tries`. -/
  tries : Nat

/-- `MemcacheRing(servers, tries=tries)`. A negative `tries` tries nothing, as `0` does. -/
def MemcacheRing.init (hash : String → K) (servers : List String) (tries : Nat) :
    MemcacheRing K where
  ring := ringAssignments hash servers
  sorted := ((ringAssignments hash servers).map (·.1)).dedup.insertionSort (· ≤ ·)
  tries := if tries ≤ servers.length then tries else servers.length

/-- The locals of `_get_conns`: the position on the ring, the servers served, and the servers it
yielded a connection to. -/
structure Conns where
  pos : Nat
  served : List String
  yielded : List String

/-- One pass of the `while` loop of `_get_conns`. `available server` says whether the server is
not error limited and its pool gives a connection. The loop looks at each server once at most, so
one answer for each server covers every run. -/
def connsStep (r : MemcacheRing K) (available : String → Bool) (st : Conns) :
    Except String Conns :=
  if h : r.sorted = [] then .error "ZeroDivisionError"
  else
    let pos := (st.pos + 1) % r.sorted.length
    match ringLookup r.ring (r.sorted.get ⟨pos, Nat.mod_lt _ (List.length_pos_of_ne_nil h)⟩) with
    | none => .error "KeyError"
    | some server =>
      -- `if server in served: continue`
      if server ∈ st.served then .ok { st with pos := pos }
      else if available server then .ok ⟨pos, st.served ++ [server], st.yielded ++ [server]⟩
      else .ok ⟨pos, st.served ++ [server], st.yielded⟩

/-- The loop `while len(served) < self._tries`, for `fuel` passes at most: `none` when it has not
ended by then, and `some (.error _)` when a pass raised. -/
def connsLoop (r : MemcacheRing K) (available : String → Bool) :
    Nat → Conns → Option (Except String Conns)
  | 0, _ => none
  | fuel + 1, st =>
    if st.served.length < r.tries then
      match connsStep r available st with
      | .error e => some (.error e)
      | .ok st => connsLoop r available fuel st
    else some (.ok st)

/-- `_get_conns(cmd)` run to its end by a caller that asks for every connection: the servers
yielded, in order. -/
def getConns (r : MemcacheRing K) (available : String → Bool) (hashKey : K) (fuel : Nat) :
    Option (Except String (List String)) :=
  (connsLoop r available fuel ⟨Bisect.bisectRight r.sorted hashKey, [], []⟩).map
    (Except.map (·.yielded))

/-! ### The ring `__init__` builds -/

section Init

variable {hash : String → K} {servers : List String}

/-- Every server on the ring is a configured one. -/
theorem mem_of_ringLookup {key : K} {server : String}
    (h : ringLookup (ringAssignments hash servers) key = some server) : server ∈ servers := by
  obtain ⟨entry, hfind, rfl⟩ := Option.map_eq_some_iff.mp h
  have hmem := List.mem_reverse.mp (List.mem_of_find?_eq_some hfind)
  obtain ⟨s, hs, hentry⟩ := List.mem_flatMap.mp hmem
  obtain ⟨i, -, rfl⟩ := List.mem_map.mp hentry
  exact (List.mem_insertionSort _).mp hs

/-- Every key of `self._sorted` is a key of `self._ring`. -/
theorem ringLookup_isSome {key : K}
    (h : key ∈ (MemcacheRing.init hash servers tries).sorted) :
    (ringLookup (ringAssignments hash servers) key).isSome := by
  obtain ⟨entry, hentry, rfl⟩ :=
    List.mem_map.mp (List.mem_dedup.mp ((List.mem_insertionSort _).mp h))
  rw [ringLookup, Option.isSome_map, List.find?_isSome]
  exact ⟨entry, List.mem_reverse.mpr hentry, by simp⟩

theorem sorted_ne_nil (hne : servers ≠ []) : (MemcacheRing.init hash servers tries).sorted ≠ [] := by
  obtain ⟨s, hs⟩ := List.exists_mem_of_ne_nil servers hne
  -- the first point of any server is on the ring
  have hmem : hash (s ++ "-" ++ toString 0) ∈ (MemcacheRing.init hash servers tries).sorted := by
    refine (List.mem_insertionSort _).mpr (List.mem_dedup.mpr (List.mem_map.mpr ?_))
    refine ⟨(hash (s ++ "-" ++ toString 0), s), List.mem_flatMap.mpr ⟨s, ?_, ?_⟩, rfl⟩
    · exact (List.mem_insertionSort _).mpr hs
    · exact List.mem_map.mpr ⟨0, by simp [nodeWeight], rfl⟩
  exact List.ne_nil_of_mem hmem

end Init

/-! ### The walk -/

/-- What every pass keeps: the servers served are distinct configured servers, and the servers
yielded are some of them, in the same order. -/
structure Conns.Inv (servers : List String) (st : Conns) : Prop where
  nodup : st.served.Nodup
  subset : st.served ⊆ servers
  sublist : st.yielded.Sublist st.served

theorem conns_inv_init (servers : List String) (pos : Nat) : Conns.Inv servers ⟨pos, [], []⟩ :=
  ⟨List.nodup_nil, List.nil_subset _, List.Sublist.slnil⟩

variable {r : MemcacheRing K} {available : String → Bool} {servers : List String}

/-- Everything a pass that does not raise can do: it looks up the server at the next position of
the ring, and moves on past a server it has served, or serves it, yielding it if it is
available. -/
theorem connsStep_cases {st st' : Conns} (h : connsStep r available st = .ok st') :
    ∃ pos key server, ringLookup r.ring key = some server ∧
      ((server ∈ st.served ∧ st' = { st with pos := pos }) ∨
        (server ∉ st.served ∧ st' = ⟨pos, st.served ++ [server],
          if available server then st.yielded ++ [server] else st.yielded⟩)) := by
  unfold Memcached.connsStep at h
  split at h
  next => cases h
  next hne =>
    dsimp only at h
    split at h
    next => cases h
    next server hserver =>
      refine ⟨(st.pos + 1) % r.sorted.length, _, server, hserver, ?_⟩
      split at h
      next hold =>
        cases h
        exact .inl ⟨hold, rfl⟩
      next hnew =>
        refine .inr ⟨hnew, ?_⟩
        split at h
        next havail =>
          cases h
          rw [if_pos havail]
        next havail =>
          cases h
          rw [if_neg havail]

/-- A pass serves a configured server it has not served before, or serves none. -/
theorem Conns.Inv.connsStep {st st' : Conns} (hinv : st.Inv servers)
    (hr : ∀ key server, ringLookup r.ring key = some server → server ∈ servers)
    (h : connsStep r available st = .ok st') : st'.Inv servers := by
  obtain ⟨pos, key, server, hserver, ⟨-, rfl⟩ | ⟨hnew, rfl⟩⟩ := connsStep_cases h
  · exact ⟨hinv.nodup, hinv.subset, hinv.sublist⟩
  · have hne : ∀ a ∈ st.served, a ≠ server := fun a ha h => hnew (h ▸ ha)
    refine ⟨List.nodup_append.mpr ⟨hinv.nodup, List.nodup_singleton _, by simpa using hne⟩,
      List.append_subset.mpr ⟨hinv.subset, by simpa using hr _ _ hserver⟩, ?_⟩
    -- the server is yielded, or only served
    dsimp only
    split
    · exact hinv.sublist.append (List.Sublist.refl _)
    · exact hinv.sublist.trans (List.sublist_append_left _ _)

/-- What one pass does besides the invariant: it serves one server at most, and yields only an
available one. -/
theorem connsStep_eq_ok {st st' : Conns} (h : connsStep r available st = .ok st') :
    st'.served.length ≤ st.served.length + 1 ∧
      ∀ s ∈ st'.yielded, s ∈ st.yielded ∨ available s = true := by
  obtain ⟨pos, key, server, -, ⟨-, rfl⟩ | ⟨-, rfl⟩⟩ := connsStep_cases h
  · exact ⟨by simp, fun s hs => .inl hs⟩
  · refine ⟨by simp, fun s hs => ?_⟩
    dsimp only at hs
    split at hs
    next havail =>
      rcases List.mem_append.mp hs with hs | hs
      · exact .inl hs
      · exact .inr (List.eq_of_mem_singleton hs ▸ havail)
    next => exact .inl hs

/-- The loop keeps to its end what every pass it makes keeps, and it ends with `_tries` servers
served. -/
theorem connsLoop_induction (P : Conns → Prop)
    (hstep : ∀ st st', P st → st.served.length < r.tries → connsStep r available st = .ok st' →
      P st')
    {fuel : Nat} {st st' : Conns} (hP : P st)
    (h : Memcached.connsLoop r available fuel st = some (.ok st')) :
    P st' ∧ r.tries ≤ st'.served.length := by
  induction fuel generalizing st with
  | zero => cases h
  | succ fuel ih =>
    unfold Memcached.connsLoop at h
    split at h
    next hlt =>
      split at h
      next => cases h
      next st₁ hstep₁ => exact ih (hstep st st₁ hP hlt hstep₁) h
    next hge =>
      cases h
      exact ⟨hP, not_lt.mp hge⟩

/-- The loop keeps the invariant to its end. -/
theorem Conns.Inv.connsLoop {fuel : Nat} {st st' : Conns} (hinv : st.Inv servers)
    (hr : ∀ key server, ringLookup r.ring key = some server → server ∈ servers)
    (h : Memcached.connsLoop r available fuel st = some (.ok st')) : st'.Inv servers :=
  (connsLoop_induction (·.Inv servers) (fun _ _ hinv _ hstep => hinv.connsStep hr hstep) hinv h).1

/-- A walk that ends yields each server once at most, only configured servers that were
available, and no more than `tries` of them nor more than there are servers. -/
theorem getConns_yields_available_servers {hash : String → K} {tries : Nat} {hashKey : K}
    {fuel : Nat} {yielded : List String}
    (h : getConns (MemcacheRing.init hash servers tries) available hashKey fuel =
      some (.ok yielded)) :
    yielded.Nodup ∧ (∀ s ∈ yielded, s ∈ servers ∧ available s = true) ∧
      yielded.length ≤ min tries servers.length := by
  obtain ⟨result, hloop, hmap⟩ := Option.map_eq_some_iff.mp h
  cases result with
  | error e => cases hmap
  | ok st =>
    cases hmap
    have hinv := (conns_inv_init servers _).connsLoop (fun _ _ h => mem_of_ringLookup h) hloop
    -- what the passes yield is available, and they serve one server at a time up to `_tries`
    obtain ⟨⟨havail, hlen⟩, -⟩ := connsLoop_induction
      (fun st => (∀ s ∈ st.yielded, available s = true) ∧
        st.served.length ≤ (MemcacheRing.init hash servers tries).tries)
      (fun _ _ hP hlt hstep => by
        obtain ⟨hl, hy⟩ := connsStep_eq_ok hstep
        exact ⟨fun s hs => (hy s hs).elim (hP.1 s) id, by omega⟩)
      ⟨fun _ hs => (List.not_mem_nil hs).elim, Nat.zero_le _⟩ hloop
    refine ⟨hinv.nodup.sublist hinv.sublist,
      fun s hs => ⟨hinv.subset (hinv.sublist.subset hs), havail s hs⟩, ?_⟩
    have hyielded := hinv.sublist.length_le
    have hcap : (MemcacheRing.init hash servers tries).tries ≤ min tries servers.length := by
      simp only [MemcacheRing.init]
      split <;> omega
    dsimp only
    omega

/-- One server and `tries` one, under a hash that puts every point at `0`: the walk yields the
server. -/
theorem getConns_yields_available_servers_one :
    getConns (MemcacheRing.init (fun _ => (0 : Nat)) ["a"] 1) (fun _ => true) 0 2 =
        some (.ok ["a"]) ∧
      ["a"].Nodup ∧ (∀ s ∈ ["a"], s ∈ ["a"] ∧ (fun _ => true) s = true) ∧
      ["a"].length ≤ min 1 ["a"].length := by
  have h : getConns (MemcacheRing.init (fun _ => (0 : Nat)) ["a"] 1) (fun _ => true) 0 2 =
      some (.ok ["a"]) := by decide +kernel
  exact ⟨h, getConns_yields_available_servers h⟩

/-- On the ring `__init__` builds from a list that is not empty, no pass raises. -/
theorem connsStep_init_ok {hash : String → K} {tries : Nat} (hne : servers ≠ []) (st : Conns) :
    ∃ st', connsStep (MemcacheRing.init hash servers tries) available st = .ok st' := by
  unfold connsStep
  rw [dif_neg (sorted_ne_nil hne)]
  dsimp only
  split
  next hnone =>
    -- the key at the position is on the ring, so the lookup finds a server
    have hsome : ∀ n, (ringLookup (ringAssignments hash servers)
        ((MemcacheRing.init hash servers tries).sorted.get n)).isSome := fun n =>
      ringLookup_isSome (List.get_mem _ n)
    rw [← Option.not_isSome_iff_eq_none] at hnone
    exact absurd (hsome _) hnone
  next =>
    split
    · exact ⟨_, rfl⟩
    · split <;> exact ⟨_, rfl⟩

/-- When the ring holds fewer distinct servers than `_tries`, the loop never ends and no pass
raises: whatever the fuel, it is still running. -/
theorem connsLoop_init_eq_none {hash : String → K} {tries : Nat} (hne : servers ≠ [])
    (hfew : servers.dedup.length < (MemcacheRing.init hash servers tries).tries)
    (fuel : Nat) {st : Conns} (hinv : st.Inv servers) :
    connsLoop (MemcacheRing.init hash servers tries) available fuel st = none := by
  induction fuel generalizing st with
  | zero => rfl
  | succ fuel ih =>
    -- the servers served are distinct configured ones, so fewer than `_tries`
    have hserved : st.served.length ≤ servers.dedup.length :=
      hinv.nodup.length_le_of_subset fun s hs => List.mem_dedup.mpr (hinv.subset hs)
    obtain ⟨st', hstep⟩ : ∃ st', connsStep (MemcacheRing.init hash servers tries) available st =
      .ok st' := connsStep_init_ok hne st
    rw [connsLoop, if_pos (by omega), hstep]
    exact ih (hinv.connsStep (fun _ _ h => mem_of_ringLookup h) hstep)

/-- A server listed more than once counts towards the cap on `tries` once per entry, but the ring
holds it once. With fewer distinct servers than entries, and fewer than `tries`, `_get_conns` never
ends for any key, whatever the servers answer and the hash is: once it has served every distinct
server it goes round the ring forever. -/
theorem getConns_never_ends (hash : String → K) (servers : List String) (tries : Nat)
    (hdup : servers.dedup.length < servers.length) (htries : servers.dedup.length < tries)
    (available : String → Bool) (hashKey : K) (fuel : Nat) :
    getConns (MemcacheRing.init hash servers tries) available hashKey fuel = none := by
  have hne : servers ≠ [] := by
    rintro rfl
    simp at hdup
  have hfew : servers.dedup.length < (MemcacheRing.init hash servers tries).tries := by
    simp only [MemcacheRing.init]
    split <;> omega
  rw [getConns, connsLoop_init_eq_none hne hfew fuel (conns_inv_init servers _), Option.map_none]

theorem getConns_never_ends_twice :
    getConns (MemcacheRing.init md5hash ["127.0.0.1:11211", "127.0.0.1:11211"] tryCount)
      (fun _ => false) (md5hash "AUTH_test/c/o") 1000 = none :=
  getConns_never_ends md5hash _ tryCount (by decide) (by decide) _ _ _

end Memcached

end Swift
