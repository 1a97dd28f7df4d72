import Mathlib.Data.Char
import Mathlib.Data.List.Lex
import Mathlib.Data.List.Sort

/-!
# Container and account listings

`ContainerBroker.list_objects_iter` and `AccountBroker.list_containers_iter` list the names of a
table between two markers, under a prefix, folding the names below a delimiter into one
sub-directory entry. They do not filter the table themselves: they loop over SQL range queries
`ORDER BY name LIMIT n`, and after a sub-directory they move the range past it, by a synthesised
successor marker going forwards (`name[:end] + delimiter[:-1] + chr(ord(delimiter[-1]) + 1)`,
queried with `name >= ?`) or by the sub-directory as the new end marker going backwards. The
container listing has a third mode, `path`, which lists the names directly under a
pseudo-directory.

The loop is one definition, `listingLoop`, with the table's name column and the query's other
conditions as parameters; `listObjectsIter` and `listContainersIter` instantiate it. A query is
the table's rows that pass its conditions, sorted by name (`selectRows`). Names are compared as
Python compares strings and SQLite compares UTF-8 text: by code point.

`chr(ord(c) + 1)` is `Char.succ?`: past U+10FFFF Python raises; at U+D7FF it makes a lone
surrogate, which the query cannot send. The model raises where the string is made, Python only
when it is sent; the two differ only for a prefix or delimiter ending in U+D7FF.

`referenceListing` is the listing the loop is meant to produce, stated without the loop: the
rows in range sorted by name, each named by its entry, equal sub-directory entries in a row
collapsed, and the sub-directory equal to the marker dropped.

## Main results

* `le_and_lt_successor_iff` — `name >= prefix AND name < end_prefix` selects exactly the names
  that start with the prefix
* `le_and_lt_delimiterSuccessor_iff` — the successor marker is above exactly the names of the
  sub-directory it follows
* `listObjectsIter_path_skips_successor` — in `path` mode the loop skips an object named as the
  successor marker, which `referenceListing` lists
-/

namespace Swift

namespace Listing

/-! ### Strings -/

/-- `chr(ord(c) + 1)`; `none` where it is not a Unicode scalar value (see the module doc). -/
def Char.succ? (c : Char) : Option Char :=
  if (c.toNat + 1).isValidChar then some (Char.ofNat (c.toNat + 1)) else none

/-- `s[:-1] + chr(ord(s[-1]) + 1)`; `none` for the empty string, where `s[-1]` raises. -/
def successor? (s : List Char) : Option (List Char) :=
  match s.getLast? with
  | some c => (Char.succ? c).map fun c' => s.dropLast ++ [c']
  | none => none

/-- `s.find(sub, start)`: the first index from `start` at which `sub` occurs. -/
def find? (s sub : List Char) (start : Nat) : Option Nat :=
  (List.range (s.length + 1)).find? fun i => start ≤ i && sub.isPrefixOf (s.drop i)

/-- `s.rstrip('/')`. -/
def rstripSlash (s : List Char) : List Char := (s.reverse.dropWhile (· = '/')).reverse

/-- `chr(ord(c) + 1)` is the next code point. -/
theorem Char.toNat_of_succ? {c c' : Char} (h : Char.succ? c = some c') :
    c'.toNat = c.toNat + 1 := by
  unfold Char.succ? at h
  split at h
  case isTrue hvalid =>
    cases h
    rw [Char.ofNat, dif_pos hvalid]
    rfl
  case isFalse => cases h

/-- The successor of `x + d` is `x` followed by the successor of `d`. -/
theorem successor?_append (x : List Char) {d : List Char} (hd : d ≠ []) :
    successor? (x ++ d) = (successor? d).map (x ++ ·) := by
  unfold successor?
  rw [List.getLast?_append_of_ne_nil _ hd, List.dropLast_append_of_ne_nil hd]
  cases d.getLast? with
  | none => rfl
  | some c => simp [Option.map_map, Function.comp_def]

/-! ### The order of names -/

theorem nil_le (l : List Char) : [] ≤ l := by
  rw [le_iff_lt_or_eq]
  cases l with
  | nil => exact .inr rfl
  | cons c l => exact .inl (List.nil_lt_cons c l)

theorem not_le_nil {l : List Char} (h : l ≠ []) : ¬ l ≤ [] := by
  rw [le_iff_lt_or_eq]
  rintro (hlt | rfl)
  · exact List.not_lt_nil _ hlt
  · exact h rfl

/-- Names compare one character at a time. -/
theorem cons_le_cons_iff {c d : Char} {l m : List Char} :
    c :: l ≤ d :: m ↔ c < d ∨ c = d ∧ l ≤ m := by
  rw [le_iff_lt_or_eq, le_iff_lt_or_eq, List.cons_lt_cons_iff, List.cons.injEq]
  constructor
  · rintro ((hlt | ⟨heq, hlt⟩) | ⟨heq, rfl⟩)
    · exact .inl hlt
    · exact .inr ⟨heq, .inl hlt⟩
    · exact .inr ⟨heq, .inr rfl⟩
  · rintro (hlt | ⟨heq, hlt | rfl⟩)
    · exact .inl (.inl hlt)
    · exact .inl (.inr ⟨heq, hlt⟩)
    · exact .inr ⟨heq, rfl⟩

/-- From `q + c` up to `q + chr(ord(c) + 1)` lie exactly the names that start with `q + c`. -/
theorem le_and_lt_succ_iff {c c' : Char} (hsucc : c'.toNat = c.toNat + 1) (q name : List Char) :
    q ++ [c] ≤ name ∧ name < q ++ [c'] ↔ q ++ [c] <+: name := by
  induction q generalizing name with
  | nil =>
    cases name with
    | nil => simp [not_le_nil]
    | cons d rest =>
      -- the one character of the bounds: `c ≤ d < c + 1`
      have hchar : (c < d ∨ c = d) ∧ d < c' ↔ c = d := by
        rw [Char.lt_def, Char.lt_def, UInt32.lt_iff_toNat_lt, UInt32.lt_iff_toNat_lt,
          ← Char.toNat_inj]
        simp only [Char.toNat_val] at *
        omega
      simp only [List.nil_append, cons_le_cons_iff, List.cons_lt_cons_iff, List.not_lt_nil,
        and_false, or_false, List.cons_prefix_cons, List.nil_prefix, and_true, nil_le]
      exact hchar
  | cons a q ih =>
    cases name with
    | nil => simp [not_le_nil]
    | cons d rest =>
      simp only [List.cons_append, cons_le_cons_iff, List.cons_lt_cons_iff, List.cons_prefix_cons,
        ← ih rest]
      constructor
      · rintro ⟨hlt | ⟨rfl, hle⟩, hgt | ⟨heq, hlt'⟩⟩
        · exact absurd (Char.lt_trans hlt hgt) (Char.lt_irrefl a)
        · exact absurd hlt (heq ▸ Char.lt_irrefl d)
        · exact absurd hgt (Char.lt_irrefl a)
        · exact ⟨rfl, hle, hlt'⟩
      · rintro ⟨rfl, hle, hlt⟩
        exact ⟨.inr ⟨rfl, hle⟩, .inr ⟨rfl, hlt⟩⟩

/-- `name >= s AND name < s[:-1] + chr(ord(s[-1]) + 1)` selects exactly the names that start
with `s`: the range of `prefix` and `end_prefix`. -/
theorem le_and_lt_successor_iff {s e : List Char} (h : successor? s = some e) (name : List Char) :
    s ≤ name ∧ name < e ↔ s <+: name := by
  unfold successor? at h
  split at h
  case h_1 c hlast =>
    obtain ⟨c', hc', rfl⟩ := Option.map_eq_some_iff.mp h
    have hrange := le_and_lt_succ_iff (Char.toNat_of_succ? hc') s.dropLast name
    rwa [List.dropLast_append_getLast? c hlast] at hrange
  case h_2 => cases h

/-- After a sub-directory `x + delimiter`, the successor marker `x + delimiter[:-1] +
chr(ord(delimiter[-1]) + 1)` is above exactly the names in the sub-directory. -/
theorem le_and_lt_delimiterSuccessor_iff {delimiter succ : List Char}
    (h : successor? delimiter = some succ) (x name : List Char) :
    x ++ delimiter ≤ name ∧ name < x ++ succ ↔ x ++ delimiter <+: name := by
  have hne : delimiter ≠ [] := by
    rintro rfl
    cases h
  apply le_and_lt_successor_iff
  rw [successor?_append x hne, h]
  rfl

/-- `RESERVED_BYTE`. -/
def reservedByte : Char := '\x00'

/-- `chr(ord(RESERVED_BYTE) + 1)`: names below it start with the reserved byte. -/
def reservedBound : List Char := [Char.ofNat (reservedByte.toNat + 1)]

/-! ### A query -/

/-- The range conditions of one query: `name < ?`, and `name >= ?` (`true`) or `name > ?`. -/
structure Query where
  below : Option (List Char)
  above : Option (Bool × List Char)
  deriving DecidableEq, Repr

/-- The range conditions, and `name >= chr(ord(RESERVED_BYTE) + 1)` unless reserved names are
allowed. -/
def Query.admits (query : Query) (allowReserved : Bool) (name : List Char) : Bool :=
  query.below.all (fun below => decide (name < below)) &&
    query.above.all (fun above => if above.1 then decide (above.2 ≤ name) else decide (above.2 < name)) &&
    (allowReserved || decide (reservedBound ≤ name))

/-! ### The range a query asks for -/

/-- The upper bound of a query: the end marker when it is below `end_prefix`, else `end_prefix`;
either way, below both. -/
theorem lt_ite_iff {endMarker prefixEnd name : List Char} :
    (name < if endMarker ≠ [] ∧ endMarker < prefixEnd then endMarker else prefixEnd) ↔
      name < prefixEnd ∧ (endMarker ≠ [] → name < endMarker) := by
  split
  next hbelow => exact ⟨fun h => ⟨h.trans hbelow.2, fun _ => h⟩, fun h => h.2 hbelow.1⟩
  next habove =>
    refine ⟨fun h => ⟨h, fun hne => lt_of_lt_of_le h ?_⟩, fun h => h.1⟩
    exact not_lt.mp fun hlt => habove ⟨hne, hlt⟩

/-- The lower bound of a query: above the marker when it is at or past the prefix, else from
the prefix on; either way, from the prefix on and above the marker. -/
theorem ite_le_iff {marker pfx name : List Char} :
    (if marker ≠ [] ∧ pfx ≤ marker then marker < name else pfx ≤ name) ↔
      pfx ≤ name ∧ (marker ≠ [] → marker < name) := by
  split
  next hpast => exact ⟨fun h => ⟨hpast.2.trans h.le, fun _ => h⟩, fun h => h.2 hpast.1⟩
  next hbefore =>
    refine ⟨fun h => ⟨h, fun hne => lt_of_lt_of_le ?_ h⟩, fun h => h.1⟩
    exact not_le.mp fun hle => hbefore ⟨hne, hle⟩

section Loop

variable {ρ : Type} (nameOf : ρ → List Char) (keep : ρ → Bool)

/-- `SELECT ... WHERE <conditions> ORDER BY name [DESC] LIMIT n`, where `keep` stands for the
conditions that do not depend on the markers. -/
def selectRows (rows : List ρ) (allowReserved : Bool) (query : Query) (reverse : Bool) (n : Nat) :
    List ρ :=
  let sorted := (rows.filter fun row => keep row && query.admits allowReserved (nameOf row)).insertionSort
    fun a b => nameOf a ≤ nameOf b
  (if reverse then sorted.reverse else sorted).take n

/-- An entry of a listing: a row, or a sub-directory `[dir_name, '0', 0, None, '']`. -/
inductive Entry (ρ : Type) where
  | row (r : ρ)
  | subdir (name : List Char)
  deriving DecidableEq, Repr

/-- The variables the loop carries from one query to the next. -/
structure LoopState (ρ : Type) where
  results : List (Entry ρ)
  marker : List Char
  endMarker : List Char
  delimForceGte : Bool
  deriving DecidableEq, Repr

/-- What the parameters of a listing become once the markers are swapped for `reverse` and
`path` has set the prefix and the delimiter. -/
structure Setup where
  limit : Nat
  /-- `prefix`, `None` or a string -/
  prefixQuery : Option (List Char)
  /-- `end_prefix`, set when the prefix is not empty -/
  prefixEnd : List Char
  delimiter : List Char
  path : Option (List Char)
  reverse : Bool
  allowReserved : Bool
  /-- the marker after the swap, which a sub-directory entry must differ from -/
  origMarker : List Char

/-- The conditions of the next query, as the `while` loop builds them. -/
def Setup.queryFor (setup : Setup) (state : LoopState ρ) : Query :=
  let pfx := setup.prefixQuery.getD []
  { below :=
      if state.endMarker ≠ [] ∧ (pfx = [] ∨ state.endMarker < setup.prefixEnd) then
        some state.endMarker
      else if pfx ≠ [] then some setup.prefixEnd
      else none
    above :=
      if state.delimForceGte then some (true, state.marker)
      else if state.marker ≠ [] ∧ (pfx = [] ∨ pfx ≤ state.marker) then some (false, state.marker)
      else if pfx ≠ [] then some (true, pfx)
      else none }

/-- A query of a listing with a prefix, made from a state that does not force `name >= marker`,
asks for exactly the names that start with the prefix and lie strictly between the markers. -/
theorem queryFor_admits_iff {setup : Setup} {state : LoopState ρ} {p : List Char}
    (hpfx : setup.prefixQuery = some p) (hp : p ≠ []) (hend : successor? p = some setup.prefixEnd)
    (hforce : state.delimForceGte = false) (name : List Char) :
    (setup.queryFor state).admits true name = true ↔
      p <+: name ∧ (state.marker ≠ [] → state.marker < name) ∧
        (state.endMarker ≠ [] → name < state.endMarker) := by
  have hbelow : (setup.queryFor state).below = some
      (if state.endMarker ≠ [] ∧ state.endMarker < setup.prefixEnd then state.endMarker
        else setup.prefixEnd) := by
    simp only [Setup.queryFor, hpfx, Option.getD_some, hp, false_or, ne_eq, not_false_eq_true]
    split <;> simp_all
  have habove : (setup.queryFor state).above =
      if state.marker ≠ [] ∧ p ≤ state.marker then some (false, state.marker)
      else some (true, p) := by
    simp only [Setup.queryFor, hpfx, Option.getD_some, hforce, hp, false_or, ne_eq,
      not_false_eq_true, Bool.false_eq_true, if_false]
    split <;> simp
  have habove' : (setup.queryFor state).above.all
      (fun above => if above.1 then decide (above.2 ≤ name) else decide (above.2 < name)) =
      decide (if state.marker ≠ [] ∧ p ≤ state.marker then state.marker < name else p ≤ name) := by
    rw [habove]
    split <;> simp
  rw [← le_and_lt_successor_iff hend name]
  simp only [Query.admits, hbelow, habove', Option.all_some, Bool.true_or, Bool.and_true,
    Bool.and_eq_true, decide_eq_true_eq, lt_ite_iff, ite_le_iff]
  tauto

/-- The ranges the queries of a listing with a prefix and a delimiter ask for: the query of a
state that does not force `name >= marker` asks for exactly the names under the prefix strictly
between the markers, and after a sub-directory `x + delimiter` the successor marker
`x + delimiter[:-1] + chr(ord(delimiter[-1]) + 1)` is at or below exactly the names at or past
the sub-directory that are not in it. -/
theorem queryFor_selects_listing_range {setup : Setup} {state : LoopState ρ} {p succ : List Char}
    (hpfx : setup.prefixQuery = some p) (hp : p ≠ []) (hend : successor? p = some setup.prefixEnd)
    (hforce : state.delimForceGte = false) (hsucc : successor? setup.delimiter = some succ) :
    (∀ name, (setup.queryFor state).admits true name = true ↔
      p <+: name ∧ (state.marker ≠ [] → state.marker < name) ∧
        (state.endMarker ≠ [] → name < state.endMarker)) ∧
    ∀ x name, x ++ setup.delimiter ≤ name →
      (x ++ succ ≤ name ↔ ¬ x ++ setup.delimiter <+: name) := by
  refine ⟨queryFor_admits_iff hpfx hp hend hforce, fun x name hle => ?_⟩
  rw [← le_and_lt_delimiterSuccessor_iff hsucc x name, not_and, not_lt]
  exact ⟨fun h _ => h, fun h => h hle⟩

/-- The setup of a forward listing with `prefix='a'` and `delimiter='/'`: `end_prefix` is
`'b'`. -/
def slashListingSetup : Setup := ⟨10, some ['a'], ['b'], ['/'], none, false, true, []⟩

/-- The first query of that listing; the successor of `'/'` is `'0'`. -/
theorem queryFor_selects_listing_range_first :
    slashListingSetup.prefixQuery = some ['a'] ∧ ['a'] ≠ [] ∧
    successor? ['a'] = some slashListingSetup.prefixEnd ∧
    (⟨[], [], [], false⟩ : LoopState Unit).delimForceGte = false ∧
    successor? slashListingSetup.delimiter = some ['0'] ∧
    (∀ name, (slashListingSetup.queryFor (⟨[], [], [], false⟩ : LoopState Unit)).admits true
        name = true ↔
      ['a'] <+: name ∧ ((⟨[], [], [], false⟩ : LoopState Unit).marker ≠ [] →
        (⟨[], [], [], false⟩ : LoopState Unit).marker < name) ∧
        ((⟨[], [], [], false⟩ : LoopState Unit).endMarker ≠ [] →
          name < (⟨[], [], [], false⟩ : LoopState Unit).endMarker)) ∧
    ∀ x name, x ++ slashListingSetup.delimiter ≤ name →
      (x ++ ['0'] ≤ name ↔ ¬ x ++ slashListingSetup.delimiter <+: name) := by
  have hend : successor? ['a'] = some slashListingSetup.prefixEnd := by decide
  have hsucc : successor? slashListingSetup.delimiter = some ['0'] := by decide
  exact ⟨rfl, List.cons_ne_nil _ _, hend, rfl, hsucc,
    queryFor_selects_listing_range rfl (List.cons_ne_nil _ _) hend rfl hsucc⟩

/-- How the `for row in curs` loop ends: it runs out of rows, `break`s after a sub-directory, or
returns because the limit was reached. -/
inductive BatchEnd (ρ : Type) where
  | exhausted (state : LoopState ρ)
  | broke (state : LoopState ρ)
  | returned (results : List (Entry ρ))

/-- The `for row in curs` loop over one query's rows; `none` where it raises. -/
def scanRows (setup : Setup) : LoopState ρ → List ρ → Option (BatchEnd ρ)
  | state, [] => some (.exhausted state)
  | state, row :: rest =>
    let name := nameOf row
    let state := if setup.reverse then { state with endMarker := name }
      else { state with marker := name }
    if setup.limit ≤ state.results.length then some (.returned state.results)
    else
      let delimiter := setup.delimiter
      let found := find? name delimiter (setup.prefixQuery.getD []).length
      let appended := { state with results := state.results ++ [.row row] }
      match setup.path with
      | some path =>
        if name = path then scanRows setup state rest
        else
          match found with
          | some stop =>
            if stop + delimiter.length < name.length then
              if setup.reverse then some (.broke { state with endMarker := name.take (stop + delimiter.length) })
              else (successor? delimiter).map fun succ =>
                .broke { state with marker := name.take stop ++ succ }
            else scanRows setup appended rest
          | none => scanRows setup appended rest
      | none =>
        match found with
        | some stop =>
          let dirName := name.take (stop + delimiter.length)
          let moved := if setup.reverse then some { state with endMarker := dirName }
            else (successor? delimiter).map fun succ =>
              -- "we want result to be inclusive of delim+1"
              { state with marker := name.take stop ++ succ, delimForceGte := true }
          moved.map fun moved =>
            .broke (if dirName ≠ setup.origMarker then
              { moved with results := moved.results ++ [.subdir dirName] } else moved)
        | none => scanRows setup appended rest

/-- The `while len(results) < limit` loop; `none` where it raises. Each round that goes on
leaves at least one more row out of range, so the table's length plus one rounds are enough;
`fuel` counts them. -/
def listingLoop (rows : List ρ) (setup : Setup) : Nat → LoopState ρ → Option (List (Entry ρ))
  | 0, _ => none
  | fuel + 1, state =>
    if state.results.length < setup.limit then
      let batch := selectRows nameOf keep rows setup.allowReserved (setup.queryFor state)
        setup.reverse (setup.limit - state.results.length)
      -- "Delimiters without a prefix is ignored"
      if setup.prefixQuery = none ∨ setup.delimiter = [] then some (batch.map .row)
      else
        -- building the query set `delim_force_gte` back to `False`
        match scanRows nameOf setup { state with delimForceGte := false } batch with
        | none => none
        | some (.returned results) => some results
        | some (.broke state) | some (.exhausted state) =>
          if batch = [] then some state.results else listingLoop rows setup fuel state
    else some state.results

/-- The common beginning of both listings: swap the markers for `reverse`, and compute
`end_prefix`; `none` where that raises. -/
def setupListing (limit : Nat) (marker endMarker : List Char) (prefixQuery : Option (List Char))
    (delimiter : List Char) (path : Option (List Char)) (reverse allowReserved : Bool) :
    Option (Setup × LoopState ρ) :=
  let (marker, endMarker) := if reverse then (endMarker, marker) else (marker, endMarker)
  let prefixEnd := if prefixQuery.getD [] = [] then some [] else successor? (prefixQuery.getD [])
  prefixEnd.map fun prefixEnd =>
    (⟨limit, prefixQuery, prefixEnd, delimiter, path, reverse, allowReserved, marker⟩,
      ⟨[], marker, endMarker, false⟩)

end Loop

/-! ### The two brokers -/

/-- A row of the `object` table, with the columns a listing reads. -/
structure ObjectRow where
  rowid : Nat
  name : List Char
  deleted : Bool
  storagePolicyIndex : Nat
  deriving DecidableEq, Repr

/-- The conditions of `list_objects_iter` that do not depend on the markers: `deleted` as
`include_deleted` asks (`none` for both), the storage policy, and `ROWID > since_row`. -/
def objectKeep (includeDeleted : Option Bool) (sinceRow : Option Nat) (storagePolicyIndex : Nat)
    (allPolicies : Bool) (row : ObjectRow) : Bool :=
  includeDeleted.all (row.deleted = ·) && (allPolicies || row.storagePolicyIndex = storagePolicyIndex) &&
    sinceRow.all (· < row.rowid)

/-- `ContainerBroker.list_objects_iter(limit, marker, end_marker, prefix, delimiter, path,
storage_policy_index, reverse, include_deleted, since_row, all_policies, allow_reserved)` with the
default `transform_func`; `none` where it raises. A `path` sets the prefix to itself with one
trailing `'/'` and the delimiter to `'/'`; a delimiter with no prefix sets the prefix to `''`. -/
def listObjectsIter (rows : List ObjectRow) (limit : Nat) (marker endMarker : List Char)
    (prefixQuery : Option (List Char)) (delimiter : List Char) (path : Option (List Char))
    (storagePolicyIndex : Nat) (reverse : Bool) (includeDeleted : Option Bool)
    (sinceRow : Option Nat) (allPolicies allowReserved : Bool) : Option (List (Entry ObjectRow)) :=
  let (prefixQuery, delimiter, path) := match path with
    | some path =>
      let path := if path ≠ [] then rstripSlash path ++ ['/'] else path
      (some path, ['/'], some path)
    | none =>
      (if delimiter ≠ [] ∧ prefixQuery.getD [] = [] then some [] else prefixQuery, delimiter, none)
  (setupListing limit marker endMarker prefixQuery delimiter path reverse allowReserved).bind
    fun (setup, state) =>
      listingLoop ObjectRow.name (objectKeep includeDeleted sinceRow storagePolicyIndex allPolicies)
        rows setup (rows.length + 1) state

/-- A row of the `container` table of an account, with the columns a listing reads. -/
structure ContainerRow where
  name : List Char
  deleted : Bool
  deriving DecidableEq, Repr

/-- `AccountBroker.list_containers_iter(limit, marker, end_marker, prefix, delimiter, reverse,
allow_reserved)`; `none` where it raises. -/
def listContainersIter (rows : List ContainerRow) (limit : Nat) (marker endMarker : List Char)
    (prefixQuery : Option (List Char)) (delimiter : List Char) (reverse allowReserved : Bool) :
    Option (List (Entry ContainerRow)) :=
  let prefixQuery := if delimiter ≠ [] ∧ prefixQuery.getD [] = [] then some [] else prefixQuery
  (setupListing limit marker endMarker prefixQuery delimiter none reverse allowReserved).bind
    fun (setup, state) =>
      listingLoop ContainerRow.name (fun row => !row.deleted) rows setup (rows.length + 1) state

/-! ### The listing the loop is meant to produce -/

section Reference

variable {ρ : Type} [DecidableEq ρ] (nameOf : ρ → List Char) (keep : ρ → Bool)

/-- How a row is listed under the prefix `pfx` with a delimiter: as the sub-directory up to and
including the first delimiter after the prefix, or as itself. -/
def entryOf (pfx delimiter : List Char) (row : ρ) : Entry ρ :=
  match find? (nameOf row) delimiter pfx.length with
  | some stop => .subdir ((nameOf row).take (stop + delimiter.length))
  | none => .row row

/-- The listing without the loop: the kept rows strictly between the markers (swapped for
`reverse`), under the prefix, not reserved unless allowed, in name order. With `path` the rows
directly under `path.rstrip('/') + '/'`; with a delimiter each row's entry, equal entries in a row
collapsed and the sub-directory equal to the lower marker dropped. The first `limit` of them. -/
def referenceListing (rows : List ρ) (limit : Nat) (marker endMarker : List Char)
    (prefixQuery : Option (List Char)) (delimiter : List Char) (path : Option (List Char))
    (reverse allowReserved : Bool) : List (Entry ρ) :=
  let lower := if reverse then endMarker else marker
  let upper := if reverse then marker else endMarker
  let pfx := match path with
    | some path => rstripSlash path ++ ['/']
    | none => prefixQuery.getD []
  let inRange := rows.filter fun row =>
    keep row && (allowReserved || (nameOf row).head? != some reservedByte) &&
      (lower.isEmpty || decide (lower < nameOf row)) &&
      (upper.isEmpty || decide (nameOf row < upper)) && pfx.isPrefixOf (nameOf row)
  let sorted := inRange.insertionSort fun a b => nameOf a ≤ nameOf b
  let ordered := if reverse then sorted.reverse else sorted
  let listed := match path with
    | some _ =>
      (ordered.filter fun row => nameOf row != pfx &&
        (find? (nameOf row) ['/'] pfx.length).all (· + 1 = (nameOf row).length)).map Entry.row
    | none =>
      if delimiter = [] then ordered.map Entry.row
      else ((ordered.map (entryOf nameOf pfx delimiter)).destutter (· ≠ ·)).filter
        (· ≠ Entry.subdir lower)
  listed.take limit

end Reference

/-! ### `path` listings

In `path` mode the loop leaves a row `x/y/...` below the path by moving the marker to
`x + chr(ord('/') + 1)`, that is `x0`, as the delimiter branch does; but it does not set
`delim_force_gte`, so the next query asks for `name > 'x0'` and a row named `x0`, which is
directly under the path, is never listed. Backwards the loop moves the end marker to `x/`
instead and does list it, but then queries `name < 'x/'`, which leaves out a row named `x/`,
also directly under the path, that forwards is listed. -/

theorem listObjectsIter_path_skips_successor :
    listObjectsIter [⟨1, "a/b/c".toList, false, 0⟩, ⟨2, "a/b0".toList, false, 0⟩] 10 [] [] none []
        (some "a".toList) 0 false (some false) none false false = some [] ∧
    listObjectsIter [⟨1, "a/b/c".toList, false, 0⟩, ⟨2, "a/b0".toList, false, 0⟩] 10 [] [] none []
        (some "a".toList) 0 true (some false) none false false =
      some [.row ⟨2, "a/b0".toList, false, 0⟩] ∧
    referenceListing ObjectRow.name (objectKeep (some false) none 0 false)
        [⟨1, "a/b/c".toList, false, 0⟩, ⟨2, "a/b0".toList, false, 0⟩] 10 [] [] none []
        (some "a".toList) false false =
      [.row ⟨2, "a/b0".toList, false, 0⟩] ∧
    listObjectsIter [⟨1, "a/b/c".toList, false, 0⟩, ⟨2, "a/b/".toList, false, 0⟩] 10 [] [] none []
        (some "a".toList) 0 false (some false) none false false =
      some [.row ⟨2, "a/b/".toList, false, 0⟩] ∧
    listObjectsIter [⟨1, "a/b/c".toList, false, 0⟩, ⟨2, "a/b/".toList, false, 0⟩] 10 [] [] none []
        (some "a".toList) 0 true (some false) none false false = some [] :=
  ⟨by decide, by decide, by decide, by decide, by decide⟩

end Listing

end Swift
