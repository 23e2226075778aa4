import UtilityCss.OrderedMap
import Mathlib.Data.List.Nodup
import Mathlib.Data.List.Perm.Basic
import Mathlib.Tactic.Common

/-!
# Laws of ordered maps

Since its keys are distinct, an ordered map is known from its entries in whatever order
(`get?_eq_some_iff_mem`, `get?_of_perm`). A key that is present has one place in the order
(`getElem?_of_keys_eq`). After several writes the keys stand in the order of their first writes
(`keys_insertAll`), each with the value of its last (`get?_insertAll_of_last`).

A run begins with a list of entries and goes on with writes and removals by key, tests of all
entries and writes by place. Each change comes to events about keys: a key is written, or it is
dropped (`foldl_obey_events`). After any run the map holds the writes that no later event drops,
under each key the last one, and with the keys in the order of the first ones (`holds_run`).

* `OrderedMap.Change` is a change, `OrderedMap.change` makes it and `OrderedMap.run` makes several.
* `OrderedMap.Event` is what a change means for one key, `OrderedMap.events` lists the events of a
  change and `OrderedMap.history` those of a run.
* `OrderedMap.standing` are the writes since each key was last absent.
* `OrderedMap.Holds` says what a map answers that holds a list of writes.
-/

set_option autoImplicit false

namespace UtilityCss.OrderedMap

variable {α : Type} {map : OrderedMap α} {key : Text} {value : α}

theorem get?_eq_none_iff : map.get? key = none ↔ key ∉ map.keys := by
  rw [get?, keys, List.lookup_eq_none_iff]
  constructor
  · intro h hmem
    obtain ⟨entry, hentry, hkey⟩ := List.mem_map.1 hmem
    have hne := h entry hentry
    rw [hkey] at hne
    simp at hne
  · intro h entry hentry
    have hne : key ≠ entry.1 := by
      rintro rfl
      exact h (List.mem_map_of_mem hentry)
    simpa using hne

theorem get?_eq_some_iff_mem : map.get? key = some value ↔ (key, value) ∈ map.entries := by
  rw [get?, List.lookup_eq_some_iff]
  constructor
  · rintro ⟨before, after, hentries, -⟩
    rw [hentries]
    simp
  · intro h
    obtain ⟨before, after, hentries⟩ := List.append_of_mem h
    refine ⟨before, after, hentries, ?_⟩
    -- The entries before have other keys, since no key stands twice.
    intro entry hentry
    have hnodup := map.nodup
    rw [hentries, List.map_append, List.map_cons, List.nodup_middle, List.nodup_cons] at hnodup
    have hmem : entry.1 ∈ before.map Prod.fst := List.mem_map_of_mem hentry
    have hne : key ≠ entry.1 := by
      intro hkey
      rw [← hkey] at hmem
      exact hnodup.1 (List.mem_append_left _ hmem)
    simpa using hne

theorem exists_get?_of_mem_keys (h : key ∈ map.keys) : ∃ value, map.get? key = some value := by
  obtain ⟨entry, hentry, rfl⟩ := List.mem_map.1 h
  exact ⟨entry.2, get?_eq_some_iff_mem.2 hentry⟩

theorem mem_keys_of_get? (h : map.get? key = some value) : key ∈ map.keys :=
  List.mem_map_of_mem (get?_eq_some_iff_mem.1 h)

/-- The entry of a key stands where the key stands. -/
theorem getElem?_of_keys_eq {before after : List Text} (h : map.keys = before ++ key :: after)
    (hvalue : map.get? key = some value) : map.entries[before.length]? = some (key, value) := by
  have hkey : map.keys[before.length]? = some key := by
    rw [h, List.getElem?_append_right (Nat.le_refl _), Nat.sub_self]
    rfl
  rw [keys, List.getElem?_map, Option.map_eq_some_iff] at hkey
  obtain ⟨⟨found, other⟩, hentry, rfl⟩ := hkey
  have hother := get?_eq_some_iff_mem.2 (List.mem_of_getElem? hentry)
  rw [hvalue] at hother
  cases hother
  exact hentry

/-- The order of the entries does not matter for the values. -/
theorem get?_of_perm {other : OrderedMap α} (h : other.entries.Perm map.entries) :
    other.get? key = map.get? key := by
  cases hvalue : map.get? key with
  | none =>
      rw [get?_eq_none_iff] at hvalue ⊢
      intro hmem
      exact hvalue ((h.map Prod.fst).subset hmem)
  | some value =>
      rw [get?_eq_some_iff_mem] at hvalue ⊢
      exact h.symm.subset hvalue

@[simp] theorem keys_insert_of_mem (h : key ∈ map.keys) (value : α) :
    (map.insert key value).keys = map.keys := by
  rw [keys_insert, if_pos h]

/-! ## Tests of keys and changes of values -/

/-- A test of keys leaves the keys that satisfy it in their order. -/
theorem keys_filter_key (keep : Text → Bool) :
    (map.filter (fun other _ => keep other)).keys = map.keys.filter keep :=
  List.filter_map.symm

/-- A test of keys decides which of them are left. -/
theorem mem_keys_filter_iff {keep : Text → Bool} :
    key ∈ (map.filter (fun other _ => keep other)).keys ↔ key ∈ map.keys ∧ keep key = true := by
  rw [keys_filter_key, List.mem_filter]

theorem get?_filter_key {keep : Text → Bool} (h : keep key = true) :
    (map.filter (fun other _ => keep other)).get? key = map.get? key := by
  cases hvalue : map.get? key with
  | none =>
      rw [get?_eq_none_iff, mem_keys_filter_iff, not_and_or]
      exact Or.inl (get?_eq_none_iff.1 hvalue)
  | some value =>
      rw [get?_eq_some_iff_mem] at hvalue ⊢
      exact List.mem_filter.2 ⟨hvalue, h⟩

theorem get?_mapValues (change : α → α) :
    (map.mapValues change).get? key = (map.get? key).map change := by
  cases hvalue : map.get? key with
  | none =>
      rw [Option.map_none, get?_eq_none_iff, keys_mapValues]
      exact get?_eq_none_iff.1 hvalue
  | some value =>
      rw [Option.map_some, get?_eq_some_iff_mem]
      exact List.mem_map_of_mem (get?_eq_some_iff_mem.1 hvalue)

/-! ## Several writes -/

@[simp] theorem insertAll_nil : map.insertAll [] = map := rfl

@[simp] theorem insertAll_cons (entry : Text × α) (rest : List (Text × α)) :
    map.insertAll (entry :: rest) = (map.insert entry.1 entry.2).insertAll rest := rfl

theorem insertAll_append (first second : List (Text × α)) :
    map.insertAll (first ++ second) = (map.insertAll first).insertAll second :=
  List.foldl_append

/-- Writes add the keys that are new, each once, in the order of their first writes. -/
theorem keys_insertAll (entries : List (Text × α)) :
    (map.insertAll entries).keys = map.keys ++
      ((entries.map Prod.fst).filter (fun key => !decide (key ∈ map.keys))).eraseDups := by
  induction entries generalizing map with
  | nil => simp
  | cons entry rest ih =>
      rw [insertAll_cons, ih, keys_insert, List.map_cons]
      by_cases hmem : entry.1 ∈ map.keys
      · rw [if_pos hmem, List.filter_cons_of_neg (by simp [hmem])]
      · -- The new key comes first, and the writes after it no longer count as new.
        rw [if_neg hmem, List.filter_cons_of_pos (by simp [hmem]), List.eraseDups_cons,
          List.filter_filter, List.append_assoc, List.singleton_append]
        congr 4
        funext key
        rw [Bool.eq_iff_iff]
        simp [and_comm]

/-- The keys of a list of entries are its keys, each once. -/
theorem keys_ofList (entries : List (Text × α)) :
    (ofList entries).keys = (entries.map Prod.fst).eraseDups := by
  have hnew : (entries.map Prod.fst).filter
      (fun key => !decide (key ∈ (empty : OrderedMap α).keys)) = entries.map Prod.fst := by
    rw [List.filter_eq_self, keys_empty]
    simp
  rw [ofList, keys_insertAll, hnew, keys_empty, List.nil_append]

/-- What is not written keeps its value. -/
theorem get?_insertAll_of_not_mem {entries : List (Text × α)} (h : key ∉ entries.map Prod.fst) :
    (map.insertAll entries).get? key = map.get? key := by
  induction entries generalizing map with
  | nil => rfl
  | cons entry rest ih =>
      rw [List.map_cons, List.mem_cons, not_or] at h
      rw [insertAll_cons, ih h.2, get?_insert, if_neg h.1]

/-- The last write counts. -/
theorem get?_insertAll_of_last {after : List (Text × α)} (before : List (Text × α))
    (h : key ∉ after.map Prod.fst) :
    (map.insertAll (before ++ (key, value) :: after)).get? key = some value := by
  rw [insertAll_append, insertAll_cons, get?_insertAll_of_not_mem h, get?_insert, if_pos rfl]

/-- A key has the value of its last write, if there is one. -/
theorem get?_insertAll (entries : List (Text × α)) :
    (map.insertAll entries).get? key =
      ((entries.filter fun entry => entry.1 == key).getLast?.map Prod.snd).or (map.get? key) := by
  induction entries generalizing map with
  | nil => rfl
  | cons entry rest ih =>
      rw [insertAll_cons, ih, get?_insert]
      by_cases hkey : entry.1 = key
      · -- The first write counts only if it is the last one under the key.
        rw [List.filter_cons_of_pos (by simp [hkey]), if_pos hkey.symm, List.getLast?_cons]
        cases (rest.filter fun entry => entry.1 == key).getLast? <;> rfl
      · rw [List.filter_cons_of_neg (by simp [hkey]), if_neg fun heq => hkey heq.symm]

theorem get?_ofList (entries : List (Text × α)) :
    (ofList entries).get? key =
      (entries.filter fun entry => entry.1 == key).getLast?.map Prod.snd := by
  rw [ofList, get?_insertAll, get?_empty, Option.or_none]

theorem put_of_not_mem {entries : List (Text × α)} (h : key ∉ entries.map Prod.fst) :
    put key value entries = entries ++ [(key, value)] := by
  induction entries with
  | nil => rfl
  | cons entry rest ih =>
      rw [List.map_cons, List.mem_cons, not_or] at h
      rw [put, if_neg fun heq => h.1 heq.symm, ih h.2, List.cons_append]

/-- Writes under new keys add the entries as they are. -/
theorem entries_insertAll_of_nodup {entries : List (Text × α)}
    (h : (map.keys ++ entries.map Prod.fst).Nodup) :
    (map.insertAll entries).entries = map.entries ++ entries := by
  induction entries generalizing map with
  | nil => simp
  | cons entry rest ih =>
      have hnew : entry.1 ∉ map.keys := by
        rw [List.map_cons, List.nodup_middle, List.nodup_cons] at h
        exact fun hmem => h.1 (List.mem_append_left _ hmem)
      have hentries : (map.insert entry.1 entry.2).entries = map.entries ++ [entry] :=
        put_of_not_mem hnew
      have hkeys : (map.insert entry.1 entry.2).keys = map.keys ++ [entry.1] := by
        rw [keys_insert, if_neg hnew]
      rw [insertAll_cons, ih, hentries, List.append_assoc, List.singleton_append]
      rw [hkeys, List.append_assoc, List.singleton_append]
      exact h

/-- A map is what its entries make of the empty map. -/
theorem ofList_entries (map : OrderedMap α) : ofList map.entries = map :=
  ext_entries (entries_insertAll_of_nodup map.nodup)

/-! ## Changes and events -/

/-- A change of a map. -/
inductive Change (α : Type) where
  | insert (key : Text) (value : α)
  | remove (key : Text)
  /-- Keeps the entries that satisfy a test. No two entries have the same key, so that a test that
  remembers what it has seen answers as some test of keys does. -/
  | retain (keep : Text → α → Bool)
  /-- Writes to the entry at a place, if there is one. -/
  | writeAt (index : Nat) (value : α)

/-- What a change answers, and the map after it. -/
def change (map : OrderedMap α) : Change α → Option α × OrderedMap α
  | .insert key value => map.getThenInsert? key value
  | .remove key => map.getThenErase? key
  | .retain keep => (none, map.filter keep)
  | .writeAt index value => (none, map.setAt index value)

/-- The map after several changes. -/
def run (map : OrderedMap α) (changes : List (Change α)) : OrderedMap α :=
  changes.foldl (fun map change => (map.change change).2) map

/-- What a change means for one key. -/
inductive Event (α : Type) where
  | write (key : Text) (value : α)
  | drop (key : Text)

/-- The key that an event drops. -/
def Event.dropped? : Event α → Option Text
  | write _ _ => none
  | drop key => some key

/-- The events of a change. A test drops the keys of the entries that fail it, and a write by place
writes to the key at the place. -/
def events (map : OrderedMap α) : Change α → List (Event α)
  | .insert key value => [.write key value]
  | .remove key => [.drop key]
  | .retain keep =>
    (map.entries.filter fun entry => !keep entry.1 entry.2).map fun entry => .drop entry.1
  | .writeAt index value => map.keys[index]?.toList.map fun key => .write key value

/-- The events of several changes. -/
def eventsOf : OrderedMap α → List (Change α) → List (Event α)
  | _, [] => []
  | map, change :: rest => map.events change ++ eventsOf (map.change change).2 rest

/-- The events of a run from its first entries on, each of which is written. -/
def history (initial : List (Text × α)) (changes : List (Change α)) : List (Event α) :=
  initial.map (fun entry => .write entry.1 entry.2) ++ eventsOf (ofList initial) changes

/-- The keys that events drop. -/
def dropped (events : List (Event α)) : List Text :=
  events.filterMap Event.dropped?

/-- The writes since each key was last absent, which are those that no later event drops. -/
def standing : List (Event α) → List (Text × α)
  | [] => []
  | .write key value :: later =>
    if (dropped later).contains key then standing later else (key, value) :: standing later
  | .drop _ :: later => standing later

/-- The map after an event. -/
def obey (map : OrderedMap α) : Event α → OrderedMap α
  | .write key value => map.insert key value
  | .drop key => map.erase key

/-- What a map answers that holds the given writes. -/
structure Holds (map : OrderedMap α) (writes : List (Text × α)) : Prop where
  nodup_keys : map.keys.Nodup
  /-- Keys stand in the order of their first writes. -/
  keys_eq : map.keys = (writes.map Prod.fst).eraseDups
  /-- A key has the value of its last write, and a key without one has none. -/
  get?_eq : ∀ key, map.get? key = (writes.filter fun write => write.1 == key).getLast?.map Prod.snd
  answer_insert : ∀ key value, (map.change (.insert key value)).1 = map.get? key
  answer_remove : ∀ key, (map.change (.remove key)).1 = map.get? key
  /-- No change moves the keys that it keeps. -/
  sublist_keys : ∀ change, ((map.change change).2.keys.filter (· ∈ map.keys)).Sublist map.keys
  entryAt?_iff : ∀ index key value, map.entryAt? index = some (key, value) ↔
    map.keys[index]? = some key ∧ map.get? key = some value
  entries_eq : map.entries =
    map.keys.filterMap fun key => (map.get? key).map fun value => (key, value)
  size_eq : map.size = map.keys.length
  /-- A write by place changes the value at that place and nothing else. -/
  entryAt?_writeAt : ∀ index value other,
    (map.change (.writeAt index value)).2.entryAt? other =
      if other = index then (map.entryAt? index).map fun entry => (entry.1, value)
      else map.entryAt? other

/-! ## Access by key and by place -/

/-- The entry at a place is the key at the place with the value under it. -/
theorem entryAt?_eq_some_iff {index : Nat} :
    map.entryAt? index = some (key, value) ↔
      map.keys[index]? = some key ∧ map.get? key = some value := by
  rw [entryAt?, keys, List.getElem?_map]
  constructor
  · intro h
    exact ⟨by rw [h]; rfl, get?_eq_some_iff_mem.2 (List.mem_of_getElem? h)⟩
  · rintro ⟨hkey, hvalue⟩
    obtain ⟨⟨found, other⟩, hentry, rfl⟩ := Option.map_eq_some_iff.1 hkey
    -- Keys are distinct, so that the value under the key is the one at the place.
    have hother := get?_eq_some_iff_mem.2 (List.mem_of_getElem? hentry)
    rw [hvalue] at hother
    cases hother
    exact hentry

/-- The entries are the keys with the values under them. -/
theorem entries_eq_filterMap (map : OrderedMap α) :
    map.entries = map.keys.filterMap fun key => (map.get? key).map fun value => (key, value) := by
  have hentries : ∀ entry ∈ map.entries,
      ((map.get? entry.1).map fun value => (entry.1, value)) = some entry := by
    intro entry hentry
    have hvalue : map.get? entry.1 = some entry.2 := get?_eq_some_iff_mem.2 hentry
    rw [hvalue]
    rfl
  rw [keys, List.filterMap_map]
  exact ((List.filterMap_congr hentries).trans List.filterMap_some).symm

theorem getElem?_putAt (value : α) (index other : Nat) (entries : List (Text × α)) :
    (putAt value index entries)[other]? =
      if other = index then entries[index]?.map fun entry => (entry.1, value)
      else entries[other]? := by
  induction entries generalizing index other with
  | nil => cases index <;> simp [putAt]
  | cons entry rest ih =>
      cases index with
      | zero => cases other <;> simp [putAt]
      | succ index =>
          cases other with
          | zero => simp [putAt]
          | succ other => simp [putAt, ih]

/-- A write by place changes the value at that place and nothing else. -/
theorem entryAt?_setAt (map : OrderedMap α) (index other : Nat) (value : α) :
    (map.setAt index value).entryAt? other =
      if other = index then (map.entryAt? index).map fun entry => (entry.1, value)
      else map.entryAt? other :=
  getElem?_putAt value index other map.entries

theorem putAt_of_getElem?_eq_none {index : Nat} {entries : List (Text × α)}
    (h : (entries.map Prod.fst)[index]? = none) : putAt value index entries = entries := by
  induction entries generalizing index with
  | nil => cases index <;> rfl
  | cons entry rest ih =>
      cases index with
      | zero => simp at h
      | succ index =>
          rw [List.map_cons, List.getElem?_cons_succ] at h
          rw [putAt, ih h]

theorem putAt_eq_put {index : Nat} {entries : List (Text × α)}
    (hnodup : (entries.map Prod.fst).Nodup) (h : (entries.map Prod.fst)[index]? = some key) :
    putAt value index entries = put key value entries := by
  induction entries generalizing index with
  | nil => simp at h
  | cons entry rest ih =>
      rw [List.map_cons, List.nodup_cons] at hnodup
      cases index with
      | zero =>
          obtain rfl : entry.1 = key := by simpa using h
          rw [putAt, put, if_pos rfl]
      | succ index =>
          rw [List.map_cons, List.getElem?_cons_succ] at h
          have hne : entry.1 ≠ key := by
            rintro rfl
            exact hnodup.1 (List.mem_of_getElem? h)
          rw [putAt, put, if_neg hne, ih hnodup.2 h]

/-- Where there is no entry, a write by place changes nothing. -/
theorem setAt_of_getElem?_eq_none {index : Nat} (h : map.keys[index]? = none) :
    map.setAt index value = map :=
  ext_entries (putAt_of_getElem?_eq_none h)

/-- A write by place is a write to the key at the place. -/
theorem setAt_eq_insert {index : Nat} (h : map.keys[index]? = some key) :
    map.setAt index value = map.insert key value :=
  ext_entries (putAt_eq_put map.nodup h)

/-! ## Events and their standing writes -/

theorem filter_put (keep : Text → Bool) (key : Text) (value : α) (entries : List (Text × α)) :
    (put key value entries).filter (fun entry => keep entry.1) =
      if keep key then put key value (entries.filter fun entry => keep entry.1)
      else entries.filter fun entry => keep entry.1 := by
  induction entries with
  | nil => cases h : keep key <;> simp [put, h]
  | cons entry rest ih =>
      rw [put]
      by_cases hentry : entry.1 = key
      · subst hentry
        rw [if_pos rfl]
        cases h : keep entry.1 <;> simp [put, h]
      · rw [if_neg hentry]
        cases hother : keep entry.1 <;> cases h : keep key <;> simp [put, hentry, hother, h, ih]

/-- A test of keys can be made before a write, which counts if its key passes the test. -/
theorem filter_insert (keep : Text → Bool) (map : OrderedMap α) (key : Text) (value : α) :
    (map.insert key value).filter (fun other _ => keep other) =
      if keep key then (map.filter fun other _ => keep other).insert key value
      else map.filter fun other _ => keep other := by
  apply ext_entries
  rw [apply_ite entries]
  exact filter_put keep key value map.entries

/-- Keys that are removed one after the other can be removed together. -/
theorem erase_filter (map : OrderedMap α) (key : Text) (keys : List Text) :
    (map.erase key).filter (fun other _ => decide (other ∉ keys)) =
      map.filter fun other _ => decide (other ∉ key :: keys) := by
  apply ext_entries
  simp only [erase, filter, List.filter_filter]
  congr 1
  funext entry
  rw [Bool.eq_iff_iff]
  simp [and_comm]

/-- Events drop keys of the map, and what they write and do not drop again is added. -/
theorem foldl_obey (map : OrderedMap α) (events : List (Event α)) :
    events.foldl obey map =
      (map.filter fun key _ => decide (key ∉ dropped events)).insertAll (standing events) := by
  induction events generalizing map with
  | nil => exact ext_entries (by simp [filter, dropped, standing])
  | cons event later ih =>
      rw [List.foldl_cons, ih]
      cases event with
      | write key value =>
          rw [obey, filter_insert, standing]
          -- A write stands unless its key is dropped later, with what the map had for it.
          by_cases hdrop : key ∈ dropped later
          · rw [if_neg (by simpa using hdrop), if_pos (List.contains_iff_mem.2 hdrop)]
            rfl
          · rw [if_pos (by simpa using hdrop), if_neg (by simpa using hdrop)]
            rfl
      | drop key =>
          rw [obey, erase_filter, standing]
          rfl

/-- Events make of the empty map what their standing writes make of it. -/
theorem foldl_obey_empty (events : List (Event α)) :
    events.foldl obey empty = ofList (standing events) :=
  foldl_obey empty events

theorem foldl_obey_drop (map : OrderedMap α) (keys : List Text) :
    (keys.map .drop).foldl obey map = map.filter fun key _ => decide (key ∉ keys) := by
  have hstanding : standing (keys.map (.drop : Text → Event α)) = [] := by
    induction keys with
    | nil => rfl
    | cons key rest ih => exact ih
  have hdropped : dropped (keys.map (.drop : Text → Event α)) = keys := by
    rw [dropped, List.filterMap_map]
    exact List.filterMap_some
  rw [foldl_obey, hdropped, hstanding, insertAll_nil]

/-! ## Every change is its events -/

/-- A test keeps the entries whose keys are not those of an entry that fails it. -/
theorem filter_eq_filter_not_mem (keep : Text → α → Bool) (map : OrderedMap α) :
    map.filter keep = map.filter fun key _ =>
      decide (key ∉ (map.entries.filter fun entry => !keep entry.1 entry.2).map Prod.fst) := by
  apply ext_entries
  apply List.filter_congr
  intro entry hentry
  rw [Bool.eq_iff_iff, decide_eq_true_iff]
  constructor
  · intro hkeep hmem
    obtain ⟨other, hother, hkey⟩ := List.mem_map.1 hmem
    rw [List.mem_filter] at hother
    -- The other entry has the same key, so that it is this one.
    have hvalue := get?_eq_some_iff_mem.2 hentry
    rw [← hkey, get?_eq_some_iff_mem.2 hother.1, Option.some.injEq] at hvalue
    rw [hkey, hvalue, hkeep] at hother
    cases hother.2
  · intro hnot
    by_contra hkeep
    exact hnot (List.mem_map_of_mem (List.mem_filter.2 ⟨hentry, by simpa using hkeep⟩))

/-- A change makes of a map what its events make of it. -/
theorem foldl_obey_events (map : OrderedMap α) (change : Change α) :
    (map.change change).2 = (map.events change).foldl obey map := by
  cases change with
  | insert key value =>
      rw [OrderedMap.change, getThenInsert?_eq]
      rfl
  | remove key =>
      rw [OrderedMap.change, getThenErase?_eq]
      rfl
  | retain keep =>
      rw [OrderedMap.change, filter_eq_filter_not_mem, ← foldl_obey_drop, List.map_map]
      rfl
  | writeAt index value =>
      rw [OrderedMap.change, events]
      cases hkey : map.keys[index]? with
      | none => exact setAt_of_getElem?_eq_none hkey
      | some key => exact setAt_eq_insert hkey

/-! ## Runs -/

theorem run_eq_foldl_obey (map : OrderedMap α) (changes : List (Change α)) :
    map.run changes = (map.eventsOf changes).foldl obey map := by
  induction changes generalizing map with
  | nil => rfl
  | cons change rest ih =>
      rw [eventsOf, List.foldl_append, ← foldl_obey_events, ← ih]
      rfl

theorem ofList_eq_foldl_obey (initial : List (Text × α)) :
    ofList initial = (initial.map fun entry => .write entry.1 entry.2).foldl obey empty := by
  rw [List.foldl_map]
  rfl

/-- A run leaves the writes of its history that stand. -/
theorem run_eq_ofList (initial : List (Text × α)) (changes : List (Change α)) :
    (ofList initial).run changes = ofList (standing (history initial changes)) := by
  rw [run_eq_foldl_obey, ← foldl_obey_empty, history, List.foldl_append, ← ofList_eq_foldl_obey]

/-- A change leaves the keys that it keeps in their order. -/
theorem sublist_keys_change (map : OrderedMap α) (change : Change α) :
    ((map.change change).2.keys.filter (· ∈ map.keys)).Sublist map.keys := by
  have hfilter : ∀ keep : Text → α → Bool, (map.filter keep).keys.Sublist map.keys := fun keep =>
    List.filter_sublist.map Prod.fst
  cases change with
  | insert key value =>
      rw [OrderedMap.change, getThenInsert?_eq, keys_insert]
      split
      · exact List.filter_sublist
      · -- A new key is the last one, and it is not among those that were there.
        rename_i hkey
        rw [List.filter_append, List.filter_cons_of_neg (by simpa using hkey), List.filter_nil,
          List.append_nil]
        exact List.filter_sublist
  | remove key =>
      rw [OrderedMap.change, getThenErase?_eq]
      exact List.filter_sublist.trans (hfilter _)
  | retain keep => exact List.filter_sublist.trans (hfilter keep)
  | writeAt index value =>
      rw [OrderedMap.change, keys_setAt]
      exact List.filter_sublist

/-- After every run keys are distinct and stand in the order in which they were first written since
they were last absent; a key has the value that was last written since then, and none if it is
absent. That is what a write or a removal of the key answers. The keys that a change keeps stay in
their order. Places, keys, entries and size all speak of one list, and a write by place changes the
value at that place and nothing else. -/
theorem holds_run (initial : List (Text × α)) (changes : List (Change α)) :
    Holds ((ofList initial).run changes) (standing (history initial changes)) := by
  have hrun := run_eq_ofList initial changes
  constructor
  case nodup_keys => exact OrderedMap.nodup _
  case keys_eq => rw [hrun, keys_ofList]
  case get?_eq =>
    intro key
    rw [hrun, get?_ofList]
  case answer_insert =>
    intro key value
    rw [change, getThenInsert?_eq]
  case answer_remove =>
    intro key
    rw [change, getThenErase?_eq]
  case sublist_keys => exact sublist_keys_change _
  case entryAt?_iff =>
    intro index key value
    exact entryAt?_eq_some_iff
  case entries_eq => exact entries_eq_filterMap _
  case size_eq => exact (List.length_map Prod.fst).symm
  case entryAt?_writeAt =>
    intro index value other
    exact entryAt?_setAt _ index other value

/-- An overwritten key keeps its place, and one that is removed comes back at the end. -/
example : ((ofList [(['a'], 1), (['b'], 2), (['c'], 3)]).run
    [.insert ['a'] 4, .remove ['b'], .insert ['b'] 5, .retain (fun key _ => key != ['c']),
      .writeAt 1 6]).entries = [(['a'], 4), (['b'], 6)] := by
  decide

end UtilityCss.OrderedMap
