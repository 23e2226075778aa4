import UtilityCss.Text

/-!
# Ordered maps

An ordered map gives values to names and keeps the names in the order in which they came.
Writing a name that is present replaces its value in place; removing names leaves the order of
the others.

* `OrderedMap` is a list of entries with distinct keys.
* `OrderedMap.get?`, `insert`, `erase`, `filter`, `mapValues` read and change it by key.
* `OrderedMap.entryAt?` and `setAt` read and change it by place.
* `OrderedMap.getThenInsert?` and `getThenErase?` find the value of a key on the way to changing it.

Main statements: `get?_insert` and `keys_insert`, `getThenInsert?_eq` and `getThenErase?_eq`.
-/

set_option autoImplicit false

namespace UtilityCss

/-- Values under distinct names, in order. -/
structure OrderedMap (α : Type) where
  entries : List (Text × α)
  nodup : (entries.map Prod.fst).Nodup

namespace OrderedMap

variable {α : Type}

/-! ## Lists of entries -/

/-- The entries with `value` under `key`, in place if the key is present and at the end if not. -/
def put (key : Text) (value : α) : List (Text × α) → List (Text × α)
  | [] => [(key, value)]
  | entry :: rest =>
    if entry.1 = key then (key, value) :: rest else entry :: put key value rest

/-- The entries with another value at a place. -/
def putAt (value : α) : Nat → List (Text × α) → List (Text × α)
  | _, [] => []
  | 0, entry :: rest => (entry.1, value) :: rest
  | index + 1, entry :: rest => entry :: putAt value index rest

/-- The entries with `value` under `key`, with the value that it replaces. -/
def exchange (key : Text) (value : α) : List (Text × α) → Option α × List (Text × α)
  | [] => (none, [(key, value)])
  | entry :: rest =>
    if entry.1 = key then (some entry.2, (key, value) :: rest)
    else (exchange key value rest).map id (entry :: ·)

/-- The entries without the first one under `key`, with the value of that one. -/
def extract (key : Text) : List (Text × α) → Option α × List (Text × α)
  | [] => (none, [])
  | entry :: rest =>
    if entry.1 = key then (some entry.2, rest)
    else (extract key rest).map id (entry :: ·)

theorem keys_put (key : Text) (value : α) (entries : List (Text × α)) :
    (put key value entries).map Prod.fst =
      if key ∈ entries.map Prod.fst then entries.map Prod.fst
      else entries.map Prod.fst ++ [key] := by
  induction entries with
  | nil => simp [put]
  | cons entry rest ih =>
      by_cases h : entry.1 = key
      · simp [put, h]
      · -- The key lies behind the first entry, if anywhere.
        have h' : ¬ key = entry.1 := fun e => h e.symm
        simp only [put, h, if_false, List.map_cons, ih, List.mem_cons, h', false_or]
        split <;> simp

theorem nodup_put (key : Text) (value : α) (entries : List (Text × α))
    (h : (entries.map Prod.fst).Nodup) : ((put key value entries).map Prod.fst).Nodup := by
  rw [keys_put]
  split
  · exact h
  · -- A new key at the end differs from all keys before it.
    rename_i hk
    rw [List.nodup_append]
    refine ⟨h, by simp, ?_⟩
    intro a ha b hb hab
    rw [List.mem_singleton] at hb
    exact hk (hb ▸ hab ▸ ha)

theorem keys_putAt (value : α) (index : Nat) (entries : List (Text × α)) :
    (putAt value index entries).map Prod.fst = entries.map Prod.fst := by
  induction entries generalizing index with
  | nil => cases index <;> rfl
  | cons entry rest ih =>
      cases index with
      | zero => rfl
      | succ index => simp [putAt, ih]

theorem lookup_cons_entry (key : Text) (entry : Text × α) (rest : List (Text × α)) :
    (entry :: rest).lookup key = if entry.1 = key then some entry.2 else rest.lookup key := by
  obtain ⟨found, value⟩ := entry
  by_cases h : found = key
  · simp [h]
  · have hne : (key == found) = false := beq_eq_false_iff_ne.2 fun e => h e.symm
    simp [List.lookup_cons, h, hne]

theorem exchange_eq (key : Text) (value : α) (entries : List (Text × α)) :
    exchange key value entries = (entries.lookup key, put key value entries) := by
  induction entries with
  | nil => rfl
  | cons entry rest ih =>
      rw [exchange, put, lookup_cons_entry, ih]
      split <;> rfl

/-- Where keys are distinct, the first entry under a key is the only one. -/
theorem extract_eq (key : Text) {entries : List (Text × α)} (h : (entries.map Prod.fst).Nodup) :
    extract key entries =
      (entries.lookup key, entries.filter fun entry => entry.1 != key) := by
  induction entries with
  | nil => rfl
  | cons entry rest ih =>
      rw [List.map_cons, List.nodup_cons] at h
      rw [extract, lookup_cons_entry, ih h.2]
      by_cases hkey : entry.1 = key
      · have hrest : rest.filter (fun other => other.1 != key) = rest := by
          rw [List.filter_eq_self]
          intro other hother
          rw [bne_iff_ne]
          rintro rfl
          exact h.1 (hkey ▸ List.mem_map_of_mem hother)
        simp [hkey, hrest]
      · simp [hkey]

/-! ## Maps -/

/-- The map without entries. -/
def empty : OrderedMap α := ⟨[], List.nodup_nil⟩

/-- The keys in order. -/
def keys (map : OrderedMap α) : List Text :=
  map.entries.map Prod.fst

/-- The number of entries. -/
def size (map : OrderedMap α) : Nat :=
  map.entries.length

/-- Whether there is no entry. -/
def isEmpty (map : OrderedMap α) : Bool :=
  map.entries.isEmpty

/-- The value under a key. -/
def get? (map : OrderedMap α) (key : Text) : Option α :=
  map.entries.lookup key

/-- Whether there is a value under a key. -/
def contains (map : OrderedMap α) (key : Text) : Bool :=
  (map.get? key).isSome

/-- The entry at a place. -/
def entryAt? (map : OrderedMap α) (index : Nat) : Option (Text × α) :=
  map.entries[index]?

/-- The map with `value` under `key`. -/
def insert (map : OrderedMap α) (key : Text) (value : α) : OrderedMap α :=
  ⟨put key value map.entries, nodup_put key value map.entries map.nodup⟩

/-- The map with the entries of a list inserted one by one. -/
def insertAll (map : OrderedMap α) (entries : List (Text × α)) : OrderedMap α :=
  entries.foldl (fun map entry => map.insert entry.1 entry.2) map

/-- The map of a list of entries. -/
def ofList (entries : List (Text × α)) : OrderedMap α :=
  insertAll empty entries

/-- The entries that satisfy a test. -/
def filter (keep : Text → α → Bool) (map : OrderedMap α) : OrderedMap α where
  entries := map.entries.filter (fun entry => keep entry.1 entry.2)
  nodup := map.nodup.sublist (List.filter_sublist.map Prod.fst)

/-- The map without a key. -/
def erase (map : OrderedMap α) (key : Text) : OrderedMap α :=
  map.filter (fun other _ => other != key)

/-- The value under a key, and the map with `value` in its place. -/
def getThenInsert? (map : OrderedMap α) (key : Text) (value : α) : Option α × OrderedMap α :=
  let exchanged := exchange key value map.entries
  (exchanged.1, ⟨exchanged.2, by
    simp only [exchanged, exchange_eq]
    exact nodup_put key value map.entries map.nodup⟩)

/-- The value under a key, and the map without the key. -/
def getThenErase? (map : OrderedMap α) (key : Text) : Option α × OrderedMap α :=
  let extracted := extract key map.entries
  (extracted.1, ⟨extracted.2, by
    simp only [extracted, extract_eq key map.nodup]
    exact (map.erase key).nodup⟩)

/-- The map with another value at a place. -/
def setAt (map : OrderedMap α) (index : Nat) (value : α) : OrderedMap α :=
  ⟨putAt value index map.entries, by rw [keys_putAt]; exact map.nodup⟩

/-- The map with every value changed in the same way. -/
def mapValues (change : α → α) (map : OrderedMap α) : OrderedMap α where
  entries := map.entries.map (fun entry => (entry.1, change entry.2))
  nodup := by
    rw [List.map_map]
    exact map.nodup

/-- Whether two maps give the same values, in whatever order. -/
def sameAs [DecidableEq α] (first second : OrderedMap α) : Bool :=
  first.size == second.size &&
    first.entries.all (fun entry => second.get? entry.1 == some entry.2)

/-! ## Laws -/

theorem ext_entries {first second : OrderedMap α} (h : first.entries = second.entries) :
    first = second := by
  cases first
  cases second
  cases h
  rfl

theorem lookup_put (key other : Text) (value : α) (entries : List (Text × α)) :
    (put key value entries).lookup other =
      if other = key then some value else entries.lookup other := by
  induction entries with
  | nil =>
      by_cases h : other = key
      · simp [put, h]
      · have : (other == key) = false := by simp [h]
        simp [put, List.lookup_cons, h, this]
  | cons entry rest ih =>
      obtain ⟨k, v⟩ := entry
      by_cases hk : k = key
      · subst hk
        by_cases h : other = k
        · simp [put, h]
        · have : (other == k) = false := by simp [h]
          simp [put, List.lookup_cons, h, this]
      · by_cases ho : other = k
        · subst ho
          simp [put, hk]
        · have hb : (other == k) = false := by simp [ho]
          simp [put, List.lookup_cons, hk, hb, ih]

/-- After a write, the key has the value written and all others have what they had. -/
theorem get?_insert (map : OrderedMap α) (key other : Text) (value : α) :
    (map.insert key value).get? other = if other = key then some value else map.get? other :=
  lookup_put key other value map.entries

/-- A write adds a new key at the end and moves no key. -/
theorem keys_insert (map : OrderedMap α) (key : Text) (value : α) :
    (map.insert key value).keys = if key ∈ map.keys then map.keys else map.keys ++ [key] :=
  keys_put key value map.entries

/-- A write answers with the value that the key had. -/
theorem getThenInsert?_eq (map : OrderedMap α) (key : Text) (value : α) :
    map.getThenInsert? key value = (map.get? key, map.insert key value) := by
  simp only [getThenInsert?, exchange_eq]
  rfl

/-- A removal answers with the value that the key had. -/
theorem getThenErase?_eq (map : OrderedMap α) (key : Text) :
    map.getThenErase? key = (map.get? key, map.erase key) := by
  simp only [getThenErase?, extract_eq key map.nodup]
  rfl

@[simp] theorem keys_setAt (map : OrderedMap α) (index : Nat) (value : α) :
    (map.setAt index value).keys = map.keys :=
  keys_putAt value index map.entries

@[simp] theorem keys_mapValues (change : α → α) (map : OrderedMap α) :
    (map.mapValues change).keys = map.keys := by
  simp [keys, mapValues]

@[simp] theorem get?_empty (key : Text) : (empty : OrderedMap α).get? key = none := rfl

@[simp] theorem keys_empty : (empty : OrderedMap α).keys = [] := rfl

end OrderedMap

end UtilityCss
