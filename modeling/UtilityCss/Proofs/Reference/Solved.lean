import UtilityCss.StyleSet
import UtilityCss.Proofs.OrderedMap
import Mathlib.Tactic.Common

/-!
# One pass solves references to earlier keys

The pass replaces the references of one value after the other and reads the style set that it is
changing. What it reads under a key that it has passed is final, so that a set in which every
reference looks back is solved by one pass (`StyleSet.substitute_solves`): every value is the
expansion of what was written with the final values. The solution does not depend on the order of
the entries.

* `Template.RefersTo` says that a value has a reference to a name.
* `StyleSet.DefinesFirst` says that every reference to a key looks back in the order of keys.
-/

set_option autoImplicit false

namespace UtilityCss

/-! ## The names of a template -/

namespace Template

/-- The template has a reference to the name. -/
def RefersTo (template : Template) (name : Text) : Prop :=
  ∃ place ∈ template.references, place.name = name

theorem map_name_placesFrom (offset : Nat) (tail : List (Reference × Text)) :
    (placesFrom offset tail).map Place.name = tail.map (fun piece => piece.1.name) := by
  induction tail generalizing offset with
  | nil => rfl
  | cons piece rest ih => rw [placesFrom, List.map_cons, List.map_cons, ih]

theorem refersTo_iff {template : Template} {name : Text} :
    template.RefersTo name ↔ ∃ piece ∈ template.tail, piece.1.name = name := by
  have hnames := map_name_placesFrom (Text.utf8Length template.head) template.tail
  rw [RefersTo, references, ← List.mem_map, hnames, List.mem_map]

/-- Only the values of the names that a template refers to matter for its expansion. -/
theorem expand_congr {template : Template} {lookup lookup' : Text → Option Text}
    (h : ∀ name, template.RefersTo name → lookup name = lookup' name) :
    template.expand lookup = template.expand lookup' := by
  have hpieces : template.tail.flatMap (expandPiece lookup) =
      template.tail.flatMap (expandPiece lookup') := by
    apply List.flatMap_congr
    intro piece hpiece
    rw [expandPiece, expandPiece, h piece.1.name (refersTo_iff.2 ⟨piece, hpiece, rfl⟩)]
  rw [expand, expand, hpieces]

end Template

namespace StyleSet

variable {store : ThemeStore} {styles : StyleSet} {key name value : Text}

theorem substituteValue_congr {lookup lookup' : Text → Option Text}
    (h : ∀ name, (Template.ofValue value).RefersTo name → lookup name = lookup' name) :
    substituteValue lookup value = substituteValue lookup' value := by
  rw [substituteValue, substituteValue, Template.expand_congr h]

/-! ## One step of the pass -/

@[simp] theorem keys_substituteKey : (substituteKey store styles key).keys = styles.keys := by
  rw [substituteKey]
  split
  · rfl
  · rename_i value hvalue
    exact OrderedMap.keys_insert_of_mem (OrderedMap.mem_keys_of_get? hvalue) _

theorem get?_substituteKey_of_ne (h : name ≠ key) :
    (substituteKey store styles key).get? name = styles.get? name := by
  rw [substituteKey]
  split
  · rfl
  · rw [OrderedMap.get?_insert, if_neg h]

theorem get?_substituteKey_self (h : styles.get? key = some value) :
    (substituteKey store styles key).get? key =
      some (substituteValue (styles.lookup store) value) := by
  rw [substituteKey, h]
  dsimp only
  rw [OrderedMap.get?_insert, if_pos rfl]

/-! ## Several steps of the pass -/

theorem keys_foldl_substituteKey (keys : List Text) :
    (keys.foldl (substituteKey store) styles).keys = styles.keys := by
  induction keys generalizing styles with
  | nil => rfl
  | cons key rest ih => rw [List.foldl_cons, ih, keys_substituteKey]

/-- The pass does not change what is under keys that it does not come to. -/
theorem get?_foldl_substituteKey_of_not_mem {keys : List Text} (h : name ∉ keys) :
    (keys.foldl (substituteKey store) styles).get? name = styles.get? name := by
  induction keys generalizing styles with
  | nil => rfl
  | cons key rest ih =>
      rw [List.mem_cons, not_or] at h
      rw [List.foldl_cons, ih h.2, get?_substituteKey_of_ne h.1]

@[simp] theorem keys_substitute : (substitute store styles).keys = styles.keys :=
  keys_foldl_substituteKey styles.keys

/-- The names of a level are looked up in the store only if they are no keys. -/
theorem lookup_congr {styles' : StyleSet} (h : styles.get? name = styles'.get? name) :
    styles.lookup store name = styles'.lookup store name := by
  rw [lookup, lookup, h]

/-! ## Sets in which references look back -/

/-- Each reference in a value names a key at a smaller index, or no key at all. -/
def LooksBack (styles : StyleSet) (index : Nat) (value : Text) : Prop :=
  ∀ place ∈ (Template.ofValue value).references,
    place.name ∈ styles.keys.take index ∨ place.name ∉ styles.keys

instance (styles : StyleSet) (index : Nat) (value : Text) :
    Decidable (styles.LooksBack index value) :=
  inferInstanceAs (Decidable (∀ place ∈ (Template.ofValue value).references,
    place.name ∈ styles.keys.take index ∨ place.name ∉ styles.keys))

/-- The references in all values look back. -/
def DefinesFirst (styles : StyleSet) : Prop :=
  ∀ (index : Nat) (entry : Text × Text), styles.entries[index]? = some entry →
    styles.LooksBack index entry.2

instance (styles : StyleSet) : Decidable styles.DefinesFirst :=
  decidable_of_iff
    (∀ index : Fin styles.entries.length,
      styles.LooksBack index.val styles.entries[index.val].2)
    (by
      constructor
      · intro h index entry hentry
        obtain ⟨hindex, rfl⟩ := List.getElem?_eq_some_iff.1 hentry
        exact h ⟨index, hindex⟩
      · intro h index
        exact h index.val styles.entries[index.val] (List.getElem?_eq_getElem index.isLt))

/-- What the pass leaves under a key is the expansion with the final values of the keys before it,
if the value refers to no other keys. -/
theorem get?_substitute_of_looksBack {before after : List Text}
    (hkeys : styles.keys = before ++ key :: after) (hvalue : styles.get? key = some value)
    (hback : ∀ name, (Template.ofValue value).RefersTo name →
      name ∈ before ∨ name ∉ styles.keys) :
    (substitute store styles).get? key =
      some (substituteValue ((substitute store styles).lookup store) value) := by
  have hnodup : styles.keys.Nodup := styles.nodup
  rw [hkeys, List.nodup_append] at hnodup
  obtain ⟨-, hlater, hdisjoint⟩ := hnodup
  have hbefore : key ∉ before := fun hmem => hdisjoint key hmem key List.mem_cons_self rfl
  have hafter : key ∉ after := (List.nodup_cons.1 hlater).1
  -- `half` is the set when the pass comes to the key.
  obtain ⟨half, hhalf⟩ : ∃ half, half = before.foldl (substituteKey store) styles := ⟨_, rfl⟩
  have hfinal : substitute store styles =
      after.foldl (substituteKey store) (substituteKey store half key) := by
    rw [substitute, hkeys, List.foldl_append, List.foldl_cons, hhalf]
  have hself : half.get? key = some value := by
    rw [hhalf, get?_foldl_substituteKey_of_not_mem hbefore, hvalue]
  have hlookup : ∀ name, (Template.ofValue value).RefersTo name →
      half.lookup store name = (substitute store styles).lookup store name := by
    intro name hname
    apply lookup_congr
    rcases hback name hname with hmem | hnone
    · have hne : name ≠ key := by
        rintro rfl
        exact hbefore hmem
      have hlast : name ∉ after := fun hmem' =>
        hdisjoint name hmem name (List.mem_cons_of_mem key hmem') rfl
      rw [hfinal, get?_foldl_substituteKey_of_not_mem hlast, get?_substituteKey_of_ne hne]
    · have hkeep : half.get? name = none := by
        rw [OrderedMap.get?_eq_none_iff, hhalf, keys_foldl_substituteKey]
        exact hnone
      rw [hkeep, eq_comm, OrderedMap.get?_eq_none_iff, keys_substitute]
      exact hnone
  calc (substitute store styles).get? key
      = (substituteKey store half key).get? key := by
        rw [hfinal, get?_foldl_substituteKey_of_not_mem hafter]
    _ = some (substituteValue (half.lookup store) value) := get?_substituteKey_self hself
    _ = some (substituteValue ((substitute store styles).lookup store) value) := by
        rw [substituteValue_congr hlookup]

/-- In a set in which references look back, the pass leaves the expansion with final values. -/
theorem DefinesFirst.get?_substitute (h : styles.DefinesFirst)
    (hvalue : styles.get? key = some value) :
    (substitute store styles).get? key =
      some (substituteValue ((substitute store styles).lookup store) value) := by
  obtain ⟨before, after, hentries⟩ :=
    List.append_of_mem (OrderedMap.get?_eq_some_iff_mem.1 hvalue)
  have hkeys : styles.keys = before.map Prod.fst ++ key :: after.map Prod.fst := by
    rw [OrderedMap.keys, hentries, List.map_append, List.map_cons]
  apply get?_substitute_of_looksBack hkeys hvalue
  intro name hname
  obtain ⟨place, hplace, rfl⟩ := hname
  have hindex : styles.entries[before.length]? = some (key, value) := by
    rw [hentries, List.getElem?_append_right (Nat.le_refl _), Nat.sub_self]
    rfl
  have hlength : (before.map Prod.fst).length = before.length := List.length_map _
  -- A name has been rewritten already, or the set does not have it.
  rcases h before.length (key, value) hindex place hplace with hearlier | hnone
  · left
    rwa [hkeys, ← hlength, List.take_left] at hearlier
  · exact Or.inr hnone

/-- Two orders of the same entries in which references look back have the same solution. -/
theorem DefinesFirst.get?_substitute_of_perm {other : StyleSet} (h : styles.DefinesFirst)
    (hother : other.DefinesFirst) (hperm : other.entries.Perm styles.entries) (key : Text) :
    (substitute store other).get? key = (substitute store styles).get? key := by
  -- The keys are settled in the order of `styles`: the values they refer to come earlier there.
  have hsettled : ∀ (index : Nat) (key : Text), styles.keys[index]? = some key →
      (substitute store other).get? key = (substitute store styles).get? key := by
    intro index
    induction index using Nat.strongRecOn with
    | ind index ih =>
        intro key hkey
        have hentry : ∃ value, styles.entries[index]? = some (key, value) := by
          rw [OrderedMap.keys, List.getElem?_map, Option.map_eq_some_iff] at hkey
          obtain ⟨⟨found, value⟩, hfound, rfl⟩ := hkey
          exact ⟨value, hfound⟩
        obtain ⟨value, hentry⟩ := hentry
        have hvalue : styles.get? key = some value :=
          OrderedMap.get?_eq_some_iff_mem.2 (List.mem_of_getElem? hentry)
        have hvalue' : other.get? key = some value := by
          rw [OrderedMap.get?_of_perm hperm, hvalue]
        rw [h.get?_substitute hvalue, hother.get?_substitute hvalue']
        congr 1
        apply substituteValue_congr
        rintro name ⟨place, hplace, rfl⟩
        apply lookup_congr
        rcases h index (key, value) hentry place hplace with hmem | hnone
        · obtain ⟨earlier, hearlier⟩ := List.mem_iff_getElem?.1 hmem
          rw [List.getElem?_take, Option.ite_none_right_eq_some] at hearlier
          exact ih earlier hearlier.1 place.name hearlier.2
        · have hnone' : place.name ∉ other.keys := fun hmem =>
            hnone ((hperm.map Prod.fst).subset hmem)
          rw [OrderedMap.get?_eq_none_iff.2 (by rwa [keys_substitute]),
            OrderedMap.get?_eq_none_iff.2 (by rwa [keys_substitute])]
  by_cases hmem : key ∈ styles.keys
  · obtain ⟨index, hindex⟩ := List.mem_iff_getElem?.1 hmem
    exact hsettled index key hindex
  · have hmem' : key ∉ other.keys := fun hkey => hmem ((hperm.map Prod.fst).subset hkey)
    rw [OrderedMap.get?_eq_none_iff.2 (by rwa [keys_substitute]),
      OrderedMap.get?_eq_none_iff.2 (by rwa [keys_substitute])]

/-- If references look back, one pass solves them all: a value in which a reference begins
becomes its trimmed expansion with the final values, all others stay, and the keys keep their
places. Another order of the entries with this property leads to the same values. -/
theorem substitute_solves (store : ThemeStore) (styles : StyleSet) (h : styles.DefinesFirst) :
    (substitute store styles).keys = styles.keys ∧
    (∀ key value, styles.get? key = some value →
      (Text.contains Reference.opening value = true →
        (substitute store styles).get? key = some (Text.trim
          ((Template.ofValue value).expand ((substitute store styles).lookup store)))) ∧
      (Text.contains Reference.opening value = false →
        (substitute store styles).get? key = some value)) ∧
    ∀ other : StyleSet, other.entries.Perm styles.entries → other.DefinesFirst →
      ∀ key, (substitute store other).get? key = (substitute store styles).get? key := by
  refine ⟨keys_substitute, ?_, ?_⟩
  · intro key value hvalue
    -- A value without the beginning of a reference is not even trimmed.
    have hfinal : (substitute store styles).get? key =
        some (substituteValue ((substitute store styles).lookup store) value) :=
      h.get?_substitute hvalue
    rw [substituteValue] at hfinal
    constructor
    · intro hopening
      rwa [if_pos hopening] at hfinal
    · intro hplain
      rwa [hplain, if_neg Bool.false_ne_true] at hfinal
  · intro other hperm hother key
    exact h.get?_substitute_of_perm hother hperm key

/-- Two colors and a value that refers to both of them and to the theme. -/
def inkFirst : StyleSet :=
  OrderedMap.ofList [("--ink".toList, "red".toList), ("--paper".toList, "var(--ink)".toList),
    ("--edge".toList, "1px".toList),
    ("border".toList, "var(--edge) var(--paper) var(--gap)".toList)]

/-- The same entries in another order. -/
def edgeFirst : StyleSet :=
  OrderedMap.ofList [("--edge".toList, "1px".toList), ("--ink".toList, "red".toList),
    ("--paper".toList, "var(--ink)".toList),
    ("border".toList, "var(--edge) var(--paper) var(--gap)".toList)]

/-- A store that knows one value. -/
def gapStore : ThemeStore :=
  ⟨fun name => if name = "--gap".toList then some "2px".toList else none, fun _ => none, []⟩

theorem substitute_inkFirst :
    inkFirst.DefinesFirst ∧
      (substitute gapStore edgeFirst).get? "border".toList =
        (substitute gapStore inkFirst).get? "border".toList ∧
      (substitute gapStore inkFirst).get? "border".toList = some "1px red 2px".toList := by
  have hback : inkFirst.DefinesFirst := by decide +kernel
  have hback' : edgeFirst.DefinesFirst := by decide +kernel
  have hperm : edgeFirst.entries.Perm inkFirst.entries := by decide +kernel
  obtain ⟨-, -, hsame⟩ := substitute_solves gapStore inkFirst hback
  exact ⟨hback, hsame edgeFirst hperm hback' _, by decide +kernel⟩

end StyleSet

end UtilityCss
