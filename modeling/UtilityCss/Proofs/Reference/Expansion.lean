import UtilityCss.Proofs.Reference.Dangling

/-!
# The expansion of one value

A value is cut at the places of its references. Its expansion has the texts between them in their
order, and in the place of each reference what its name is looked up for, trimmed. A name without
a value leaves the reference as it is, and a blank value takes the blanks behind it away.

* `Template.Site` is what stands at a place and behind it, `Template.sites` lists the sites of a
  value.
* `Template.Site.write` is what the expansion has for a site.

The main statement is `StyleSet.expand_eq_sites`: cut and expansion go by the same sites, and what
replaces a reference is not cut. So a value without names that can be looked up is its own
expansion, and a style set of such values stays as it is.
-/

set_option autoImplicit false

namespace UtilityCss

namespace Template

/-! ## Sites -/

/-- A reference in a value, with the text behind it up to the next one. -/
structure Site where
  name : Text
  source : Text
  after : Text
  deriving DecidableEq, Repr

/-- The byte at which the first of several places begins, or else the value ends. -/
def firstStart (value : Text) : List Place → Nat
  | [] => Text.utf8Length value
  | place :: _ => place.start

/-- What stands in a value at each of several places, and behind it. -/
def sites (value : Text) : List Place → List Site
  | [] => []
  | place :: rest =>
    { name := place.name
      source := Text.slice place.start place.stop value
      after := Text.slice place.stop (firstStart value rest) value } :: sites value rest

/-- What is written for a site. -/
def Site.write (lookup : Text → Option Text) (site : Site) : Text :=
  let written := ((lookup site.name).map Text.trim).getD site.source
  written ++ if written.isEmpty then Text.trimStart site.after else site.after

/-- The site of a reference that a template has, with the text after it. -/
def siteOf (piece : Reference × Text) : Site :=
  ⟨piece.1.name, piece.1.source, piece.2⟩

/-- The text of the references from one on. -/
def tailSource (tail : List (Reference × Text)) : Text :=
  tail.flatMap fun piece => piece.1.source ++ piece.2

theorem firstStart_placesFrom {value : Text} {offset : Nat} (tail : List (Reference × Text))
    (hvalue : Text.utf8Length value = offset + Text.utf8Length (tailSource tail)) :
    firstStart value (placesFrom offset tail) = offset := by
  cases tail with
  | nil => exact hvalue
  | cons piece rest => rfl

/-- The places of references lead back to the references and to the texts after them. -/
theorem sites_placesFrom {value : Text} (tail : List (Reference × Text)) (before : Text)
    (hvalue : value = before ++ tailSource tail) :
    sites value (placesFrom (Text.utf8Length before) tail) = tail.map siteOf := by
  induction tail generalizing before with
  | nil => rfl
  | cons piece rest ih =>
      obtain ⟨reference, after⟩ := piece
      -- The value is cut before the reference, behind it, and behind the text after it.
      have hsource : value = before ++ (reference.source ++ (after ++ tailSource rest)) := by
        rw [hvalue, tailSource, List.flatMap_cons, tailSource, List.append_assoc]
      have hafter : value = (before ++ reference.source) ++ (after ++ tailSource rest) := by
        rw [hsource, List.append_assoc]
      have hrest : value = (before ++ reference.source ++ after) ++ tailSource rest := by
        rw [hafter, ← List.append_assoc]
      have hnext : firstStart value (placesFrom (Text.utf8Length before +
          Text.utf8Length reference.source + Text.utf8Length after) rest) =
          Text.utf8Length before + Text.utf8Length reference.source + Text.utf8Length after := by
        apply firstStart_placesFrom
        rw [hrest]
        simp only [Text.utf8Length_append]
      have hsites := ih (before ++ reference.source ++ after) hrest
      simp only [Text.utf8Length_append] at hsites
      simp only [placesFrom, sites, hnext, hsites, List.map_cons, siteOf]
      congr 2
      · rw [hsource]
        exact Text.slice_append _ rfl rfl
      · rw [hafter]
        exact Text.slice_append _ (Text.utf8Length_append _ _).symm rfl

/-- The sites of a value are its references with the texts after them. -/
theorem sites_references (value : Text) :
    sites value (ofValue value).references = (ofValue value).tail.map siteOf :=
  sites_placesFrom (ofValue value).tail (ofValue value).head (source_ofValue value).symm

/-- The text before the first site is the text before the first reference. -/
theorem slice_firstStart (value : Text) :
    Text.slice 0 (firstStart value (ofValue value).references) value = (ofValue value).head := by
  have hsource : (ofValue value).head ++ tailSource (ofValue value).tail = value :=
    source_ofValue value
  have hstart : firstStart value (ofValue value).references =
      Text.utf8Length (ofValue value).head := by
    apply firstStart_placesFrom
    conv_lhs => rw [← hsource]
    rw [Text.utf8Length_append]
  have hzero : 0 = Text.utf8Length [] := rfl
  have hslice := Text.slice_append (tailSource (ofValue value).tail) hzero
    (hstart.trans (Nat.zero_add _).symm)
  rwa [List.nil_append, hsource] at hslice

/-! ## What is written -/

theorem write_siteOf (lookup : Text → Option Text) (piece : Reference × Text) :
    (siteOf piece).write lookup = expandPiece lookup piece := by
  obtain ⟨reference, after⟩ := piece
  have hsource : reference.source.isEmpty = false := by
    simp [Reference.source, Reference.opening]
  rw [Site.write, siteOf, expandPiece]
  cases (lookup reference.name).map Text.trim with
  | none => simp [hsource]
  | some written =>
      cases written with
      | nil => simp
      | cons c rest => simp

/-- If no name can be looked up, the expansion is the value. -/
theorem expand_eq_self {lookup : Text → Option Text} {value : Text}
    (h : ∀ place ∈ (ofValue value).references, lookup place.name = none) :
    (ofValue value).expand lookup = value := by
  have hpieces : (ofValue value).tail.flatMap (expandPiece lookup) =
      tailSource (ofValue value).tail := by
    apply List.flatMap_congr
    intro piece hpiece
    obtain ⟨place, hplace, hname⟩ := refersTo_iff.2 ⟨piece, hpiece, rfl⟩
    have hnone := h place hplace
    rw [hname] at hnone
    rw [expandPiece, hnone]
    rfl
  rw [expand, hpieces]
  exact source_ofValue value

end Template

/-! ## Values that stay -/

theorem OrderedMap.put_of_lookup {α : Type} {key : Text} {value : α}
    {entries : List (Text × α)} (h : entries.lookup key = some value) :
    put key value entries = entries := by
  induction entries with
  | nil => cases h
  | cons entry rest ih =>
      obtain ⟨name, found⟩ := entry
      by_cases hname : name = key
      · subst hname
        simp only [List.lookup_cons_self, Option.some.injEq] at h
        simp [put, h]
      · have hne : (key == name) = false := by simpa using fun heq : key = name => hname heq.symm
        rw [List.lookup_cons, hne] at h
        simp only at h
        simp [put, hname, ih h]

/-- Writing what is there changes nothing. -/
theorem OrderedMap.insert_of_get? {α : Type} {map : OrderedMap α} {key : Text} {value : α}
    (h : map.get? key = some value) : map.insert key value = map :=
  ext_entries (put_of_lookup h)

namespace StyleSet

variable {store : ThemeStore} {styles : StyleSet}

theorem lookup_eq_or (styles : StyleSet) (store : ThemeStore) (name : Text) :
    styles.lookup store name = (styles.get? name).or (store.value? name) := by
  rw [lookup]
  cases styles.get? name <;> rfl

/-- A trimmed value without names that can be looked up. -/
def IsInert (store : ThemeStore) (styles : StyleSet) (value : Text) : Prop :=
  Text.trim value = value ∧
    ∀ place ∈ (Template.ofValue value).references, styles.lookup store place.name = none

theorem IsInert.substituteValue_eq {value : Text} (h : IsInert store styles value) :
    substituteValue (styles.lookup store) value = value := by
  rw [substituteValue, Template.expand_eq_self h.2, h.1, ite_self]

theorem substituteKey_of_isInert {key : Text}
    (h : ∀ value, styles.get? key = some value → IsInert store styles value) :
    substituteKey store styles key = styles := by
  rw [substituteKey]
  split
  · rfl
  · rename_i value hvalue
    rw [(h value hvalue).substituteValue_eq]
    exact OrderedMap.insert_of_get? hvalue

/-- The pass leaves a style set of inert values as it is. -/
theorem substitute_of_isInert (h : ∀ entry ∈ styles.entries, IsInert store styles entry.2) :
    substitute store styles = styles := by
  have hkey : ∀ key, substituteKey store styles key = styles := fun key =>
    substituteKey_of_isInert fun value hvalue =>
      h (key, value) (OrderedMap.get?_eq_some_iff_mem.1 hvalue)
  rw [substitute]
  induction styles.keys with
  | nil => rfl
  | cons key rest ih => rw [List.foldl_cons, hkey, ih]

/-- A value is cut at the places of its references, each of which has the text of a reference to
its name. The expansion has for each site what the style set, or else the store, gives for the
name, and the rest of the value as it is. Without names that can be looked up it is the value, and
a style set of trimmed values of this kind is not changed by the pass. -/
theorem expand_eq_sites (store : ThemeStore) (styles : StyleSet) (value : Text) :
    let places := (Template.ofValue value).references
    let lead := Text.slice 0 (Template.firstStart value places) value
    (lead ++ (Template.sites value places).flatMap fun site => site.source ++ site.after) = value ∧
    (∀ site ∈ Template.sites value places, ∃ reference : Reference, reference.IsWellFormed ∧
      site.name = reference.name ∧ site.source = reference.source) ∧
    (Template.ofValue value).expand (styles.lookup store) =
      lead ++ (Template.sites value places).flatMap
        (Template.Site.write fun name => (styles.get? name).or (store.value? name)) ∧
    ((∀ place ∈ places, (styles.get? place.name).or (store.value? place.name) = none) →
      (Template.ofValue value).expand (styles.lookup store) = value) ∧
    ((∀ entry ∈ styles.entries, Text.trim entry.2 = entry.2 ∧
        ∀ place ∈ (Template.ofValue entry.2).references,
          (styles.get? place.name).or (store.value? place.name) = none) →
      styles.substitute store = styles) := by
  simp only [Template.sites_references, Template.slice_firstStart, ← lookup_eq_or]
  refine ⟨?_, ?_, ?_, Template.expand_eq_self, substitute_of_isInert⟩
  · rw [List.flatMap_map]
    exact Template.source_ofValue value
  · intro site hsite
    obtain ⟨⟨reference, after⟩, hpiece, rfl⟩ := List.mem_map.1 hsite
    obtain ⟨hform, -⟩ := Template.exists_mem_tail_ofValue_iff.1 ⟨after, hpiece⟩
    exact ⟨reference, hform, rfl, rfl⟩
  · rw [Template.expand, List.flatMap_map]
    simp only [Template.write_siteOf]

/-- A color with blanks around it. -/
def inkStyles : StyleSet :=
  OrderedMap.ofList [("--ink".toList, " red ".toList)]

/-- A value that refers to nothing known. -/
def inertStyles : StyleSet :=
  OrderedMap.ofList [("color".toList, "var(--none)".toList)]

/-- A store that has a blank value. -/
def blankStore : ThemeStore :=
  ⟨fun name => if name = "--gap".toList then some " ".toList else none, fun _ => none, []⟩

theorem expand_inkStyles :
    (Template.ofValue "é var(--ink) var(--gap,)  var(--none)".toList).expand
        (inkStyles.lookup blankStore) = "é red var(--none)".toList ∧
      inertStyles.substitute blankStore = inertStyles := by
  obtain ⟨-, -, hexpand, -, -⟩ :=
    expand_eq_sites blankStore inkStyles "é var(--ink) var(--gap,)  var(--none)".toList
  obtain ⟨-, -, -, -, hstays⟩ := expand_eq_sites blankStore inertStyles []
  refine ⟨?_, hstays ?_⟩
  · rw [hexpand]
    decide +kernel
  · decide +kernel

end StyleSet

end UtilityCss
