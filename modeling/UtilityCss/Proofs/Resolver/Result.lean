import UtilityCss.Proofs.Arithmetic.Product
import UtilityCss.Proofs.Resolver.Inputs
import UtilityCss.Proofs.StyleSet
import Mathlib.Logic.Relation

/-!
# The resolved style set

The leaves of the matching rules contribute entries in the order of the sheet. The result has the
keys of these entries that are not internal, each once, in the order of their first contributions.
The value of a key is the one that it was given last, unless there is a reference or a product to
replace (`Resolver.styles_contributions`).

The resolver replaces references in one pass before it removes the internal properties. A value
that the pass reads as it was written brings its references along, so that a reference to a removed
key can be left even where no key refers to itself in the end
(`Resolver.acyclic_and_not_noneDangling`). If the pass reads nothing of this kind, none is left
(`Resolver.noneDangling_of_readsClean`).

* `Resolver.NoneDangling` says that no value of the result refers to a key that was removed.
* `StyleSet.Acyclic` says that no name refers to itself through others.
* `Resolver.contributions` lists the entries that a call contributes.
-/

set_option autoImplicit false

namespace UtilityCss

/-! ## Cycles of references -/

namespace StyleSet

variable {styles : StyleSet}

/-- The value that the style set or else the store has for the first name refers to the second. -/
def Reads (store : ThemeStore) (styles : StyleSet) (key name : Text) : Prop :=
  ∃ value, styles.lookup store key = some value ∧ (Template.ofValue value).RefersTo name

/-- No name refers to itself, directly or through others. -/
def Acyclic (store : ThemeStore) (styles : StyleSet) : Prop :=
  ∀ key, ¬ Relation.TransGen (styles.Reads store) key key

/-- References along which a number grows make no cycle. -/
theorem acyclic_of_rank {store : ThemeStore} (rank : Text → Nat)
    (h : ∀ key name, styles.Reads store key name → rank key < rank name) :
    styles.Acyclic store := by
  intro key hcycle
  have hgrows : ∀ name, Relation.TransGen (styles.Reads store) key name →
      rank key < rank name := by
    intro name hpath
    induction hpath with
    | single hstep => exact h _ _ hstep
    | tail _ hstep ih => exact Nat.lt_trans ih (h _ _ hstep)
  exact Nat.lt_irrefl _ (hgrows key hcycle)

/-- The names that have a value are keys of the style set or known to the registry. -/
theorem mem_of_lookup {registry : ThemeRegistry} {key value : Text}
    (h : styles.lookup registry.store key = some value) :
    key ∈ styles.keys ++ registry.theme.keys ++ registry.registrations.keys := by
  rw [List.mem_append, List.mem_append]
  rw [lookup] at h
  split at h
  · rename_i hget
    exact Or.inl (Or.inl (OrderedMap.mem_keys_of_get? hget))
  · have h : registry.value? key = some value := h
    rw [ThemeRegistry.value?] at h
    split at h
    · rename_i hget
      exact Or.inl (Or.inr (OrderedMap.mem_keys_of_get? hget))
    · rw [ThemeRegistry.initialValue?, Option.map_eq_some_iff] at h
      obtain ⟨registration, hfilter, -⟩ := h
      rw [Option.filter_eq_some_iff] at hfilter
      exact Or.inr (OrderedMap.mem_keys_of_get? hfilter.1)

/-- The references of all these names decide whether there is a cycle. -/
theorem acyclic_of_forall_rank {registry : ThemeRegistry} (rank : Text → Nat)
    (h : ∀ key ∈ styles.keys ++ registry.theme.keys ++ registry.registrations.keys,
      ∀ place ∈ (Template.ofValue ((styles.lookup registry.store key).getD [])).references,
        rank key < rank place.name) :
    styles.Acyclic registry.store := by
  apply acyclic_of_rank rank
  rintro key - ⟨value, hvalue, place, hplace, rfl⟩
  apply h key (mem_of_lookup hvalue) place
  rwa [hvalue, Option.getD_some]

end StyleSet

namespace Resolver

variable {resolver : Resolver} {styles : StyleSet} {name : Text}

/-! ## Finishing -/

/-- The names that are removed from a style set. -/
def Removes (resolver : Resolver) (styles : StyleSet) (name : Text) : Prop :=
  name ∈ styles.keys ∧ resolver.registry.isInternal name = true

/-- The keys that are not internal are kept in their order. -/
theorem keys_finish :
    (resolver.finish styles).keys =
      styles.keys.filter (fun key => !resolver.registry.isInternal key) := by
  have hpruned : (StyleSet.prune resolver.registry
      (StyleSet.substitute resolver.registry styles)).keys =
        styles.keys.filter (fun key => !resolver.registry.isInternal key) := by
    rw [StyleSet.prune, OrderedMap.keys_filter_key, StyleSet.keys_substitute]
  rw [finish]
  split
  · rw [OrderedMap.keys_mapValues, hpruned]
  · exact hpruned

/-- Of the keys of a style set those that are not internal are kept. -/
theorem mem_keys_finish_iff :
    name ∈ (resolver.finish styles).keys ↔
      name ∈ styles.keys ∧ ¬ resolver.Removes styles name := by
  rw [keys_finish, List.mem_filter, Removes]
  cases resolver.registry.isInternal name <;> simp

/-- A value of the finished style set refers to no other names than the one under the same key
after the pass. -/
theorem exists_of_mem_finish {entry : Text × Text}
    (h : entry ∈ (resolver.finish styles).entries) :
    ∃ value, (StyleSet.substitute resolver.registry styles).get? entry.1 = some value ∧
      ∀ name, (Template.ofValue entry.2).RefersTo name →
        (Template.ofValue value).RefersTo name := by
  have hpruned : ∀ found ∈ (StyleSet.prune resolver.registry
      (StyleSet.substitute resolver.registry styles)).entries,
        (StyleSet.substitute resolver.registry styles).get? found.1 = some found.2 := by
    intro found hfound
    exact OrderedMap.get?_eq_some_iff_mem.2 (List.mem_of_mem_filter hfound)
  rw [finish] at h
  split at h
  · obtain ⟨found, hfound, rfl⟩ := List.mem_map.1 h
    exact ⟨found.2, hpruned found hfound, fun _ => Calc.refersTo_of_refersTo_simplify⟩
  · exact ⟨entry.2, hpruned entry h, fun _ => id⟩

/-! ## References to removed keys -/

/-- The values of the result refer to no key of the collapsed style set that the result does not
have. -/
def NoneDangling (resolver : Resolver) (classes : ClassList) (state : VariantState)
    (strict : Bool) : Prop :=
  ∀ entry ∈ (resolver.styles classes state strict).entries,
    ∀ place ∈ (Template.ofValue entry.2).references,
      place.name ∈ (resolver.collapsed classes state strict).keys →
        place.name ∈ (resolver.styles classes state strict).keys

instance (resolver : Resolver) (classes : ClassList) (state : VariantState) (strict : Bool) :
    Decidable (resolver.NoneDangling classes state strict) :=
  inferInstanceAs (Decidable (∀ entry ∈ (resolver.styles classes state strict).entries,
    ∀ place ∈ (Template.ofValue entry.2).references,
      place.name ∈ (resolver.collapsed classes state strict).keys →
        place.name ∈ (resolver.styles classes state strict).keys))

/-- A sheet with some theme values and one utility. One property is registered as not
inheriting. -/
def pageSheet (theme page : List Declaration) : Stylesheet where
  rules := [.style ":root".toList (Declaration.writeBlock theme),
    .style ".page".toList (Declaration.writeBlock page)]
  registrations := [⟨"--ink".toList, some ['*'], false, none⟩]

/-- The class of the utility. -/
def pageClass : ClassList := ⟨["page".toList]⟩

/-- Sheets of which the utility is left with a reference to `--ink`: through a key that is defined
too late, through a value of the store, where nothing remains after a comma, where two halves meet,
and behind a blank that is also a character of names. -/
def danglingSheets : List Stylesheet :=
  [pageSheet []
      [⟨"color".toList, "var(--edge)".toList⟩, ⟨"--edge".toList, "var(--ink)".toList⟩,
        ⟨"--ink".toList, "red".toList⟩],
    pageSheet [⟨"--edge".toList, "var(--ink)".toList⟩]
      [⟨"--ink".toList, "red".toList⟩, ⟨"color".toList, "var(--edge)".toList⟩],
    pageSheet []
      [⟨"--ink".toList, "red".toList⟩, ⟨"--none".toList, []⟩,
        ⟨"color".toList, "var(--ink, var(--none))".toList⟩],
    pageSheet []
      [⟨"--ink".toList, "red".toList⟩, ⟨"--half".toList, "va".toList⟩,
        ⟨"color".toList, "var(--half)r(--ink)".toList⟩],
    pageSheet []
      [⟨"--ink".toList, "red".toList⟩, ⟨"--none".toList, []⟩,
        ⟨"color".toList, "var(--none)\u00a0var(--ink)".toList⟩]]

/-- The names of these utilities, each before those that its values refer to. -/
def referenceOrder : List Text :=
  ["color".toList, "--edge".toList, "--ink".toList, "--none".toList, "--half".toList]

/-- References to removed keys are left although no name refers to itself. -/
theorem acyclic_and_not_noneDangling :
    danglingSheets.Forall fun sheet =>
      StyleSet.Acyclic (ofSheet sheet {}).registry
          ((ofSheet sheet {}).collapsed pageClass .empty false) ∧
        ¬ (ofSheet sheet {}).NoneDangling pageClass .empty false := by
  rw [List.forall_iff_forall_mem]
  intro sheet hsheet
  constructor
  · -- In one order of all keys every value refers to later keys only.
    have horder : ∀ sheet ∈ danglingSheets,
        ∀ key ∈ ((ofSheet sheet {}).collapsed pageClass .empty false).keys ++
            (ThemeRegistry.ofSheet sheet).theme.keys ++
            (ThemeRegistry.ofSheet sheet).registrations.keys,
          ∀ place ∈ (Template.ofValue ((((ofSheet sheet {}).collapsed pageClass .empty
              false).lookup (ThemeRegistry.ofSheet sheet).store key).getD [])).references,
            referenceOrder.idxOf key < referenceOrder.idxOf place.name := by
      decide +kernel
    exact StyleSet.acyclic_of_forall_rank referenceOrder.idxOf (horder sheet hsheet)
  · have hleft : ∀ sheet ∈ danglingSheets,
        ¬ (ofSheet sheet {}).NoneDangling pageClass .empty false := by
      decide +kernel
    exact hleft sheet hsheet

/-- No reference to a removed key is left if what the pass puts into values that are kept brings
none along. -/
theorem noneDangling_of_readsClean (resolver : Resolver) (classes : ClassList)
    (state : VariantState) (strict : Bool)
    (h : StyleSet.ReadsClean resolver.registry
      (resolver.Removes (resolver.collapsed classes state strict))
      (resolver.collapsed classes state strict)) :
    resolver.NoneDangling classes state strict := by
  intro entry hentry place hplace hcollapsed
  rw [styles, mem_keys_finish_iff]
  refine ⟨hcollapsed, ?_⟩
  -- What the evaluated value refers to, the value after the pass refers to.
  obtain ⟨value, hvalue, hrefers⟩ := exists_of_mem_finish hentry
  have hkey : entry.1 ∈ (resolver.styles classes state strict).keys :=
    List.mem_map_of_mem hentry
  obtain ⟨hmem, hkept⟩ := mem_keys_finish_iff.1 hkey
  have hsettled := StyleSet.settled_substitute h (fun _ hremoved => hremoved.1)
    (.kept hmem hkept) hvalue
  exact Template.not_refersTo_of_clean hsettled.clean (hrefers _ ⟨place, hplace, rfl⟩)

/-- A utility with a reference to a later key that reads a value without references. -/
def plainPage : Resolver :=
  ofSheet (pageSheet [⟨"--gap".toList, "2px".toList⟩]
    [⟨"--ink".toList, "red".toList⟩, ⟨"--edge".toList, "var(--ink) solid".toList⟩,
      ⟨"border".toList, "var(--edge) var(--gap)".toList⟩, ⟨"color".toList, "var(--paper)".toList⟩,
      ⟨"--paper".toList, "blue".toList⟩]) {}

theorem noneDangling_plainPage :
    StyleSet.ReadsClean plainPage.registry
      (plainPage.Removes (plainPage.collapsed pageClass .empty false))
      (plainPage.collapsed pageClass .empty false) ∧
    plainPage.NoneDangling pageClass .empty false ∧
    (plainPage.styles pageClass .empty false).entries =
      [("--edge".toList, "red solid".toList), ("border".toList, "red solid 2px".toList),
        ("color".toList, "blue".toList), ("--paper".toList, "blue".toList)] := by
  have hclean : StyleSet.ReadsClean plainPage.registry
      (plainPage.Removes (plainPage.collapsed pageClass .empty false))
      (plainPage.collapsed pageClass .empty false) :=
    StyleSet.readsClean_of_not_mem (by decide +kernel) (by decide +kernel)
  exact ⟨hclean, noneDangling_of_readsClean plainPage pageClass .empty false hclean,
    by decide +kernel⟩

end Resolver

/-! ## Values that stay -/

namespace StyleSet

variable {store : ThemeStore} {styles : StyleSet} {key value : Text}

/-- The pass leaves a value alone in which no reference begins. -/
theorem get?_substitute_of_not_contains (hvalue : styles.get? key = some value)
    (h : Text.contains Reference.opening value = false) :
    (substitute store styles).get? key = some value := by
  obtain ⟨before, after, hkeys⟩ := List.append_of_mem (OrderedMap.mem_keys_of_get? hvalue)
  have hplain : ∀ name, ¬ (Template.ofValue value).RefersTo name := by
    rintro name ⟨place, hplace, -⟩
    rw [Template.references, Template.tail_ofValue_of_not_contains h] at hplace
    cases hplace
  rw [get?_substitute_of_looksBack hkeys hvalue fun name hname => absurd hname (hplain name),
    substituteValue, h, if_neg Bool.false_ne_true]

end StyleSet

namespace Resolver

variable {resolver : Resolver} {styles : StyleSet} {classes : ClassList} {state : VariantState}
  {strict : Bool} {key value : Text}

theorem simplify_of_not_contains (h : Text.contains "calc(".toList value = false) :
    Calc.simplify value = value := by
  rw [Calc.simplify, h, if_neg Bool.false_ne_true]

/-- A value without references and products is kept under a key that is not internal. -/
theorem get?_finish (hvalue : styles.get? key = some value)
    (hkey : resolver.registry.isInternal key = false)
    (hreference : Text.contains Reference.opening value = false)
    (hproduct : Text.contains "calc(".toList value = false) :
    (resolver.finish styles).get? key = some value := by
  have hpruned : (StyleSet.prune resolver.registry
      (StyleSet.substitute resolver.registry styles)).get? key = some value := by
    rw [StyleSet.prune, OrderedMap.get?_filter_key (by simp [hkey]),
      StyleSet.get?_substitute_of_not_contains hvalue hreference]
  rw [finish]
  split
  · rw [OrderedMap.get?_mapValues, hpruned, Option.map_some, simplify_of_not_contains hproduct]
  · exact hpruned

/-! ## Contributions -/

/-- The entries that the leaves of the matching rules contribute, in the order of the rules and
within a rule in document order. -/
def contributions (resolver : Resolver) (classes : ClassList) (state : VariantState)
    (strict : Bool) : List (Text × Text) :=
  (RuleNode.leavesOf (resolver.nodes classes state strict)).flatMap
    Declaration.contributionsOfBlock

/-- The collapsed set is the one of the contributions. -/
theorem collapsed_eq_ofList :
    resolver.collapsed classes state strict =
      OrderedMap.ofList (resolver.contributions classes state strict) := by
  rw [collapsed_eq_foldl_nodes, StyleSet.foldl_collapse, contributions, OrderedMap.ofList]

/-- The keys of the result are the contributed ones that are not internal, each once, in the order
of their first contributions. Where the last contribution to a key has no reference and no product,
the result has its value. -/
theorem styles_contributions (resolver : Resolver) (classes : ClassList) (state : VariantState)
    (strict : Bool) :
    (resolver.styles classes state strict).keys =
      ((resolver.contributions classes state strict).map Prod.fst).eraseDups.filter
        (fun key => !resolver.registry.isInternal key) ∧
    ∀ before key value after,
      resolver.contributions classes state strict = before ++ (key, value) :: after →
      key ∉ after.map Prod.fst →
      key ∈ (resolver.styles classes state strict).keys →
      Text.contains "var(".toList value = false →
      Text.contains "calc(".toList value = false →
      (resolver.styles classes state strict).get? key = some value := by
  have hkeys : (resolver.styles classes state strict).keys =
      ((resolver.contributions classes state strict).map Prod.fst).eraseDups.filter
        (fun key => !resolver.registry.isInternal key) := by
    rw [styles, keys_finish, collapsed_eq_ofList, OrderedMap.keys_ofList]
  refine ⟨hkeys, ?_⟩
  intro before key value after hlist hlast hmem hreference hproduct
  -- A key that is left was not internal, and the last contribution to it was collapsed.
  have hinternal : resolver.registry.isInternal key = false := by
    rw [hkeys, List.mem_filter] at hmem
    simpa using hmem.2
  have hcollapsed : (resolver.collapsed classes state strict).get? key = some value := by
    rw [collapsed_eq_ofList, hlist, OrderedMap.ofList,
      OrderedMap.get?_insertAll_of_last before hlast]
  exact get?_finish hcollapsed hinternal hreference hproduct

/-- Two utilities that set the same properties, one of them in nested rules. A value without text, a
property between utilities, a reference and a product are among the declarations. -/
def cardUtilities : Resolver where
  rules :=
    [⟨".card".toList, .group ".card".toList
        [.style "&".toList "color: red; --pad: 1px; margin: ; padding: var(--pad)".toList,
          .group "@media print".toList
            [.style "&:hover".toList "color: blue; --tone: ; background-color: white".toList]]⟩,
      ⟨".plain".toList, .style ".plain".toList "display: block".toList⟩,
      ⟨".wide".toList, .style ".wide".toList
        "width: calc(2px * 2); background-color: tan; --pad: 2px".toList⟩]
  registry := (ThemeRegistry.ofSheet ⟨[], [⟨"--pad".toList, none, false, none⟩]⟩).store
  options := {}

/-- The classes of two of the utilities. -/
def cardClasses : ClassList := .ofText "wide card".toList

/-- What the first rule contributes up to its last color. -/
def cardColors : List (Text × Text) :=
  [("color".toList, "red".toList), ("--pad".toList, "1px".toList),
    ("padding".toList, "var(--pad)".toList)]

/-- What the rules contribute after that color. -/
def cardBackgrounds : List (Text × Text) :=
  [("--tone".toList, []), ("backgroundColor".toList, "white".toList),
    ("width".toList, "calc(2px * 2)".toList), ("backgroundColor".toList, "tan".toList),
    ("--pad".toList, "2px".toList)]

theorem styles_cardUtilities :
    cardUtilities.contributions cardClasses .empty false =
      cardColors ++ ("color".toList, "blue".toList) :: cardBackgrounds ∧
    (cardUtilities.styles cardClasses .empty false).keys =
      ["color".toList, "padding".toList, "--tone".toList, "backgroundColor".toList,
        "width".toList] ∧
    (cardUtilities.styles cardClasses .empty false).get? "color".toList =
      some "blue".toList := by
  have hlist : cardUtilities.contributions cardClasses .empty false =
      cardColors ++ ("color".toList, "blue".toList) :: cardBackgrounds := by
    decide +kernel
  obtain ⟨hkeys, hvalues⟩ := styles_contributions cardUtilities cardClasses .empty false
  rw [hlist] at hkeys
  have hnames : (cardUtilities.styles cardClasses .empty false).keys =
      ["color".toList, "padding".toList, "--tone".toList, "backgroundColor".toList,
        "width".toList] := by
    rw [hkeys]
    decide +kernel
  refine ⟨hlist, hnames, ?_⟩
  exact hvalues cardColors _ _ cardBackgrounds hlist (by decide) (by rw [hnames]; decide)
    (by decide) (by decide)

end Resolver

end UtilityCss
