import UtilityCss.Resolver
import UtilityCss.Proofs.ClassName.Basic
import UtilityCss.Proofs.Reference.Solved

/-!
# What a resolved style set depends on

A call of the resolver reads the nodes of the rules that its classes match, the values of the names
to which the collapsed set refers, and whether the keys of that set are internal. Two calls that
agree there have the same result (`Resolver.styles_congr`, `Resolver.styles_determined`).

The pass over references is the step that could ask for more, since it reads the set it is
changing. The values it has still to come to are those of the collapsed set, so that it asks the
store for the names in them and for no others (`StyleSet.foldl_substituteKey_congr`).

* `StyleSet.StoresAgree` says that two stores give the same answers about a set.
* `Resolver.nodes` lists the nodes that a call collapses.

In strict mode a class applies if its chain is made of active variants and is as long as the state
is large. Among classes that repeat no variant these are the ones whose chains name every active
variant and no other, so that strict mode resolves them as if the others were not in the list
(`Resolver.strict_exact`). A variant that stands in a chain twice takes the place of one that the
chain does not name (`Resolver.strict_admits_repeated`).
-/

set_option autoImplicit false

namespace UtilityCss

/-! ## Stores that agree about a style set -/

namespace StyleSet

variable {store store' : ThemeStore} {styles half : StyleSet} {key : Text}

/-- The stores give the same values to the names to which values of the set refer, and the same of
its keys are internal. -/
structure StoresAgree (styles : StyleSet) (store store' : ThemeStore) : Prop where
  value? : ∀ entry ∈ styles.entries, ∀ place ∈ (Template.ofValue entry.2).references,
    store.value? place.name = store'.value? place.name
  isInternal : ∀ key ∈ styles.keys, store.isInternal key = store'.isInternal key

instance (styles : StyleSet) (store store' : ThemeStore) :
    Decidable (styles.StoresAgree store store') :=
  decidable_of_iff
    ((∀ entry ∈ styles.entries, ∀ place ∈ (Template.ofValue entry.2).references,
        store.value? place.name = store'.value? place.name) ∧
      ∀ key ∈ styles.keys, store.isInternal key = store'.isInternal key)
    ⟨fun h => ⟨h.1, h.2⟩, fun h => ⟨h.1, h.2⟩⟩

@[refl] theorem StoresAgree.refl (styles : StyleSet) (store : ThemeStore) :
    styles.StoresAgree store store :=
  ⟨fun _ _ _ _ => rfl, fun _ _ => rfl⟩

theorem StoresAgree.value?_eq {value name : Text} (h : styles.StoresAgree store store')
    (hvalue : styles.get? key = some value) (hname : (Template.ofValue value).RefersTo name) :
    store.value? name = store'.value? name := by
  obtain ⟨place, hplace, rfl⟩ := hname
  exact h.value? (key, value) (OrderedMap.get?_eq_some_iff_mem.1 hvalue) place hplace

theorem lookup_congr_store {name : Text} (h : store.value? name = store'.value? name) :
    styles.lookup store name = styles.lookup store' name := by
  rw [lookup, lookup, h]

/-- One step of the pass asks the store for the names in one value. -/
theorem substituteKey_congr
    (h : ∀ value, styles.get? key = some value → ∀ name, (Template.ofValue value).RefersTo name →
      store.value? name = store'.value? name) :
    substituteKey store styles key = substituteKey store' styles key := by
  rw [substituteKey, substituteKey]
  cases hvalue : styles.get? key with
  | none => rfl
  | some value =>
      have hsame : substituteValue (styles.lookup store) value =
          substituteValue (styles.lookup store') value :=
        substituteValue_congr fun name hname => lookup_congr_store (h value hvalue name hname)
      dsimp only
      rw [hsame]

/-- The rest of the pass asks for names in values of the set, if the values under the keys to come
are still those of the set. -/
theorem foldl_substituteKey_congr {keys : List Text} (hnodup : keys.Nodup)
    (huntouched : ∀ key ∈ keys, half.get? key = styles.get? key)
    (h : styles.StoresAgree store store') :
    keys.foldl (substituteKey store) half = keys.foldl (substituteKey store') half := by
  induction keys generalizing half with
  | nil => rfl
  | cons key rest ih =>
      rw [List.nodup_cons] at hnodup
      rw [List.forall_mem_cons] at huntouched
      have hstep : substituteKey store half key = substituteKey store' half key := by
        apply substituteKey_congr
        intro value hvalue name hname
        rw [huntouched.1] at hvalue
        exact h.value?_eq hvalue hname
      rw [List.foldl_cons, List.foldl_cons, hstep]
      apply ih hnodup.2
      -- No key comes twice, so that those to come have their old values.
      intro other hother
      have hne : other ≠ key := by
        rintro rfl
        exact hnodup.1 hother
      rw [get?_substituteKey_of_ne hne, huntouched.2 other hother]

theorem substitute_congr (h : styles.StoresAgree store store') :
    substitute store styles = substitute store' styles :=
  foldl_substituteKey_congr styles.nodup (fun _ _ => rfl) h

/-- Pruning asks for the keys of the set only. -/
theorem prune_congr (h : ∀ key ∈ styles.keys, store.isInternal key = store'.isInternal key) :
    prune store styles = prune store' styles := by
  apply OrderedMap.ext_entries
  apply List.filter_congr
  intro entry hentry
  exact congrArg not (h entry.1 (List.mem_map_of_mem hentry))

end StyleSet

namespace Resolver

variable {resolver other : Resolver} {classes classes' : ClassList} {state state' : VariantState}
  {strict strict' : Bool}

/-! ## Two calls -/

/-- The nodes of the rules that the active classes match, in order. -/
def nodes (resolver : Resolver) (classes : ClassList) (state : VariantState) (strict : Bool) :
    List RuleNode :=
  (resolver.matching (resolver.activeNames classes state strict)).map UtilityRule.node

/-- Of the matching rules the nodes alone are collapsed. -/
theorem collapsed_eq_foldl_nodes :
    resolver.collapsed classes state strict =
      (resolver.nodes classes state strict).foldl StyleSet.collapse OrderedMap.empty :=
  List.foldl_map.symm

theorem finish_congr {styles : StyleSet}
    (hstores : styles.StoresAgree other.registry resolver.registry)
    (hoptions : other.options = resolver.options) :
    other.finish styles = resolver.finish styles := by
  have hpruned : StyleSet.prune other.registry (StyleSet.substitute resolver.registry styles) =
      StyleSet.prune resolver.registry (StyleSet.substitute resolver.registry styles) := by
    apply StyleSet.prune_congr
    rw [StyleSet.keys_substitute]
    exact hstores.isInternal
  rw [finish, finish, StyleSet.substitute_congr hstores, hpruned, hoptions]

/-- Calls that collapse the same nodes have the same result, if their stores agree about the
collapsed set. -/
theorem styles_congr (hoptions : other.options = resolver.options)
    (hnodes : other.nodes classes' state' strict' = resolver.nodes classes state strict)
    (hstores : (resolver.collapsed classes state strict).StoresAgree other.registry
      resolver.registry) :
    other.styles classes' state' strict' = resolver.styles classes state strict := by
  have hcollapsed : other.collapsed classes' state' strict' =
      resolver.collapsed classes state strict := by
    rw [collapsed_eq_foldl_nodes, collapsed_eq_foldl_nodes, hnodes]
  rw [styles, styles, hcollapsed, finish_congr hstores hoptions]

/-- With one store nothing but the nodes counts. -/
theorem styles_congr_of_nodes
    (h : resolver.nodes classes' state' strict' = resolver.nodes classes state strict) :
    resolver.styles classes' state' strict' = resolver.styles classes state strict :=
  styles_congr rfl h (.refl _ _)

/-! ## Classes, states and rules -/

theorem mem_activeNames_iff {raw : Text} :
    raw ∈ resolver.activeNames classes state strict ↔
      raw ∈ classes.names ∧ resolver.isActive state strict raw = true :=
  List.mem_filter

/-- Names match the same rules if they are the same among the class names of rules. -/
theorem matching_congr {names names' : List Text}
    (h : ∀ rule ∈ resolver.rules, Selector.className rule.selector ∈ names' ↔
      Selector.className rule.selector ∈ names) :
    resolver.matching names' = resolver.matching names := by
  apply List.filter_congr
  intro rule hrule
  rw [Bool.eq_iff_iff, List.contains_iff_mem, List.contains_iff_mem]
  exact h rule hrule

/-- Class lists with the same names among those of rules have the same result. -/
theorem styles_congr_classes
    (h : ∀ rule ∈ resolver.rules, Selector.className rule.selector ∈ classes'.names ↔
      Selector.className rule.selector ∈ classes.names) :
    resolver.styles classes' state strict = resolver.styles classes state strict := by
  apply styles_congr_of_nodes
  rw [nodes, nodes]
  congr 1
  apply matching_congr
  intro rule hrule
  rw [mem_activeNames_iff, mem_activeNames_iff, h rule hrule]

/-- States with the same variants have the same result. -/
theorem styles_congr_state (h : ∀ variant, variant ∈ state'.active ↔ variant ∈ state.active) :
    resolver.styles classes state' strict = resolver.styles classes state strict := by
  apply styles_congr_of_nodes
  have hactive : resolver.isActive state' strict = resolver.isActive state strict := by
    funext raw
    exact VariantState.admits_congr strict h
  rw [nodes, nodes, activeNames, activeNames, hactive]

/-- Rules that match no active class can stand anywhere among the others. -/
theorem styles_insert_rules {before extra after : List UtilityRule}
    (hrules : resolver.rules = before ++ after)
    (h : ∀ rule ∈ extra,
      Selector.className rule.selector ∉ resolver.activeNames classes state strict) :
    { resolver with rules := before ++ extra ++ after }.styles classes state strict =
      resolver.styles classes state strict := by
  refine styles_congr rfl ?_ (.refl _ _)
  have hextra : extra.filter (fun rule => (resolver.activeNames classes state strict).contains
      (Selector.className rule.selector)) = [] := by
    rw [List.filter_eq_nil_iff]
    intro rule hrule
    rw [List.contains_iff_mem]
    exact h rule hrule
  have hactive : { resolver with rules := before ++ extra ++ after }.activeNames classes state
      strict = resolver.activeNames classes state strict := rfl
  rw [nodes, nodes, hactive, matching, matching, hrules]
  simp only [List.filter_append, hextra, List.append_nil]

/-- Without an active class the result is empty. -/
theorem styles_of_activeNames_eq_nil (h : resolver.activeNames classes state strict = []) :
    resolver.styles classes state strict = OrderedMap.empty := by
  have hmatching : resolver.matching [] = [] := by
    rw [matching, List.filter_eq_nil_iff]
    simp
  have hcollapsed : resolver.collapsed classes state strict = OrderedMap.empty := by
    rw [collapsed, h, hmatching]
    rfl
  rw [styles, hcollapsed, finish]
  split <;> rfl

/-! ## All of it -/

/-- The result of a call is that of every call with the same options that collapses the same nodes
and whose store agrees about the collapsed set. In particular it does not depend

* on the order and number of the classes, nor on classes that match no rule,
* on whether words are given as a text or as a list,
* on the order in which variants became active, nor on how often,
* on rules that match no active class,
* on the values of names to which the collapsed set does not refer.

Without an active class the result is empty. -/
theorem styles_determined (resolver : Resolver) (classes : ClassList) (state : VariantState)
    (strict : Bool) :
    (∀ (other : Resolver) (classes' : ClassList) (state' : VariantState) (strict' : Bool),
      other.options = resolver.options →
      other.nodes classes' state' strict' = resolver.nodes classes state strict →
      (resolver.collapsed classes state strict).StoresAgree other.registry resolver.registry →
      other.styles classes' state' strict' = resolver.styles classes state strict) ∧
    (∀ classes' : ClassList,
      (∀ rule ∈ resolver.rules, Selector.className rule.selector ∈ classes'.names ↔
        Selector.className rule.selector ∈ classes.names) →
      resolver.styles classes' state strict = resolver.styles classes state strict) ∧
    (∀ (separator : Text) (entries : List Text), separator ≠ [] →
      (∀ c ∈ separator, isBlank c = true) →
      (∀ entry ∈ entries, ∀ c ∈ Text.trim entry, isBlank c = false) →
      resolver.styles (.ofText (separator.intercalate entries)) state strict =
        resolver.styles (.ofEntries entries) state strict) ∧
    (∀ variants : List Text, (∀ variant, variant ∈ variants ↔ variant ∈ state.active) →
      resolver.styles classes (.ofList variants) strict =
        resolver.styles classes state strict) ∧
    (∀ before extra after : List UtilityRule, resolver.rules = before ++ after →
      (∀ rule ∈ extra,
        Selector.className rule.selector ∉ resolver.activeNames classes state strict) →
      { resolver with rules := before ++ extra ++ after }.styles classes state strict =
        resolver.styles classes state strict) ∧
    (∀ store : ThemeStore, store.describe? = resolver.registry.describe? →
      (∀ entry ∈ (resolver.collapsed classes state strict).entries,
        ∀ place ∈ (Template.ofValue entry.2).references,
          store.value? place.name = resolver.registry.value? place.name) →
      { resolver with registry := store }.styles classes state strict =
        resolver.styles classes state strict) ∧
    (resolver.activeNames classes state strict = [] →
      resolver.styles classes state strict = OrderedMap.empty) := by
  refine ⟨?_, ?_, ?_, ?_, ?_, ?_, ?_⟩
  · intro other classes' state' strict' hoptions hnodes hstores
    exact styles_congr hoptions hnodes hstores
  · intro classes' hclasses
    exact styles_congr_classes hclasses
  · intro separator entries hne hseparator hentries
    rw [ClassList.ofText_intercalate hne hseparator hentries]
  · intro variants hvariants
    apply styles_congr_state
    intro variant
    rw [VariantState.mem_active_ofList, hvariants]
  · intro before extra after hrules hextra
    exact styles_insert_rules hrules hextra
  · intro store hdescribe hvalues
    refine styles_congr rfl rfl ⟨hvalues, fun key _ => ?_⟩
    exact congrArg (fun describe? => (describe? key).any (fun found => !found.inherits)) hdescribe
  · exact styles_of_activeNames_eq_nil

/-- A utility under a variant, with a value of its own and one of the theme. -/
def paddingRule : UtilityRule where
  selector := ".hover\\:p".toList
  node := .group ".hover\\:p".toList
    [.style "&:hover".toList "--pad: 4px; padding: var(--pad) var(--gap,) var(--none)".toList]

/-- A utility of one declaration. -/
def displayRule (name : Text) : UtilityRule :=
  ⟨'.' :: name, .style ('.' :: name) ("display: ".toList ++ name)⟩

/-- A resolver with a theme of two values and a registration. -/
def themedResolver (rules : List UtilityRule) (ink : Text) : Resolver where
  rules := rules
  registry :=
    { theme := .ofList [("--gap".toList, "1px".toList), ("--ink".toList, ink)]
      registrations := .ofList [("--pad".toList, ⟨"--pad".toList, none, false, none⟩)] :
      ThemeRegistry }
  options := {}

/-- Two rules and a theme. -/
def fewRules : Resolver :=
  themedResolver [paddingRule, displayRule "flex".toList] "black".toList

/-- The same with more rules and another color, which no utility uses. -/
def moreRules : Resolver :=
  themedResolver [displayRule "grid".toList, paddingRule, displayRule "block".toList,
    displayRule "flex".toList] "white".toList

/-- Two classes as a list. -/
def listedClasses : ClassList := .ofEntries ["hover:p ".toList, "flex".toList]

/-- The same classes in a text, one of them twice and with one that no rule has. -/
def wordedClasses : ClassList := .ofText " flex hover:p\tflex none".toList

/-- Two variants. -/
def hovered : VariantState := .ofList ["hover".toList, "focus".toList]

/-- The same variants in another order, one of them twice. -/
def focusedFirst : VariantState := .ofList ["focus".toList, "hover".toList, "focus".toList]

theorem styles_moreRules :
    moreRules.nodes wordedClasses focusedFirst false = fewRules.nodes listedClasses hovered false ∧
    (fewRules.collapsed listedClasses hovered false).StoresAgree moreRules.registry
      fewRules.registry ∧
    moreRules.styles wordedClasses focusedFirst false =
      fewRules.styles listedClasses hovered false ∧
    (fewRules.styles listedClasses hovered false).entries =
      [("padding".toList, "4px 1px var(--none)".toList), ("display".toList, "flex".toList)] := by
  have hnodes : moreRules.nodes wordedClasses focusedFirst false =
      fewRules.nodes listedClasses hovered false := by
    decide +kernel
  have hstores : (fewRules.collapsed listedClasses hovered false).StoresAgree moreRules.registry
      fewRules.registry := by
    decide +kernel
  obtain ⟨hcalls, -⟩ := styles_determined fewRules listedClasses hovered false
  exact ⟨hnodes, hstores, hcalls moreRules _ _ _ rfl hnodes hstores, by decide +kernel⟩

end Resolver

/-! ## Strict mode -/

namespace Resolver

/-- The variants in front of the base of a class. -/
def chain (resolver : Resolver) (raw : Text) : List Text :=
  (ClassName.parse resolver.options.variantSeparator raw).variants

theorem isActive_eq (resolver : Resolver) (state : VariantState) (strict : Bool) (raw : Text) :
    resolver.isActive state strict raw = state.admits strict (resolver.chain raw) := rfl

/-- The classes of a list whose chains name every active variant and no other. -/
def exactClasses (resolver : Resolver) (classes : ClassList) (state : VariantState) : ClassList :=
  ⟨classes.names.filter (fun raw => decide (state.IsNamedBy (resolver.chain raw)))⟩

/-- Without repetitions, the classes that strict mode takes are those with exact chains, all of
which apply in any mode. -/
theorem activeNames_strict {resolver : Resolver} {classes : ClassList} {state : VariantState}
    (h : ∀ raw ∈ classes.names, (resolver.chain raw).Nodup) :
    resolver.activeNames classes state true =
      resolver.activeNames (resolver.exactClasses classes state) state false := by
  rw [activeNames, activeNames, exactClasses, List.filter_filter]
  apply List.filter_congr
  intro raw hraw
  rw [isActive_eq, isActive_eq, Bool.eq_iff_iff, Bool.and_eq_true, decide_eq_true_eq,
    VariantState.admits_strict_iff_of_nodup (h raw hraw), VariantState.admits_loose_iff]
  constructor
  · intro hnamed
    exact ⟨fun variant => (hnamed variant).1, hnamed⟩
  · exact And.right

/-- Strict mode admits a chain without repetitions exactly when its variants are the active ones.
Any chain is admitted exactly when all its variants are active and it repeats as many as it leaves
out. A list of classes without repetitions is resolved strictly as its classes with exact chains
are resolved. -/
theorem strict_exact (resolver : Resolver) (classes : ClassList) (state : VariantState) :
    (∀ chain : List Text, chain.Nodup →
      (state.admits true chain = true ↔ state.IsNamedBy chain)) ∧
    (∀ chain : List Text, state.admits true chain = true ↔
      (∀ variant ∈ chain, variant ∈ state.active) ∧
        VariantState.repetitions chain = (state.unnamed chain).length) ∧
    ((∀ raw ∈ classes.names, (resolver.chain raw).Nodup) →
      resolver.styles classes state true =
        resolver.styles (resolver.exactClasses classes state) state false) := by
  refine ⟨?_, ?_, ?_⟩
  · intro chain hchain
    exact VariantState.admits_strict_iff_of_nodup hchain
  · intro chain
    exact VariantState.admits_strict_iff
  · intro hchains
    rw [styles, styles, collapsed, collapsed, activeNames_strict hchains]

/-- Utilities under one variant, under two, and under one that stands there twice. -/
def hoverUtilities : Resolver where
  rules :=
    [⟨".hover\\:flex".toList, .style ".hover\\:flex".toList "display: flex".toList⟩,
      ⟨".focus\\:hover\\:block".toList,
        .style ".focus\\:hover\\:block".toList "display: block".toList⟩,
      ⟨".hover\\:hover\\:grid".toList,
        .style ".hover\\:hover\\:grid".toList "display: grid".toList⟩]
  registry := ThemeRegistry.empty.store
  options := {}

/-- The state in which the pointer is over an element that has the focus. -/
def hoverFocus : VariantState :=
  VariantState.ofList ["hover".toList, "focus".toList]

/-- A class that names one of the two variants, and one that names both. -/
def hoverClasses : ClassList :=
  ⟨["hover:flex".toList, "focus:hover:block".toList]⟩

theorem strict_hoverFocus :
    (∀ raw ∈ hoverClasses.names, (hoverUtilities.chain raw).Nodup) ∧
    hoverUtilities.styles hoverClasses hoverFocus true =
      hoverUtilities.styles ⟨["focus:hover:block".toList]⟩ hoverFocus false ∧
    (hoverUtilities.styles hoverClasses hoverFocus true).entries =
      [("display".toList, "block".toList)] := by
  have hchains : ∀ raw ∈ hoverClasses.names, (hoverUtilities.chain raw).Nodup := by
    decide +kernel
  have hexact : hoverUtilities.exactClasses hoverClasses hoverFocus =
      ⟨["focus:hover:block".toList]⟩ := by
    decide +kernel
  obtain ⟨-, -, hstrict⟩ := strict_exact hoverUtilities hoverClasses hoverFocus
  have hstyles := hstrict hchains
  rw [hexact] at hstyles
  exact ⟨hchains, hstyles, by decide +kernel⟩

/-- A variant that a chain names twice is counted twice: it makes up for another active variant,
and alone it is one too many. -/
theorem strict_admits_repeated :
    (hoverFocus.admits true ["hover".toList, "hover".toList] = true ∧
      ¬ hoverFocus.IsNamedBy ["hover".toList, "hover".toList]) ∧
    (hoverUtilities.styles ⟨["hover:hover:grid".toList]⟩ hoverFocus true).entries =
      [("display".toList, "grid".toList)] ∧
    (VariantState.ofList ["hover".toList]).admits true ["hover".toList, "hover".toList] = false ∧
      (VariantState.ofList ["hover".toList]).IsNamedBy ["hover".toList, "hover".toList] := by
  decide +kernel

end Resolver

end UtilityCss
