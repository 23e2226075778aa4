import UtilityCss.StyleSet
import UtilityCss.Proofs.OrderedMap
import UtilityCss.Proofs.Stylesheet.Leaves
import UtilityCss.Proofs.PropertyName

/-!
# Collapsing rules and writing style sets

A rule contributes what the declarations of its leaves contribute, one after the other
(`RuleNode.contributions_eq`). Grouping, conditions and selectors leave no trace. So whatever the
shape of a rule, collapsing it writes the declarations of its leaves one after the other, from the
first leaf to the last (`StyleSet.collapse_flattens`). A standard property without a value is passed
over and erases nothing. Keys that the set had before stay where they are.

* `Declaration.contributionsOfBlock` lists what the declarations of a written block contribute.
* `Declaration.key` is the key under which a declaration is written.
* `Declaration.counts` says whether it is written at all.
* `RuleNode.counted` lists the declarations of a rule that are written, in document order.

A style set that is written as declarations and collapsed again is the same set, if its keys and
values are such that each entry can be read where it stands (`StyleSet.collapse_toCssText`). The
last declaration has a semicolon too, after which nothing is read.

* `StyleSet.IsWritableKey` and `StyleSet.IsWritableValue` say what is asked of an entry.
* `StyleSet.IsWritable` asks it of all entries.
-/

set_option autoImplicit false

namespace UtilityCss

/-! ## Leaf by leaf -/

/-- The entries that the declarations of a written block contribute. -/
def Declaration.contributionsOfBlock (block : Text) : List (Text × Text) :=
  (Declaration.readBlock block).filterMap Declaration.contribution?

namespace RuleNode

mutual
/-- The contributions of a rule are those of its leaves. -/
theorem contributions_eq (node : RuleNode) :
    contributions node = (leaves node).flatMap Declaration.contributionsOfBlock := by
  cases node with
  | style selector declarations =>
      rw [contributions, leaves, List.flatMap_singleton, Declaration.contributionsOfBlock]
  | group condition children => rw [contributions, leaves, contributionsOf_eq children]
/-- The contributions of a sequence of rules are those of its leaves. -/
theorem contributionsOf_eq (nodes : List RuleNode) :
    contributionsOf nodes = (leavesOf nodes).flatMap Declaration.contributionsOfBlock := by
  cases nodes with
  | nil => rfl
  | cons node rest =>
      rw [contributionsOf, leavesOf, List.flatMap_append, contributions_eq node,
        contributionsOf_eq rest]
end

end RuleNode

/-- Rules that are collapsed one after the other write their leaves one after the other. -/
theorem StyleSet.foldl_collapse (styles : StyleSet) (nodes : List RuleNode) :
    nodes.foldl StyleSet.collapse styles =
      styles.insertAll ((RuleNode.leavesOf nodes).flatMap Declaration.contributionsOfBlock) := by
  induction nodes generalizing styles with
  | nil => rfl
  | cons node rest ih =>
      rw [List.foldl_cons, ih, StyleSet.collapse, RuleNode.contributions_eq,
        ← OrderedMap.insertAll_append, ← List.flatMap_append, RuleNode.leavesOf]

/-! ## What is written -/

namespace Declaration

/-- The key under which a declaration is written. -/
def key (declaration : Declaration) : Text :=
  PropertyName.camelCase declaration.name

/-- Whether a declaration is written: custom properties are, others if they have a value. -/
def counts (declaration : Declaration) : Bool :=
  PropertyName.isCustom declaration.name || !declaration.value.isEmpty

/-- The entry that a declaration makes. -/
def entry (declaration : Declaration) : Text × Text :=
  (declaration.key, declaration.value)

/-- A declaration that counts contributes its entry, any other contributes nothing. -/
theorem contribution?_eq (declaration : Declaration) :
    declaration.contribution? = if declaration.counts then some declaration.entry else none := by
  rw [contribution?, counts]
  by_cases hcustom : PropertyName.isCustom declaration.name = true
  · -- The key of a custom property is its name.
    rw [if_pos hcustom, hcustom, Bool.true_or, if_pos rfl, entry, key,
      PropertyName.camelCase_of_isCustom hcustom]
  · rw [if_neg hcustom, Bool.eq_false_iff.2 hcustom, Bool.false_or]
    cases declaration.value.isEmpty with
    | true => rfl
    | false => rfl

theorem filterMap_contribution? (declarations : List Declaration) :
    declarations.filterMap contribution? = (declarations.filter counts).map entry := by
  induction declarations with
  | nil => rfl
  | cons declaration rest ih =>
      have hfirst := contribution?_eq declaration
      cases hcounts : declaration.counts with
      | true =>
          rw [hcounts, if_pos rfl] at hfirst
          rw [List.filterMap_cons_some hfirst, ih, List.filter_cons_of_pos hcounts, List.map_cons]
      | false =>
          rw [hcounts, if_neg Bool.false_ne_true] at hfirst
          rw [List.filterMap_cons_none hfirst, ih,
            List.filter_cons_of_neg (Bool.eq_false_iff.1 hcounts)]

end Declaration

/-! ## The declarations of a rule -/

namespace RuleNode

/-- The declarations of the leaves of a rule that count, in document order. -/
def counted (node : RuleNode) : List Declaration :=
  ((leaves node).flatMap Declaration.readBlock).filter Declaration.counts

/-- The keys that a rule writes, in the order of the writes. -/
def writtenKeys (node : RuleNode) : List Text :=
  (counted node).map Declaration.key

/-- A rule contributes the entries of its declarations that count. -/
theorem contributions_eq_map (node : RuleNode) :
    contributions node = (counted node).map Declaration.entry := by
  calc contributions node
      = (leaves node).flatMap Declaration.contributionsOfBlock := contributions_eq node
    _ = ((leaves node).flatMap Declaration.readBlock).filterMap Declaration.contribution? :=
        List.filterMap_flatMap.symm
    _ = (counted node).map Declaration.entry := Declaration.filterMap_contribution? _

theorem map_fst_contributions (node : RuleNode) :
    (contributions node).map Prod.fst = writtenKeys node := by
  rw [contributions_eq_map, List.map_map]
  rfl

end RuleNode

/-! ## Collapsing -/

namespace StyleSet

variable {styles : StyleSet} {node : RuleNode} {key : Text}

/-- The style set with a declaration written into it. -/
def declare (styles : StyleSet) (declaration : Declaration) : StyleSet :=
  styles.insert declaration.key declaration.value

/-- A group is collapsed child by child into the same set. -/
theorem collapse_group (styles : StyleSet) (condition : Text) (children : List RuleNode) :
    collapse styles (.group condition children) = children.foldl collapse styles := by
  rw [foldl_collapse, collapse, RuleNode.contributions_eq, RuleNode.leaves]

theorem collapse_eq_foldl (styles : StyleSet) (node : RuleNode) :
    collapse styles node = (RuleNode.counted node).foldl declare styles := by
  rw [collapse, RuleNode.contributions_eq_map, OrderedMap.insertAll, List.foldl_map]
  rfl

/-- Only the written blocks of the leaves and their order matter. -/
theorem collapse_congr {other : RuleNode} (h : RuleNode.leaves other = RuleNode.leaves node) :
    collapse styles other = collapse styles node := by
  rw [collapse_eq_foldl, collapse_eq_foldl, RuleNode.counted, h, ← RuleNode.counted]

theorem keys_collapse (styles : StyleSet) (node : RuleNode) :
    (collapse styles node).keys = styles.keys ++
      ((RuleNode.writtenKeys node).filter (fun key => !decide (key ∈ styles.keys))).eraseDups := by
  rw [collapse, OrderedMap.keys_insertAll, RuleNode.map_fst_contributions]

/-- The last write to a key decides its value. -/
theorem get?_collapse_of_last {before after : List Declaration} {declaration : Declaration}
    (h : RuleNode.counted node = before ++ declaration :: after)
    (hlast : declaration.key ∉ after.map Declaration.key) :
    (collapse styles node).get? declaration.key = some declaration.value := by
  have hafter : declaration.key ∉ (after.map Declaration.entry).map Prod.fst := by
    rw [List.map_map]
    exact hlast
  rw [collapse, RuleNode.contributions_eq_map, h, List.map_append, List.map_cons]
  exact OrderedMap.get?_insertAll_of_last _ hafter

theorem get?_collapse_of_not_mem (h : key ∉ RuleNode.writtenKeys node) :
    (collapse styles node).get? key = styles.get? key := by
  apply OrderedMap.get?_insertAll_of_not_mem
  rwa [RuleNode.map_fst_contributions]

/-- The keys that a rule writes come back from their hyphenated names. -/
theorem isCustom_or_of_mem_writtenKeys (h : key ∈ RuleNode.writtenKeys node) :
    PropertyName.isCustom key = true ∨ '-' ∉ key := by
  obtain ⟨declaration, -, rfl⟩ := List.mem_map.1 h
  exact PropertyName.isCustom_camelCase_or declaration.name

/-- Groups are collapsed child by child into the same set, so that collapsing a rule of any shape
is one fold over the declarations of its leaves, in document order and without the standard
declarations that have no value. The keys that the set had stay in their places, new keys follow in
the order of their first declarations, and each key has the value of its last declaration, or the
one that it had where there is none. Rules with the same leaves change every set alike. The standard
keys of a set that starts empty are without hyphens, and come back from their hyphenated names. -/
theorem collapse_flattens (styles : StyleSet) (node : RuleNode) :
    (∀ condition children,
      collapse styles (.group condition children) = children.foldl collapse styles) ∧
    collapse styles node = (RuleNode.counted node).foldl declare styles ∧
    (collapse styles node).keys = styles.keys ++
      ((RuleNode.writtenKeys node).filter (fun key => !decide (key ∈ styles.keys))).eraseDups ∧
    (∀ before declaration after, RuleNode.counted node = before ++ declaration :: after →
      declaration.key ∉ after.map Declaration.key →
      (collapse styles node).get? declaration.key = some declaration.value) ∧
    (∀ key, key ∉ RuleNode.writtenKeys node →
      (collapse styles node).get? key = styles.get? key) ∧
    (∀ other, RuleNode.leaves other = RuleNode.leaves node →
      collapse styles other = collapse styles node) ∧
    ∀ key ∈ (collapse OrderedMap.empty node).keys, PropertyName.isCustom key = false →
      '-' ∉ key ∧ PropertyName.camelCase (PropertyName.hyphenate key) = key := by
  refine ⟨collapse_group styles, collapse_eq_foldl styles node, keys_collapse styles node,
    ?_, ?_, ?_, ?_⟩
  · intro before declaration after h hlast
    exact get?_collapse_of_last h hlast
  · intro key h
    exact get?_collapse_of_not_mem h
  · intro other h
    exact collapse_congr h
  · intro key hkey hcustom
    -- All keys of a set that starts empty were written, and so came out of the casing.
    have hwritten : key ∈ RuleNode.writtenKeys node := by
      rw [keys_collapse, OrderedMap.keys_empty, List.nil_append, List.mem_eraseDups] at hkey
      exact List.mem_of_mem_filter hkey
    have hcasing := isCustom_or_of_mem_writtenKeys hwritten
    constructor
    · apply hcasing.resolve_left
      rw [hcustom]
      exact Bool.false_ne_true
    · exact PropertyName.camelCase_hyphenate hcasing

/-- A rule with a group inside. Spellings in different case share a key, a custom property loses its
value, and a standard property without a value is among the declarations. -/
def nestedButton : RuleNode :=
  .group ".btn".toList
    [.style "&".toList "color: blue; Padding: 1px; --tone: ; margin: ".toList,
      .group "@media print".toList
        [.style "&:hover".toList "padding: 2px; background-color: tan; Color: green".toList]]

/-- The same leaves in other groups. -/
def regroupedButton : RuleNode :=
  .group "@layer base".toList
    [.group "&:focus".toList
        [.style ".a".toList "color: blue; Padding: 1px; --tone: ; margin: ".toList],
      .style ".b".toList "padding: 2px; background-color: tan; Color: green".toList]

/-- A set that has some of the keys already. -/
def plainStyles : StyleSet :=
  OrderedMap.ofList [("margin".toList, "0".toList), ("color".toList, "red".toList),
    ("--tone".toList, "1".toList)]

theorem collapse_nestedButton :
    (collapse plainStyles nestedButton).keys =
      ["margin".toList, "color".toList, "--tone".toList, "padding".toList,
        "backgroundColor".toList] ∧
    (collapse plainStyles nestedButton).get? "padding".toList = some "2px".toList ∧
    (collapse plainStyles nestedButton).get? "margin".toList = some "0".toList ∧
    collapse plainStyles regroupedButton = collapse plainStyles nestedButton ∧
    PropertyName.camelCase (PropertyName.hyphenate "backgroundColor".toList) =
      "backgroundColor".toList := by
  obtain ⟨-, -, hkeys, hlast, hkept, hshape, hcasing⟩ :=
    collapse_flattens plainStyles nestedButton
  have hcounted : RuleNode.counted nestedButton =
      [⟨"color".toList, "blue".toList⟩, ⟨"Padding".toList, "1px".toList⟩,
        ⟨"--tone".toList, []⟩] ++ ⟨"padding".toList, "2px".toList⟩ ::
        [⟨"background-color".toList, "tan".toList⟩, ⟨"Color".toList, "green".toList⟩] := by
    decide +kernel
  have hwritten : RuleNode.writtenKeys nestedButton =
      ["color".toList, "padding".toList, "--tone".toList, "padding".toList,
        "backgroundColor".toList, "color".toList] := by
    rw [RuleNode.writtenKeys, hcounted]
    decide
  rw [hwritten] at hkept hkeys
  have hempty : "backgroundColor".toList ∈ (collapse OrderedMap.empty nestedButton).keys := by
    rw [keys_collapse, hwritten]
    decide
  refine ⟨hkeys.trans (by decide), hlast _ _ _ hcounted (by decide), ?_, hshape _ rfl, ?_⟩
  · -- The declaration of the margin has no value.
    exact hkept "margin".toList (by decide)
  · exact (hcasing _ hempty (by decide)).2

end StyleSet

end UtilityCss

namespace UtilityCss.StyleSet

/-! ## Style sets written as declarations -/

/-- A trimmed key without the characters that have a meaning in blocks. Hyphens are in keys of
custom properties only. -/
structure IsWritableKey (key : Text) : Prop where
  ne_nil : key ≠ []
  trim_eq : Text.trim key = key
  plain : ∀ c ∈ key, Nesting.isSpecial c = false ∧ c ≠ ':' ∧ c ≠ ';'
  casing : PropertyName.isCustom key = true ∨ '-' ∉ key

/-- A trimmed value that no semicolon cuts and after which the scan is back at the top. Custom
properties can have an empty value. -/
structure IsWritableValue (key value : Text) : Prop where
  trim_eq : Text.trim value = value
  ne_nil : PropertyName.isCustom key = false → value ≠ []
  uncut : Text.splitTopLevel ';' value = [value]
  closed : Nesting.scan.finish Nesting.top value = Nesting.top

/-- A style set of which every entry can be read in the written form. -/
structure IsWritable (styles : StyleSet) : Prop where
  key : ∀ entry ∈ styles.entries, IsWritableKey entry.1
  value : ∀ entry ∈ styles.entries, IsWritableValue entry.1 entry.2

instance (key : Text) : Decidable (IsWritableKey key) :=
  decidable_of_iff
    (key ≠ [] ∧ Text.trim key = key ∧
      key.all (fun c => decide (Nesting.isSpecial c = false ∧ c ≠ ':' ∧ c ≠ ';')) = true ∧
      (PropertyName.isCustom key = true ∨ '-' ∉ key))
    (by
      rw [List.all_eq_true]
      simp only [decide_eq_true_eq]
      exact ⟨fun h => ⟨h.1, h.2.1, h.2.2.1, h.2.2.2⟩, fun h => ⟨h.1, h.2, h.3, h.4⟩⟩)

instance (key value : Text) : Decidable (IsWritableValue key value) :=
  decidable_of_iff
    (Text.trim value = value ∧ (PropertyName.isCustom key = false → value ≠ []) ∧
      Text.splitTopLevel ';' value = [value] ∧
      Nesting.scan.finish Nesting.top value = Nesting.top)
    ⟨fun h => ⟨h.1, h.2.1, h.2.2.1, h.2.2.2⟩, fun h => ⟨h.1, h.2, h.3, h.4⟩⟩

instance (styles : StyleSet) : Decidable styles.IsWritable :=
  decidable_of_iff
    ((∀ entry ∈ styles.entries, IsWritableKey entry.1) ∧
      ∀ entry ∈ styles.entries, IsWritableValue entry.1 entry.2)
    ⟨fun h => ⟨h.1, h.2⟩, fun h => ⟨h.1, h.2⟩⟩

/-! ## One entry -/

/-- The declaration that is written for an entry. -/
def declarationOf (entry : Text × Text) : Declaration :=
  ⟨PropertyName.hyphenate entry.1, entry.2⟩

theorem writeEntry_eq (entry : Text × Text) :
    writeEntry entry = (declarationOf entry).write ++ [';'] := rfl

/-- The hyphenated name of a writable key has no meaning in blocks either. -/
theorem IsWritableKey.plain_hyphenate {key : Text} (h : IsWritableKey key) :
    ∀ c ∈ PropertyName.hyphenate key, Nesting.isSpecial c = false ∧ c ≠ ':' ∧ c ≠ ';' := by
  intro c hc
  rcases PropertyName.mem_hyphenate hc with hkey | rfl | ⟨capital, hcapital, rfl⟩
  · exact h.plain c hkey
  · decide
  · exact forall_capital
      (p := fun c => Nesting.isSpecial c.toLower = false ∧ c.toLower ≠ ':' ∧ c.toLower ≠ ';')
      (by decide) hcapital

theorem hyphenate_ne_nil {key : Text} (h : key ≠ []) : PropertyName.hyphenate key ≠ [] := by
  cases key with
  | nil => exact absurd rfl h
  | cons c rest =>
      rw [PropertyName.hyphenate]
      split
      · exact h
      · rw [List.flatMap_cons, PropertyName.hyphenateChar]
        split <;> simp

variable {entry : Text × Text}

/-- Before the value the scan stays at the top. -/
theorem IsWritableKey.plain_lead (h : IsWritableKey entry.1) :
    ∀ c ∈ PropertyName.hyphenate entry.1 ++ ": ".toList,
      Nesting.isSpecial c = false ∧ c ≠ ';' := by
  intro c hc
  rcases List.mem_append.1 hc with hname | hcolon
  · obtain ⟨hspecial, -, hsemicolon⟩ := h.plain_hyphenate c hname
    exact ⟨hspecial, hsemicolon⟩
  · have hseparator : c = ':' ∨ c = ' ' := by simpa using hcolon
    rcases hseparator with rfl | rfl <;> decide

theorem isLegible_declarationOf (hkey : IsWritableKey entry.1)
    (hvalue : IsWritableValue entry.1 entry.2) : (declarationOf entry).IsLegible where
  name_ne_nil := hyphenate_ne_nil hkey.ne_nil
  colon_not_mem_name := fun hmem => (hkey.plain_hyphenate ':' hmem).2.1 rfl
  trim_name := PropertyName.trim_hyphenate hkey.trim_eq
  trim_value := hvalue.trim_eq
  uncut := by
    rw [Declaration.write, declarationOf,
      Nesting.splitTopLevel_append_of_not_special hkey.plain_lead, hvalue.uncut]
    rfl

theorem closesUp_declarationOf (hkey : IsWritableKey entry.1)
    (hvalue : IsWritableValue entry.1 entry.2) : (declarationOf entry).ClosesUp := by
  rw [Declaration.ClosesUp, Declaration.write, declarationOf,
    Nesting.finish_top_append_of_not_special fun c hc => (hkey.plain_lead c hc).1, hvalue.closed]

/-- What is read of an entry contributes the entry. -/
theorem contribution?_declarationOf (hkey : IsWritableKey entry.1)
    (hvalue : IsWritableValue entry.1 entry.2) :
    (declarationOf entry).contribution? = some entry := by
  have hcustom := PropertyName.isCustom_hyphenate hkey.casing
  have hcamel := PropertyName.camelCase_hyphenate hkey.casing
  rw [Declaration.contribution?, declarationOf]
  dsimp only
  rw [hcustom, hcamel]
  split
  · rename_i h
    rw [PropertyName.hyphenate_of_isCustom h]
  · rename_i h
    have hne : entry.2 ≠ [] := hvalue.ne_nil (Bool.eq_false_iff.2 h)
    rw [if_neg (by simpa using hne)]

/-! ## All entries -/

theorem intercalate_writeEntry_cons (entry : Text × Text) (rest : List (Text × Text)) :
    ∃ lead : Text, (∀ c ∈ lead, c = ' ') ∧
      [' '].intercalate ((entry :: rest).map writeEntry) =
        (declarationOf entry).write ++
          ';' :: (lead ++ [' '].intercalate (rest.map writeEntry)) := by
  cases rest with
  | nil => exact ⟨[], by simp, by simp [writeEntry_eq]⟩
  | cons second rest =>
      refine ⟨[' '], by simp, ?_⟩
      rw [List.map_cons, List.map_cons, List.intercalate_cons_cons, writeEntry_eq]
      simp

/-- The written entries are read as their declarations, with spaces in front of each. -/
theorem readBlock_intercalate_writeEntry {entries : List (Text × Text)} (lead : Text)
    (hlead : ∀ c ∈ lead, c = ' ')
    (h : ∀ entry ∈ entries, IsWritableKey entry.1 ∧ IsWritableValue entry.1 entry.2) :
    Declaration.readBlock (lead ++ [' '].intercalate (entries.map writeEntry)) =
      entries.map declarationOf := by
  induction entries generalizing lead with
  | nil =>
      rw [List.map_nil, List.intercalate_nil, List.append_nil]
      exact Declaration.readBlock_of_spaces hlead
  | cons entry rest ih =>
      rw [List.forall_mem_cons] at h
      obtain ⟨⟨hkey, hvalue⟩, hrest⟩ := h
      obtain ⟨space, hspace, htext⟩ := intercalate_writeEntry_cons entry rest
      rw [htext, (isLegible_declarationOf hkey hvalue).readBlock_write_append
        (closesUp_declarationOf hkey hvalue) hlead, ih space hspace hrest, List.map_cons]

/-- A writable style set comes back from its written form: a leaf with that form collapses to the
same entries in the same order. -/
theorem collapse_toCssText (styles : StyleSet) (h : styles.IsWritable) (selector : Text) :
    StyleSet.collapse OrderedMap.empty (.style selector styles.toCssText) = styles := by
  have hentries : ∀ entry ∈ styles.entries,
      IsWritableKey entry.1 ∧ IsWritableValue entry.1 entry.2 :=
    fun entry hentry => ⟨h.key entry hentry, h.value entry hentry⟩
  have hread : Declaration.readBlock styles.toCssText = styles.entries.map declarationOf :=
    readBlock_intercalate_writeEntry [] (by simp) hentries
  have hcontributions : RuleNode.contributions (.style selector styles.toCssText) =
      styles.entries := by
    calc RuleNode.contributions (.style selector styles.toCssText)
        = styles.entries.filterMap (Declaration.contribution? ∘ declarationOf) := by
          rw [RuleNode.contributions, hread, List.filterMap_map]
      _ = styles.entries.filterMap some := by
          apply List.filterMap_congr
          intro entry hentry
          obtain ⟨hkey, hvalue⟩ := hentries entry hentry
          exact contribution?_declarationOf hkey hvalue
      _ = styles.entries := List.filterMap_some
  rw [collapse, hcontributions]
  exact OrderedMap.ofList_entries styles

/-- A prefixed property, a quote that holds a semicolon and a bracket, an address, and custom
properties with capitals and without a value. -/
def quotedStyles : StyleSet :=
  OrderedMap.ofList [("WebkitBoxOrient".toList, "vertical".toList),
    ("content".toList, "'a;(\\'' attr(b)".toList),
    ("backgroundImage".toList, "url(data:image/png;base64,AA==)".toList),
    ("--tw-Ring".toList, []), ("--x y".toList, "[a;b]\u00a0(c)".toList)]

theorem collapse_toCssText_quotedStyles :
    quotedStyles.IsWritable ∧
      (StyleSet.collapse OrderedMap.empty (.style ".a".toList quotedStyles.toCssText)).entries =
        quotedStyles.entries := by
  have hwritable : quotedStyles.IsWritable := by decide +kernel
  refine ⟨hwritable, ?_⟩
  rw [collapse_toCssText quotedStyles hwritable]

end UtilityCss.StyleSet
