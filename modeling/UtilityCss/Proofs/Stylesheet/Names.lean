import UtilityCss.ClassName
import UtilityCss.Proofs.Stylesheet.Theme

/-!
# The names of a sheet

A sheet gives three lists of names: the class names of its utility rules, the names in its theme,
and the custom properties that it registers, each with whether it inherits. Each list is put
together from what the items of the outline give (`Stylesheet.classNames_parse`,
`Stylesheet.themeNames_parse` and `Stylesheet.inheritance_parse`).
-/

set_option autoImplicit false

namespace UtilityCss

/-- Whether a selector is one class: a dot and a name, which only comments may separate. -/
def Selector.isOneClass (selector : Text) : Bool :=
  match ((Token.ofText selector).map Token.kind).filter (· != .comment) with
  | .delimiter '.' :: .ident _ :: rest => rest.all (· == .space)
  | _ => false

namespace Stylesheet

/-- The class names of the utility rules whose selector is one class. -/
def classNames (sheet : Stylesheet) : List Text :=
  ((sheet.utilities.map UtilityRule.selector).filter Selector.isOneClass).map Selector.className

/-- The names of the theme declarations. -/
def themeNames (sheet : Stylesheet) : List Text :=
  sheet.theme.map Declaration.name

/-- The registered properties, each with whether it inherits. -/
def inheritance (sheet : Stylesheet) : List (Text × Bool) :=
  sheet.registrations.map fun registration => (registration.name, registration.inherits)

end Stylesheet

/-! ## Utility rules and registrations in an outline -/

namespace Outline

mutual
/-- The selectors of the utility rules that an item is, or holds inside of at-rules only. -/
def utilitySelectors : Outline → List Text
  | .declaration _ | .registration _ _ => []
  | .rule heading inside =>
    if RuleNode.isUtilityHeading heading then [Text.trim heading]
    else if RuleNode.isAtHeading heading then utilitySelectorsOf inside
    else []
/-- The selectors of the utility rules among several items, in their order. -/
def utilitySelectorsOf : List Outline → List Text
  | [] => []
  | item :: rest => utilitySelectors item ++ utilitySelectorsOf rest
end

mutual
/-- The registrations that an item is or holds. -/
def registrations : Outline → List Registration
  | .declaration _ => []
  | .registration name inside =>
    registrationsOf inside ++ [Registration.ofDescriptors name (declarations inside)]
  | .rule _ inside => registrationsOf inside
/-- The registrations of several items, in their order. -/
def registrationsOf : List Outline → List Registration
  | [] => []
  | item :: rest => registrations item ++ registrationsOf rest
end

end Outline

namespace RuleNode

theorem utilitiesOf_append (first second : List RuleNode) :
    utilitiesOf (first ++ second) = utilitiesOf first ++ utilitiesOf second := by
  induction first with
  | nil => rw [utilitiesOf]; rfl
  | cons node rest ih => rw [List.cons_append, utilitiesOf, utilitiesOf, ih, List.append_assoc]

/-- The declarations that a group carries in a leaf of their own are no utility. -/
theorem utilities_self (declarations : Text) :
    utilities (.style selfSelector declarations) = [] := by
  have hself : isUtilityHeading selfSelector = false := by decide
  rw [utilities, hself]
  rfl

theorem selectors_ofBlock (heading : Text) (declarations : List Declaration)
    (children : List RuleNode) :
    (utilities (ofBlock heading declarations children)).map UtilityRule.selector =
      if isUtilityHeading heading then [Text.trim heading]
      else if isAtHeading heading then (utilitiesOf children).map UtilityRule.selector
      else [] := by
  -- The leaf that stands first in a group has no class for its selector.
  have hself := utilities_self (Declaration.writeBlock declarations)
  rw [ofBlock]
  split
  · rename_i hleaf
    have hat : isAtHeading heading = false := by simp_all
    rw [utilities, hat]
    split <;> rfl
  · split
    · rw [utilities]
      split
      · rfl
      · split <;> rfl
    · rw [utilities, utilitiesOf, hself, List.nil_append]
      split
      · rfl
      · split <;> rfl

end RuleNode

namespace Outline

mutual
theorem selectors_meaning (item : Outline) :
    (RuleNode.utilitiesOf (meaning item).rules).map UtilityRule.selector =
      utilitySelectors item := by
  cases item with
  | declaration written => rw [meaning, utilitySelectors, RuleNode.utilitiesOf, List.map_nil]
  | registration name inside =>
      rw [meaning, utilitySelectors, Body.ofRegistration, RuleNode.utilitiesOf, List.map_nil]
  | rule heading inside =>
      rw [meaning, utilitySelectors, Body.ofRule, RuleNode.utilitiesOf, RuleNode.utilitiesOf,
        List.append_nil, RuleNode.selectors_ofBlock, selectors_meanings inside]
theorem selectors_meanings (items : List Outline) :
    (RuleNode.utilitiesOf (Body.concat (meanings items)).rules).map UtilityRule.selector =
      utilitySelectorsOf items := by
  cases items with
  | nil =>
      rw [meanings, utilitySelectorsOf, List.map_eq_nil_iff]
      exact RuleNode.utilitiesOf.eq_1
  | cons item rest =>
      have hrest := selectors_meanings rest
      rw [Body.rules_concat] at hrest
      rw [meanings, utilitySelectorsOf, Body.rules_concat, List.flatMap_cons,
        RuleNode.utilitiesOf_append, List.map_append, selectors_meaning item, hrest]
end

mutual
theorem registrations_meaning (item : Outline) :
    (meaning item).registrations = registrations item := by
  cases item with
  | declaration written => rw [meaning, registrations]
  | registration name inside =>
      rw [meaning, registrations, Body.ofRegistration, registrations_meanings inside,
        declarations_concat_meanings]
  | rule heading inside =>
      rw [meaning, registrations, Body.ofRule, registrations_meanings inside]
theorem registrations_meanings (items : List Outline) :
    (Body.concat (meanings items)).registrations = registrationsOf items := by
  cases items with
  | nil => rw [meanings, registrationsOf]; rfl
  | cons item rest =>
      have hrest := registrations_meanings rest
      rw [Body.registrations_concat] at hrest
      rw [meanings, registrationsOf, Body.registrations_concat, List.flatMap_cons,
        registrations_meaning item, hrest]
end

end Outline

/-! ## The names that an item gives -/

namespace Outline

/-- The selectors of the utility rules of an item that are one class. -/
def classSelectors (item : Outline) : List Text :=
  (utilitySelectors item).filter Selector.isOneClass

theorem filter_utilitySelectorsOf (items : List Outline) :
    (utilitySelectorsOf items).filter Selector.isOneClass = items.flatMap classSelectors := by
  induction items with
  | nil => rw [utilitySelectorsOf]; rfl
  | cons item rest ih =>
      rw [utilitySelectorsOf, List.filter_append, List.flatMap_cons, ih, classSelectors]

theorem classSelectors_rule (heading : Text) (inside : List Outline) :
    classSelectors (.rule heading inside) =
      if RuleNode.isUtilityHeading heading then [Text.trim heading].filter Selector.isOneClass
      else if RuleNode.isAtHeading heading then inside.flatMap classSelectors
      else [] := by
  rw [classSelectors, utilitySelectors, ← filter_utilitySelectorsOf]
  split
  · rfl
  · split <;> rfl

/-- An at-rule gives the classes that are inside. -/
theorem classSelectors_of_isAtHeading {heading : Text}
    (hat : RuleNode.isAtHeading heading = true) (inside : List Outline) :
    classSelectors (.rule heading inside) = inside.flatMap classSelectors := by
  have hutility : RuleNode.isUtilityHeading heading = false := by
    rw [RuleNode.isAtHeading, beq_iff_eq] at hat
    obtain ⟨rest, rfl⟩ := List.head?_eq_some_iff.1 hat
    rfl
  rw [classSelectors_rule, hutility, hat]
  rfl

/-- The names that the theme takes from an item. -/
def themeNames (item : Outline) : List Text :=
  (themeBlocks item).flatMap fun block => (readTheme block).map Declaration.name

theorem map_name_themeBlocksOf (items : List Outline) :
    ((themeBlocksOf items).flatMap readTheme).map Declaration.name = items.flatMap themeNames := by
  induction items with
  | nil => rw [themeBlocksOf]; rfl
  | cons item rest ih =>
      rw [themeBlocksOf, List.flatMap_append, List.map_append, List.flatMap_cons, ih, themeNames,
        List.map_flatMap]

theorem themeNames_rule (heading : Text) (inside : List Outline) :
    themeNames (.rule heading inside) =
      if RuleNode.isAtHeading heading then inside.flatMap themeNames
      else if RuleNode.isThemeSelector heading then (readTheme inside).map Declaration.name
      else [] := by
  rw [themeNames, themeBlocks, ← map_name_themeBlocksOf]
  split
  · rw [List.map_flatMap]
  · split
    · rw [List.flatMap_singleton]
    · rfl

end Outline

namespace Registration

/-- What a descriptor says about whether the property inherits, which is so as it stands. -/
def inheritsAfter (stands : Bool) (descriptor : Declaration) : Bool :=
  if descriptor.name = "inherits".toList then
    Text.asciiLower (Text.trim descriptor.value) != "false".toList
  else stands

theorem inherits_foldl (registration : Registration) (descriptors : List Declaration) :
    (descriptors.foldl describe registration).inherits =
      descriptors.foldl inheritsAfter registration.inherits := by
  induction descriptors generalizing registration with
  | nil => rfl
  | cons descriptor rest ih =>
      rw [List.foldl_cons, List.foldl_cons, ih]
      congr 1
      rw [describe, inheritsAfter]
      by_cases hinherits : descriptor.name = "inherits".toList
      · have hsyntax : descriptor.name ≠ "syntax".toList := by
          rw [hinherits]
          decide
        rw [if_neg hsyntax, if_pos hinherits, if_pos hinherits]
      · rw [if_neg hinherits, if_neg hinherits]
        split
        · rfl
        · split <;> rfl

theorem name_foldl (registration : Registration) (descriptors : List Declaration) :
    (descriptors.foldl describe registration).name = registration.name := by
  induction descriptors generalizing registration with
  | nil => rfl
  | cons descriptor rest ih =>
      rw [List.foldl_cons, ih, describe]
      split
      · rfl
      · split
        · rfl
        · split <;> rfl

end Registration

namespace Outline

/-- The property that an item registers, and those inside, with whether they inherit. -/
def inheritance (item : Outline) : List (Text × Bool) :=
  (registrations item).map fun registration => (registration.name, registration.inherits)

theorem map_registrationsOf (items : List Outline) :
    (registrationsOf items).map (fun registration => (registration.name, registration.inherits)) =
      items.flatMap inheritance := by
  induction items with
  | nil => rw [registrationsOf]; rfl
  | cons item rest ih =>
      rw [registrationsOf, List.map_append, List.flatMap_cons, ih, inheritance]

theorem inheritance_rule (heading : Text) (inside : List Outline) :
    inheritance (.rule heading inside) = inside.flatMap inheritance := by
  rw [inheritance, registrations, map_registrationsOf]

theorem inheritance_registration (name : Text) (inside : List Outline) :
    inheritance (.registration name inside) = inside.flatMap inheritance ++
      [(name, (declarations inside).foldl Registration.inheritsAfter true)] := by
  rw [inheritance, registrations, List.map_append, map_registrationsOf, List.map_singleton,
    Registration.ofDescriptors, Registration.name_foldl, Registration.inherits_foldl]
  rfl

end Outline

namespace Stylesheet

theorem classNames_parse (text : Text) :
    classNames (parse text) =
      ((outline text).flatMap Outline.classSelectors).map Selector.className := by
  rw [classNames, utilities, parse_eq, Outline.selectors_meanings,
    Outline.filter_utilitySelectorsOf]

theorem themeNames_parse (text : Text) :
    themeNames (parse text) = (outline text).flatMap Outline.themeNames := by
  rw [themeNames, theme_parse, Outline.map_name_themeBlocksOf]

theorem inheritance_parse (text : Text) :
    inheritance (parse text) = (outline text).flatMap Outline.inheritance := by
  rw [inheritance, parse_eq, Outline.registrations_meanings, Outline.map_registrationsOf]

end Stylesheet

end UtilityCss
