import UtilityCss.Arithmetic
import UtilityCss.ClassName
import UtilityCss.StyleSet

/-!
# Resolving classes

A resolver turns a list of utility classes into a style set, given the variants that are active.

* `Resolver.styles` is the style set: the rules of the classes whose variants are active,
  collapsed in the order of the style sheet, with references replaced, internal properties
  pruned and products evaluated.
* `Resolver.cssText` writes it.
* `Resolver.customValue` reads one value of the theme.
-/

set_option autoImplicit false

namespace UtilityCss

/-- How class names are read and values finished. -/
structure ResolverOptions where
  /-- What separates the variants of a class. -/
  variantSeparator : Char := ClassName.defaultSeparator
  /-- Whether products are evaluated. -/
  evaluatesProducts : Bool := true
  deriving DecidableEq, Repr

/-- Why a resolver refuses a request. -/
inductive ResolveError where
  /-- An argument does not have the form it should have. -/
  | invalidArgument (argument : Text) (reason : Text)
  deriving DecidableEq, Repr

/-- The wording of a refusal. -/
def ResolveError.message : ResolveError → Text
  | .invalidArgument argument reason =>
    "invalid argument `".toList ++ argument ++ "`: ".toList ++ reason

/-- Utility rules in order, what is known about custom properties, and options. -/
structure Resolver where
  rules : List UtilityRule
  registry : ThemeStore
  options : ResolverOptions

namespace Resolver

/-- The resolver for a style sheet. -/
def ofSheet (sheet : Stylesheet) (options : ResolverOptions) : Resolver :=
  ⟨sheet.utilities, (ThemeRegistry.ofSheet sheet).store, options⟩

/-- Whether the variants of a class are active. -/
def isActive (resolver : Resolver) (state : VariantState) (strict : Bool) (raw : Text) : Bool :=
  state.admits strict (ClassName.parse resolver.options.variantSeparator raw).variants

/-- The classes of a list whose variants are active. -/
def activeNames (resolver : Resolver) (classes : ClassList) (state : VariantState)
    (strict : Bool) : List Text :=
  classes.names.filter (resolver.isActive state strict)

/-- The rules of the given classes, in order. -/
def matching (resolver : Resolver) (names : List Text) : List UtilityRule :=
  resolver.rules.filter (fun rule => names.contains (Selector.className rule.selector))

/-- The rules collapsed into one style set. -/
def collapseAll (rules : List UtilityRule) : StyleSet :=
  rules.foldl (fun styles rule => StyleSet.collapse styles rule.node) OrderedMap.empty

/-- A collapsed style set with its values finished. -/
def finish (resolver : Resolver) (styles : StyleSet) : StyleSet :=
  -- Internal properties are removed only after others have taken their values.
  let pruned := StyleSet.prune resolver.registry (StyleSet.substitute resolver.registry styles)
  if resolver.options.evaluatesProducts then pruned.mapValues Calc.simplify else pruned

/-- The rules of a list of classes under the active variants, collapsed. -/
def collapsed (resolver : Resolver) (classes : ClassList) (state : VariantState)
    (strict : Bool) : StyleSet :=
  collapseAll (resolver.matching (resolver.activeNames classes state strict))

/-- The style set of a list of classes under the active variants. -/
def styles (resolver : Resolver) (classes : ClassList) (state : VariantState) (strict : Bool) :
    StyleSet :=
  resolver.finish (resolver.collapsed classes state strict)

/-- The style set as declarations. -/
def cssText (resolver : Resolver) (classes : ClassList) (state : VariantState) (strict : Bool) :
    Text :=
  StyleSet.toCssText (resolver.styles classes state strict)

/-- A namespace of the theme. -/
def theme (resolver : Resolver) (name : Text) : ThemeNamespace :=
  ⟨resolver.registry, name⟩

/-- The value of a custom property in the store. Other names are refused. -/
def customValue (resolver : Resolver) (name : Text) : Except ResolveError (Option Text) :=
  if PropertyName.isCustom name then .ok (resolver.registry.value? name)
  else
    .error (.invalidArgument "name".toList
      ("`".toList ++ name ++ "` is not a custom property name".toList))

end Resolver

end UtilityCss
