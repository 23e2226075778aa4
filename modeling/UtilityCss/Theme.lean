import UtilityCss.OrderedMap
import UtilityCss.Stylesheet

/-!
# The theme

A registry holds the theme values of custom properties and what is registered about them. Of several
values or registrations for one name the last counts. The resolver knows custom properties through a
store only, which anyone may supply: a registry is one store among others.

* `ThemeRegistry.value?` is the theme value of a property or, failing that, the initial value of
  one that is registered as not inheriting. `ThemeRegistry.describe?` is what is registered about a
  property.
* `ThemeRegistry.ofSheet` collects both from a style sheet.
* `ThemeStore` answers for the value of a name and for what is registered about it, and lists the
  names of the theme. `ThemeStore.isInternal` marks the names that carry a value between utilities.
* `ThemeRegistry.store` is the store that a registry is.
* `ThemeNamespace.keys` lists the keys of a namespace in order of definition, `ThemeNamespace.get?`
  is the value of a key, `ThemeNamespace.entries` lists all keys with their values.
-/

set_option autoImplicit false

namespace UtilityCss

/-! ## Registries -/

/-- Theme values and registrations under the names of custom properties. -/
structure ThemeRegistry where
  theme : OrderedMap Text
  registrations : OrderedMap Registration

namespace ThemeRegistry

/-- The registry that knows nothing. -/
def empty : ThemeRegistry := ⟨.empty, .empty⟩

/-- The registry with a theme value for a name. -/
def setThemeValue (registry : ThemeRegistry) (name value : Text) : ThemeRegistry :=
  { registry with theme := registry.theme.insert name value }

/-- The registry with a registration. -/
def register (registry : ThemeRegistry) (registration : Registration) : ThemeRegistry :=
  { registry with
    registrations := registry.registrations.insert registration.name registration }

/-- The registry after one theme declaration. Only custom properties count. -/
def declare (registry : ThemeRegistry) (declaration : Declaration) : ThemeRegistry :=
  if PropertyName.isCustom declaration.name then
    registry.setThemeValue declaration.name declaration.value
  else registry

/-- What a style sheet says about the theme. -/
def ofSheet (sheet : Stylesheet) : ThemeRegistry :=
  sheet.registrations.foldl register (sheet.theme.foldl declare empty)

/-- What is registered about a name. -/
def describe? (registry : ThemeRegistry) (name : Text) : Option Registration :=
  registry.registrations.get? name

/-- The initial value of a name that is registered as not inheriting; it is empty if none is
given. -/
def initialValue? (registry : ThemeRegistry) (name : Text) : Option Text :=
  ((registry.describe? name).filter (fun registration => !registration.inherits)).map
    (fun registration => registration.initialValue.getD [])

/-- The value of a name. -/
def value? (registry : ThemeRegistry) (name : Text) : Option Text :=
  -- A theme value wins even if it is empty.
  match registry.theme.get? name with
  | some value => some value
  | none => registry.initialValue? name

/-- The names with theme values, in order of their first definition. -/
def themeNames (registry : ThemeRegistry) : List Text :=
  registry.theme.keys

end ThemeRegistry

/-! ## Stores -/

/-- What can be asked about custom properties. The three answers need not fit together. -/
structure ThemeStore where
  value? : Text → Option Text
  describe? : Text → Option Registration
  /-- The names of the theme in order of definition. -/
  names : List Text

/-- Whether a name is registered as not inheriting, which marks a value between utilities. -/
def ThemeStore.isInternal (store : ThemeStore) (name : Text) : Bool :=
  (store.describe? name).any (fun registration => !registration.inherits)

/-- The store that a registry is. -/
def ThemeRegistry.store (registry : ThemeRegistry) : ThemeStore where
  value? := registry.value?
  describe? := registry.describe?
  names := registry.themeNames

instance : Coe ThemeRegistry ThemeStore := ⟨ThemeRegistry.store⟩

/-! ## Namespaces

The theme properties whose names begin with `--color-`, say, form the namespace `color`, in
which they are known by the rest of their names. -/

/-- A namespace of the theme in a store. -/
structure ThemeNamespace where
  store : ThemeStore
  name : Text

namespace ThemeNamespace

/-- What the names of the namespace begin with. -/
def lead (space : ThemeNamespace) : Text :=
  "--".toList ++ space.name ++ ['-']

/-- The value of a key. -/
def get? (space : ThemeNamespace) (key : Text) : Option Text :=
  space.store.value? (space.lead ++ key)

/-- Whether a key has a value. -/
def contains (space : ThemeNamespace) (key : Text) : Bool :=
  (space.get? key).isSome

/-- The keys of the theme properties, in order of definition. The empty key is none. -/
def keys (space : ThemeNamespace) : List Text :=
  (space.store.names.filterMap (Text.after? space.lead)).filter (fun key => !key.isEmpty)

/-- The keys that have a value, with their values. -/
def entries (space : ThemeNamespace) : List (Text × Text) :=
  space.keys.filterMap fun key => (space.get? key).map fun value => (key, value)

/-- The number of keys. -/
def size (space : ThemeNamespace) : Nat :=
  space.keys.length

/-- Whether there is no key. -/
def isEmpty (space : ThemeNamespace) : Bool :=
  space.keys.isEmpty

end ThemeNamespace

end UtilityCss
