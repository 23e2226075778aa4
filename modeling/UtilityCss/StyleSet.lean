import UtilityCss.Reference
import UtilityCss.Theme

/-!
# Style sets

A style set gives values to properties, under their keys and in order. Rules are collapsed into it:
the conditions of groups are ignored, and later declarations win.

* `StyleSet.toCssText` writes a style set as declarations, each of which ends with a semicolon.
* `Declaration.contribution?` is the entry that a declaration contributes. A standard property
  without a value contributes nothing.
* `RuleNode.contributions` lists the entries of all leaves of a rule in document order,
  `StyleSet.collapse` writes them into a style set.
* `Template.expand` replaces the references of one value, `StyleSet.substitute` those of a style
  set, one value after the other.
* `StyleSet.prune` removes the properties that carry values between utilities.
-/

set_option autoImplicit false

namespace UtilityCss

/-- Values of properties under their keys. -/
abbrev StyleSet := OrderedMap Text

namespace StyleSet

/-- One entry as a declaration. -/
def writeEntry (entry : Text × Text) : Text :=
  PropertyName.hyphenate entry.1 ++ ": ".toList ++ entry.2 ++ [';']

/-- The entries as declarations, with a space between each two. -/
def toCssText (styles : StyleSet) : Text :=
  [' '].intercalate (styles.entries.map writeEntry)

end StyleSet

/-! ## Collapsing rules -/

/-- The entry that a declaration contributes to a style set. -/
def Declaration.contribution? (declaration : Declaration) : Option (Text × Text) :=
  if PropertyName.isCustom declaration.name then some (declaration.name, declaration.value)
  -- A custom property without a value counts, any other does not.
  else if declaration.value.isEmpty then none
  else some (PropertyName.camelCase declaration.name, declaration.value)

namespace RuleNode

mutual
/-- The entries that a rule contributes, in document order. -/
def contributions : RuleNode → List (Text × Text)
  | .style _ declarations =>
    (Declaration.readBlock declarations).filterMap Declaration.contribution?
  | .group _ children => contributionsOf children
/-- The entries that a sequence of rules contributes. -/
def contributionsOf : List RuleNode → List (Text × Text)
  | [] => []
  | node :: rest => contributions node ++ contributionsOf rest
end

end RuleNode

/-- The style set with the entries of a rule written into it. -/
def StyleSet.collapse (styles : StyleSet) (node : RuleNode) : StyleSet :=
  styles.insertAll node.contributions

/-! ## Substitution of references

A reference that cannot be looked up stays as written. One whose value is blank is removed
together with the blanks after it. What replaces a reference is trimmed, and is not searched for
references. -/

namespace Template

/-- What replaces a reference together with the text after it. -/
def expandPiece (lookup : Text → Option Text) (piece : Reference × Text) : Text :=
  match (lookup piece.1.name).map Text.trim with
  | none => piece.1.source ++ piece.2
  -- The gap that an empty value would leave is closed.
  | some [] => Text.trimStart piece.2
  | some value => value ++ piece.2

/-- The value with its references replaced. -/
def expand (lookup : Text → Option Text) (template : Template) : Text :=
  template.head ++ template.tail.flatMap (expandPiece lookup)

end Template

namespace StyleSet

/-- The value of a name: the style set comes before the store. -/
def lookup (styles : StyleSet) (store : ThemeStore) (name : Text) : Option Text :=
  match styles.get? name with
  | some value => some value
  | none => store.value? name

/-- A value with its references replaced, trimmed. A value in which no reference begins stays as
it is. -/
def substituteValue (lookup : Text → Option Text) (value : Text) : Text :=
  if Text.contains Reference.opening value then
    Text.trim ((Template.ofValue value).expand lookup)
  else value

/-- The style set with the references in the value under one key replaced. -/
def substituteKey (store : ThemeStore) (styles : StyleSet) (key : Text) : StyleSet :=
  match styles.get? key with
  | none => styles
  | some value => styles.insert key (substituteValue (styles.lookup store) value)

/-- The style set with the references in all values replaced, in order. Each value sees those
before it already replaced. -/
def substitute (store : ThemeStore) (styles : StyleSet) : StyleSet :=
  styles.keys.foldl (substituteKey store) styles

/-- The style set without the properties that are registered as not inheriting. -/
def prune (store : ThemeStore) (styles : StyleSet) : StyleSet :=
  styles.filter (fun key _ => !store.isInternal key)

end StyleSet

end UtilityCss
