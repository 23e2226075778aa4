import UtilityCss.Text

/-!
# Declarations

A declaration gives a property a value. A block of declarations has a written form, `a: b; c:
d`.

* `PropertyName.camelCase` goes from the hyphenated name of a property to its key,
  `PropertyName.hyphenate` goes back.
* `Declaration.writeBlock` writes a block.
* `Declaration.readBlock` reads one: the items between semicolons of the top level, each cut at
  its first colon. An item without a colon or without a name is no declaration.
-/

set_option autoImplicit false

namespace UtilityCss.PropertyName

/-! ## Names of properties

A property has two names: the hyphenated one of style sheets (`background-color`) and the
camel-case one that is the key of a style set (`backgroundColor`). Custom properties, whose
names begin with two hyphens, have one name only. Letter case is that of ASCII; other characters
stay as they are. -/

/-- Whether a name is that of a custom property. -/
def isCustom (name : Text) : Bool :=
  "--".toList.isPrefixOf name

/-- Camel case of the rest of a name; `raised` says that a hyphen came just before. -/
def camelCaseFrom (raised : Bool) : Text → Text
  | [] => []
  | c :: rest =>
    if c = '-' then camelCaseFrom true rest
    else (if raised then c.toUpper else c.toLower) :: camelCaseFrom false rest

/-- The key of a property: hyphens are dropped and the letter after one is a capital. -/
def camelCase (name : Text) : Text :=
  if isCustom name then name else camelCaseFrom false name

/-- One character of a key in the hyphenated name. -/
def hyphenateChar (c : Char) : Text :=
  if c.isUpper then ['-', c.toLower] else [c]

/-- The hyphenated name of a key: each capital becomes a hyphen and a small letter. -/
def hyphenate (key : Text) : Text :=
  if isCustom key then key else key.flatMap hyphenateChar

@[simp] theorem camelCase_of_isCustom {name : Text} (h : isCustom name = true) :
    camelCase name = name := by
  simp [camelCase, h]

@[simp] theorem hyphenate_of_isCustom {name : Text} (h : isCustom name = true) :
    hyphenate name = name := by
  simp [hyphenate, h]

end UtilityCss.PropertyName

namespace UtilityCss

/-! ## Blocks of declarations -/

/-- One property with its value. -/
structure Declaration where
  name : Text
  value : Text
  deriving DecidableEq, Repr

namespace Declaration

/-- The declaration that one item of a block writes, if it has a colon and a name before it. -/
def ofItem? (item : Text) : Option Declaration :=
  match item.dropWhile (· != ':') with
  | [] => none
  | _ :: value =>
    -- Colons in the value do not matter, since the first one is taken.
    let name := Text.trim (item.takeWhile (· != ':'))
    if name.isEmpty then none else some ⟨name, Text.trim value⟩

/-- The declarations of a written block, in order. -/
def readBlock (block : Text) : List Declaration :=
  (Text.splitTopLevel ';' block).filterMap ofItem?

/-- One declaration as it stands in a block. -/
def write (declaration : Declaration) : Text :=
  declaration.name ++ ": ".toList ++ declaration.value

/-- The written form of a block. -/
def writeBlock (declarations : List Declaration) : Text :=
  "; ".toList.intercalate (declarations.map write)

end Declaration

end UtilityCss
