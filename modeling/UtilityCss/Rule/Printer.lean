import UtilityCss.Stylesheet

/-!
# Printed rules

A rule is printed as its heading with its contents in curly brackets, a forest as its rules one
after the other. A registration is printed as a `@property` rule with its descriptors, and may stand
wherever a rule may.

* `RuleNode.print` prints a rule, `RuleNode.printAll` a forest.
* `Declaration.IsPlain` and `RuleNode.IsPlain` say what a declaration and a rule have to be like
  so that nothing in them is taken for something else.
* `PlainRegistration` is a registration of which nothing is taken for something else, with its
  descriptors in the order in which they are written.
* `PrintedItem` is a rule or a registration. `PrintedItem.print` prints it with the registrations
  inside and `PrintedItem.printRules` without them. `PrintedItem.rules` and
  `PrintedItem.registrations` are what is printed.

A leaf and a group print alike, so that a group under a selector is plain only if it holds rules.
-/

set_option autoImplicit false

namespace UtilityCss

/-! ## Rules -/

/-- A small letter of ASCII. -/
def isSmallLetter (c : Char) : Bool :=
  'a' ≤ c && c ≤ 'z'

namespace PropertyName

/-- A small letter followed by small letters, digits and hyphens. -/
def isPlainStandard : Text → Bool
  | [] => false
  | c :: rest => isSmallLetter c && rest.all (fun d => isSmallLetter d || isDigit d || d == '-')

/-- Two hyphens followed by letters, digits, hyphens and underscores. -/
def isPlainCustom (name : Text) : Bool :=
  isCustom name &&
    (name.drop 2).all (fun c => isAsciiLetter c || isDigit c || c == '_' || c == '-')

end PropertyName

/-- A declaration with a plain name and a plain value, which may be empty. -/
structure Declaration.IsPlain (declaration : Declaration) : Prop where
  name : PropertyName.isPlainStandard declaration.name = true ∨
    PropertyName.isPlainCustom declaration.name = true
  value : declaration.value.IsPlain

namespace RuleNode

mutual
/-- A rule as text. -/
def print : RuleNode → Text
  | .style selector declarations => selector ++ '{' :: (declarations ++ ['}'])
  | .group condition children => condition ++ '{' :: (printAll children ++ ['}'])
/-- A forest of rules as text. -/
def printAll : List RuleNode → Text
  | [] => []
  | node :: rest => print node ++ printAll rest
end

/-- A plain text that begins like the selector of a class or of a nested rule. -/
structure IsPlainSelector (selector : Text) : Prop where
  plain : selector.IsPlain
  head : selector.head? = some '.' ∨ selector.head? = some '&'

/-- An at-keyword in small letters, with a plain text after it or alone. Two keywords have a
meaning of their own. -/
structure IsPlainAtHeading (name prelude heading : Text) : Prop where
  name_ne_nil : name ≠ []
  isSmallLetter : ∀ c ∈ name, isSmallLetter c = true
  ne_property : name ≠ "property".toList
  ne_charset : name ≠ "charset".toList
  plain : prelude.IsPlain
  heading_eq : heading = if prelude = [] then '@' :: name else '@' :: name ++ ' ' :: prelude

/-- A rule of which all headings and declarations are plain. -/
inductive IsPlain : RuleNode → Prop
  /-- A leaf with a possibly empty block. -/
  | style {selector : Text} {declarations : List Declaration} :
      IsPlainSelector selector → (∀ declaration ∈ declarations, declaration.IsPlain) →
        IsPlain (.style selector (Declaration.writeBlock declarations))
  /-- A style rule that holds rules. -/
  | nest {selector : Text} {children : List RuleNode} :
      IsPlainSelector selector → children ≠ [] → (∀ child ∈ children, IsPlain child) →
        IsPlain (.group selector children)
  /-- An at-rule, also an empty one. -/
  | atRule {name prelude heading : Text} {children : List RuleNode} :
      IsPlainAtHeading name prelude heading → (∀ child ∈ children, IsPlain child) →
        IsPlain (.group heading children)

end RuleNode

/-! ## Registrations among rules -/

/-- A text that can stand between double quotes. -/
def Text.IsQuotable (text : Text) : Prop :=
  ∀ c ∈ text, c ≠ '"' ∧ c ≠ '\\' ∧ isNewline c = false

instance (text : Text) : Decidable text.IsQuotable :=
  decidable_of_iff (text.all (fun c => c != '"' && c != '\\' && !isNewline c) = true)
    (by simp [Text.IsQuotable, and_assoc])

/-- What a registration may say about a custom property. What is absent is not written. -/
structure Registration.Content where
  grammar : Option Text
  inherits : Option Bool
  initialValue : Option Text

namespace Registration.Content

/-- The grammar in quotes. -/
def quoted (grammar : Text) : Text :=
  '"' :: (grammar ++ ['"'])

/-- The descriptors. -/
def descriptors (content : Content) : List Declaration :=
  (content.grammar.map fun grammar => ⟨"syntax".toList, quoted grammar⟩).toList ++
    (content.inherits.map fun inherits =>
      ⟨"inherits".toList, if inherits then "true".toList else "false".toList⟩).toList ++
    (content.initialValue.map fun value => ⟨"initial-value".toList, value⟩).toList

end Registration.Content

/-- A registration that is written with each of its descriptors once, in any order. -/
structure PlainRegistration where
  name : Text
  content : Registration.Content
  /-- The descriptors in the order in which they are written. -/
  written : List Declaration
  isPlainCustom_name : PropertyName.isPlainCustom name = true
  isQuotable_grammar : ∀ grammar ∈ content.grammar, grammar.IsQuotable
  isPlain_initialValue : ∀ value ∈ content.initialValue, value.IsPlain
  perm : written.Perm content.descriptors

namespace PlainRegistration

/-- The heading of the rule that registers the property. -/
def heading (plain : PlainRegistration) : Text :=
  "@property".toList ++ ' ' :: plain.name

/-- The rule that registers the property. -/
def print (plain : PlainRegistration) : Text :=
  plain.heading ++ '{' :: (Declaration.writeBlock plain.written ++ ['}'])

/-- What is registered. A property inherits unless the registration denies it. -/
def registration (plain : PlainRegistration) : Registration :=
  ⟨plain.name, plain.content.grammar, plain.content.inherits.getD true,
    plain.content.initialValue⟩

end PlainRegistration

/-- A rule or a registration, with registrations between the rules inside. -/
inductive PrintedItem where
  | registration (plain : PlainRegistration)
  /-- A rule that holds declarations only; the block is in its written form. -/
  | style (selector : Text) (declarations : Text)
  /-- A rule that holds no declarations. -/
  | group (condition : Text) (children : List PrintedItem)

namespace PrintedItem

mutual
/-- A rule or registration as text. -/
def print : PrintedItem → Text
  | .registration plain => plain.print
  | .style selector declarations => selector ++ '{' :: (declarations ++ ['}'])
  | .group condition children => condition ++ '{' :: (printOf children ++ ['}'])
/-- Rules and registrations as text. -/
def printOf : List PrintedItem → Text
  | [] => []
  | item :: rest => print item ++ printOf rest
end

mutual
/-- A rule as text without the registrations inside. A registration leaves no text. -/
def printRules : PrintedItem → Text
  | .registration _ => []
  | .style selector declarations => selector ++ '{' :: (declarations ++ ['}'])
  | .group condition children => condition ++ '{' :: (printRulesOf children ++ ['}'])
/-- Rules as text without the registrations between them. -/
def printRulesOf : List PrintedItem → Text
  | [] => []
  | item :: rest => printRules item ++ printRulesOf rest
end

mutual
/-- The rule without the registrations inside, or nothing for a registration. -/
def rules : PrintedItem → List RuleNode
  | .registration _ => []
  | .style selector declarations => [.style selector declarations]
  | .group condition children => [RuleNode.ofBlock condition [] (rulesOf children)]
/-- The forest of rules that is left without the registrations. -/
def rulesOf : List PrintedItem → List RuleNode
  | [] => []
  | item :: rest => rules item ++ rulesOf rest
end

mutual
/-- The registrations of an item in their order. -/
def registrations : PrintedItem → List Registration
  | .registration plain => [plain.registration]
  | .style _ _ => []
  | .group _ children => registrationsOf children
/-- The registrations of several items in their order. -/
def registrationsOf : List PrintedItem → List Registration
  | [] => []
  | item :: rest => registrations item ++ registrationsOf rest
end

end PrintedItem

end UtilityCss
