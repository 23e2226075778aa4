import UtilityCss.Declaration
import UtilityCss.Component

/-!
# Style sheets

A style sheet is a forest of rules. Only what the resolution of utilities needs is kept of a
rule. The grammar of rules looks at one level of a style sheet at a time. It sees a sequence of
parts: tokens and blocks, the latter with their contents already known where they stand in curly
brackets. The parts are gathered into items.

* `RuleNode` is a leaf with a selector and a written block of declarations, or a group with a
  condition and rules inside. `RuleNode.ofBlock` is the node for a heading with the contents of its
  block.
* `Registration` is what a `@property` rule says about a custom property.
* `Body` is what the block of a rule contains.
* `Part` is one token or block of a level. `Part.ofComponents` gives the parts of a level, reading
  each block in curly brackets on the way.
* `Start` is how an item begins, which decides where it ends and what it means.
* `Item` is a start, what follows it, and the block that ended it, if one did. `Item.all` gathers
  the parts of a level into items.
* `Body.ofParts` reads the contents of a block from its parts, `Body.ofSheet` reads the rules and
  registrations of a whole style sheet.
* `Stylesheet.parse` reads a text. Invalid rules are dropped, so that every text is a style
  sheet.
* `Stylesheet.utilities` lists the utility rules: those whose selector begins with a class,
  found at the top level and inside at-rules. Rules inside a utility rule belong to it.
* `Stylesheet.theme` lists the declarations of the rules for `:root` and `:host`, found in the
  same places.
-/

set_option autoImplicit false

namespace UtilityCss

/-- A rule of a style sheet. -/
inductive RuleNode where
  /-- A rule that holds declarations only; the block is in its written form. -/
  | style (selector : Text) (declarations : Text)
  /-- An at-rule, or a style rule that holds other rules. -/
  | group (condition : Text) (children : List RuleNode)
  deriving Repr

namespace RuleNode

/-! ## Equality of rules is decidable -/

mutual
/-- Decides whether two rules are the same. -/
def decideEq : (first second : RuleNode) → Decidable (first = second)
  | .style selector declarations, .style selector' declarations' =>
    if h : selector = selector' ∧ declarations = declarations' then
      .isTrue (by rw [h.1, h.2])
    else .isFalse fun e => h (by cases e; exact ⟨rfl, rfl⟩)
  | .group condition children, .group condition' children' =>
    if h : condition = condition' then
      match decideEqAll children children' with
      | .isTrue h' => .isTrue (by rw [h, h'])
      | .isFalse h' => .isFalse fun e => h' (by cases e; rfl)
    else .isFalse fun e => h (by cases e; rfl)
  | .style _ _, .group _ _ => .isFalse nofun
  | .group _ _, .style _ _ => .isFalse nofun
/-- Decides whether two sequences of rules are the same. -/
def decideEqAll : (first second : List RuleNode) → Decidable (first = second)
  | [], [] => .isTrue rfl
  | [], _ :: _ => .isFalse nofun
  | _ :: _, [] => .isFalse nofun
  | node :: rest, node' :: rest' =>
    match decideEq node node', decideEqAll rest rest' with
    | .isTrue h, .isTrue h' => .isTrue (by rw [h, h'])
    | .isFalse h, _ => .isFalse fun e => h (by cases e; rfl)
    | _, .isFalse h => .isFalse fun e => h (by cases e; rfl)
end

instance : DecidableEq RuleNode := decideEq

/-! ## Headings and blocks -/

/-- What stands before the block of the rule. -/
def heading : RuleNode → Text
  | .style selector _ => selector
  | .group condition _ => condition

/-- Whether a heading is that of an at-rule. -/
def isAtHeading (heading : Text) : Bool :=
  heading.head? == some '@'

/-- The selector of a leaf that carries the declarations standing directly in a group. -/
def selfSelector : Text := ['&']

/-- The rule with a given heading and block. A block without rules makes a leaf, unless the rule
is an at-rule. In a group the declarations come first, in a leaf of their own. -/
def ofBlock (heading : Text) (declarations : List Declaration) (children : List RuleNode) :
    RuleNode :=
  if children.isEmpty && !isAtHeading heading then
    .style heading (Declaration.writeBlock declarations)
  else if declarations.isEmpty then
    .group heading children
  else
    .group heading (.style selfSelector (Declaration.writeBlock declarations) :: children)

end RuleNode

/-- What is registered about a custom property. -/
structure Registration where
  name : Text
  /-- The grammar of its values, as written. -/
  grammar : Option Text
  inherits : Bool
  initialValue : Option Text
  deriving DecidableEq, Repr

namespace Registration

/-- What stands between two marks that begin and end a text. -/
def between? (mark : Char) : Text → Option Text
  | [] => none
  -- A mark alone is no pair.
  | c :: rest => if c = mark ∧ rest.getLast? = some mark then some rest.dropLast else none

/-- A descriptor without its quotes, if a matching pair surrounds it. -/
def unquote (value : Text) : Text :=
  let trimmed := Text.trim value
  match between? '"' trimmed with
  | some inside => inside
  | none => (between? '\'' trimmed).getD trimmed

/-- The registration after one more descriptor. -/
def describe (registration : Registration) (descriptor : Declaration) : Registration :=
  if descriptor.name = "syntax".toList then
    { registration with grammar := some (unquote descriptor.value) }
  else if descriptor.name = "inherits".toList then
    { registration with
      inherits := Text.asciiLower (Text.trim descriptor.value) != "false".toList }
  else if descriptor.name = "initial-value".toList then
    { registration with initialValue := some descriptor.value }
  else registration

/-- The registration that says nothing: the property inherits. -/
def bare (name : Text) : Registration := ⟨name, none, true, none⟩

/-- The registration with the given descriptors, of which the later win. -/
def ofDescriptors (name : Text) (descriptors : List Declaration) : Registration :=
  descriptors.foldl describe (bare name)

end Registration

/-- The contents of a block: declarations, rules, and the registrations made anywhere inside. -/
structure Body where
  declarations : List Declaration
  rules : List RuleNode
  registrations : List Registration
  deriving DecidableEq, Repr

namespace Body

/-- The contents of an empty block. -/
def empty : Body := ⟨[], [], []⟩

/-- The contents of several stretches of a block, one after the other. -/
def concat (bodies : List Body) : Body where
  declarations := bodies.flatMap Body.declarations
  rules := bodies.flatMap Body.rules
  registrations := bodies.flatMap Body.registrations

@[simp] theorem declarations_concat (bodies : List Body) :
    (concat bodies).declarations = bodies.flatMap Body.declarations := rfl

@[simp] theorem rules_concat (bodies : List Body) :
    (concat bodies).rules = bodies.flatMap Body.rules := rfl

@[simp] theorem registrations_concat (bodies : List Body) :
    (concat bodies).registrations = bodies.flatMap Body.registrations := rfl

/-- The contents of a stretch that holds one rule with a block. -/
def ofRule (heading : Text) (block : Body) : Body :=
  ⟨[], [RuleNode.ofBlock heading block.declarations block.rules], block.registrations⟩

/-- The contents of a stretch that holds one registration. Those made inside its block come
first. -/
def ofRegistration (name : Text) (block : Body) : Body :=
  ⟨[], [], block.registrations ++ [Registration.ofDescriptors name block.declarations]⟩

end Body

/-! ## From components to rules

Inside a block an item ends at a semicolon or at a block in curly brackets, except that a block
may stand in the value of a custom property. At the top level an item ends at such a block, and
only an at-rule ends at a semicolon too. There a rule that begins like the declaration of a custom
property is dropped with its block, and so is a `@charset` rule in the first place. -/

/-! ## Items -/

/-- One token or block of a level. Blocks in curly brackets come with their contents. -/
structure Part where
  component : Component
  body : Option Body
  deriving Repr

namespace Part

/-- The token with which the part begins. -/
def token (part : Part) : Token :=
  part.component.firstToken

/-- The text of the part. -/
def source (part : Part) : Text :=
  part.component.source

/-- Whether the part only separates others. -/
def isSkipped (part : Part) : Bool :=
  part.token.kind.isSkipped

/-- The text of a sequence of parts, trimmed. -/
def text (parts : List Part) : Text :=
  Text.trim (parts.flatMap Part.source)

end Part

/-- Where items stand: at the top level of a sheet or inside a block. -/
inductive Level where
  | top
  | block
  deriving DecidableEq, Repr

/-- How an item begins. -/
inductive Start where
  /-- With an at-keyword. -/
  | atRule (name : Text)
  /-- With an identifier and a colon. -/
  | declaration (name : Text)
  /-- In any other way. -/
  | plain
  deriving DecidableEq, Repr

namespace Start

/-- How a sequence of parts begins, and the parts after this beginning. -/
def ofParts : List Part → Start × List Part
  | [] => (.plain, [])
  | head :: rest =>
    match head.token.kind with
    | .atKeyword name => (.atRule name, rest)
    | .ident name =>
      -- Without a colon the identifier begins a selector.
      match rest.dropWhile Part.isSkipped with
      | [] => (.plain, head :: rest)
      | second :: value =>
        if second.token.kind = .colon then (.declaration name, value) else (.plain, head :: rest)
    | _ => (.plain, head :: rest)

/-- Whether the item begins like a declaration of a custom property. -/
def isCustomDeclaration : Start → Bool
  | .declaration name => PropertyName.isCustom name
  | _ => false

/-- Whether the item begins like an at-rule. -/
def isAtRule : Start → Bool
  | .atRule _ => true
  | _ => false

end Start

/-- A stretch of a level that the grammar of rules reads as a whole. -/
structure Item where
  start : Start
  /-- All parts before the end of the item. -/
  parts : List Part
  /-- The parts after the start. -/
  rest : List Part
  /-- The contents of the block that ended the item. -/
  body : Option Body
  deriving Repr

namespace Item

/-- Whether a part between two items is passed over. -/
def skips : Level → Part → Bool
  | .top, part =>
    part.isSkipped || part.token.kind == .documentOpen || part.token.kind == .documentClose
  | .block, part => part.isSkipped || part.token.kind == .semicolon

/-- Whether a part ends an item that began with `start`. -/
def ends (level : Level) (start : Start) (part : Part) : Bool :=
  -- The value of a custom property may hold any block.
  if part.body.isSome then !(level == .block && start.isCustomDeclaration)
  else part.token.kind == .semicolon && (level == .block || start.isAtRule)

/-- The item that begins a sequence of parts, ended by a block with the given contents, if any. -/
def ofParts (level : Level) (parts : List Part) (body : Option Body) : Item :=
  let begun := Start.ofParts parts
  let goesOn := fun part => !ends level begun.1 part
  ⟨begun.1, parts.takeWhile goesOn, begun.2.takeWhile goesOn, body⟩

/-- The parts from the end of the item on that begins a sequence of parts. -/
def ending (level : Level) (parts : List Part) : List Part :=
  let start := (Start.ofParts parts).1
  parts.dropWhile (fun part => !ends level start part)

theorem length_ending_le (level : Level) (parts : List Part) :
    (ending level parts).length ≤ parts.length :=
  (List.dropWhile_sublist _).length_le

/-- The items of a level. -/
def all (level : Level) (parts : List Part) : List Item :=
  let begun := parts.dropWhile (skips level)
  if begun.isEmpty then []
  else
    match _ended : ending level begun with
    | [] => [ofParts level begun none]
    | last :: after => ofParts level begun last.body :: all level after
termination_by parts.length
decreasing_by
  -- Passing over parts and reading the item both shorten the level, and its end is taken off.
  have h₁ := length_ending_le level (parts.dropWhile (skips level))
  have h₂ := (List.dropWhile_sublist (skips level) (l := parts)).length_le
  rw [_ended, List.length_cons] at h₁
  omega

/-! ## What an item means -/

/-- The name of an at-rule in small letters, with the text up to its block. -/
def atHeading (name : Text) (text : Text) : Text :=
  if text.isEmpty then '@' :: name else '@' :: name ++ ' ' :: text

/-- The declaration that an item writes. Other names than those of custom properties are in small
letters. -/
def declaration (name : Text) (item : Item) : Declaration :=
  ⟨if PropertyName.isCustom name then name else Text.asciiLower name, Part.text item.rest⟩

/-- What an item adds to the contents of its block. An at-rule without a block adds nothing, nor
does anything else that is neither a declaration nor followed by a block. -/
def meaning (item : Item) : Body :=
  match item.start, item.body with
  | .declaration name, none => ⟨[item.declaration name], [], []⟩
  -- A statement such as `@layer a, b;`, or parts that no block follows.
  | _, none => Body.empty
  | .atRule name, some body =>
    let name := Text.asciiLower name
    let text := Part.text item.rest
    if name = "property".toList then Body.ofRegistration text body
    else Body.ofRule (atHeading name text) body
  -- What looked like a declaration is the selector of a nested rule.
  | _, some body => Body.ofRule (Part.text item.parts) body

end Item

/-! ## Bodies and sheets -/

/-- The contents of a block. -/
def Body.ofParts (parts : List Part) : Body :=
  Body.concat ((Item.all .block parts).map Item.meaning)

mutual
/-- A component as the grammar of rules sees it. -/
def Part.ofComponent : Component → Part
  | .single token => ⟨.single token, none⟩
  | .block opener content closer =>
    { component := .block opener content closer
      body :=
        if opener.kind = .opening .curly then some (Body.ofParts (Part.ofComponents content))
        else none }
/-- The components of a level as the grammar of rules sees them. -/
def Part.ofComponents : List Component → List Part
  | [] => []
  | component :: rest => Part.ofComponent component :: Part.ofComponents rest
end

namespace Item

/-- Whether the item is a rule that names the encoding of the sheet. -/
def isCharset (item : Item) : Bool :=
  match item.start with
  | .atRule name => Text.asciiLower name == "charset".toList
  | _ => false

/-- The items of a sheet without a leading rule that names the encoding. -/
def dropCharset : List Item → List Item
  | [] => []
  | item :: rest => if item.isCharset then rest else item :: rest

end Item

/-- The contents of a style sheet, of which the declarations are without meaning. -/
def Body.ofSheet (parts : List Part) : Body :=
  let items := (Item.dropCharset (Item.all .top parts)).filter
    (fun item => !item.start.isCustomDeclaration)
  Body.concat (items.map Item.meaning)

/-- A utility rule: its selector and the rule itself. -/
structure UtilityRule where
  selector : Text
  node : RuleNode
  deriving DecidableEq, Repr

namespace RuleNode

/-! ## Utility rules -/

/-- Whether a heading begins with a class. -/
def isUtilityHeading (heading : Text) : Bool :=
  (Text.trimStart heading).head? == some '.'

mutual
/-- The utility rules that a rule is or contains. -/
def utilities : RuleNode → List UtilityRule
  | .style selector declarations =>
    if isUtilityHeading selector then [⟨Text.trim selector, .style selector declarations⟩] else []
  | .group condition children =>
    if isUtilityHeading condition then [⟨Text.trim condition, .group condition children⟩]
    -- Rules inside another style rule are no utilities of their own.
    else if isAtHeading condition then utilitiesOf children
    else []
/-- The utility rules of a sequence of rules. -/
def utilitiesOf : List RuleNode → List UtilityRule
  | [] => []
  | node :: rest => utilities node ++ utilitiesOf rest
end

/-! ## Theme declarations -/

/-- Whether each selector of a list is that of the root or of the host. -/
def isThemeSelector (selector : Text) : Bool :=
  (selector.splitOn ',').all fun item =>
    Text.trim item = ":root".toList || Text.trim item = ":host".toList

mutual
/-- The theme declarations that a rule contains. -/
def theme : RuleNode → List Declaration
  | .style selector declarations =>
    if isThemeSelector selector then Declaration.readBlock declarations else []
  | .group condition children => if isAtHeading condition then themeOf children else []
/-- The theme declarations of a sequence of rules. -/
def themeOf : List RuleNode → List Declaration
  | [] => []
  | node :: rest => theme node ++ themeOf rest
end

end RuleNode

/-- A style sheet: its rules, and its registrations wherever they were made. -/
structure Stylesheet where
  rules : List RuleNode
  registrations : List Registration
  deriving DecidableEq, Repr

namespace Stylesheet

/-- The style sheet that a text writes. -/
def parse (text : Text) : Stylesheet :=
  let body := Body.ofSheet (Part.ofComponents (Component.ofText text))
  ⟨body.rules, body.registrations⟩

/-- The utility rules in document order. -/
def utilities (sheet : Stylesheet) : List UtilityRule :=
  RuleNode.utilitiesOf sheet.rules

/-- The theme declarations in document order. -/
def theme (sheet : Stylesheet) : List Declaration :=
  RuleNode.themeOf sheet.rules

end Stylesheet

end UtilityCss
