import UtilityCss.Stylesheet

/-!
# Outlines

An outline says what is written in a sheet: declarations, registrations and other rules, each rule
with the outline of its block. It is what the grammar of rules finds, before it is decided what
is kept of it.

* `Stretch` is what stands between two ends of a level, with the block that ended it.
* `Outline` is one item of a sheet with the items inside it.
* `Outline.ofLevel` reads a level, `Stylesheet.outline` a whole text.
* `Outline.meaning` is what is kept of an item as contents of the block around it.
-/

set_option autoImplicit false

namespace UtilityCss

/-! ## Stretches -/

/-- The components before an end, and what stands in the curly brackets that are the end. -/
structure Stretch where
  parts : List Component
  block : Option (List Component)

/-- What stands in the curly brackets of a component. -/
def Component.curlyContent? : Component → Option (List Component)
  | .single _ => none
  | .block opener content _ => if opener.kind = .opening .curly then some content else none

namespace Stretch

/-- Whether a component between two stretches is passed over. -/
def skips (level : Level) (component : Component) : Bool :=
  Item.skips level (Part.ofComponent component)

/-- Whether a component goes on with a stretch that began with `start`. -/
def goesOn (level : Level) (start : Start) (component : Component) : Bool :=
  !Item.ends level start (Part.ofComponent component)

/-- How a sequence of components begins, and the parts after this beginning. -/
def startOf (components : List Component) : Start × List Part :=
  Start.ofParts (Part.ofComponents components)

/-- The stretches of a level. -/
def all (level : Level) (components : List Component) : List Stretch :=
  let begun := components.dropWhile (skips level)
  if begun.isEmpty then []
  else
    let inside := goesOn level (startOf begun).1
    match _ended : begun.dropWhile inside with
    | [] => [⟨begun, none⟩]
    | last :: after => ⟨begun.takeWhile inside, last.curlyContent?⟩ :: all level after
termination_by components.length
decreasing_by
  -- Passing over components and reading the stretch shorten the level, and its end is taken off.
  have h₁ : begun.length ≤ components.length := (List.dropWhile_sublist _).length_le
  have h₂ : (last :: after).length ≤ begun.length := by
    rw [← _ended]
    exact (List.dropWhile_sublist _).length_le
  rw [List.length_cons] at h₂
  omega

/-- How the stretch begins. -/
def start (stretch : Stretch) : Start :=
  (startOf stretch.parts).1

/-- The text of the stretch behind its beginning. -/
def restText (stretch : Stretch) : Text :=
  Part.text (startOf stretch.parts).2

/-- The whole text of the stretch. -/
def text (stretch : Stretch) : Text :=
  Part.text (Part.ofComponents stretch.parts)

/-- Whether the stretch is a rule that names the encoding of the sheet. -/
def isCharset (stretch : Stretch) : Bool :=
  match stretch.start with
  | .atRule name => Text.asciiLower name == "charset".toList
  | _ => false

/-- The stretches of a sheet without a leading rule that names the encoding. -/
def dropCharset : List Stretch → List Stretch
  | [] => []
  | stretch :: rest => if stretch.isCharset then rest else stretch :: rest

/-- A stretch ends at a component of its level. -/
theorem exists_of_mem_all {level : Level} {components : List Component} {stretch : Stretch}
    (h : stretch ∈ all level components) {content : List Component}
    (hblock : stretch.block = some content) :
    ∃ opener closer, Component.block opener content closer ∈ components := by
  fun_induction all level components with
  | case1 => simp at h
  | case2 =>
      rw [List.mem_singleton] at h
      rw [h] at hblock
      cases hblock
  | case3 components begun hne inside last after hended ih =>
      have hbegun : begun ⊆ components := (List.dropWhile_sublist _).subset
      -- What ends a stretch, and what follows, are components of the level.
      have hmem : last :: after ⊆ components := by
        intro component hcomponent
        rw [← hended] at hcomponent
        exact hbegun ((List.dropWhile_sublist _).subset hcomponent)
      rcases List.mem_cons.1 h with rfl | hrest
      · have hlast := hmem List.mem_cons_self
        cases last with
        | single token => cases hblock
        | block opener inner closer =>
            simp only [Component.curlyContent?] at hblock
            split at hblock
            · cases hblock
              exact ⟨opener, closer, hlast⟩
            · cases hblock
      · obtain ⟨opener, closer, hinner⟩ := ih hrest
        exact ⟨opener, closer, hmem (List.mem_cons_of_mem last hinner)⟩

end Stretch

/-! ## Outlines -/

/-- An item of a sheet as it is written. -/
inductive Outline where
  /-- A property with its value. -/
  | declaration (written : Declaration)
  /-- A rule that registers a custom property. -/
  | registration (name : Text) (inside : List Outline)
  /-- Any other rule with a block. -/
  | rule (heading : Text) (inside : List Outline)
  deriving Repr

namespace Outline

/-- The item that a stretch writes, if it writes one, from the items of its block. -/
def ofStretch (stretch : Stretch) (inside : Option (List Outline)) : Option Outline :=
  match stretch.start, inside with
  | .declaration name, none =>
    some (.declaration
      ⟨if PropertyName.isCustom name then name else Text.asciiLower name, stretch.restText⟩)
  | _, none => none
  | .atRule name, some inside =>
    let name := Text.asciiLower name
    some (if name = "property".toList then .registration stretch.restText inside
      else .rule (Item.atHeading name stretch.restText) inside)
  | _, some inside => some (.rule stretch.text inside)

/-- The outline of a level. -/
def ofLevel (level : Level) (components : List Component) : List Outline :=
  (Stretch.all level components).attach.filterMap fun ⟨stretch, _member⟩ =>
    ofStretch stretch <|
      match _block : stretch.block with
      | none => none
      | some content => some (ofLevel .block content)
termination_by sizeOf components
decreasing_by
  obtain ⟨opener, closer, hmem⟩ := Stretch.exists_of_mem_all _member _block
  have hsize := List.sizeOf_lt_of_mem hmem
  simp only [Component.block.sizeOf_spec] at hsize
  omega

mutual
/-- What is kept of an item in the contents of the block around it. -/
def meaning : Outline → Body
  | .declaration written => ⟨[written], [], []⟩
  | .registration name inside => Body.ofRegistration name (Body.concat (meanings inside))
  | .rule heading inside => Body.ofRule heading (Body.concat (meanings inside))
/-- What is kept of each of several items. -/
def meanings : List Outline → List Body
  | [] => []
  | item :: rest => meaning item :: meanings rest
end

end Outline

/-- The item that a stretch writes, if it writes one. -/
def Stretch.outline? (stretch : Stretch) : Option Outline :=
  Outline.ofStretch stretch (stretch.block.map (Outline.ofLevel .block))

/-- The outline of a style sheet. -/
def Stylesheet.outline (text : Text) : List Outline :=
  ((Stretch.dropCharset (Stretch.all .top (Component.ofText text))).filter
    fun stretch => !stretch.start.isCustomDeclaration).filterMap Stretch.outline?

end UtilityCss
