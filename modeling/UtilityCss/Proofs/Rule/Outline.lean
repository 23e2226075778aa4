import UtilityCss.Rule.Outline
import UtilityCss.Proofs.Stylesheet.Leaves

/-!
# Reading a sheet through its outline

The grammar of rules reads the contents of a block while it gathers the parts around the block. An
outline keeps the two apart: it says what is written, and `Outline.meaning` what is kept of it.
Reading a sheet is reading its outline and keeping what is kept of each item
(`Stylesheet.parse_eq`).

A stretch of components is an item of the grammar, since how an item begins is decided by the parts
before its end (`Start.ofParts_takeWhile`).
-/

set_option autoImplicit false

namespace UtilityCss

/-! ## How an item begins -/

namespace Start

variable {head : Part} {rest : List Part} {name : Text}

theorem ofParts_of_atKeyword (h : head.token.kind = .atKeyword name) :
    ofParts (head :: rest) = (.atRule name, rest) := by
  simp only [ofParts, h]

theorem ofParts_of_colon (h : head.token.kind = .ident name) {mark : Part} {value : List Part}
    (hrest : rest.dropWhile Part.isSkipped = mark :: value) (hcolon : mark.token.kind = .colon) :
    ofParts (head :: rest) = (.declaration name, value) := by
  simp only [ofParts, h, hrest, hcolon, if_true]

theorem ofParts_of_not_colon (h : head.token.kind = .ident name)
    (hrest : ∀ mark ∈ (rest.dropWhile Part.isSkipped).head?, mark.token.kind ≠ .colon) :
    ofParts (head :: rest) = (.plain, head :: rest) := by
  cases hdrop : rest.dropWhile Part.isSkipped with
  | nil => simp only [ofParts, h, hdrop]
  | cons mark value =>
      have hmark : mark.token.kind ≠ .colon := hrest mark (by rw [hdrop]; rfl)
      simp only [ofParts, h, hdrop, if_neg hmark]

theorem ofParts_of_other (hat : ∀ name, head.token.kind ≠ .atKeyword name)
    (hident : ∀ name, head.token.kind ≠ .ident name) :
    ofParts (head :: rest) = (.plain, head :: rest) := by
  simp only [ofParts]

end Start

/-- Only blocks in curly brackets have contents. -/
def Part.HasCurlyBody (part : Part) : Prop :=
  part.body.isSome = true → part.token.kind = .opening .curly

theorem Part.hasCurlyBody_of_mem {components : List Component} {part : Part}
    (h : part ∈ ofComponents components) : part.HasCurlyBody := by
  intro hbody
  rw [ofComponents_eq_map, List.mem_map] at h
  obtain ⟨component, -, rfl⟩ := h
  rw [token_ofComponent]
  by_contra hkind
  rw [body_ofComponent_eq_none hkind] at hbody
  cases hbody

namespace Item

/-- Only brackets and semicolons end an item. -/
theorem ends_eq_false {part : Part} (hbody : part.HasCurlyBody)
    (hcurly : part.token.kind ≠ .opening .curly) (hsemicolon : part.token.kind ≠ .semicolon)
    (level : Level) (start : Start) : ends level start part = false := by
  have hnone : part.body.isSome = false := by
    cases hsome : part.body.isSome with
    | false => rfl
    | true => exact absurd (hbody hsome) hcurly
  rw [ends, hnone]
  simp [hsemicolon]

theorem ends_eq_false_of_isSkipped {part : Part} (hbody : part.HasCurlyBody)
    (h : part.isSkipped = true) (level : Level) (start : Start) :
    ends level start part = false := by
  rw [Part.isSkipped] at h
  apply ends_eq_false hbody
  · intro hkind
    rw [hkind] at h
    cases h
  · intro hkind
    rw [hkind] at h
    cases h

end Item

/-- What is skipped goes on with an item, so that cutting off the end of the item leaves what
follows the skipped parts, or nothing. -/
theorem Part.dropWhile_isSkipped_takeWhile {parts : List Part} {goesOn : Part → Bool}
    (h : ∀ part ∈ parts, part.isSkipped = true → goesOn part = true) :
    (parts.takeWhile goesOn).dropWhile Part.isSkipped =
      (parts.dropWhile Part.isSkipped).takeWhile goesOn := by
  induction parts with
  | nil => rfl
  | cons part rest ih =>
      have hrest := ih fun other hother => h other (List.mem_cons_of_mem part hother)
      by_cases hskipped : part.isSkipped = true
      · rw [List.takeWhile_cons_of_pos (h part List.mem_cons_self hskipped),
          List.dropWhile_cons_of_pos hskipped, List.dropWhile_cons_of_pos hskipped, hrest]
      · rw [List.dropWhile_cons_of_neg hskipped]
        by_cases hpart : goesOn part = true
        · rw [List.takeWhile_cons_of_pos hpart, List.dropWhile_cons_of_neg hskipped]
        · rw [List.takeWhile_cons_of_neg hpart, List.dropWhile_nil]

/-- An item that begins with an identifier begins so up to its end, and with the colon of a
declaration if there is one. -/
theorem Start.ofParts_takeWhile_of_ident {head : Part} {rest : List Part} {name : Text}
    (hkind : head.token.kind = .ident name) {goesOn : Part → Bool} (hhead : goesOn head = true)
    (hskipped : ∀ part ∈ rest, part.isSkipped = true → goesOn part = true)
    (hcolons : ∀ mark ∈ rest, mark.token.kind = .colon → goesOn mark = true) :
    ofParts ((head :: rest).takeWhile goesOn) =
      ((ofParts (head :: rest)).1, (ofParts (head :: rest)).2.takeWhile goesOn) := by
  have hdrop := Part.dropWhile_isSkipped_takeWhile hskipped
  by_cases hcolon : ∃ mark ∈ (rest.dropWhile Part.isSkipped).head?, mark.token.kind = .colon
  · -- The colon goes on with the item, and so do the parts before it.
    obtain ⟨mark, hmark, hkind'⟩ := hcolon
    obtain ⟨value, hvalue⟩ := List.head?_eq_some_iff.1 hmark
    have hmem : mark ∈ rest := by
      apply (List.dropWhile_sublist Part.isSkipped).subset
      rw [hvalue]
      exact List.mem_cons_self
    rw [hvalue, List.takeWhile_cons_of_pos (hcolons mark hmem hkind')] at hdrop
    rw [List.takeWhile_cons_of_pos hhead, ofParts_of_colon hkind hvalue hkind',
      ofParts_of_colon hkind hdrop hkind']
  · have hnone : ∀ mark ∈ (rest.dropWhile Part.isSkipped).head?, mark.token.kind ≠ .colon :=
      fun mark hmark hkind' => hcolon ⟨mark, hmark, hkind'⟩
    have hnone' : ∀ mark ∈ ((rest.takeWhile goesOn).dropWhile Part.isSkipped).head?,
        mark.token.kind ≠ .colon := by
      intro mark hmark
      rw [hdrop] at hmark
      cases hrest : rest.dropWhile Part.isSkipped with
      | nil => simp [hrest] at hmark
      | cons second others =>
          rw [hrest] at hmark hnone
          by_cases hsecond : goesOn second = true
          · rw [List.takeWhile_cons_of_pos hsecond] at hmark
            exact hnone mark hmark
          · simp [hsecond] at hmark
    rw [List.takeWhile_cons_of_pos hhead, ofParts_of_not_colon hkind hnone,
      ofParts_of_not_colon hkind hnone', List.takeWhile_cons_of_pos hhead]

/-- The parts before the end of an item begin as the item does. -/
theorem Start.ofParts_takeWhile {parts : List Part} (hbody : ∀ part ∈ parts, part.HasCurlyBody)
    (level : Level) {goesOn : Part → Bool}
    (hgoesOn : goesOn = fun part => !Item.ends level (ofParts parts).1 part) :
    ofParts (parts.takeWhile goesOn) = ((ofParts parts).1, (ofParts parts).2.takeWhile goesOn) := by
  cases parts with
  | nil => rfl
  | cons head rest =>
      -- Only curly blocks and semicolons end an item, in any of its beginnings.
      have hon : ∀ part ∈ head :: rest, part.token.kind ≠ .opening .curly →
          part.token.kind ≠ .semicolon → goesOn part = true := by
        intro part hpart hcurly hsemicolon
        rw [hgoesOn]
        simp [Item.ends_eq_false (hbody part hpart) hcurly hsemicolon]
      have hskipped : ∀ part ∈ rest, part.isSkipped = true → goesOn part = true := by
        intro part hpart h
        rw [hgoesOn]
        simp [Item.ends_eq_false_of_isSkipped (hbody part (List.mem_cons_of_mem head hpart)) h]
      by_cases hat : ∃ name, head.token.kind = .atKeyword name
      · obtain ⟨name, hkind⟩ := hat
        have hhead : goesOn head = true :=
          hon head List.mem_cons_self (by simp [hkind]) (by simp [hkind])
        rw [List.takeWhile_cons_of_pos hhead, ofParts_of_atKeyword hkind,
          ofParts_of_atKeyword hkind]
      · by_cases hident : ∃ name, head.token.kind = .ident name
        · obtain ⟨name, hkind⟩ := hident
          have hhead : goesOn head = true :=
            hon head List.mem_cons_self (by simp [hkind]) (by simp [hkind])
          have hcolons : ∀ mark ∈ rest, mark.token.kind = .colon → goesOn mark = true := by
            intro mark hmark hcolon
            exact hon mark (List.mem_cons_of_mem head hmark) (by simp [hcolon]) (by simp [hcolon])
          exact ofParts_takeWhile_of_ident hkind hhead hskipped hcolons
        · rw [not_exists] at hat hident
          rw [ofParts_of_other hat hident]
          by_cases hhead : goesOn head = true
          · rw [List.takeWhile_cons_of_pos hhead, ofParts_of_other hat hident]
          · rw [List.takeWhile_cons_of_neg hhead]
            rfl

/-! ## Stretches are items -/

namespace Item

variable {level : Level} {parts begun : List Part}

theorem all_eq_nil (hbegun : parts.dropWhile (skips level) = []) : all level parts = [] := by
  rw [all]
  simp only [hbegun, List.isEmpty_nil, if_true]

theorem all_eq_singleton (hbegun : parts.dropWhile (skips level) = begun) (hne : begun ≠ [])
    (hended : ending level begun = []) : all level parts = [ofParts level begun none] := by
  have hempty : begun.isEmpty = false := by simpa using hne
  rw [all]
  simp only [hbegun, hempty, Bool.false_eq_true, if_false]
  split
  · rfl
  · rename_i last after hfound
    rw [hbegun, hended] at hfound
    cases hfound

theorem all_eq_cons (hbegun : parts.dropWhile (skips level) = begun) (hne : begun ≠ [])
    {last : Part} {after : List Part} (hended : ending level begun = last :: after) :
    all level parts = ofParts level begun last.body :: all level after := by
  have hempty : begun.isEmpty = false := by simpa using hne
  rw [all]
  simp only [hbegun, hempty, Bool.false_eq_true, if_false]
  split
  · rename_i hnone
    rw [hbegun, hended] at hnone
    cases hnone
  · rename_i found others hfound
    rw [hbegun, hended] at hfound
    cases hfound
    rfl

end Item

theorem Part.body_ofComponent (component : Component) :
    (ofComponent component).body = component.curlyContent?.map Body.ofContent := by
  cases component with
  | single token => rw [ofComponent]; rfl
  | block opener content closer =>
      rw [ofComponent, Component.curlyContent?]
      split <;> rfl

namespace Stretch

/-- The item that a stretch is for the grammar of rules. -/
def item (stretch : Stretch) : Item :=
  ⟨stretch.start, Part.ofComponents stretch.parts, (startOf stretch.parts).2,
    stretch.block.map Body.ofContent⟩

theorem startOf_takeWhile (level : Level) (components : List Component) :
    startOf (components.takeWhile (goesOn level (startOf components).1)) =
      ((startOf components).1, (startOf components).2.takeWhile
        fun part => !Item.ends level (startOf components).1 part) := by
  have hbody : ∀ part ∈ Part.ofComponents components, part.HasCurlyBody :=
    fun part hpart => Part.hasCurlyBody_of_mem hpart
  have h := Start.ofParts_takeWhile hbody level rfl
  rw [startOf, startOf, ← h, Part.ofComponents_eq_map, Part.ofComponents_eq_map, List.takeWhile_map]
  rfl

theorem item_takeWhile (level : Level) (components : List Component)
    (block : Option (List Component)) :
    item ⟨components.takeWhile (goesOn level (startOf components).1), block⟩ =
      Item.ofParts level (Part.ofComponents components) (block.map Body.ofContent) := by
  have hparts : Part.ofComponents (components.takeWhile (goesOn level (startOf components).1)) =
      (Part.ofComponents components).takeWhile
        fun part => !Item.ends level (startOf components).1 part := by
    rw [Part.ofComponents_eq_map, Part.ofComponents_eq_map, List.takeWhile_map]
    rfl
  simp only [item, start, startOf_takeWhile, hparts]
  rfl

theorem dropWhile_skips (level : Level) (components : List Component) :
    (Part.ofComponents components).dropWhile (Item.skips level) =
      Part.ofComponents (components.dropWhile (skips level)) := by
  rw [Part.ofComponents_eq_map, Part.ofComponents_eq_map, List.dropWhile_map]
  rfl

theorem ending_ofComponents (level : Level) (components : List Component) :
    Item.ending level (Part.ofComponents components) =
      Part.ofComponents (components.dropWhile (goesOn level (startOf components).1)) := by
  rw [Item.ending, Part.ofComponents_eq_map components, Part.ofComponents_eq_map,
    List.dropWhile_map, startOf, Part.ofComponents_eq_map components]
  rfl

/-- The items of a level are its stretches. -/
theorem map_item_all (level : Level) (components : List Component) :
    (all level components).map item = Item.all level (Part.ofComponents components) := by
  have hbegun : ∀ {begun : List Component}, ¬begun.isEmpty = true →
      Part.ofComponents begun ≠ [] := by
    intro begun hne
    cases begun with
    | nil => exact absurd rfl hne
    | cons component rest => simp [Part.ofComponents]
  fun_induction all level components with
  | case1 components begun hempty =>
      have hnil : components.dropWhile (skips level) = [] := List.isEmpty_iff.1 hempty
      rw [Item.all_eq_nil (by rw [dropWhile_skips, hnil, Part.ofComponents]), List.map_nil]
  | case2 components begun hne inside hended =>
      -- Nothing ends the stretch, which is what is left of the level.
      have hending : Item.ending level (Part.ofComponents begun) = [] := by
        rw [ending_ofComponents, hended, Part.ofComponents]
      have htake : begun.takeWhile inside = begun := by
        have hwhole : begun.takeWhile inside ++ begun.dropWhile inside = begun :=
          List.takeWhile_append_dropWhile
        rwa [hended, List.append_nil] at hwhole
      have hitem := item_takeWhile level begun none
      rw [htake] at hitem
      rw [Item.all_eq_singleton (dropWhile_skips level components) (hbegun hne) hending,
        List.map_singleton, hitem, Option.map_none]
  | case3 components begun hne inside last after hended ih =>
      -- A component ends the stretch, and the items go on behind it.
      have hending : Item.ending level (Part.ofComponents begun) =
          Part.ofComponent last :: Part.ofComponents after := by
        rw [ending_ofComponents, hended, Part.ofComponents]
      rw [Item.all_eq_cons (dropWhile_skips level components) (hbegun hne) hending, List.map_cons,
        item_takeWhile, ih, Part.body_ofComponent]

end Stretch

/-! ## Outlines -/

namespace Outline

/-- The outline of a level has the items that its stretches write. -/
theorem ofLevel_eq (level : Level) (components : List Component) :
    ofLevel level components = (Stretch.all level components).filterMap Stretch.outline? := by
  rw [ofLevel]
  conv_rhs => rw [← List.attach_map_subtype_val (Stretch.all level components), List.filterMap_map]
  apply List.filterMap_congr
  rintro ⟨stretch, hmem⟩ -
  rw [Function.comp_apply, Stretch.outline?]
  dsimp only
  split
  · rename_i hblock
    rw [hblock, Option.map_none]
  · rename_i content hblock
    rw [hblock, Option.map_some]

theorem meanings_eq_map (items : List Outline) : meanings items = items.map meaning := by
  induction items with
  | nil => rw [meanings, List.map_nil]
  | cons item rest ih => rw [meanings, List.map_cons, ih]

/-- What is kept of an item is what the grammar of rules keeps of its stretch. -/
theorem meaning_ofStretch (stretch : Stretch) {inside : Option (List Outline)}
    (hinside : inside.map (fun items => Body.concat (meanings items)) =
      stretch.block.map Body.ofContent) :
    ((ofStretch stretch inside).map meaning).getD Body.empty = stretch.item.meaning := by
  have hbody : stretch.item.body = inside.map (fun items => Body.concat (meanings items)) :=
    hinside.symm
  have hstart : stretch.item.start = stretch.start := rfl
  -- Without a block only declarations are kept, with one every item is.
  cases inside with
  | none =>
      rw [Option.map_none] at hbody
      cases hkind : stretch.start with
      | declaration name =>
          simp only [ofStretch, Item.meaning, hstart, hkind, hbody, Option.map_some,
            Option.getD_some, meaning, Item.declaration]
          rfl
      | atRule name | plain =>
          simp only [ofStretch, Item.meaning, hstart, hkind, hbody]
          rfl
  | some items =>
      rw [Option.map_some] at hbody
      cases hkind : stretch.start with
      | atRule name =>
          simp only [ofStretch, Item.meaning, hstart, hkind, hbody, Option.map_some,
            Option.getD_some]
          split <;> rw [meaning] <;> rfl
      | declaration name | plain =>
          simp only [ofStretch, Item.meaning, hstart, hkind, hbody, Option.map_some,
            Option.getD_some, meaning]
          rfl

/-- Keeping what is kept of several items does not see the stretches that write no item. -/
theorem concat_meanings_filterMap {α : Type} (stretches : List α) (write : α → Option Outline) :
    Body.concat (meanings (stretches.filterMap write)) =
      Body.concat (stretches.map fun stretch =>
        ((write stretch).map meaning).getD Body.empty) := by
  rw [meanings_eq_map]
  induction stretches with
  | nil => rfl
  | cons stretch rest ih =>
      simp only [Body.concat, Body.mk.injEq] at ih
      obtain ⟨hdeclarations, hrules, hregistrations⟩ := ih
      cases hwrite : write stretch with
      | none =>
          rw [List.filterMap_cons_none hwrite]
          simp [Body.concat, hwrite, hdeclarations, hrules, hregistrations, Body.empty]
      | some item =>
          rw [List.filterMap_cons_some hwrite]
          simp [Body.concat, hwrite, hdeclarations, hrules, hregistrations]

/-- What is kept of the stretches of a level, if the blocks inside are read through their
outlines. -/
theorem concat_meanings_outline? {stretches : List Stretch}
    (h : ∀ stretch ∈ stretches, ∀ content, stretch.block = some content →
      Body.concat (meanings (ofLevel .block content)) = Body.ofContent content) :
    Body.concat (meanings (stretches.filterMap Stretch.outline?)) =
      Body.concat ((stretches.map Stretch.item).map Item.meaning) := by
  rw [concat_meanings_filterMap, List.map_map]
  congr 1
  apply List.map_congr_left
  intro stretch hmem
  apply meaning_ofStretch
  cases hblock : stretch.block with
  | none => rfl
  | some content =>
      rw [Option.map_some, Option.map_some, Option.map_some, h stretch hmem content hblock]

/-- The contents of a block are what is kept of its outline. -/
theorem concat_meanings_ofLevel (content : List Component) :
    Body.concat (meanings (ofLevel .block content)) = Body.ofContent content := by
  rw [ofLevel_eq, concat_meanings_outline?, Stretch.map_item_all]
  · rfl
  · intro stretch hmem inside hblock
    exact concat_meanings_ofLevel inside
termination_by sizeOf content
decreasing_by
  obtain ⟨opener, closer, hcomponent⟩ := Stretch.exists_of_mem_all hmem hblock
  have hsize := List.sizeOf_lt_of_mem hcomponent
  simp only [Component.block.sizeOf_spec] at hsize
  omega

end Outline

theorem Stretch.dropCharset_map_item (stretches : List Stretch) :
    Item.dropCharset (stretches.map item) = (dropCharset stretches).map item := by
  cases stretches with
  | nil => rfl
  | cons stretch rest =>
      have hcharset : stretch.item.isCharset = stretch.isCharset := rfl
      rw [List.map_cons, Item.dropCharset, dropCharset, hcharset]
      split
      · rfl
      · rw [List.map_cons]

/-- A text is read through its outline: its rules and registrations are those that the items of
the outline keep. -/
theorem Stylesheet.parse_eq (text : Text) :
    parse text =
      ⟨(Body.concat (Outline.meanings (outline text))).rules,
        (Body.concat (Outline.meanings (outline text))).registrations⟩ := by
  have hbody : Body.concat (Outline.meanings (outline text)) =
      Body.ofSheet (Part.ofComponents (Component.ofText text)) := by
    rw [outline, Outline.concat_meanings_outline?, Body.ofSheet, ← Stretch.map_item_all,
      Stretch.dropCharset_map_item, List.filter_map]
    · rfl
    · intro stretch _ content _
      exact Outline.concat_meanings_ofLevel content
  rw [parse, hbody]

end UtilityCss
