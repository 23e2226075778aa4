import UtilityCss.Stylesheet
import UtilityCss.Proofs.Component.Formed
import UtilityCss.Proofs.Declaration.ReadBack
import UtilityCss.Proofs.Token.First
import Mathlib.Tactic.Common

/-!
# The leaves of a style sheet

Every item begins at a part of its level, and the block that ends it is one of the parts
(`Item.exists_of_mem_all`). So whatever an item means comes from the parts of its level. A leaf holds
the declarations of a block in written form, and whoever wants them reads that form again. The
blocks of a sheet are cut by tokens, the written form by a scan of characters, and the two do not
always agree.

* `Stylesheet.bodies` lists the contents of all blocks in curly brackets of a sheet.
* `RuleNode.leaves` lists the written blocks of a rule.

The main statement is `Stylesheet.leaves_readBack_iff`: each leaf was written for a block of the
sheet, and reading it back gives the declarations of the block exactly when every one of them is
legible there. An apostrophe in a comment is enough to lose a declaration
(`Stylesheet.not_readBack_apostrophe`).
-/

set_option autoImplicit false

namespace UtilityCss

/-! ## Parts -/

namespace Part

theorem ofComponents_eq_map (components : List Component) :
    Part.ofComponents components = components.map Part.ofComponent := by
  induction components with
  | nil => rw [Part.ofComponents, List.map_nil]
  | cons component rest ih => rw [Part.ofComponents, List.map_cons, ih]

theorem token_ofComponent (component : Component) :
    (Part.ofComponent component).token = component.firstToken := by
  cases component <;> rw [Part.ofComponent, Part.token]

theorem component_ofComponent (component : Component) :
    (ofComponent component).component = component := by
  cases component <;> rw [ofComponent]

/-- The parts of a level have the text of its components. -/
theorem text_ofComponents (components : List Component) :
    text (ofComponents components) = Text.trim (Component.sources components) := by
  have hsources : (ofComponents components).flatMap source = Component.sources components := by
    rw [ofComponents_eq_map]
    induction components with
    | nil => simp
    | cons component rest ih =>
        rw [List.map_cons, List.flatMap_cons, ih, Component.sources_cons, source,
          component_ofComponent]
  rw [text, hsources]

/-- A part without a block in curly brackets. -/
theorem body_ofComponent_eq_none {component : Component}
    (h : component.firstToken.kind ≠ .opening .curly) : (ofComponent component).body = none := by
  cases component with
  | single token => rw [ofComponent]
  | block opener content closer =>
      rw [ofComponent]
      exact if_neg h

end Part

/-! ## Items -/

/-- A declaration begins with an identifier. -/
theorem Start.exists_ident_of_declaration {parts : List Part} {name : Text}
    (h : (Start.ofParts parts).1 = .declaration name) :
    ∃ part ∈ parts, part.token.kind = .ident name := by
  cases parts with
  | nil => simp [Start.ofParts] at h
  | cons head rest =>
      refine ⟨head, List.mem_cons_self, ?_⟩
      simp only [Start.ofParts] at h
      split at h
      · cases h
      · rename_i read hkind
        split at h
        · cases h
        · split at h
          · cases h
            exact hkind
          · cases h
      · cases h

namespace Item

/-- An item begins at a part of its level, and a block that ends it is a part of its level. -/
theorem exists_of_mem_all {level : Level} {parts : List Part} {item : Item}
    (h : item ∈ all level parts) :
    ∃ begun body, item = ofParts level begun body ∧ begun ⊆ parts ∧
      ∀ content, body = some content → ∃ part ∈ parts, part.body = some content := by
  -- `begun` is what is left of a level once skipped parts are dropped.
  fun_induction all level parts with
  | case1 parts begun hempty => simp at h
  | case2 parts begun hempty hended =>
      rw [List.mem_singleton] at h
      exact ⟨begun, none, h, (List.dropWhile_sublist _).subset, by simp⟩
  | case3 parts begun hempty last after hended ih =>
      have hbegun : begun ⊆ parts := (List.dropWhile_sublist _).subset
      have hafter : last :: after ⊆ parts := by
        intro part hpart
        rw [← hended] at hpart
        exact hbegun ((List.dropWhile_sublist _).subset hpart)
      rw [List.mem_cons] at h
      rcases h with rfl | hrest
      · exact ⟨begun, last.body, rfl, hbegun, fun content hcontent =>
          ⟨last, hafter List.mem_cons_self, hcontent⟩⟩
      · obtain ⟨begun', body, hitem, hbegun', hbody⟩ := ih hrest
        refine ⟨begun', body, hitem, ?_, ?_⟩
        · exact fun part hpart => hafter (List.mem_cons_of_mem last (hbegun' hpart))
        · intro content hcontent
          obtain ⟨part, hpart, hb⟩ := hbody content hcontent
          exact ⟨part, hafter (List.mem_cons_of_mem last hpart), hb⟩

/-- The declarations of a level have the names of its identifiers, in small letters unless they
are custom, and trimmed values. -/
theorem of_mem_declarations {level : Level} {parts : List Part} {item : Item}
    {declaration : Declaration} (hitem : item ∈ all level parts)
    (h : declaration ∈ item.meaning.declarations) :
    ∃ part ∈ parts, ∃ name, part.token.kind = .ident name ∧
      declaration.name = (if PropertyName.isCustom name then name else Text.asciiLower name) ∧
      ∃ value, declaration.value = Text.trim value := by
  obtain ⟨begun, body, rfl, hbegun, -⟩ := exists_of_mem_all hitem
  rw [meaning] at h
  split at h
  · rename_i name hstart hbody
    rw [List.mem_singleton] at h
    obtain ⟨part, hpart, hkind⟩ := Start.exists_ident_of_declaration hstart
    subst h
    exact ⟨part, hbegun hpart, name, hkind, rfl, _, rfl⟩
  · simp [Body.empty] at h
  · dsimp only at h
    split at h
    · simp [Body.ofRegistration] at h
    · simp [Body.ofRule] at h
  · simp [Body.ofRule] at h

/-- The rules of a level are made from the blocks among its parts. -/
theorem of_mem_rules {level : Level} {parts : List Part} {item : Item} {node : RuleNode}
    (hitem : item ∈ all level parts) (h : node ∈ item.meaning.rules) :
    ∃ part ∈ parts, ∃ content heading, part.body = some content ∧
      node = RuleNode.ofBlock heading content.declarations content.rules := by
  obtain ⟨begun, body, rfl, -, hblock⟩ := exists_of_mem_all hitem
  rw [meaning] at h
  split at h
  · simp at h
  · simp [Body.empty] at h
  · rename_i name content hstart hbody
    dsimp only at h
    split at h
    · simp [Body.ofRegistration] at h
    · obtain ⟨part, hpart, hcontent⟩ := hblock content hbody
      exact ⟨part, hpart, content, _, hcontent, List.mem_singleton.1 h⟩
  · rename_i content hbody _
    obtain ⟨part, hpart, hcontent⟩ := hblock content hbody
    exact ⟨part, hpart, content, _, hcontent, List.mem_singleton.1 h⟩

end Item

/-! ## Leaves -/

namespace RuleNode

mutual
/-- The written blocks of a rule in document order. -/
def leaves : RuleNode → List Text
  | .style _ declarations => [declarations]
  | .group _ children => leavesOf children
/-- The written blocks of a sequence of rules. -/
def leavesOf : List RuleNode → List Text
  | [] => []
  | node :: rest => leaves node ++ leavesOf rest
end

theorem mem_leavesOf {leaf : Text} {nodes : List RuleNode} :
    leaf ∈ leavesOf nodes ↔ ∃ node ∈ nodes, leaf ∈ leaves node := by
  induction nodes with
  | nil => simp [leavesOf]
  | cons node rest ih => simp [leavesOf, ih]

/-- The node for a block has the written block and the leaves of the rules inside, no others. -/
theorem mem_leaves_ofBlock {leaf heading : Text} {declarations : List Declaration}
    {children : List RuleNode} (h : leaf ∈ leaves (ofBlock heading declarations children)) :
    leaf = Declaration.writeBlock declarations ∨ leaf ∈ leavesOf children := by
  rw [ofBlock] at h
  split at h
  · exact Or.inl (by simpa [leaves] using h)
  · split at h
    · exact Or.inr (by simpa [leaves] using h)
    · rw [leaves, leavesOf, List.mem_append] at h
      rcases h with hself | hchildren
      · exact Or.inl (by simpa [leaves] using hself)
      · exact Or.inr hchildren

end RuleNode

/-! ## The blocks of a sheet -/

/-- The contents of a block, from the components inside. -/
def Body.ofContent (content : List Component) : Body :=
  Body.ofParts (Part.ofComponents content)

/-- The contents of all blocks in curly brackets of a sheet, at any depth. -/
def Stylesheet.bodies (text : Text) : List Body :=
  (Component.curlyContentsOf (Component.ofText text)).map Body.ofContent

/-- The leaves of the rules of a level were written for blocks among its parts, or come from
inside of one. -/
theorem Body.of_mem_leaves {level : Level} {parts : List Part} {items : List Item}
    (hitems : items ⊆ Item.all level parts) {leaf : Text}
    (h : leaf ∈ RuleNode.leavesOf (Body.concat (items.map Item.meaning)).rules) :
    ∃ part ∈ parts, ∃ content, part.body = some content ∧
      (leaf = Declaration.writeBlock content.declarations ∨
        leaf ∈ RuleNode.leavesOf content.rules) := by
  obtain ⟨node, hnode, hleaf⟩ := RuleNode.mem_leavesOf.1 h
  rw [Body.rules_concat, List.flatMap_map, List.mem_flatMap] at hnode
  obtain ⟨item, hitem, hrule⟩ := hnode
  obtain ⟨part, hpart, content, heading, hcontent, rfl⟩ := Item.of_mem_rules (hitems hitem) hrule
  exact ⟨part, hpart, content, hcontent, RuleNode.mem_leaves_ofBlock hleaf⟩

mutual
/-- What a part in curly brackets contributes to the leaves was written for a block inside. -/
theorem Part.exists_content_of_leaf (component : Component) {content : Body} {leaf : Text}
    (hbody : (Part.ofComponent component).body = some content)
    (hleaf : leaf = Declaration.writeBlock content.declarations ∨
      leaf ∈ RuleNode.leavesOf content.rules) :
    ∃ inside ∈ Component.curlyContents component,
      leaf = Declaration.writeBlock (Body.ofContent inside).declarations := by
  cases component with
  | single token => simp [Part.ofComponent] at hbody
  | block opener inside closer =>
      rw [Part.ofComponent] at hbody
      dsimp only at hbody
      split at hbody
      · rename_i hcurly
        obtain rfl : Body.ofContent inside = content := Option.some.inj hbody
        rw [Component.curlyContents, if_pos hcurly]
        rcases hleaf with rfl | hdeep
        · exact ⟨inside, List.mem_cons_self, rfl⟩
        · -- The leaf comes from a block deeper inside.
          obtain ⟨part, hpart, content', hcontent', hleaf'⟩ :=
            Body.of_mem_leaves (List.Subset.refl _) hdeep
          obtain ⟨deeper, hdeeper, heq⟩ :=
            Part.exists_content_of_leaf_of_mem inside hpart hcontent' hleaf'
          exact ⟨deeper, List.mem_cons_of_mem inside hdeeper, heq⟩
      · cases hbody
theorem Part.exists_content_of_leaf_of_mem (components : List Component) {part : Part}
    {content : Body} {leaf : Text} (hpart : part ∈ Part.ofComponents components)
    (hbody : part.body = some content)
    (hleaf : leaf = Declaration.writeBlock content.declarations ∨
      leaf ∈ RuleNode.leavesOf content.rules) :
    ∃ inside ∈ Component.curlyContentsOf components,
      leaf = Declaration.writeBlock (Body.ofContent inside).declarations := by
  cases components with
  | nil => simp [Part.ofComponents] at hpart
  | cons component rest =>
      rw [Part.ofComponents, List.mem_cons] at hpart
      rw [Component.curlyContentsOf]
      rcases hpart with rfl | hrest
      · obtain ⟨inside, hinside, heq⟩ := Part.exists_content_of_leaf component hbody hleaf
        exact ⟨inside, List.mem_append_left _ hinside, heq⟩
      · obtain ⟨inside, hinside, heq⟩ :=
          Part.exists_content_of_leaf_of_mem rest hrest hbody hleaf
        exact ⟨inside, List.mem_append_right _ hinside, heq⟩
end

/-- Every leaf of a sheet was written for one of its blocks. -/
theorem Stylesheet.exists_body_of_leaf {text leaf : Text}
    (h : leaf ∈ RuleNode.leavesOf (Stylesheet.parse text).rules) :
    ∃ body ∈ Stylesheet.bodies text, leaf = Declaration.writeBlock body.declarations := by
  -- Items are only dropped at the top level.
  have hitems :
      ((Item.dropCharset (Item.all .top (Part.ofComponents (Component.ofText text)))).filter
        (fun item => !item.start.isCustomDeclaration)) ⊆
      Item.all .top (Part.ofComponents (Component.ofText text)) := by
    intro item hitem
    have hkept := (List.filter_sublist).subset hitem
    cases hall : Item.all .top (Part.ofComponents (Component.ofText text)) with
    | nil => simp [hall, Item.dropCharset] at hkept
    | cons first others =>
        rw [hall, Item.dropCharset] at hkept
        split at hkept
        · exact List.mem_cons_of_mem first hkept
        · exact hkept
  obtain ⟨part, hpart, content, hcontent, hleaf⟩ := Body.of_mem_leaves hitems h
  obtain ⟨inside, hinside, heq⟩ := Part.exists_content_of_leaf_of_mem _ hpart hcontent hleaf
  exact ⟨Body.ofContent inside, List.mem_map_of_mem hinside, heq⟩

/-! ## The declarations of a block -/

theorem Text.asciiLower_ne_nil {text : Text} (h : text ≠ []) : asciiLower text ≠ [] := by
  simpa [asciiLower] using h

/-- The declarations of a sheet have names, and their values are trimmed. -/
theorem Stylesheet.of_mem_declarations {text : Text} {body : Body} {declaration : Declaration}
    (hbody : body ∈ Stylesheet.bodies text) (h : declaration ∈ body.declarations) :
    declaration.name ≠ [] ∧ Text.trim declaration.value = declaration.value := by
  obtain ⟨content, hcontent, rfl⟩ := List.mem_map.1 hbody
  rw [Body.ofContent, Body.ofParts, Body.declarations_concat, List.flatMap_map,
    List.mem_flatMap] at h
  obtain ⟨item, hitem, hdeclaration⟩ := h
  obtain ⟨part, hpart, name, hkind, hname, value, hvalue⟩ :=
    Item.of_mem_declarations hitem hdeclaration
  rw [Part.ofComponents_eq_map, List.mem_map] at hpart
  obtain ⟨component, hcomponent, rfl⟩ := hpart
  -- The identifier is a token of the sheet, where no identifier is empty.
  have htoken : component.firstToken ∈ Token.ofText text := by
    rw [← Component.tokensOf_ofText]
    exact Component.tokensOf_subset_of_mem_curlyContentsOf _ hcontent
      (Component.tokens_subset_of_mem hcomponent component.firstToken_mem_tokens)
  rw [Part.token_ofComponent] at hkind
  have hne : name ≠ [] := Token.ident_ne_nil htoken hkind
  constructor
  · rw [hname]
    split
    · exact hne
    · exact Text.asciiLower_ne_nil hne
  · rw [hvalue, Text.trim_trim]

/-- Every leaf of a sheet was written for one of its blocks, and what is read from the written
block are its declarations exactly when each of them keeps to itself: its name is trimmed and
without a colon, no semicolon in it stands at the top level, and unless it is the last one it
closes all quotes and brackets that it opens. -/
theorem Stylesheet.leaves_readBack_iff (text : Text) :
    (∀ leaf ∈ RuleNode.leavesOf (Stylesheet.parse text).rules,
      ∃ body ∈ Stylesheet.bodies text, leaf = Declaration.writeBlock body.declarations) ∧
    ∀ body ∈ Stylesheet.bodies text,
      (Declaration.readBlock (Declaration.writeBlock body.declarations) = body.declarations ↔
        (∀ declaration ∈ body.declarations,
          ':' ∉ declaration.name ∧ Text.trim declaration.name = declaration.name ∧
            ∀ before after, declaration.write = before ++ ';' :: after →
              Nesting.scan.finish Nesting.top before ≠ Nesting.top) ∧
          ∀ declaration ∈ body.declarations.dropLast, declaration.ClosesUp) := by
  refine ⟨fun leaf hleaf => Stylesheet.exists_body_of_leaf hleaf, ?_⟩
  intro body hbody
  rw [Declaration.readBlock_writeBlock_iff]
  constructor
  · rintro ⟨hlegible, hcloses⟩
    refine ⟨?_, hcloses⟩
    intro declaration hd
    have h := hlegible declaration hd
    exact ⟨h.colon_not_mem_name, h.trim_name, Declaration.uncut_iff.1 h.uncut⟩
  · rintro ⟨hlegible, hcloses⟩
    refine ⟨?_, hcloses⟩
    intro declaration hd
    obtain ⟨hcolon, htrim, huncut⟩ := hlegible declaration hd
    obtain ⟨hname, hvalue⟩ := Stylesheet.of_mem_declarations hbody hd
    exact ⟨hname, hcolon, htrim, hvalue, Declaration.uncut_iff.2 huncut⟩

/-- A block of which each declaration keeps to itself, although its values hold semicolons, a colon
and brackets. -/
def Stylesheet.quotedSheet : Text :=
  ".a \x7b --mark: \";\" [x;y]; background: url(data:a;b) \x7d".toList

/-- The one block of that sheet. -/
def Stylesheet.quotedBody : Body :=
  ⟨[⟨"--mark".toList, "\";\" [x;y]".toList⟩, ⟨"background".toList, "url(data:a;b)".toList⟩], [], []⟩

theorem Stylesheet.readBack_quotedSheet :
    Stylesheet.quotedBody ∈ Stylesheet.bodies Stylesheet.quotedSheet ∧
      Declaration.readBlock (Declaration.writeBlock Stylesheet.quotedBody.declarations) =
        Stylesheet.quotedBody.declarations := by
  have hmem : Stylesheet.quotedBody ∈ Stylesheet.bodies Stylesheet.quotedSheet := by
    decide +kernel
  refine ⟨hmem, ((Stylesheet.leaves_readBack_iff Stylesheet.quotedSheet).2 _ hmem).2 ⟨?_, ?_⟩⟩
  · simp only [← Declaration.uncut_iff]
    decide
  · decide

/-- The apostrophe of a comment opens a quote for the scan of characters, though not for the
tokens, and takes the next declaration with it. -/
theorem Stylesheet.not_readBack_apostrophe :
    ∃ body ∈ Stylesheet.bodies ":root \x7b --ink: black /* don't */; --paper: white \x7d".toList,
      body.declarations = [⟨"--ink".toList, "black /* don't */".toList⟩,
        ⟨"--paper".toList, "white".toList⟩] ∧
      Declaration.readBlock (Declaration.writeBlock body.declarations) =
        [⟨"--ink".toList, "black /* don't */; --paper: white".toList⟩] := by
  decide +kernel

end UtilityCss
