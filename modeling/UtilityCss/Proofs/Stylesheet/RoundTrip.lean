import UtilityCss.Proofs.Rule.Printed

/-!
# Reading printed rules

A forest of plain rules is read back from its printed form (`Stylesheet.parse_printAll`): the
same rules at every depth, and no registrations.

* `RuleNode.PrintsAs` says that a text stands for rules wherever it is put.
* `RuleNode.ReadsAsHeading` says that a text in front of a block is the heading of one rule.

Both are kept by putting texts one after the other, and a heading with a block of printed rules
prints a rule again. So the proof follows the construction of the rules.
-/

set_option autoImplicit false

namespace UtilityCss

open Component (IsInline Written)
open Token (PlainStretch Stops EndsName Anything)

/-! ## Plain texts -/

theorem exists_written_of_plainStretch {text : Text} (h : PlainStretch text)
    (hbalanced : Text.balancedFrom 0 text = true) :
    ∃ components, Written Stops text components ∧
      ∀ component ∈ components, IsInline component := by
  obtain ⟨components, hgathers, hinline⟩ :=
    Component.exists_gathers_of_balanced (Token.balanced_ofText h hbalanced)
  exact ⟨components, ⟨_, Token.framed_of_plainStretch h, hgathers⟩, hinline⟩

/-- A plain text with a space in front. -/
theorem exists_written_space {text : Text} (h : text.IsPlain) :
    ∃ components, Written Stops (' ' :: text) components ∧
      (∀ component ∈ components, IsInline component) ∧
      Part.text (Part.ofComponents components) = text := by
  have hstretch : PlainStretch (' ' :: text) :=
    (PlainStretch.of_isPlain h).cons (by decide) (by decide)
  have hbalanced : Text.balancedFrom 0 (' ' :: text) = true := h.balanced
  obtain ⟨components, hwritten, hinline⟩ := exists_written_of_plainStretch hstretch hbalanced
  refine ⟨components, hwritten, hinline, ?_⟩
  rw [Part.text_ofComponents, hwritten.sources_eq Token.stops_nil, Text.trim_space_cons,
    h.trim_eq]

/-! ## Declarations -/

namespace Declaration

/-- The contents of a block that writes one declaration. -/
def asBody (declaration : Declaration) : Body := ⟨[declaration], [], []⟩

theorem concat_map_asBody (declarations : List Declaration) :
    Body.concat (declarations.map asBody) = ⟨declarations, [], []⟩ := by
  simp [Body.concat, List.flatMap_map, asBody]

theorem asciiLower_of_isPlainStandard {name : Text}
    (h : PropertyName.isPlainStandard name = true) : Text.asciiLower name = name := by
  have hsmaller : ∀ c ∈ name, c.toLower = c := by
    cases name with
    | nil => simp
    | cons c rest =>
        rw [PropertyName.isPlainStandard, Bool.and_eq_true, List.all_eq_true] at h
        rw [List.forall_mem_cons]
        refine ⟨toLower_of_isSmallLetter h.1, ?_⟩
        intro d hd
        have hclass := h.2 d hd
        simp only [Bool.or_eq_true, beq_iff_eq] at hclass
        rcases hclass with (hsmall | hdigit) | rfl
        · exact toLower_of_isSmallLetter hsmall
        · exact toLower_of_isDigit hdigit
        · rfl
  rw [Text.asciiLower, List.map_congr_left hsmaller, List.map_id']

/-- A declaration with a plain name, whose value is read back as it stands behind the colon. -/
structure IsReadable (declaration : Declaration) : Prop where
  name : PropertyName.isPlainStandard declaration.name = true ∨
    PropertyName.isPlainCustom declaration.name = true
  value : ∃ components, Written Stops (' ' :: declaration.value) components ∧
    (∀ component ∈ components, IsInline component) ∧
    Part.text (Part.ofComponents components) = declaration.value

theorem IsPlain.isReadable {declaration : Declaration} (h : declaration.IsPlain) :
    declaration.IsReadable :=
  ⟨h.name, exists_written_space h.value⟩

/-- A readable declaration makes an identifier, a colon and its value. -/
theorem exists_written {declaration : Declaration} (h : declaration.IsReadable) :
    ∃ components,
      Written Stops declaration.write
        (.single ⟨.ident declaration.name, declaration.name⟩ :: .single ⟨.colon, [':']⟩ ::
          components) ∧
      (∀ component ∈ components, IsInline component) ∧
      Part.text (Part.ofComponents components) = declaration.value := by
  obtain ⟨components, hvalue, hinline, htext⟩ := h.value
  refine ⟨components, ?_, hinline, htext⟩
  have hname : Written Token.StartsColon declaration.name
      [.single ⟨.ident declaration.name, declaration.name⟩] :=
    ⟨_, Token.framed_propertyName h.name, Component.Gathers.single rfl rfl⟩
  have hcolon : Written Anything [':'] [.single ⟨.colon, [':']⟩] :=
    Written.mark (fun rest => by cases rest <;> rfl) rfl rfl
  have hrest := hcolon.append hvalue fun _ _ => trivial
  have hwhole := hname.append hrest fun _ _ => rfl
  simpa [write] using hwhole

/-- The item of a readable declaration means the declaration. -/
theorem meaning_item {declaration : Declaration} (h : declaration.IsReadable)
    {parts rest : List Part} (htext : Part.text rest = declaration.value) :
    Item.meaning ⟨.declaration declaration.name, parts, rest, none⟩ = declaration.asBody := by
  have hname : (if PropertyName.isCustom declaration.name then declaration.name
      else Text.asciiLower declaration.name) = declaration.name := by
    split
    · rfl
    · rename_i hcustom
      rcases h.name with hstandard | hplain
      · exact asciiLower_of_isPlainStandard hstandard
      · rw [PropertyName.isPlainCustom, Bool.and_eq_true] at hplain
        exact absurd hplain.1 hcustom
  simp only [Item.meaning, Item.declaration, hname, htext, asBody]

/-- A written block of readable declarations does not begin with a space. -/
theorem head?_writeBlock {declaration : Declaration} {others : List Declaration}
    (h : declaration.IsReadable) (rest : Text) :
    ∀ c ∈ (writeBlock (declaration :: others) ++ rest).head?, isSpace c = false := by
  have hname := Token.isNameText_of_isPlain h.name
  -- A plain name has a first character, which is no white space.
  obtain ⟨c, tail, hcons⟩ : ∃ c tail, declaration.name = c :: tail := by
    cases hcase : declaration.name with
    | nil =>
        have hplain := h.name
        rw [hcase] at hplain
        rcases hplain with hplain | hplain <;> cases hplain
    | cons c tail => exact ⟨c, tail, rfl⟩
  have hhead : (writeBlock (declaration :: others) ++ rest).head? = some c := by
    cases others with
    | nil => rw [writeBlock_singleton, write, hcons]; rfl
    | cons second others => rw [writeBlock_cons_cons, write, hcons]; rfl
  intro d hd
  rw [hhead] at hd
  cases hd
  have hc := (hname c (by rw [hcons]; exact List.mem_cons_self)).1
  rw [Bool.eq_false_iff]
  intro hspace
  simp only [isSpace, isNewline, Bool.or_eq_true, beq_iff_eq] at hspace
  rcases hspace with (rfl | rfl) | (rfl | rfl) | rfl <;> revert hc <;> decide

/-- A written block of readable declarations has one item for each of them. -/
theorem exists_written_writeBlock {declarations : List Declaration}
    (h : ∀ declaration ∈ declarations, declaration.IsReadable) :
    ∃ components, Written Stops (writeBlock declarations) components ∧
      (Item.all .block (Part.ofComponents components)).map Item.meaning =
        declarations.map asBody := by
  induction declarations with
  | nil =>
      refine ⟨[], Written.nil, ?_⟩
      rw [Part.ofComponents, Item.all_nil]
      rfl
  | cons first others ih =>
      rw [List.forall_mem_cons] at h
      obtain ⟨hfirst, hothers⟩ := h
      obtain ⟨value, hwrite, hinline, htext⟩ := exists_written hfirst
      -- Only between two declarations is there a semicolon, with a space behind it.
      cases others with
      | nil =>
          refine ⟨_, by rw [writeBlock_singleton]; exact hwrite, ?_⟩
          rw [Item.all_segment (segment_of_ident hinline .block), List.map_singleton,
            meaning_item hfirst htext]
          rfl
      | cons second others =>
          obtain ⟨components, hblock, hitems⟩ := ih hothers
          have hsemicolon : Written Anything [';'] [.single ⟨.semicolon, [';']⟩] :=
            Written.mark (fun rest => by cases rest <;> rfl) rfl rfl
          have hspace : Written _ [' '] [.single ⟨.space, [' ']⟩] :=
            ⟨_, Token.framed_space, Component.Gathers.single rfl rfl⟩
          have hspaced := hspace.append hblock fun rest _ =>
            head?_writeBlock (hothers second List.mem_cons_self) rest
          have hended := hsemicolon.append hspaced fun _ _ => trivial
          have hwhole := hwrite.append hended fun rest _ c hc => by
            cases hc
            exact Or.inr (Or.inr rfl)
          refine ⟨_, by rw [writeBlock_cons_cons]; exact hwhole, ?_⟩
          have hparts : Part.ofComponents
              ((.single ⟨.ident first.name, first.name⟩ :: .single ⟨.colon, [':']⟩ :: value) ++
                ([.single ⟨.semicolon, [';']⟩] ++ ([.single ⟨.space, [' ']⟩] ++ components))) =
              Part.ofComponents
                (.single ⟨.ident first.name, first.name⟩ :: .single ⟨.colon, [':']⟩ :: value) ++
              Part.ofComponent (.single ⟨.semicolon, [';']⟩) ::
                Part.ofComponent (.single ⟨.space, [' ']⟩) :: Part.ofComponents components := by
            simp [Part.ofComponents_eq_map]
          have hends : Item.ends .block (.declaration first.name)
              (Part.ofComponent (.single ⟨.semicolon, [';']⟩)) = true := by
            rw [Part.ofComponent]
            rfl
          have hskip : Item.skips .block (Part.ofComponent (.single ⟨.space, [' ']⟩)) = true := by
            rw [Part.ofComponent]
            rfl
          rw [hparts, Item.all_segment_append (segment_of_ident hinline .block) hends,
            Item.all_skip hskip, List.map_cons, hitems, Part.ofComponent,
            meaning_item hfirst htext]
          rfl

end Declaration

/-! ## Headings -/

namespace RuleNode

/-- The text in front of a block is the heading of one rule with the contents of the block. -/
def ReadsAsHeading (heading : Text) : Prop :=
  ∃ components start, Written Stops heading components ∧
    start.isCustomDeclaration = false ∧
    (∀ parts rest body, Item.isCharset ⟨start, parts, rest, body⟩ = false) ∧
    ∀ level, ∃ rest, Segment level start rest (Part.ofComponents components) ∧
      ∀ body, Item.meaning ⟨start, Part.ofComponents components, rest, some body⟩ =
        Body.ofRule heading body

theorem IsPlainSelector.isAtHeading {selector : Text} (h : IsPlainSelector selector) :
    isAtHeading selector = false := by
  rw [RuleNode.isAtHeading]
  rcases h.head with hhead | hhead <;> rw [hhead] <;> rfl

theorem readsAsHeading_of_isPlainSelector {selector : Text} (h : IsPlainSelector selector) :
    ReadsAsHeading selector := by
  have hstretch := PlainStretch.of_isPlain h.plain
  obtain ⟨token, others, htokens, hstart⟩ := Token.exists_ofText_of_isPlainSelector h
  obtain ⟨components, hgathers, hinline⟩ :=
    Component.exists_gathers_of_balanced (Token.balanced_ofText hstretch h.plain.balanced)
  have hwritten : Written Stops selector components :=
    ⟨_, Token.framed_of_plainStretch hstretch, hgathers⟩
  have htext : Part.text (Part.ofComponents components) = selector := by
    rw [Part.text_ofComponents, hwritten.sources_eq Token.stops_nil, h.plain.trim_eq]
  rw [htokens] at hgathers
  obtain ⟨component, rest, rfl, hfirst⟩ := hgathers.exists_firstToken
  rw [← hfirst] at hstart
  refine ⟨_, .plain, hwritten, rfl, fun _ _ _ => rfl, ?_⟩
  intro level
  refine ⟨_, segment_of_selectorStart hstart hinline level, ?_⟩
  intro body
  simp only [Item.meaning, htext]

theorem asciiLower_of_isSmallLetter {name : Text} (h : ∀ c ∈ name, isSmallLetter c = true) :
    Text.asciiLower name = name := by
  rw [Text.asciiLower, List.map_congr_left fun c hc => toLower_of_isSmallLetter (h c hc),
    List.map_id']

/-- An at-rule means a rule with the text after its name. -/
theorem meaning_atRule {name prelude heading : Text}
    (h : IsPlainAtHeading name prelude heading) {parts rest : List Part}
    (htext : Part.text rest = prelude) (body : Body) :
    Item.meaning ⟨.atRule name, parts, rest, some body⟩ = Body.ofRule heading body := by
  have hheading : Item.atHeading name prelude = heading := by
    rw [Item.atHeading, h.heading_eq]
    cases prelude <;> rfl
  simp only [Item.meaning, asciiLower_of_isSmallLetter h.isSmallLetter, if_neg h.ne_property,
    htext, hheading]

theorem readsAsHeading_of_isPlainAtHeading {name prelude heading : Text}
    (h : IsPlainAtHeading name prelude heading) : ReadsAsHeading heading := by
  have hkeyword : Written EndsName ('@' :: name) [.single ⟨.atKeyword name, '@' :: name⟩] :=
    ⟨_, Token.framed_atKeyword h.name_ne_nil h.isSmallLetter, Component.Gathers.single rfl rfl⟩
  have hcharset : ∀ parts rest body,
      Item.isCharset ⟨.atRule name, parts, rest, body⟩ = false := by
    intro parts rest body
    simp only [Item.isCharset, asciiLower_of_isSmallLetter h.isSmallLetter]
    exact beq_eq_false_iff_ne.2 h.ne_charset
  -- Without a prelude nothing stands between the keyword and the block, not even a space.
  by_cases hprelude : prelude = []
  · have hheading : heading = '@' :: name := by rw [h.heading_eq, if_pos hprelude]
    have htext : Part.text (Part.ofComponents []) = prelude := by
      rw [hprelude, Part.ofComponents]
      rfl
    rw [hheading] at h ⊢
    exact ⟨_, .atRule name, hkeyword.mono fun _ hrest => hrest.endsName, rfl, hcharset,
      fun level => ⟨_, segment_of_atKeyword (by simp) level, meaning_atRule h htext⟩⟩
  · have hheading : heading = ('@' :: name) ++ (' ' :: prelude) := by
      rw [h.heading_eq, if_neg hprelude]
    obtain ⟨components, hwritten, hinline, htext⟩ := exists_written_space h.plain
    have hends : ∀ rest, Stops rest → EndsName ((' ' :: prelude) ++ rest) := by
      intro rest _ c hc
      cases hc
      decide
    rw [hheading] at h ⊢
    exact ⟨_, .atRule name, hkeyword.append hwritten hends, rfl, hcharset,
      fun level => ⟨_, segment_of_atKeyword hinline level, meaning_atRule h htext⟩⟩

/-! ## Rules -/

/-- The contents of a block that holds one rule. -/
def asBody (node : RuleNode) : Body := ⟨[], [node], []⟩

theorem concat_map_asBody (nodes : List RuleNode) :
    Body.concat (nodes.map asBody) = ⟨[], nodes, []⟩ := by
  simp [Body.concat, List.flatMap_map, asBody]

/-- The text stands for the rules wherever it is put. -/
def PrintsAs (text : Text) (nodes : List RuleNode) : Prop :=
  ∃ components, Written Anything text components ∧
    ∀ level more, ∃ items,
      Item.all level (Part.ofComponents components ++ more) = items ++ Item.all level more ∧
      items.map Item.meaning = nodes.map asBody ∧
      ∀ item ∈ items, item.isCharset = false ∧ item.start.isCustomDeclaration = false

theorem PrintsAs.nil : PrintsAs [] [] :=
  Body.PrintedAs.nil

theorem PrintsAs.append {text text' : Text} {nodes nodes' : List RuleNode}
    (h : PrintsAs text nodes) (h' : PrintsAs text' nodes') :
    PrintsAs (text ++ text') (nodes ++ nodes') := by
  have hprinted := Body.PrintedAs.append h h'
  rwa [← List.map_append] at hprinted

/-- A heading with a block after it stands for one rule. -/
theorem printsAs_rule {heading block : Text} (h : ReadsAsHeading heading)
    {components : List Component} (hblock : Written Stops block components)
    {body : Body} (hbody : Body.ofParts (Part.ofComponents components) = body)
    {node : RuleNode} (hnode : Body.ofRule heading body = asBody node) :
    PrintsAs (heading ++ '{' :: (block ++ ['}'])) [node] := by
  have hprinted := Body.printedAs_block h hblock
  rwa [hbody, hnode] at hprinted

theorem printsAs_printAll {nodes : List RuleNode}
    (h : ∀ node ∈ nodes, PrintsAs (print node) [node]) : PrintsAs (printAll nodes) nodes := by
  induction nodes with
  | nil =>
      rw [printAll]
      exact PrintsAs.nil
  | cons node rest ih =>
      rw [List.forall_mem_cons] at h
      rw [printAll]
      exact h.1.append (ih h.2)

/-- A block that holds printed rules has these rules and nothing else. -/
theorem PrintsAs.exists_block {text : Text} {nodes : List RuleNode} (h : PrintsAs text nodes) :
    ∃ components, Written Stops text components ∧
      Body.ofParts (Part.ofComponents components) = ⟨[], nodes, []⟩ := by
  obtain ⟨components, hwritten, hbody⟩ := Body.PrintedAs.exists_block h
  exact ⟨components, hwritten, by rw [hbody, concat_map_asBody]⟩

/-- A plain rule is read back wherever it stands. -/
theorem IsPlain.printsAs {node : RuleNode} (h : node.IsPlain) : PrintsAs (print node) [node] := by
  -- The induction is on the rule: for a group, `ih` speaks of all rules inside.
  induction h with
  | @style selector declarations hselector hdeclarations =>
      obtain ⟨components, hwritten, hitems⟩ :=
        Declaration.exists_written_writeBlock fun declaration hd =>
          (hdeclarations declaration hd).isReadable
      have hbody : Body.ofParts (Part.ofComponents components) = ⟨declarations, [], []⟩ := by
        rw [Body.ofParts, hitems, Declaration.concat_map_asBody]
      have hat := hselector.isAtHeading
      rw [print]
      apply printsAs_rule (readsAsHeading_of_isPlainSelector hselector) hwritten hbody
      simp [Body.ofRule, ofBlock, hat, asBody]
  | @nest selector children hselector hne _ ih =>
      obtain ⟨components, hwritten, hbody⟩ := (printsAs_printAll ih).exists_block
      rw [print]
      apply printsAs_rule (readsAsHeading_of_isPlainSelector hselector) hwritten hbody
      simp [Body.ofRule, ofBlock, hne, asBody]
  | @atRule name prelude heading children hheading _ ih =>
      obtain ⟨components, hwritten, hbody⟩ := (printsAs_printAll ih).exists_block
      have hat : isAtHeading heading = true := by
        rw [hheading.heading_eq]
        split <;> rfl
      rw [print]
      apply printsAs_rule (readsAsHeading_of_isPlainAtHeading hheading) hwritten hbody
      simp [Body.ofRule, ofBlock, hat, asBody]

end RuleNode

/-- A forest of plain rules is read back from its printed form. -/
theorem Stylesheet.parse_printAll (forest : List RuleNode) (h : ∀ node ∈ forest, node.IsPlain) :
    Stylesheet.parse (RuleNode.printAll forest) = ⟨forest, []⟩ := by
  obtain ⟨components, hwritten, hitems⟩ :=
    RuleNode.printsAs_printAll fun node hnode => (h node hnode).printsAs
  obtain ⟨items, hall, hmeaning, hordinary⟩ := hitems .top []
  rw [List.append_nil, Item.all_nil, List.append_nil] at hall
  -- At the top of a sheet two kinds of items are dropped, and printed rules are of neither.
  have hcharset : Item.dropCharset items = items := by
    cases items with
    | nil => rfl
    | cons item rest =>
        rw [Item.dropCharset, (hordinary item List.mem_cons_self).1]
        rfl
  have hfilter : items.filter (fun item => !item.start.isCustomDeclaration) = items := by
    rw [List.filter_eq_self]
    intro item hitem
    rw [(hordinary item hitem).2]
    rfl
  rw [Stylesheet.parse, hwritten.ofText_eq trivial, Body.ofSheet, hall]
  simp only [hcharset, hfilter, hmeaning, RuleNode.concat_map_asBody]

/-- A layer with a leaf and a nested rule, and an empty page. -/
def Stylesheet.layeredForest : List RuleNode :=
  [.group "@layer base".toList
    [.style ".a:hover".toList (Declaration.writeBlock
      [⟨"--Ink".toList, "calc(2px * var(--n))".toList⟩, ⟨"color".toList, "var(--Ink)".toList⟩]),
     .group "&.b".toList [.style ".c".toList (Declaration.writeBlock [])]],
   .group "@page".toList []]

theorem RuleNode.isPlain_of_mem_layeredForest :
    ∀ node ∈ Stylesheet.layeredForest, node.IsPlain := by
  have hleaf : IsPlain (.style ".a:hover".toList (Declaration.writeBlock
      [⟨"--Ink".toList, "calc(2px * var(--n))".toList⟩,
       ⟨"color".toList, "var(--Ink)".toList⟩])) := by
    apply IsPlain.style ⟨by decide, Or.inl rfl⟩
    rw [List.forall_mem_cons, List.forall_mem_singleton]
    exact ⟨⟨by decide, by decide⟩, ⟨by decide, by decide⟩⟩
  have hempty : IsPlain (.style ".c".toList (Declaration.writeBlock [])) :=
    IsPlain.style ⟨by decide, Or.inl rfl⟩ (by simp)
  have hnested : IsPlain (.group "&.b".toList [.style ".c".toList (Declaration.writeBlock [])]) :=
    IsPlain.nest ⟨by decide, Or.inr rfl⟩ (by simp) (by simpa using hempty)
  have hlayer : IsPlainAtHeading "layer".toList "base".toList "@layer base".toList :=
    ⟨by decide, List.all_eq_true.1 rfl, by decide, by decide, by decide, by decide⟩
  have hpage : IsPlainAtHeading "page".toList [] "@page".toList :=
    ⟨by decide, List.all_eq_true.1 rfl, by decide, by decide, by decide, by decide⟩
  rw [Stylesheet.layeredForest, List.forall_mem_cons, List.forall_mem_singleton]
  refine ⟨IsPlain.atRule hlayer ?_, IsPlain.atRule hpage (by simp)⟩
  rw [List.forall_mem_cons, List.forall_mem_singleton]
  exact ⟨hleaf, hnested⟩

theorem Stylesheet.parse_layeredForest :
    Stylesheet.parse (RuleNode.printAll layeredForest) = ⟨layeredForest, []⟩ :=
  Stylesheet.parse_printAll layeredForest RuleNode.isPlain_of_mem_layeredForest

end UtilityCss
