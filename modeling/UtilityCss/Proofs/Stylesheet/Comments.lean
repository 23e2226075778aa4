import UtilityCss.Proofs.Rule.Respelled
import UtilityCss.Proofs.Stylesheet.Names

/-!
# Comments and the names of a sheet

The names of a sheet are read from texts as they are written, comments included. So a comment tells
where a heading, the name of a registration or the descriptor `inherits` is compared with a text,
and nowhere else. Only behind an escape of hexadecimal digits a space separates nothing, since the
escape takes it.

* `Outline.ClassTells`, `Outline.ThemeTells` and `Outline.RegistrationTells` are the places where a
  space in place of a comment changes one of the lists.

The main statement is `Stylesheet.names_spaced`: if the comment is in none of these places, the
lists stay the same.
-/

set_option autoImplicit false

namespace UtilityCss

/-! ## Texts with a comment -/

theorem Text.mem_intercalate {c : Char} {separator : Text} {pieces : List Text}
    (h : c ∈ separator.intercalate pieces) : c ∈ separator ∨ ∃ piece ∈ pieces, c ∈ piece := by
  induction pieces with
  | nil => simp at h
  | cons piece rest ih =>
      cases rest with
      | nil =>
          rw [List.intercalate_singleton] at h
          exact Or.inr ⟨piece, List.mem_cons_self, h⟩
      | cons second rest =>
          rw [List.intercalate_cons_cons, List.mem_append, List.mem_append] at h
          rcases h with (hpiece | hseparator) | hrest
          · exact Or.inr ⟨piece, List.mem_cons_self, hpiece⟩
          · exact Or.inl hseparator
          · rcases ih hrest with hseparator | ⟨other, hother, hc⟩
            · exact Or.inl hseparator
            · exact Or.inr ⟨other, List.mem_cons_of_mem piece hother, hc⟩

/-- A list of selectors for the root and the host has no slash. -/
theorem RuleNode.isThemeSelector_of_slash {selector : Text} (h : '/' ∈ selector) :
    isThemeSelector selector = false := by
  have hjoin : [','].intercalate (selector.splitOn ',') = selector := List.intercalate_splitOn ','
  rw [← hjoin] at h
  rw [Bool.eq_false_iff]
  intro htheme
  rw [isThemeSelector, List.all_eq_true] at htheme
  -- The slash stands in one selector of the list, which is then neither of the two.
  rcases Text.mem_intercalate h with hcomma | ⟨piece, hpiece, hslash⟩
  · simp at hcomma
  · have htrim := Text.mem_trim rfl hslash
    have hone := htheme piece hpiece
    rw [Bool.or_eq_true, decide_eq_true_eq, decide_eq_true_eq] at hone
    rcases hone with hroot | hhost
    · rw [hroot] at htrim
      revert htrim
      decide
    · rw [hhost] at htrim
      revert htrim
      decide

theorem RuleNode.isAtHeading_atHeading (name text : Text) :
    isAtHeading (Item.atHeading name text) = true := by
  rw [Item.atHeading]
  split <;> rfl

namespace Text.Spaced

variable {inside text text' : Text}

/-- The comment leaves its first character in the text. -/
theorem slash_mem (h : Spaced ('/' :: inside) text text') : '/' ∈ text := by
  obtain ⟨before, after, rfl, -⟩ := h
  exact mem_trim rfl (by simp)

/-- The heading of an at-rule is one with the space too. -/
theorem isAtHeading (h : Spaced ('/' :: inside) text text')
    (hat : RuleNode.isAtHeading text = true) : RuleNode.isAtHeading text' = true := by
  obtain ⟨before, after, rfl, rfl⟩ := h
  by_cases hblank : ∀ c ∈ before, isBlank c = true
  · have hmark : ¬ ∀ c ∈ '/' :: inside, isBlank c = true := by
      intro hall
      exact absurd (hall '/' List.mem_cons_self) (by decide)
    rw [List.append_assoc, trim_append_of_blank hblank, RuleNode.isAtHeading,
      head?_trim_append hmark] at hat
    cases hat
  · rw [RuleNode.isAtHeading, List.append_assoc, head?_trim_append hblank] at hat
    rwa [RuleNode.isAtHeading, head?_trim_append hblank]

/-- What does not inherit is a word without a comment. -/
theorem lower_ne_false (h : Spaced ('/' :: inside) text text') :
    asciiLower (trim text) ≠ "false".toList := by
  intro hfalse
  have hslash : '/' ∈ asciiLower (trim text) :=
    List.mem_map.2 ⟨'/', mem_trim rfl h.slash_mem, rfl⟩
  rw [hfalse] at hslash
  revert hslash
  decide

end Text.Spaced

/-! ## Where a comment tells -/

namespace Outline

/-- An at-rule other than a registration. -/
def IsAtRule : Outline → Prop
  | .rule heading _ => RuleNode.isAtHeading heading = true
  | .declaration _ | .registration _ _ => False

/-- Whether the theme can read back the block that it writes. -/
def ReadsBack (block : List Outline) : Prop :=
  Declaration.readBlock (Declaration.writeBlock (declarations block)) = declarations block

/-- A comment in the heading of a rule that is one class with the comment or with the space, or that
of an at-rule with the space only. -/
inductive ClassTells (comment : Text) : Outline → Outline → Prop
  | heading {heading heading' : Text} (inside : List Outline) :
      Text.Spaced comment heading heading' → RuleNode.isAtHeading heading = false →
      (Selector.isOneClass (Text.trim heading) = true ∨
        Selector.isOneClass (Text.trim heading') = true ∨ RuleNode.isAtHeading heading' = true) →
      ClassTells comment (.rule heading inside) (.rule heading' inside)

/-- A comment in the heading of a rule that is for the root or the host with the space only, or that
of an at-rule with the space only. Or a comment in the block of a rule for the root or the host,
where the block with the comment or the one with the space does not read back. -/
inductive ThemeTells (comment : Text) : Outline → Outline → Prop
  | heading {heading heading' : Text} (inside : List Outline) :
      Text.Spaced comment heading heading' → RuleNode.isAtHeading heading = false →
      (RuleNode.isThemeSelector heading' = true ∨ RuleNode.isAtHeading heading' = true) →
      ThemeTells comment (.rule heading inside) (.rule heading' inside)
  | value {heading : Text} (before after : List Outline) {name value value' : Text} :
      RuleNode.isAtHeading heading = false → RuleNode.isThemeSelector heading = true →
      Text.Spaced comment value value' →
      ¬ (ReadsBack (before ++ .declaration ⟨name, value⟩ :: after) ∧
        ReadsBack (before ++ .declaration ⟨name, value'⟩ :: after)) →
      ThemeTells comment (.rule heading (before ++ .declaration ⟨name, value⟩ :: after))
        (.rule heading (before ++ .declaration ⟨name, value'⟩ :: after))

/-- A comment in the name of a registration, or in its descriptor `inherits`, which would be `false`
with a space in its place. -/
inductive RegistrationTells (comment : Text) : Outline → Outline → Prop
  | name {name name' : Text} (inside : List Outline) : Text.Spaced comment name name' →
      RegistrationTells comment (.registration name inside) (.registration name' inside)
  | inherits (name : Text) (before after : List Outline) {value value' : Text} :
      Text.Spaced comment value value' →
      Text.asciiLower (Text.trim value') = "false".toList →
      RegistrationTells comment
        (.registration name (before ++ .declaration ⟨"inherits".toList, value⟩ :: after))
        (.registration name (before ++ .declaration ⟨"inherits".toList, value'⟩ :: after))

section Induction

variable {α : Type} {names : Outline → List α} {around : Outline → Prop}
  {change tells : Outline → Outline → Prop}

/-- The names that items give stay the same but for the places that tell, if it is so for each way
in which one item can change. -/
theorem ChangedIn.flatMap_eq_or {items items' : List Outline}
    (h : ChangedIn Anything change items items')
    (hitem : ∀ item item', change item item' → names item = names item' ∨ tells item item')
    (hregistration : ∀ name inside inside', ChangedIn Anything change inside inside' →
      inside.flatMap names = inside'.flatMap names ∨ ChangedIn around tells inside inside' →
      names (.registration name inside) = names (.registration name inside') ∨
        ChangedIn around tells [.registration name inside] [.registration name inside'])
    (hrule : ∀ heading inside inside', ChangedIn Anything change inside inside' →
      inside.flatMap names = inside'.flatMap names ∨ ChangedIn around tells inside inside' →
      names (.rule heading inside) = names (.rule heading inside') ∨
        ChangedIn around tells [.rule heading inside] [.rule heading inside']) :
    items.flatMap names = items'.flatMap names ∨ ChangedIn around tells items items' := by
  -- What changes in one item changes in the list, whatever stands around it.
  have hone : ∀ (before after : List Outline) {item item' : Outline},
      names item = names item' ∨ ChangedIn around tells [item] [item'] →
      (before ++ item :: after).flatMap names = (before ++ item' :: after).flatMap names ∨
        ChangedIn around tells (before ++ item :: after) (before ++ item' :: after) := by
    rintro before after item item' (hsame | htells)
    · left
      simp only [List.flatMap_append, List.flatMap_cons, hsame]
    · right
      simpa using htells.append before after
  induction h with
  | here before after hchange =>
      apply hone
      rcases hitem _ _ hchange with hsame | htells
      · exact Or.inl hsame
      · exact Or.inr (.here [] [] htells)
  | registration before after _ hinside ih => exact hone _ _ (hregistration _ _ _ hinside ih)
  | rule before after _ hinside ih => exact hone _ _ (hrule _ _ _ hinside ih)

end Induction

variable {inside : Text} {items items' : List Outline}

/-! ### Classes -/

/-- A heading that is neither one class nor that of an at-rule gives no class. -/
theorem classSelectors_eq_nil {heading : Text}
    (hclass : Selector.isOneClass (Text.trim heading) = false)
    (hat : RuleNode.isAtHeading heading = false) (inside : List Outline) :
    classSelectors (.rule heading inside) = [] := by
  rw [classSelectors_rule, hat]
  split
  · simp [hclass]
  · rfl

theorem classSelectors_respelled {item item' : Outline}
    (h : Respelled ('/' :: inside) item item') :
    classSelectors item = classSelectors item' ∨ ClassTells ('/' :: inside) item item' := by
  cases h with
  | value name _ | name items _ =>
      left
      simp only [classSelectors, utilitySelectors]
  | atHeading name items hspaced =>
      left
      rw [classSelectors_of_isAtHeading (RuleNode.isAtHeading_atHeading _ _),
        classSelectors_of_isAtHeading (RuleNode.isAtHeading_atHeading _ _)]
  | @heading heading heading' items hspaced =>
      cases hat : RuleNode.isAtHeading heading with
      | true =>
          have hat' := hspaced.isAtHeading hat
          left
          rw [classSelectors_of_isAtHeading hat, classSelectors_of_isAtHeading hat']
      | false =>
          -- A heading tells if it is a class with the comment or the space, or an at-rule with the
          -- space.
          by_cases htells : Selector.isOneClass (Text.trim heading) = true ∨
              Selector.isOneClass (Text.trim heading') = true ∨
              RuleNode.isAtHeading heading' = true
          · exact Or.inr (.heading items hspaced hat htells)
          · rw [not_or, not_or, Bool.not_eq_true, Bool.not_eq_true, Bool.not_eq_true] at htells
            left
            rw [classSelectors_eq_nil htells.1 hat, classSelectors_eq_nil htells.2.1 htells.2.2]

theorem classSelectors_changed
    (h : ChangedIn Anything (Respelled ('/' :: inside)) items items') :
    items.flatMap classSelectors = items'.flatMap classSelectors ∨
      ChangedIn IsAtRule (ClassTells ('/' :: inside)) items items' := by
  apply h.flatMap_eq_or
  · intro item item' hitem
    exact classSelectors_respelled hitem
  · intro name block block' _ _
    left
    simp only [classSelectors, utilitySelectors]
  · intro heading block block' _ hblock
    -- Utilities are looked for inside at-rules only.
    cases hat : RuleNode.isAtHeading heading with
    | false =>
        left
        rw [classSelectors_rule, classSelectors_rule, hat]
        rfl
    | true =>
        rw [classSelectors_of_isAtHeading hat, classSelectors_of_isAtHeading hat]
        rcases hblock with hsame | htells
        · exact Or.inl hsame
        · exact Or.inr (.rule [] [] hat htells)

/-! ### The theme -/

theorem themeNames_respelled {item item' : Outline}
    (h : Respelled ('/' :: inside) item item') :
    themeNames item = themeNames item' ∨ ThemeTells ('/' :: inside) item item' := by
  cases h with
  | value name _ | name items _ =>
      left
      simp only [themeNames, themeBlocks]
  | atHeading name items hspaced =>
      left
      rw [themeNames_rule, themeNames_rule, RuleNode.isAtHeading_atHeading,
        RuleNode.isAtHeading_atHeading]
      rfl
  | @heading heading heading' items hspaced =>
      rw [themeNames_rule, themeNames_rule]
      cases hat : RuleNode.isAtHeading heading with
      | true =>
          rw [hspaced.isAtHeading hat]
          exact Or.inl rfl
      | false =>
          -- With the comment a heading is none of the theme, so that only the one with the space
          -- tells.
          by_cases htells : RuleNode.isThemeSelector heading' = true ∨
              RuleNode.isAtHeading heading' = true
          · exact Or.inr (.heading items hspaced hat htells)
          · rw [not_or, Bool.not_eq_true, Bool.not_eq_true] at htells
            left
            rw [RuleNode.isThemeSelector_of_slash hspaced.slash_mem, htells.1, htells.2]

/-- A changed block has the same declarations, or one of them is changed. -/
theorem declarations_changed {comment : Text}
    (h : ChangedIn Anything (Respelled comment) items items') :
    declarations items = declarations items' ∨
      ∃ before after name value value', Text.Spaced comment value value' ∧
        items = before ++ .declaration ⟨name, value⟩ :: after ∧
        items' = before ++ .declaration ⟨name, value'⟩ :: after := by
  cases h with
  | here before after hchange =>
      cases hchange with
      | value name hspaced => exact Or.inr ⟨before, after, name, _, _, hspaced, rfl, rfl⟩
      | name block _ | atHeading name block _ | heading block _ =>
          left
          simp only [declarations, List.filterMap_append, List.filterMap_cons, declaration?]
  | registration before after _ _ | rule before after _ _ =>
      left
      simp only [declarations, List.filterMap_append, List.filterMap_cons, declaration?]

theorem any_isRule_changed {comment : Text}
    (h : ChangedIn Anything (Respelled comment) items items') :
    items.any isRule = items'.any isRule := by
  cases h with
  | here before after hchange =>
      cases hchange <;> simp only [List.any_append, List.any_cons, isRule]
  | registration before after _ _ | rule before after _ _ =>
      simp only [List.any_append, List.any_cons, isRule]

/-- A changed block gives the theme the same names, or one of its values is changed, with which it
does not read back. -/
theorem map_name_readTheme_changed {comment : Text}
    (h : ChangedIn Anything (Respelled comment) items items') :
    (readTheme items).map Declaration.name = (readTheme items').map Declaration.name ∨
      ∃ before after name value value', Text.Spaced comment value value' ∧
        items = before ++ .declaration ⟨name, value⟩ :: after ∧
        items' = before ++ .declaration ⟨name, value'⟩ :: after ∧
        ¬ (ReadsBack items ∧ ReadsBack items') := by
  have hrule := any_isRule_changed h
  rcases declarations_changed h with
    hsame | ⟨before, after, name, value, value', hspaced, hitems, hitems'⟩
  · left
    rw [readTheme, readTheme, hrule, hsame]
  · -- Where both blocks read back, the names are those that were written.
    by_cases hread : ReadsBack items ∧ ReadsBack items'
    · have hnames : (declarations items).map Declaration.name =
          (declarations items').map Declaration.name := by
        rw [hitems, hitems']
        simp [declarations, declaration?]
      left
      rw [readTheme, readTheme, hrule, hread.1, hread.2]
      split
      · rfl
      · exact hnames
    · exact Or.inr ⟨before, after, name, value, value', hspaced, hitems, hitems', hread⟩

theorem themeNames_changed
    (h : ChangedIn Anything (Respelled ('/' :: inside)) items items') :
    items.flatMap themeNames = items'.flatMap themeNames ∨
      ChangedIn IsAtRule (ThemeTells ('/' :: inside)) items items' := by
  apply h.flatMap_eq_or
  · intro item item' hitem
    exact themeNames_respelled hitem
  · intro name block block' _ _
    left
    simp only [themeNames, themeBlocks]
  · intro heading block block' hchanged hblock
    rw [themeNames_rule, themeNames_rule]
    cases hat : RuleNode.isAtHeading heading with
    | true =>
        rcases hblock with hsame | htells
        · exact Or.inl hsame
        · exact Or.inr (.rule [] [] hat htells)
    | false =>
        -- The declarations of a block count only below a heading of the theme.
        cases htheme : RuleNode.isThemeSelector heading with
        | false => exact Or.inl rfl
        | true =>
            rcases map_name_readTheme_changed hchanged with
              hsame | ⟨before, after, name, value, value', hspaced, rfl, rfl, hread⟩
            · exact Or.inl hsame
            · exact Or.inr (.here [] [] (.value before after hat htheme hspaced hread))

/-! ### Registrations -/

/-- What a changed block says about whether the property inherits stays the same, unless the comment
is in the descriptor for it, which would be `false` with the space. -/
theorem inheritsAfter_changed (h : ChangedIn Anything (Respelled ('/' :: inside)) items items') :
    (declarations items).foldl Registration.inheritsAfter true =
        (declarations items').foldl Registration.inheritsAfter true ∨
      ∃ before after value value', Text.Spaced ('/' :: inside) value value' ∧
        items = before ++ .declaration ⟨"inherits".toList, value⟩ :: after ∧
        items' = before ++ .declaration ⟨"inherits".toList, value'⟩ :: after ∧
        Text.asciiLower (Text.trim value') = "false".toList := by
  rcases declarations_changed h with
    hsame | ⟨before, after, name, value, value', hspaced, hitems, hitems'⟩
  · left
    rw [hsame]
  -- With the comment the value is not `false`, so that only the one with the space tells.
  by_cases htells : name = "inherits".toList ∧
      Text.asciiLower (Text.trim value') = "false".toList
  · obtain ⟨rfl, hfalse⟩ := htells
    exact Or.inr ⟨before, after, value, value', hspaced, hitems, hitems', hfalse⟩
  · have hstep : ∀ stands, Registration.inheritsAfter stands ⟨name, value⟩ =
        Registration.inheritsAfter stands ⟨name, value'⟩ := by
      intro stands
      rw [Registration.inheritsAfter, Registration.inheritsAfter]
      by_cases hname : name = "inherits".toList
      · have hvalue := hspaced.lower_ne_false
        have hvalue' : Text.asciiLower (Text.trim value') ≠ "false".toList :=
          fun hfalse => htells ⟨hname, hfalse⟩
        rw [if_pos hname, if_pos hname, bne_iff_ne.2 hvalue, bne_iff_ne.2 hvalue']
      · rw [if_neg hname, if_neg hname]
    left
    rw [hitems, hitems']
    simp only [declarations, List.filterMap_append, List.filterMap_cons, declaration?,
      List.foldl_append, List.foldl_cons, hstep]

theorem inheritance_respelled {item item' : Outline}
    (h : Respelled ('/' :: inside) item item') :
    inheritance item = inheritance item' ∨
      RegistrationTells ('/' :: inside) item item' := by
  cases h with
  | value name _ =>
      left
      rw [inheritance, inheritance, registrations, registrations]
  | name block hspaced => exact Or.inr (.name block hspaced)
  | atHeading name block _ | heading block _ =>
      left
      rw [inheritance_rule, inheritance_rule]

theorem inheritance_changed
    (h : ChangedIn Anything (Respelled ('/' :: inside)) items items') :
    items.flatMap inheritance = items'.flatMap inheritance ∨
      ChangedIn Anything (RegistrationTells ('/' :: inside)) items items' := by
  apply h.flatMap_eq_or
  · intro item item' hitem
    exact inheritance_respelled hitem
  · intro name block block' hchanged hblock
    -- The change is in a registration inside, or in the descriptors of this one.
    rcases hblock with hsame | htells
    · rcases inheritsAfter_changed hchanged with
        hinherits | ⟨before, after, value, value', hspaced, rfl, rfl, hfalse⟩
      · left
        rw [inheritance_registration, inheritance_registration, hsame, hinherits]
      · exact Or.inr (.here [] [] (.inherits name before after hspaced hfalse))
    · exact Or.inr (.registration [] [] trivial htells)
  · intro heading block block' _ hblock
    rw [inheritance_rule, inheritance_rule]
    rcases hblock with hsame | htells
    · exact Or.inl hsame
    · exact Or.inr (.rule [] [] trivial htells)

end Outline

/-! ## Comments carry no other meaning -/

namespace Stylesheet

/-- If a space takes the place of a comment, which stands behind no escape that would take the
space, each list of names stays the same but where the comment tells: in a heading that is compared
with a class or with the selectors of the theme, in the name of a registration, and in its
descriptor `inherits`. Of a theme block that does not read back nothing is said. -/
theorem names_spaced {text comment : Text} {front back : List Token}
    (h : Token.ofText text = front ++ ⟨.comment, comment⟩ :: back)
    (hopen : ∀ token ∈ front.getLast?, Token.endsInEscape token.source = false)
    {text' : Text}
    (htext' : text' = front.flatMap Token.source ++ ' ' :: back.flatMap Token.source) :
    (classNames (parse text) = classNames (parse text') ∨
      Outline.ChangedIn Outline.IsAtRule (Outline.ClassTells comment) (outline text)
        (outline text')) ∧
    (themeNames (parse text) = themeNames (parse text') ∨
      Outline.ChangedIn Outline.IsAtRule (Outline.ThemeTells comment) (outline text)
        (outline text')) ∧
    (inheritance (parse text) = inheritance (parse text') ∨
      Outline.ChangedIn Outline.Anything (Outline.RegistrationTells comment) (outline text)
        (outline text')) := by
  have hmem : ⟨.comment, comment⟩ ∈ Token.ofText text := by
    rw [h]
    simp
  obtain ⟨inside, rfl⟩ := Token.exists_source_of_comment hmem
  have houtline := outline_spaced h hopen
  rw [← htext'] at houtline
  rw [classNames_parse, classNames_parse, themeNames_parse, themeNames_parse, inheritance_parse,
    inheritance_parse]
  rcases houtline with hsame | hchanged
  · rw [hsame]
    exact ⟨Or.inl rfl, Or.inl rfl, Or.inl rfl⟩
  · refine ⟨?_, Outline.themeNames_changed hchanged, Outline.inheritance_changed hchanged⟩
    rcases Outline.classSelectors_changed hchanged with hclasses | htells
    · exact Or.inl (by rw [hclasses])
    · exact Or.inr htells

/-- A sheet up to the value of a theme declaration. -/
def inkLead : Text :=
  ":root \x7b --ink:".toList

/-- The value, and what follows it: a utility rule and a registration. -/
def inkTail : Text :=
  " black \x7d .card \x7b color: var(--ink) \x7d @property --ink \x7b inherits: false \x7d".toList

/-- Two stretches of a sheet with a comment between them. -/
def commented (lead comment tail : Text) : Text :=
  lead ++ comment ++ tail

/-- Two stretches of a sheet with a space between them. -/
def spaced (lead tail : Text) : Text :=
  lead ++ ' ' :: tail

/-- A comment in a value of the theme. -/
theorem names_spacedInk :
    Token.ofText (commented inkLead "/* dark */".toList inkTail) =
        Token.ofText inkLead ++ ⟨.comment, "/* dark */".toList⟩ :: Token.ofText inkTail ∧
      (∀ token ∈ (Token.ofText inkLead).getLast?, Token.endsInEscape token.source = false) ∧
      spaced inkLead inkTail = (Token.ofText inkLead).flatMap Token.source ++
        ' ' :: (Token.ofText inkTail).flatMap Token.source ∧
      ((classNames (parse (commented inkLead "/* dark */".toList inkTail)) =
            classNames (parse (spaced inkLead inkTail)) ∨
          Outline.ChangedIn Outline.IsAtRule (Outline.ClassTells "/* dark */".toList)
            (outline (commented inkLead "/* dark */".toList inkTail))
            (outline (spaced inkLead inkTail))) ∧
        (themeNames (parse (commented inkLead "/* dark */".toList inkTail)) =
            themeNames (parse (spaced inkLead inkTail)) ∨
          Outline.ChangedIn Outline.IsAtRule (Outline.ThemeTells "/* dark */".toList)
            (outline (commented inkLead "/* dark */".toList inkTail))
            (outline (spaced inkLead inkTail))) ∧
        (inheritance (parse (commented inkLead "/* dark */".toList inkTail)) =
            inheritance (parse (spaced inkLead inkTail)) ∨
          Outline.ChangedIn Outline.Anything (Outline.RegistrationTells "/* dark */".toList)
            (outline (commented inkLead "/* dark */".toList inkTail))
            (outline (spaced inkLead inkTail)))) := by
  have hread : Token.ofText (commented inkLead "/* dark */".toList inkTail) =
      Token.ofText inkLead ++ ⟨.comment, "/* dark */".toList⟩ :: Token.ofText inkTail := by
    decide +kernel
  have hopen : ∀ token ∈ (Token.ofText inkLead).getLast?,
      Token.endsInEscape token.source = false := by
    decide +kernel
  have hspaced : spaced inkLead inkTail = (Token.ofText inkLead).flatMap Token.source ++
      ' ' :: (Token.ofText inkTail).flatMap Token.source := by
    rw [Token.sources_ofText, Token.sources_ofText, spaced]
  exact ⟨hread, hopen, hspaced, names_spaced hread hopen hspaced⟩

/-- Whether an empty comment between two stretches is a token of its own. -/
def IsComment (lead tail : Text) : Prop :=
  Token.ofText (commented lead "/**/".toList tail) =
    Token.ofText lead ++ ⟨.comment, "/**/".toList⟩ :: Token.ofText tail

instance (lead tail : Text) : Decidable (IsComment lead tail) :=
  inferInstanceAs (Decidable (_ = _))

/-- An empty comment tells in the selector of the theme, in a class, in the descriptor `inherits`
and behind an escape, which would take the space. -/
theorem comment_tells :
    (IsComment ":root".toList "\x7b--ink: black\x7d".toList ∧
      themeNames (parse (commented ":root".toList "/**/".toList
        "\x7b--ink: black\x7d".toList)) = [] ∧
      themeNames (parse (spaced ":root".toList "\x7b--ink: black\x7d".toList)) =
        ["--ink".toList]) ∧
    (IsComment ".card".toList "\x7b\x7d".toList ∧
      classNames (parse (commented ".card".toList "/**/".toList "\x7b\x7d".toList)) =
        ["card/**/".toList] ∧
      classNames (parse (spaced ".card".toList "\x7b\x7d".toList)) = ["card".toList]) ∧
    (IsComment "@property --ink\x7binherits: false".toList "\x7d".toList ∧
      inheritance (parse (commented "@property --ink\x7binherits: false".toList "/**/".toList
        "\x7d".toList)) = [("--ink".toList, true)] ∧
      inheritance (parse (spaced "@property --ink\x7binherits: false".toList "\x7d".toList)) =
        [("--ink".toList, false)]) ∧
    (IsComment ".card\\31".toList "b\x7b\x7d".toList ∧
      classNames (parse (commented ".card\\31".toList "/**/".toList "b\x7b\x7d".toList)) = [] ∧
      classNames (parse (spaced ".card\\31".toList "b\x7b\x7d".toList)) =
        ["card1b".toList]) := by
  decide +kernel

end Stylesheet

end UtilityCss
