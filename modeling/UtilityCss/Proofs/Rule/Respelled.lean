import UtilityCss.Proofs.Rule.Differ
import UtilityCss.Proofs.Token.Spaced

/-!
# Outlines that differ in one text

If a space takes the place of a comment, what is written in a sheet stays the same, but for one of
its texts: a heading, the name of a registration or the value of a declaration. It has the space
where it had the comment (`Stylesheet.outline_spaced`). Between two items there is no such text, nor
in front of the beginning of an item, so that there the outlines are the same.

* `Text.Spaced` says that a text has a space where another has a comment.
* `Outline.Respelled` relates two items that differ in one text.
* `Outline.ChangedIn` relates outlines of which one item, at some depth, is changed.
-/

set_option autoImplicit false

namespace UtilityCss

/-! ## Texts -/

/-- A trimmed text with a comment, and the one that has a space instead. -/
def Text.Spaced (comment text text' : Text) : Prop :=
  ∃ before after, text = trim (before ++ comment ++ after) ∧ text' = trim (before ++ ' ' :: after)

/-- Separators with a comment, and those that have a space instead. -/
structure Component.Respaced (comment : Text) (gap gap' : List Component) : Prop where
  isGap : IsGap gap
  isGap' : IsGap gap'
  exists_white : ∃ white white', sources gap = white ++ comment ++ white' ∧
    sources gap' = white ++ ' ' :: white'

theorem Component.Respaced.spaced {comment : Text}
    {gap gap' components components' : List Component}
    (h : Respaced comment gap gap') (hdiffer : Differ gap gap' components components') :
    Text.Spaced comment (Part.text (Part.ofComponents components))
      (Part.text (Part.ofComponents components')) := by
  obtain ⟨white, white', hsources, hsources'⟩ := h.exists_white
  obtain ⟨before, after, hbefore, hafter⟩ := hdiffer.exists_sources
  refine ⟨before ++ white, white' ++ after, ?_, ?_⟩
  · rw [Part.text_ofComponents, hbefore, hsources]
    simp only [List.append_assoc]
  · rw [Part.text_ofComponents, hafter, hsources']
    simp only [List.append_assoc, List.cons_append]

namespace Outline

/-! ## Outlines -/

/-- Items that are the same but for one text, where the second has a space for the comment of the
first. -/
inductive Respelled (comment : Text) : Outline → Outline → Prop
  | value (name : Text) {value value' : Text} : Text.Spaced comment value value' →
      Respelled comment (.declaration ⟨name, value⟩) (.declaration ⟨name, value'⟩)
  | name {name name' : Text} (inside : List Outline) : Text.Spaced comment name name' →
      Respelled comment (.registration name inside) (.registration name' inside)
  | atHeading (name : Text) {text text' : Text} (inside : List Outline) :
      Text.Spaced comment text text' →
      Respelled comment (.rule (Item.atHeading name text) inside)
        (.rule (Item.atHeading name text') inside)
  | heading {heading heading' : Text} (inside : List Outline) :
      Text.Spaced comment heading heading' →
      Respelled comment (.rule heading inside) (.rule heading' inside)

/-- Items that are the same but for one, which is changed itself, or has the changed item somewhere
inside, in the blocks of items with a given property only. -/
inductive ChangedIn (around : Outline → Prop) (change : Outline → Outline → Prop) :
    List Outline → List Outline → Prop
  | here (before after : List Outline) {item item' : Outline} : change item item' →
      ChangedIn around change (before ++ item :: after) (before ++ item' :: after)
  | registration (before after : List Outline) {name : Text} {inside inside' : List Outline} :
      around (.registration name inside) → ChangedIn around change inside inside' →
      ChangedIn around change (before ++ .registration name inside :: after)
        (before ++ .registration name inside' :: after)
  | rule (before after : List Outline) {heading : Text} {inside inside' : List Outline} :
      around (.rule heading inside) → ChangedIn around change inside inside' →
      ChangedIn around change (before ++ .rule heading inside :: after)
        (before ++ .rule heading inside' :: after)

/-- Any item. -/
def Anything (_ : Outline) : Prop := True

/-- Other items may stand around. -/
theorem ChangedIn.append {around : Outline → Prop} {change : Outline → Outline → Prop}
    {items items' : List Outline} (h : ChangedIn around change items items')
    (front back : List Outline) :
    ChangedIn around change (front ++ items ++ back) (front ++ items' ++ back) := by
  cases h with
  | here before after hchange =>
      simpa using ChangedIn.here (front ++ before) (after ++ back) hchange
  | registration before after haround hinside =>
      simpa using ChangedIn.registration (front ++ before) (after ++ back) haround hinside
  | rule before after haround hinside =>
      simpa using ChangedIn.rule (front ++ before) (after ++ back) haround hinside

/-- Outlines that are the same, or differ in one text. -/
def SameOrRespelled (comment : Text) (items items' : List Outline) : Prop :=
  items = items' ∨ ChangedIn Anything (Respelled comment) items items'

variable {comment : Text} {gap gap' : List Component}

/-- Stretches whose components differ write the same item, or one that differs in one text. -/
theorem ofStretch_differ (h : Component.Respaced comment gap gap') {parts parts' : List Component}
    (hdiffer : Component.Differ gap gap' parts parts')
    (hstart : Stretch.SameStart gap gap' parts parts') (block : Option (List Component))
    (inside : Option (List Outline)) :
    SameOrRespelled comment (ofStretch ⟨parts, block⟩ inside).toList
      (ofStretch ⟨parts', block⟩ inside).toList := by
  have hone : ∀ {item item' : Outline}, Respelled comment item item' →
      SameOrRespelled comment [item] [item'] :=
    fun hrespelled => Or.inr (.here [] [] hrespelled)
  have htext : Text.Spaced comment (Stretch.text ⟨parts, block⟩) (Stretch.text ⟨parts', block⟩) :=
    h.spaced hdiffer
  obtain ⟨start, rest, rest', hbegun, hbegun', hrest⟩ := hstart
  have hrestText : Stretch.restText ⟨parts, block⟩ = Stretch.restText ⟨parts', block⟩ ∨
      Text.Spaced comment (Stretch.restText ⟨parts, block⟩) (Stretch.restText ⟨parts', block⟩) := by
    simp only [Stretch.restText, hbegun, hbegun']
    rcases hrest with rfl | hrest
    · exact Or.inl rfl
    · exact Or.inr (h.spaced hrest)
  have hkind : Stretch.start ⟨parts, block⟩ = start := congrArg Prod.fst hbegun
  have hkind' : Stretch.start ⟨parts', block⟩ = start := congrArg Prod.fst hbegun'
  -- Its beginning and its block decide which of the two texts an item keeps.
  cases inside with
  | none =>
      cases start with
      | atRule name | plain =>
          left
          simp only [ofStretch, hkind, hkind']
      | declaration name =>
          simp only [ofStretch, hkind, hkind']
          rcases hrestText with hsame | hspaced
          · exact Or.inl (by rw [hsame])
          · exact hone (.value _ hspaced)
  | some items =>
      cases start with
      | plain | declaration name =>
          simp only [ofStretch, hkind, hkind']
          exact hone (.heading items htext)
      | atRule name =>
          simp only [ofStretch, hkind, hkind']
          rcases hrestText with hsame | hspaced
          · exact Or.inl (by rw [hsame])
          · split
            · exact hone (.name items hspaced)
            · exact hone (.atHeading _ items hspaced)

/-- Stretches whose blocks differ in one text write items that differ in one text. -/
theorem ofStretch_changed (stretch : Stretch) {inside inside' : List Outline}
    (h : SameOrRespelled comment inside inside') :
    SameOrRespelled comment (ofStretch stretch (some inside)).toList
      (ofStretch stretch (some inside')).toList := by
  rcases h with rfl | hchanged
  · exact Or.inl rfl
  · right
    cases hkind : stretch.start with
    | plain | declaration name =>
        simp only [ofStretch, hkind]
        exact .rule [] [] trivial hchanged
    | atRule name =>
        simp only [ofStretch, hkind]
        split
        · exact .registration [] [] trivial hchanged
        · exact .rule [] [] trivial hchanged

/-- Stretches that differ in one place write outlines that differ in one text, if the blocks inside
do so. -/
theorem filterMap_outline?_differ (h : Component.Respaced comment gap gap')
    {stretches stretches' : List Stretch}
    (hdiffer : Stretch.SameOrDiffer gap gap' stretches stretches')
    (hinside : ∀ stretch ∈ stretches, ∀ content content', stretch.block = some content →
      Component.Differ gap gap' content content' →
      SameOrRespelled comment (ofLevel .block content) (ofLevel .block content')) :
    SameOrRespelled comment (stretches.filterMap Stretch.outline?)
      (stretches'.filterMap Stretch.outline?) := by
  rcases hdiffer with rfl | ⟨before, stretch, stretch', after, hdiffer, rfl, rfl⟩
  · exact Or.inl rfl
  have hcut : ∀ changed : Stretch, (before ++ changed :: after).filterMap Stretch.outline? =
      before.filterMap Stretch.outline? ++ changed.outline?.toList ++
        after.filterMap Stretch.outline? := by
    intro changed
    rw [List.filterMap_append]
    cases hchanged : changed.outline? <;> simp [hchanged]
  -- The change is among the components of one stretch, or in its block.
  have hone : SameOrRespelled comment stretch.outline?.toList stretch'.outline?.toList := by
    cases hdiffer with
    | parts block hparts hstart => exact ofStretch_differ h hparts hstart block _
    | @block content content' parts hcontent =>
        apply ofStretch_changed ⟨parts, some content⟩
        exact hinside ⟨parts, some content⟩ (by simp) content content' rfl hcontent
  rw [hcut, hcut]
  rcases hone with hsame | hchanged
  · exact Or.inl (by rw [hsame])
  · exact Or.inr (hchanged.append _ _)

/-- Components that differ in one place have outlines that differ in one text, or the same ones. -/
theorem ofLevel_differ (h : Component.Respaced comment gap gap')
    {components components' : List Component}
    (hdiffer : Component.Differ gap gap' components components') (level : Level) :
    SameOrRespelled comment (ofLevel level components) (ofLevel level components') := by
  rw [ofLevel_eq, ofLevel_eq]
  apply filterMap_outline?_differ h (Stretch.all_differ h.isGap h.isGap' hdiffer level)
  intro stretch hmem content content' hblock hcontent
  exact ofLevel_differ h hcontent .block
termination_by sizeOf components
decreasing_by
  obtain ⟨opener, closer, hcomponent⟩ := Stretch.exists_of_mem_all hmem hblock
  have hsize := List.sizeOf_lt_of_mem hcomponent
  simp only [Component.block.sizeOf_spec] at hsize
  omega

end Outline

/-! ## Sheets -/

namespace Stretch

variable {gap gap' : List Component} {stretches stretches' : List Stretch}

theorem Differ.start_eq {stretch stretch' : Stretch} (h : Differ gap gap' stretch stretch') :
    stretch.start = stretch'.start := by
  cases h with
  | parts block _ hstart =>
      obtain ⟨start, rest, rest', hbegun, hbegun', -⟩ := hstart
      simp only [Stretch.start, hbegun, hbegun']
  | block parts _ => rfl

theorem SameOrDiffer.dropCharset (h : SameOrDiffer gap gap' stretches stretches') :
    SameOrDiffer gap gap' (dropCharset stretches) (dropCharset stretches') := by
  rcases h with rfl | ⟨before, stretch, stretch', after, hdiffer, rfl, rfl⟩
  · exact Or.inl rfl
  · cases before with
    | nil =>
        have hcharset : stretch.isCharset = stretch'.isCharset := by
          simp only [isCharset, hdiffer.start_eq]
        rw [List.nil_append, List.nil_append, Stretch.dropCharset, Stretch.dropCharset, hcharset]
        split
        · exact Or.inl rfl
        · exact Or.inr ⟨[], stretch, stretch', after, hdiffer, rfl, rfl⟩
    | cons first before =>
        simp only [List.cons_append, Stretch.dropCharset]
        split
        · exact Or.inr ⟨before, stretch, stretch', after, hdiffer, rfl, rfl⟩
        · exact Or.inr ⟨first :: before, stretch, stretch', after, hdiffer, rfl, rfl⟩

theorem SameOrDiffer.filter_start (h : SameOrDiffer gap gap' stretches stretches')
    (keeps : Start → Bool) :
    SameOrDiffer gap gap' (stretches.filter fun stretch => keeps stretch.start)
      (stretches'.filter fun stretch => keeps stretch.start) := by
  rcases h with rfl | ⟨before, stretch, stretch', after, hdiffer, rfl, rfl⟩
  · exact Or.inl rfl
  · simp only [List.filter_append, List.filter_cons, hdiffer.start_eq]
    split
    · exact Or.inr ⟨_, stretch, stretch', _, hdiffer, rfl, rfl⟩
    · exact Or.inl rfl

end Stretch

namespace Component

variable {tokens tokens' : List Token}

/-- Separators make components of their own. -/
theorem gathers_single (h : ∀ token ∈ tokens, token.kind.isSkipped = true) :
    Gathers tokens (tokens.map single) := by
  induction tokens with
  | nil => exact Gathers.nil
  | cons token rest ih =>
      rw [List.forall_mem_cons] at h
      have hkind : token.kind.opens? = none ∧ token.kind.closes? = none := by
        cases hkind : token.kind <;>
          simp_all [Token.Kind.isSkipped, Token.Kind.opens?, Token.Kind.closes?]
      exact Gathers.cons hkind.1 hkind.2 (ih h.2)

theorem isGap_single (hne : tokens ≠ []) (h : ∀ token ∈ tokens, token.kind.isSkipped = true) :
    IsGap (tokens.map single) where
  ne_nil := by simpa using hne
  exists_single := by
    intro component hcomponent
    obtain ⟨token, htoken, rfl⟩ := List.mem_map.1 hcomponent
    exact ⟨token, rfl, h token htoken⟩

theorem sources_single (tokens : List Token) :
    sources (tokens.map single) = tokens.flatMap Token.source := by
  induction tokens with
  | nil => simp
  | cons token rest ih => simp [ih]

end Component

namespace Stylesheet

/-- What is written in a sheet stays the same, but for one text at most, if a space takes the place
of a comment. -/
theorem outline_spaced {text comment : Text} {front back : List Token}
    (h : Token.ofText text = front ++ ⟨.comment, comment⟩ :: back)
    (hopen : ∀ token ∈ front.getLast?, Token.endsInEscape token.source = false) :
    Outline.SameOrRespelled comment (outline text)
      (outline (front.flatMap Token.source ++ ' ' :: back.flatMap Token.source)) := by
  obtain ⟨kept, white, white', others, rfl, rfl, hspaced⟩ := Token.ofText_spaced h hopen
  -- The comment is one gap with the white space around it, and so is the space in its place.
  let tokens := Token.whiteSpace white ++ ⟨.comment, comment⟩ :: Token.whiteSpace white'
  let tokens' : List Token := [⟨.space, white ++ ' ' :: white'⟩]
  have htokens : ∀ token ∈ tokens, token.kind.isSkipped = true := by
    have hwhite : ∀ white, ∀ token ∈ Token.whiteSpace white, token.kind.isSkipped = true := by
      intro white token htoken
      rw [Token.kind_of_mem_whiteSpace htoken]
      rfl
    rw [List.forall_mem_append, List.forall_mem_cons]
    exact ⟨hwhite white, rfl, hwhite white'⟩
  have htokens' : ∀ token ∈ tokens', token.kind.isSkipped = true := by
    rw [List.forall_mem_singleton]
    rfl
  have hrespaced : Component.Respaced comment (tokens.map .single) (tokens'.map .single) := by
    refine ⟨Component.isGap_single (by simp [tokens]) htokens,
      Component.isGap_single (by simp [tokens']) htokens', white, white', ?_, ?_⟩
    · rw [Component.sources_single, List.flatMap_append, List.flatMap_cons,
        Token.sources_whiteSpace, Token.sources_whiteSpace, List.append_assoc]
    · rw [Component.sources_single, List.flatMap_singleton]
  -- The gap is carried from the tokens to the components, the stretches and the items.
  have hdiffer := Component.differ_ofTokens (Component.gathers_single htokens)
    (Component.gathers_single htokens') kept others
  have hread : Component.ofText text = Component.ofTokens (kept ++ tokens ++ others) := by
    rw [Component.ofText, h]
    congr 1
    simp [tokens]
  have hread' : Component.ofText ((kept ++ Token.whiteSpace white).flatMap Token.source ++
      ' ' :: (Token.whiteSpace white' ++ others).flatMap Token.source) =
      Component.ofTokens (kept ++ tokens' ++ others) := by
    rw [Component.ofText, hspaced]
    congr 1
    simp [tokens']
  rw [← hread, ← hread'] at hdiffer
  have hall := Stretch.all_differ hrespaced.isGap hrespaced.isGap' hdiffer .top
  apply Outline.filterMap_outline?_differ hrespaced
    (hall.dropCharset.filter_start fun start => !start.isCustomDeclaration)
  intro stretch _ content content' _ hcontent
  exact Outline.ofLevel_differ hrespaced hcontent .block

end Stylesheet

end UtilityCss
