import UtilityCss.Component
import Mathlib.Tactic.Common

/-!
# The form of what is read

Grouping tokens into components changes neither their number nor their order
(`tokensOf_ofTokens`), so that whatever holds of every token of a text holds at every depth of its
components.

Components that are read have their brackets in order: an opening token begins a block and stands
nowhere else, a block ends at a bracket of its own kind, and only a block at the end of the input
has no closing bracket (`formed_ofTokens`). Components of this form are read back from their tokens
(`Formed.ofTokens_tokensOf`).

* `Component.tokens` lists the tokens of a component in order, `Component.tokensOf` those of a
  sequence.
* `Component.curlyContents` lists what stands in the curly brackets of a component, at any depth.
* `Component.Formed` is the form of a sequence of components inside a block of some kind.
* `Component.Stands` says where a component stands in a tree of components.
* `Component.IsLevel` holds of the outermost components of a text and of the contents of its blocks.

Every opening token begins a block at its place (`Formed.exists_stands_of_opens`).
-/

set_option autoImplicit false

namespace UtilityCss.Component

mutual
/-- The tokens of a component in order. -/
def tokens : Component → List Token
  | .single token => [token]
  | .block opener content closer => opener :: tokensOf content ++ closer.toList
/-- The tokens of a sequence of components in order. -/
def tokensOf : List Component → List Token
  | [] => []
  | component :: rest => tokens component ++ tokensOf rest
end

@[simp] theorem tokens_single (token : Token) : tokens (.single token) = [token] := by
  rw [tokens]

@[simp] theorem tokens_block (opener : Token) (content : List Component)
    (closer : Option Token) :
    tokens (.block opener content closer) = opener :: tokensOf content ++ closer.toList := by
  rw [tokens]

@[simp] theorem tokensOf_nil : tokensOf [] = [] := by
  rw [tokensOf]

@[simp] theorem tokensOf_cons (component : Component) (rest : List Component) :
    tokensOf (component :: rest) = tokens component ++ tokensOf rest := by
  rw [tokensOf]

@[simp] theorem tokensOf_append (first second : List Component) :
    tokensOf (first ++ second) = tokensOf first ++ tokensOf second := by
  induction first with
  | nil => simp
  | cons component rest ih => simp [ih]

theorem firstToken_mem_tokens (component : Component) :
    component.firstToken ∈ component.tokens := by
  cases component with
  | single token => simp [firstToken]
  | block opener content closer => simp [firstToken]

theorem tokens_subset_of_mem {component : Component} {components : List Component}
    (h : component ∈ components) : component.tokens ⊆ tokensOf components := by
  obtain ⟨before, after, rfl⟩ := List.append_of_mem h
  intro token htoken
  simp [htoken]

theorem closerSource_eq_flatMap (closer : Option Token) :
    closerSource closer = closer.toList.flatMap Token.source := by
  cases closer <;> simp [closerSource]

mutual
/-- The text of a component is that of its tokens. -/
theorem source_eq_flatMap_tokens (component : Component) :
    component.source = component.tokens.flatMap Token.source := by
  cases component with
  | single token => simp
  | block opener content closer =>
      rw [source_block, tokens_block, sources_eq_flatMap_tokensOf content,
        closerSource_eq_flatMap]
      simp
theorem sources_eq_flatMap_tokensOf (components : List Component) :
    sources components = (tokensOf components).flatMap Token.source := by
  cases components with
  | nil => simp
  | cons component rest =>
      rw [sources_cons, tokensOf_cons, List.flatMap_append, source_eq_flatMap_tokens component,
        sources_eq_flatMap_tokensOf rest]
end

/-! ## Reading keeps the tokens -/

namespace Reader

/-- The tokens of the open blocks. -/
def outerTokens : List OpenBlock → List Token
  | [] => []
  | level :: outer => outerTokens outer ++ tokensOf level.before.reverse ++ [level.opener]

/-- The tokens read so far. -/
def tokens (reader : Reader) : List Token :=
  outerTokens reader.outer ++ tokensOf reader.latest.reverse

theorem tokens_step (reader : Reader) (token : Token) :
    (reader.step token).tokens = reader.tokens ++ [token] := by
  unfold step
  split
  · simp [tokens, outerTokens]
  · split
    · simp [tokens, push]
    · rename_i level outer houter
      split
      · simp [tokens, complete, houter, outerTokens]
      · simp [tokens, push]

theorem tokens_foldl (tokens : List Token) (reader : Reader) :
    (tokens.foldl step reader).tokens = reader.tokens ++ tokens := by
  induction tokens generalizing reader with
  | nil => simp
  | cons token rest ih => simp [ih, tokens_step]

theorem tokensOf_finish_aux (outer : List OpenBlock) (latest : List Component) :
    tokensOf (outer.foldl (fun latest level => complete level latest none) latest).reverse =
      outerTokens outer ++ tokensOf latest.reverse := by
  induction outer generalizing latest with
  | nil => simp [outerTokens]
  | cons level outer ih =>
      rw [List.foldl_cons, ih]
      simp [complete, outerTokens]

end Reader

/-- The components of a sequence of tokens have these tokens in this order. -/
theorem tokensOf_ofTokens (tokens : List Token) : tokensOf (ofTokens tokens) = tokens := by
  rw [ofTokens, Reader.finish, Reader.tokensOf_finish_aux]
  have h := Reader.tokens_foldl tokens Reader.start
  rw [Reader.tokens] at h
  simpa [Reader.start, Reader.tokens, Reader.outerTokens] using h

theorem tokensOf_ofText (text : Text) : tokensOf (ofText text) = Token.ofText text :=
  tokensOf_ofTokens (Token.ofText text)

/-! ## Blocks in curly brackets -/

mutual
/-- What stands in the curly brackets of a component, at any depth. -/
def curlyContents : Component → List (List Component)
  | .single _ => []
  | .block opener content _ =>
    if opener.kind = .opening .curly then content :: curlyContentsOf content
    else curlyContentsOf content
/-- What stands in the curly brackets of a sequence of components, at any depth. -/
def curlyContentsOf : List Component → List (List Component)
  | [] => []
  | component :: rest => curlyContents component ++ curlyContentsOf rest
end

mutual
theorem tokensOf_subset_of_mem_curlyContents (component : Component) {content : List Component}
    (h : content ∈ curlyContents component) : tokensOf content ⊆ component.tokens := by
  cases component with
  | single token => simp [curlyContents] at h
  | block opener inside closer =>
      have hinside : content = inside ∨ content ∈ curlyContentsOf inside := by
        rw [curlyContents] at h
        split at h
        · exact List.mem_cons.1 h
        · exact Or.inr h
      rw [tokens_block]
      intro token htoken
      rcases hinside with rfl | hdeep
      · simp [htoken]
      · have := tokensOf_subset_of_mem_curlyContentsOf inside hdeep htoken
        simp [this]
theorem tokensOf_subset_of_mem_curlyContentsOf (components : List Component)
    {content : List Component} (h : content ∈ curlyContentsOf components) :
    tokensOf content ⊆ tokensOf components := by
  cases components with
  | nil => simp [curlyContentsOf] at h
  | cons component rest =>
      rw [curlyContentsOf, List.mem_append] at h
      rw [tokensOf_cons]
      rcases h with hfirst | hrest
      · exact List.subset_append_of_subset_left _
          (tokensOf_subset_of_mem_curlyContents component hfirst)
      · exact List.subset_append_of_subset_right _
          (tokensOf_subset_of_mem_curlyContentsOf rest hrest)
end

/-! ## Brackets in order -/

/-- The components inside a block of the given kind, or on the outermost level. `ended` says that
the input may end inside the last of them. -/
inductive Formed : Option Bracket → Bool → List Component → Prop
  | nil {bracket : Option Bracket} {ended : Bool} : Formed bracket ended []
  | single {bracket : Option Bracket} {ended : Bool} {token : Token} {rest : List Component} :
      token.kind.opens? = none → (token.kind.closes? = none ∨ token.kind.closes? ≠ bracket) →
      Formed bracket ended rest → Formed bracket ended (.single token :: rest)
  | closed {bracket : Option Bracket} {ended : Bool} {opener closer : Token} {inner : Bracket}
      {content rest : List Component} :
      opener.kind.opens? = some inner → closer.kind = .closing inner →
      Formed (some inner) false content → Formed bracket ended rest →
      Formed bracket ended (.block opener content (some closer) :: rest)
  | unclosed {bracket : Option Bracket} {opener : Token} {inner : Bracket}
      {content : List Component} :
      opener.kind.opens? = some inner → Formed (some inner) true content →
      Formed bracket true [.block opener content none]

namespace Formed

variable {bracket : Option Bracket} {ended : Bool} {components first second : List Component}

theorem mono (h : Formed bracket false components) : Formed bracket true components := by
  generalize hended : false = ended at h
  induction h with
  | nil => exact .nil
  | single hopens hcloses _ ih => exact .single hopens hcloses (ih hended)
  | closed hopens hcloser hcontent _ _ ih => exact .closed hopens hcloser hcontent (ih hended)
  | unclosed => cases hended

theorem append (h : Formed bracket false first) (h' : Formed bracket ended second) :
    Formed bracket ended (first ++ second) := by
  generalize hended : false = begun at h
  induction h with
  | nil => exact h'
  | single hopens hcloses _ ih => exact .single hopens hcloses (ih h' hended)
  | closed hopens hcloser hcontent _ _ ih => exact .closed hopens hcloser hcontent (ih h' hended)
  | unclosed => cases hended

/-- What is in order inside a block is in order on the outermost level. -/
theorem outermost (h : Formed bracket ended components) : Formed none ended components := by
  induction h with
  | nil => exact .nil
  | @single _ _ token _ hopens _ _ ih =>
      refine .single hopens ?_ ih
      cases token.kind.closes? with
      | none => exact Or.inl rfl
      | some closes => exact Or.inr (by simp)
  | closed hopens hcloser hcontent _ _ ih => exact .closed hopens hcloser hcontent ih
  | unclosed hopens hcontent _ => exact .unclosed hopens hcontent

/-- The part behind some components is of the same form. -/
theorem of_append (h : Formed bracket ended (first ++ second)) :
    Formed bracket ended second := by
  induction first with
  | nil => exact h
  | cons component first ih =>
      rw [List.cons_append] at h
      generalize hmore : first ++ second = more at h
      cases h with
      | single _ _ hrest => exact ih (hmore ▸ hrest)
      | closed _ _ _ hrest => exact ih (hmore ▸ hrest)
      | unclosed _ _ =>
          rw [(List.append_eq_nil_iff.1 hmore).2]
          exact .nil

end Formed

/-! ## What is read is in order -/

namespace Reader

/-- The bracket of the innermost open block. -/
def bracket (outer : List OpenBlock) : Option Bracket :=
  outer.head?.map OpenBlock.bracket

/-- What stands before each of the open blocks is in order. -/
def FormedOuter : List OpenBlock → Prop
  | [] => True
  | level :: outer =>
    level.opener.kind.opens? = some level.bracket ∧
      Formed (bracket outer) false level.before.reverse ∧ FormedOuter outer

/-- What has been read is in order. -/
def Formed (reader : Reader) : Prop :=
  Component.Formed (bracket reader.outer) false reader.latest.reverse ∧ FormedOuter reader.outer

theorem formed_start : start.Formed :=
  ⟨.nil, trivial⟩

theorem Formed.push {reader : Reader} (h : reader.Formed) {token : Token}
    (hopens : token.kind.opens? = none)
    (hcloses : token.kind.closes? = none ∨ token.kind.closes? ≠ bracket reader.outer) :
    (reader.push (.single token)).Formed := by
  refine ⟨?_, h.2⟩
  rw [Reader.push, List.reverse_cons]
  exact h.1.append (.single hopens hcloses .nil)

theorem Formed.step {reader : Reader} (h : reader.Formed) (token : Token) :
    (reader.step token).Formed := by
  unfold Reader.step
  split
  · -- An opening token begins a level.
    rename_i inner hopens
    exact ⟨.nil, hopens, h.1, h.2⟩
  · rename_i hopens
    split
    · rename_i houter
      refine h.push hopens ?_
      rw [houter]
      cases token.kind.closes? with
      | none => exact Or.inl rfl
      | some closes => exact Or.inr (by simp [bracket])
    · rename_i level outer houter
      obtain ⟨hlatest, hlevels⟩ := h
      rw [houter] at hlatest hlevels
      obtain ⟨hopener, hbefore, hlevels⟩ := hlevels
      split
      · -- The token closes its level, and the block joins the level outside.
        rename_i hcloses
        have hkind : token.kind = .closing level.bracket := by
          cases hkind : token.kind <;> rw [hkind] at hcloses <;> cases hcloses
          rfl
        refine ⟨?_, hlevels⟩
        rw [complete, List.reverse_cons]
        exact hbefore.append (.closed hopener hkind hlatest .nil)
      · -- Any other token joins its level.
        rename_i hcloses
        refine Formed.push ⟨by rwa [houter], by rw [houter]; exact ⟨hopener, hbefore, hlevels⟩⟩
          hopens (Or.inr ?_)
        rw [houter]
        exact hcloses

theorem formed_foldl {reader : Reader} (h : reader.Formed) (tokens : List Token) :
    (tokens.foldl Reader.step reader).Formed := by
  induction tokens generalizing reader with
  | nil => exact h
  | cons token rest ih => exact ih (h.step token)

/-- The end of the input ends all open blocks. -/
theorem formed_foldl_complete {outer : List OpenBlock} {latest : List Component}
    (hlatest : Component.Formed (bracket outer) true latest.reverse) (houter : FormedOuter outer) :
    Component.Formed none true
      (outer.foldl (fun latest level => complete level latest none) latest).reverse := by
  induction outer generalizing latest with
  | nil => exact hlatest
  | cons level outer ih =>
      obtain ⟨hopener, hbefore, houter⟩ := houter
      rw [List.foldl_cons]
      refine ih ?_ houter
      rw [complete, List.reverse_cons]
      exact hbefore.append (.unclosed hopener hlatest)

end Reader

/-- What is read from tokens is in order. -/
theorem formed_ofTokens (tokens : List Token) : Formed none true (ofTokens tokens) := by
  obtain ⟨hlatest, houter⟩ := Reader.formed_foldl Reader.formed_start tokens
  exact Reader.formed_foldl_complete hlatest.mono houter

theorem formed_ofText (text : Text) : Formed none true (ofText text) :=
  formed_ofTokens (Token.ofText text)

/-! ## What is in order is read back -/

namespace Reader

theorem step_opening {token : Token} {inner : Bracket} (h : token.kind.opens? = some inner)
    (reader : Reader) :
    reader.step token = ⟨[], ⟨token, inner, reader.latest⟩ :: reader.outer⟩ := by
  rw [Reader.step, h]

theorem step_single {reader : Reader} {token : Token} (hopens : token.kind.opens? = none)
    (hcloses : token.kind.closes? = none ∨ token.kind.closes? ≠ bracket reader.outer) :
    reader.step token = reader.push (.single token) := by
  obtain ⟨latest, outer⟩ := reader
  cases outer with
  | nil => simp [Reader.step, hopens]
  | cons level outer =>
      have hne : token.kind.closes? ≠ some level.bracket := by
        rcases hcloses with hnone | hne
        · rw [hnone]
          simp
        · exact hne
      simp [Reader.step, hopens, hne]

theorem step_closing {token opener : Token} {inner : Bracket} {latest before : List Component}
    {outer : List OpenBlock} (h : token.kind = .closing inner) :
    step ⟨latest, ⟨opener, inner, before⟩ :: outer⟩ token =
      ⟨.block opener latest.reverse (some token) :: before, outer⟩ := by
  have hopens : token.kind.opens? = none := by rw [h]; rfl
  have hcloses : token.kind.closes? = some inner := by rw [h]; rfl
  simp [Reader.step, hopens, hcloses, complete]

end Reader

namespace Formed

variable {bracket : Option Bracket} {ended : Bool} {components : List Component}

/-- The tokens of components in order are read as these, on the level where they stand. -/
theorem foldl_step (h : Formed bracket ended components) (hended : ended = false)
    (reader : Reader) (hreader : Reader.bracket reader.outer = bracket) :
    (tokensOf components).foldl Reader.step reader =
      { reader with latest := components.reverse ++ reader.latest } := by
  induction h generalizing reader with
  | nil => simp
  | @single _ _ token rest hopens hcloses _ ih =>
      rw [tokensOf_cons, tokens_single, List.singleton_append, List.foldl_cons,
        Reader.step_single hopens (by rwa [hreader]), ih hended (reader.push _) hreader]
      simp [Reader.push]
  | @closed _ _ opener closer inner content rest hopens hcloser _ _ ihContent ihRest =>
      rw [tokensOf_cons, tokens_block, List.foldl_append, List.foldl_append, List.foldl_cons,
        Reader.step_opening hopens, ihContent rfl _ rfl, Option.toList_some, List.foldl_cons,
        List.foldl_nil, Reader.step_closing hcloser, List.append_nil, List.reverse_reverse]
      have hrest := ihRest hended (reader.push (.block opener content (some closer))) hreader
      simpa [Reader.push] using hrest
  | unclosed => cases hended

/-- At the end of the input, the tokens of components in order are read as these. -/
theorem finish_foldl_step (h : Formed bracket ended components) (reader : Reader)
    (hreader : Reader.bracket reader.outer = bracket) :
    ((tokensOf components).foldl Reader.step reader).finish =
      Reader.finish { reader with latest := components.reverse ++ reader.latest } := by
  induction h generalizing reader with
  | nil => simp
  | @single _ _ token rest hopens hcloses _ ih =>
      rw [tokensOf_cons, tokens_single, List.singleton_append, List.foldl_cons,
        Reader.step_single hopens (by rwa [hreader]), ih (reader.push _) hreader]
      simp [Reader.push]
  | @closed _ _ opener closer inner content rest hopens hcloser hcontent _ _ ih =>
      rw [tokensOf_cons, tokens_block, List.foldl_append, List.foldl_append, List.foldl_cons,
        Reader.step_opening hopens, hcontent.foldl_step rfl _ rfl, Option.toList_some,
        List.foldl_cons, List.foldl_nil, Reader.step_closing hcloser, List.append_nil,
        List.reverse_reverse]
      have hrest := ih (reader.push (.block opener content (some closer))) hreader
      simpa [Reader.push] using hrest
  | @unclosed _ opener inner content hopens _ ih =>
      -- The block is still open when its content has been read.
      rw [tokensOf_cons, tokens_block, tokensOf_nil, List.append_nil, Option.toList_none,
        List.append_nil, List.foldl_cons, Reader.step_opening hopens, ih _ rfl]
      simp [Reader.finish, Reader.complete]

/-- Components in order are what is read from their tokens. -/
theorem ofTokens_tokensOf (h : Formed bracket ended components) :
    ofTokens (tokensOf components) = components := by
  have hfinish := h.outermost.finish_foldl_step Reader.start rfl
  rw [ofTokens, hfinish]
  simp [Reader.finish, Reader.start]

end Formed

/-! ## Where components stand -/

/-- A member of two lists together is in the first or in the second one. -/
theorem split_of_append_eq {α : Type} {first second before after : List α} {a : α}
    (h : first ++ second = before ++ a :: after) :
    (∃ after', first = before ++ a :: after') ∨
      ∃ before', before = first ++ before' ∧ second = before' ++ a :: after := by
  rcases List.append_eq_append_iff.1 h with ⟨before', hbefore, hsecond⟩ | ⟨tail, hfirst, htail⟩
  · exact Or.inr ⟨before', hbefore, hsecond⟩
  · rcases List.cons_eq_append_iff.1 htail with ⟨rfl, hsecond⟩ | ⟨after', rfl, -⟩
    · exact Or.inr ⟨[], by simpa using hfirst.symm, by simpa using hsecond⟩
    · exact Or.inl ⟨after', hfirst⟩

/-- The component stands in the tree, with the text `front` of the tree in front of it, behind the
components `before` and before the components `after` of its own level. -/
inductive Stands : List Component → Text → List Component → Component → List Component → Prop
  | here (before : List Component) (component : Component) (after : List Component) :
      Stands (before ++ component :: after) (sources before) before component after
  | inside {content before after : List Component} {front : Text} {component : Component}
      (earlier : List Component) (opener : Token) (closer : Option Token)
      (later : List Component) : Stands content front before component after →
      Stands (earlier ++ .block opener content closer :: later)
        (sources earlier ++ opener.source ++ front) before component after

namespace Stands

variable {components before after : List Component} {front : Text} {component : Component}

theorem append_left (h : Stands components front before component after)
    (earlier : List Component) :
    ∃ before', Stands (earlier ++ components) (sources earlier ++ front) before' component
      after := by
  cases h with
  | here =>
      refine ⟨earlier ++ before, ?_⟩
      have hhere := here (earlier ++ before) component after
      rwa [List.append_assoc, sources_append] at hhere
  | inside between opener closer later hcontent =>
      refine ⟨before, ?_⟩
      have hinside := inside (earlier ++ between) opener closer later hcontent
      rwa [List.append_assoc, sources_append, List.append_assoc, List.append_assoc,
        ← List.append_assoc (sources between)] at hinside

theorem append_right (h : Stands components front before component after)
    (later : List Component) :
    ∃ after', Stands (components ++ later) front before component after' := by
  cases h with
  | here =>
      refine ⟨after ++ later, ?_⟩
      have hhere := here before component (after ++ later)
      rwa [← List.cons_append, ← List.append_assoc] at hhere
  | inside earlier opener closer between hcontent =>
      refine ⟨after, ?_⟩
      have hinside := inside earlier opener closer (between ++ later) hcontent
      rwa [← List.cons_append, ← List.append_assoc] at hinside

/-- What stands in two sequences together stands in one of them. -/
theorem of_append {first second : List Component}
    (h : Stands (first ++ second) front before component after) :
    (∃ after', Stands first front before component after') ∨
      ∃ front' before', front = sources first ++ front' ∧
        Stands second front' before' component after := by
  generalize hwhole : first ++ second = whole at h
  cases h with
  | here before component after =>
      rcases split_of_append_eq hwhole with ⟨after', rfl⟩ | ⟨before', rfl, rfl⟩
      · exact Or.inl ⟨after', here before component after'⟩
      · exact Or.inr ⟨sources before', before', by simp, here before' component after⟩
  | inside earlier opener closer later hcontent =>
      rcases split_of_append_eq hwhole with ⟨later', rfl⟩ | ⟨earlier', rfl, rfl⟩
      · exact Or.inl ⟨after, inside earlier opener closer later' hcontent⟩
      · exact Or.inr ⟨_, before, by simp, inside earlier' opener closer later hcontent⟩

theorem not_nil : ¬ Stands [] front before component after := by
  generalize hnil : ([] : List Component) = whole
  intro h
  cases h with
  | here => simp at hnil
  | inside => simp at hnil

/-- What stands in one component is this component, or stands inside. -/
theorem of_singleton {whole : Component} (h : Stands [whole] front before component after) :
    (front = [] ∧ component = whole) ∨
      ∃ opener content closer front', whole = .block opener content closer ∧
        front = opener.source ++ front' ∧ Stands content front' before component after := by
  generalize hwhole : [whole] = components at h
  cases h with
  | here before component after =>
      rcases List.append_eq_singleton_iff.1 hwhole.symm with ⟨rfl, h⟩ | ⟨-, h⟩
      · exact Or.inl ⟨rfl, (List.cons.inj h).1⟩
      · cases h
  | @inside content _ _ front' _ earlier opener closer later hcontent =>
      rcases List.append_eq_singleton_iff.1 hwhole.symm with ⟨rfl, h⟩ | ⟨-, h⟩
      · exact Or.inr ⟨opener, content, closer, front', (List.cons.inj h).1.symm, by simp, hcontent⟩
      · cases h

/-- A component stands at a part of the text of the tree. -/
theorem exists_sources_eq (h : Stands components front before component after) :
    ∃ back, sources components = front ++ (component.source ++ back) := by
  induction h with
  | here before component after => exact ⟨sources after, by simp⟩
  | inside earlier opener closer later _ ih =>
      obtain ⟨back, hback⟩ := ih
      exact ⟨back ++ closerSource closer ++ sources later, by simp [hback]⟩

theorem tokens_subset (h : Stands components front before component after) :
    component.tokens ⊆ tokensOf components := by
  induction h with
  | here => exact tokens_subset_of_mem (by simp)
  | inside earlier opener closer later _ ih =>
      intro token htoken
      have hinside := ih htoken
      simp [hinside]

end Stands

/-- An opening token of a block is the token that begins the block, or stands inside it. -/
theorem split_of_tokens_block {first opener : Token} {inside : List Component}
    {closer : Option Token} {tokens later : List Token}
    (hcloser : ∀ token ∈ closer, token.kind.opens? = none)
    (htokens : (block first inside closer).tokens = tokens ++ opener :: later)
    (hopens : opener.kind.opens?.isSome = true) :
    (tokens = [] ∧ opener = first) ∨
      ∃ tokens' later', tokens = first :: tokens' ∧
        tokensOf inside = tokens' ++ opener :: later' := by
  rw [tokens_block, List.cons_append] at htokens
  rcases List.cons_eq_append_iff.1 htokens with ⟨rfl, hfirst⟩ | ⟨tokens', rfl, hrest⟩
  · exact Or.inl ⟨rfl, (List.cons.inj hfirst).1⟩
  · rcases split_of_append_eq hrest with ⟨later', hinside⟩ | ⟨more, -, hmore⟩
    · exact Or.inr ⟨tokens', later', rfl, hinside⟩
    · have hmem : opener ∈ closer.toList := by simp [hmore]
      rw [hcloser opener (by simpa using hmem)] at hopens
      cases hopens

/-- Every opening token begins a block at its place, which goes on to the end of the input if it is
not closed. -/
theorem Formed.exists_stands_of_opens {bracket : Option Bracket} {ended : Bool}
    {components : List Component} (h : Formed bracket ended components) {opener : Token}
    {tokens later : List Token} (htokens : tokensOf components = tokens ++ opener :: later)
    (hopens : opener.kind.opens?.isSome = true) :
    ∃ before content closer after,
      Stands components (tokens.flatMap Token.source) before (.block opener content closer)
        after := by
  -- The token begins the first block, or stands inside it or behind it.
  induction h generalizing tokens later with
  | nil => simp at htokens
  | @single _ _ token rest hsingle _ _ ih =>
      rw [tokensOf_cons, tokens_single, List.singleton_append] at htokens
      rcases List.cons_eq_append_iff.1 htokens with ⟨rfl, hfirst⟩ | ⟨tokens', rfl, hrest⟩
      · obtain ⟨rfl, -⟩ := List.cons.inj hfirst
        rw [hsingle] at hopens
        cases hopens
      · obtain ⟨before, content, closer, after, hstands⟩ := ih hrest
        obtain ⟨before', hstands'⟩ := hstands.append_left [.single token]
        exact ⟨before', content, closer, after, by simpa using hstands'⟩
  | @closed _ _ first closer inner inside rest _ hcloser _ _ ihInside ihRest =>
      rw [tokensOf_cons] at htokens
      rcases split_of_append_eq htokens with ⟨later', hblock⟩ | ⟨tokens', rfl, hrest⟩
      · have hnone : ∀ token ∈ some closer, token.kind.opens? = none := by
          simp [hcloser, Token.Kind.opens?]
        rcases split_of_tokens_block hnone hblock hopens with
          ⟨rfl, rfl⟩ | ⟨tokens', later', rfl, hinside⟩
        · exact ⟨[], inside, some closer, rest, by simpa using Stands.here [] _ rest⟩
        · obtain ⟨before, content, closer', after, hstands⟩ := ihInside hinside
          exact ⟨before, content, closer', after,
            by simpa using Stands.inside [] first (some closer) rest hstands⟩
      · obtain ⟨before, content, closer', after, hstands⟩ := ihRest hrest
        obtain ⟨before', hstands'⟩ := hstands.append_left [.block first inside (some closer)]
        refine ⟨before', content, closer', after, ?_⟩
        rw [List.flatMap_append, ← source_eq_flatMap_tokens]
        simpa using hstands'
  | @unclosed _ first inner inside _ _ ih =>
      rw [tokensOf_cons, tokensOf_nil, List.append_nil] at htokens
      rcases split_of_tokens_block (by simp) htokens hopens with
        ⟨rfl, rfl⟩ | ⟨tokens', later', rfl, hinside⟩
      · exact ⟨[], inside, none, [], by simpa using Stands.here [] _ []⟩
      · obtain ⟨before, content, closer', after, hstands⟩ := ih hinside
        exact ⟨before, content, closer', after,
          by simpa using Stands.inside [] first none [] hstands⟩

/-! ## Levels -/

/-- What stands on one level of what is read from a text: the outermost components, or those that
a block holds. -/
inductive IsLevel (text : Text) : List Component → Prop
  | outermost : IsLevel text (ofText text)
  | inside {level content : List Component} {opener : Token} {closer : Option Token} :
      IsLevel text level → .block opener content closer ∈ level → IsLevel text content

namespace IsLevel

variable {text : Text} {level : List Component}

theorem of_tokens {tokens : List Token} (h : Token.ofText text = tokens) :
    IsLevel text (ofTokens tokens) := by
  rw [← h]
  exact .outermost

theorem exists_formed (h : IsLevel text level) :
    ∃ bracket ended, Formed bracket ended level := by
  induction h with
  | outermost => exact ⟨none, true, formed_ofText text⟩
  | inside _ hmem ih =>
      obtain ⟨bracket, ended, hformed⟩ := ih
      obtain ⟨before, after, rfl⟩ := List.append_of_mem hmem
      cases hformed.of_append with
      | @closed _ _ _ _ inner _ _ _ _ hcontent _ => exact ⟨some inner, false, hcontent⟩
      | @unclosed _ _ inner _ _ hcontent => exact ⟨some inner, true, hcontent⟩

theorem tokensOf_subset (h : IsLevel text level) : tokensOf level ⊆ Token.ofText text := by
  induction h with
  | outermost => rw [tokensOf_ofText]; exact List.Subset.refl _
  | @inside level content opener closer _ hmem ih =>
      intro token htoken
      have hblock := tokens_subset_of_mem hmem
      rw [tokens_block] at hblock
      exact ih (hblock (by simp [htoken]))

end IsLevel

end UtilityCss.Component
