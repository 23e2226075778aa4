import UtilityCss.Proofs.Component.Framed
import UtilityCss.Proofs.Rule.Outline

/-!
# Stretches that differ in one place

White space and comments do not decide how a level is cut into stretches, nor how a stretch begins.
So where the components of a level differ by such separators in one place, its stretches differ in
one of them, or not at all (`Stretch.all_differ`).

* `Component.IsGap` says that components only separate others.
* `Component.Exchange` is what differs on a level: the separators, or a block that holds them.
* `Stretch.Differ` relates the two stretches in which the place is.
-/

set_option autoImplicit false

namespace UtilityCss

/-! ## Separators -/

/-- Components that only separate others, and at least one of them. -/
structure Component.IsGap (gap : List Component) : Prop where
  ne_nil : gap ≠ []
  exists_single : ∀ component ∈ gap, ∃ token, component = .single token ∧
    token.kind.isSkipped = true

namespace Component.IsGap

variable {gap : List Component}

theorem isSkipped (h : IsGap gap) {component : Component} (hmem : component ∈ gap) :
    component.firstToken.kind.isSkipped = true := by
  obtain ⟨token, rfl, hskipped⟩ := h.exists_single component hmem
  exact hskipped

theorem skips (h : IsGap gap) (level : Level) {component : Component} (hmem : component ∈ gap) :
    Stretch.skips level component = true := by
  have hskipped := h.isSkipped hmem
  rw [← Part.token_ofComponent] at hskipped
  cases level <;> simp [Stretch.skips, Item.skips, Part.isSkipped, hskipped]

theorem goesOn (h : IsGap gap) (level : Level) (start : Start) {component : Component}
    (hmem : component ∈ gap) : Stretch.goesOn level start component = true := by
  have hbody : (Part.ofComponent component).HasCurlyBody := by
    obtain ⟨token, rfl, -⟩ := h.exists_single component hmem
    rw [Part.ofComponent]
    intro hsome
    cases hsome
  have hskipped := h.isSkipped hmem
  rw [← Part.token_ofComponent] at hskipped
  rw [Stretch.goesOn, Item.ends_eq_false_of_isSkipped hbody hskipped]
  rfl

end Component.IsGap

/-- The components at which two sequences differ on a level: the separators themselves, or the block
that holds them. -/
inductive Component.Exchange (gap gap' : List Component) : List Component → List Component → Prop
  | gap : Exchange gap gap' gap gap'
  | block {opener : Token} {content content' : List Component} (closer : Option Token) :
      opener.kind.opens?.isSome = true → Differ gap gap' content content' →
      Exchange gap gap' [.block opener content closer] [.block opener content' closer]

namespace Component.Exchange

variable {gap gap' between between' : List Component}

theorem differ (h : Exchange gap gap' between between') (front back : List Component) :
    Differ gap gap' (front ++ between ++ back) (front ++ between' ++ back) := by
  cases h with
  | gap => exact .here front back
  | block closer hopens hcontent =>
      simp only [List.append_assoc, List.singleton_append]
      exact .inside front back closer hopens hcontent

theorem ne_nil (h : Exchange gap gap' between between') (hgap : IsGap gap) (hgap' : IsGap gap') :
    between ≠ [] ∧ between' ≠ [] := by
  cases h with
  | gap => exact ⟨hgap.ne_nil, hgap'.ne_nil⟩
  | block closer hopens hcontent => exact ⟨List.cons_ne_nil _ _, List.cons_ne_nil _ _⟩

end Component.Exchange

theorem Component.Differ.exists_exchange {gap gap' components components' : List Component}
    (h : Differ gap gap' components components') :
    ∃ front between between' back, Exchange gap gap' between between' ∧
      components = front ++ between ++ back ∧ components' = front ++ between' ++ back := by
  cases h with
  | here front back => exact ⟨front, _, _, back, .gap, rfl, rfl⟩
  | inside front back closer hopens hcontent =>
      exact ⟨front, _, _, back, .block closer hopens hcontent, by simp, by simp⟩

namespace Stretch

variable {level : Level} {gap gap' : List Component}

/-! ## How a stretch begins -/

theorem startOf_atKeyword {head : Component} {name : Text}
    (h : head.firstToken.kind = .atKeyword name) (rest : List Component) :
    startOf (head :: rest) = (.atRule name, Part.ofComponents rest) := by
  rw [startOf, Part.ofComponents]
  exact Start.ofParts_of_atKeyword (by rw [Part.token_ofComponent, h])

theorem startOf_other {head : Component} (hat : ∀ name, head.firstToken.kind ≠ .atKeyword name)
    (hident : ∀ name, head.firstToken.kind ≠ .ident name) (rest : List Component) :
    startOf (head :: rest) = (.plain, Part.ofComponents (head :: rest)) := by
  rw [startOf, Part.ofComponents]
  exact Start.ofParts_of_other (by simpa only [Part.token_ofComponent])
    (by simpa only [Part.token_ofComponent])

/-- What an identifier begins is decided by what follows the separators behind it. -/
theorem startOf_ident {head : Component} {name : Text}
    (h : head.firstToken.kind = .ident name) (rest : List Component) :
    startOf (head :: rest) =
      match rest.dropWhile (fun component => component.firstToken.kind.isSkipped) with
      | [] => (.plain, Part.ofComponents (head :: rest))
      | mark :: value =>
        if mark.firstToken.kind = .colon then (.declaration name, Part.ofComponents value)
        else (.plain, Part.ofComponents (head :: rest)) := by
  -- Components and their parts are skipped alike.
  have hdrop : (Part.ofComponents rest).dropWhile Part.isSkipped = Part.ofComponents
      (rest.dropWhile fun component => component.firstToken.kind.isSkipped) := by
    rw [Part.ofComponents_eq_map, Part.ofComponents_eq_map, List.dropWhile_map]
    congr 2
    funext component
    rw [Function.comp_apply, Part.isSkipped, Part.token_ofComponent]
  have hkind : (Part.ofComponent head).token.kind = .ident name := by
    rw [Part.token_ofComponent, h]
  rw [startOf, Part.ofComponents]
  split
  · rename_i hnil
    rw [hnil, Part.ofComponents] at hdrop
    exact Start.ofParts_of_not_colon hkind (by simp [hdrop])
  · rename_i mark value hcons
    rw [hcons, Part.ofComponents] at hdrop
    split
    · rename_i hcolon
      exact Start.ofParts_of_colon hkind hdrop (by rw [Part.token_ofComponent, hcolon])
    · rename_i hcolon
      apply Start.ofParts_of_not_colon hkind
      intro found hfound
      rw [hdrop] at hfound
      cases hfound
      rwa [Part.token_ofComponent]

/-- Whether components follow a beginning that differ in one place, or the same ones. -/
def SameStart (gap gap' components components' : List Component) : Prop :=
  ∃ start rest rest', startOf components = (start, Part.ofComponents rest) ∧
    startOf components' = (start, Part.ofComponents rest') ∧
    (rest = rest' ∨ Component.Differ gap gap' rest rest')

/-- A block is no separator, and it begins neither an at-rule nor a declaration. -/
theorem startOf_block {opener : Token} (hopens : opener.kind.opens?.isSome = true)
    (content : List Component) (closer : Option Token) (rest : List Component) :
    startOf (.block opener content closer :: rest) =
      (.plain, Part.ofComponents (.block opener content closer :: rest)) := by
  apply startOf_other
  · intro name hkind
    rw [Component.firstToken] at hkind
    rw [hkind] at hopens
    cases hopens
  · intro name hkind
    rw [Component.firstToken] at hkind
    rw [hkind] at hopens
    cases hopens

variable {between between' : List Component}

/-- What follows the separators in front is the same, or its first component is the same and the
place lies behind, or a block that is no colon comes first. -/
theorem dropWhile_isSkipped_exchange (hgap : Component.IsGap gap) (hgap' : Component.IsGap gap')
    (h : Component.Exchange gap gap' between between') (front back : List Component) :
    let skipped := fun component : Component => component.firstToken.kind.isSkipped
    (front ++ between ++ back).dropWhile skipped = (front ++ between' ++ back).dropWhile skipped ∨
      ∃ mark mark' value value',
        (front ++ between ++ back).dropWhile skipped = mark :: value ∧
        (front ++ between' ++ back).dropWhile skipped = mark' :: value' ∧
        mark.firstToken = mark'.firstToken ∧
        (mark.firstToken.kind = .colon → Component.Differ gap gap' value value') := by
  intro skipped
  cases hfront : front.dropWhile skipped with
  | nil =>
      have hall : ∀ component ∈ front, skipped component = true := by
        rwa [List.dropWhile_eq_nil_iff] at hfront
      simp only [List.append_assoc, List.dropWhile_append_of_pos hall]
      cases h with
      | gap =>
          -- Only separators change, and all of them are dropped.
          left
          rw [List.dropWhile_append_of_pos fun _ => hgap.isSkipped,
            List.dropWhile_append_of_pos fun _ => hgap'.isSkipped]
      | @block opener content content' closer hopens hcontent =>
          have hopener : opener.kind.isSkipped = false ∧ opener.kind ≠ .colon := by
            cases hkind : opener.kind <;> simp_all [Token.Kind.opens?, Token.Kind.isSkipped]
          -- A block is no separator, so that the one that changes comes first.
          right
          refine ⟨.block opener content closer, .block opener content' closer, back, back,
            ?_, ?_, rfl, fun hcolon => absurd hcolon hopener.2⟩
          · rw [List.singleton_append, List.dropWhile_cons_of_neg (by simp [skipped,
              Component.firstToken, hopener.1])]
          · rw [List.singleton_append, List.dropWhile_cons_of_neg (by simp [skipped,
              Component.firstToken, hopener.1])]
  | cons mark value =>
      -- What comes first stands before the place.
      right
      have hbegun : ∀ more, (front ++ more).dropWhile skipped = mark :: (value ++ more) := by
        intro more
        rw [List.dropWhile_append, hfront]
        rfl
      refine ⟨mark, mark, value ++ between ++ back, value ++ between' ++ back, ?_, ?_, rfl,
        fun _ => h.differ value back⟩
      · rw [List.append_assoc, hbegun, List.append_assoc]
      · rw [List.append_assoc, hbegun, List.append_assoc]

/-- A place that is behind the first component, or inside of it, changes at most what follows the
beginning. -/
theorem sameStart_of_differ {components components' : List Component} (hgap : Component.IsGap gap)
    (hgap' : Component.IsGap gap') (h : Component.Differ gap gap' components components')
    (hhead : ∀ component ∈ components.head?, component.firstToken.kind.isSkipped = false) :
    SameStart gap gap' components components' := by
  obtain ⟨front, between, between', back, hexchange, rfl, rfl⟩ := h.exists_exchange
  cases front with
  | nil =>
      cases hexchange with
      | gap =>
          -- A gap is skipped and begins nothing.
          obtain ⟨component, rest, rfl⟩ := List.exists_cons_of_ne_nil hgap.ne_nil
          have hskipped := hgap.isSkipped List.mem_cons_self
          rw [hhead component rfl] at hskipped
          cases hskipped
      | block closer hopens hcontent =>
          exact ⟨.plain, _, _, startOf_block hopens _ closer back,
            startOf_block hopens _ closer back, Or.inr h⟩
  | cons head front =>
      simp only [List.cons_append] at h ⊢
      -- An at-keyword decides alone, an identifier with the colon behind it.
      by_cases hat : ∃ name, head.firstToken.kind = .atKeyword name
      · obtain ⟨name, hkind⟩ := hat
        exact ⟨.atRule name, _, _, startOf_atKeyword hkind _, startOf_atKeyword hkind _,
          Or.inr (hexchange.differ front back)⟩
      rw [not_exists] at hat
      by_cases hident : ∃ name, head.firstToken.kind = .ident name
      · obtain ⟨name, hkind⟩ := hident
        rw [SameStart, startOf_ident hkind, startOf_ident hkind]
        rcases dropWhile_isSkipped_exchange hgap hgap' hexchange front back with
          hsame | ⟨mark, mark', value, value', hvalue, hvalue', hmark, hdiffer⟩
        · rw [hsame]
          split
          · exact ⟨.plain, _, _, rfl, rfl, Or.inr h⟩
          · split
            · exact ⟨.declaration name, _, _, rfl, rfl, Or.inl rfl⟩
            · exact ⟨.plain, _, _, rfl, rfl, Or.inr h⟩
        · rw [hvalue, hvalue']
          dsimp only
          rw [← hmark]
          split
          · rename_i hcolon
            exact ⟨.declaration name, _, _, rfl, rfl, Or.inr (hdiffer hcolon)⟩
          · exact ⟨.plain, _, _, rfl, rfl, Or.inr h⟩
      · rw [not_exists] at hident
        exact ⟨.plain, _, _, startOf_other hat hident _, startOf_other hat hident _, Or.inr h⟩

/-! ## How a level is cut -/

/-- A list up to the first element without a property. -/
theorem exists_of_dropWhile_eq_cons {α : Type} {p : α → Bool} {list : List α} {last : α}
    {after : List α} (h : list.dropWhile p = last :: after) :
    ∃ taken, list = taken ++ last :: after ∧ (∀ c ∈ taken, p c = true) ∧ p last = false := by
  refine ⟨list.takeWhile p, ?_, fun c hc => List.mem_takeWhile_imp hc, ?_⟩
  · rw [← h, List.takeWhile_append_dropWhile]
  · have hlast := List.head?_dropWhile_not p list
    simpa [h] using hlast

variable {begun taken after : List Component} {last : Component}

theorem all_append_of_skips {lead : List Component} (h : ∀ c ∈ lead, skips level c = true)
    (rest : List Component) : all level (lead ++ rest) = all level rest := by
  rw [all, all, List.dropWhile_append_of_pos h]

theorem dropWhile_skips_eq_self (hhead : ∀ c ∈ begun.head?, skips level c = false) :
    begun.dropWhile (skips level) = begun := by
  cases begun with
  | nil => rfl
  | cons head rest => rw [List.dropWhile_cons_of_neg (by simp [hhead head rfl])]

/-- Components that nothing ends are one stretch. -/
theorem all_eq_singleton (hne : begun ≠ []) (hhead : ∀ c ∈ begun.head?, skips level c = false)
    (hon : ∀ c ∈ begun, goesOn level (startOf begun).1 c = true) :
    all level begun = [⟨begun, none⟩] := by
  have hbegun := dropWhile_skips_eq_self hhead
  have hended : begun.dropWhile (goesOn level (startOf begun).1) = [] := by
    rwa [List.dropWhile_eq_nil_iff]
  rw [all]
  simp only [hbegun, List.isEmpty_eq_false_iff.2 hne, Bool.false_eq_true, if_false]
  split
  · rfl
  · rename_i found others hfound
    rw [hbegun, hended] at hfound
    cases hfound

/-- A component that ends a stretch leaves what follows to the others. -/
theorem all_eq_cons (hbegun : begun = taken ++ last :: after)
    (hhead : ∀ c ∈ begun.head?, skips level c = false)
    (hon : ∀ c ∈ taken, goesOn level (startOf begun).1 c = true)
    (hlast : goesOn level (startOf begun).1 last = false) :
    all level begun = ⟨taken, last.curlyContent?⟩ :: all level after := by
  have hne : begun ≠ [] := by
    rw [hbegun]
    simp
  have hskips := dropWhile_skips_eq_self hhead
  have hended : begun.dropWhile (goesOn level (startOf begun).1) = last :: after := by
    generalize goesOn level (startOf begun).1 = inside at hon hlast
    rw [hbegun, List.dropWhile_append_of_pos hon, List.dropWhile_cons_of_neg (by simp [hlast])]
  have htaken : begun.takeWhile (goesOn level (startOf begun).1) = taken := by
    generalize goesOn level (startOf begun).1 = inside at hon hlast
    rw [hbegun, List.takeWhile_append_of_pos hon, List.takeWhile_cons_of_neg (by simp [hlast]),
      List.append_nil]
  rw [all]
  simp only [hskips, List.isEmpty_eq_false_iff.2 hne, Bool.false_eq_true, if_false]
  split
  · rename_i hnone
    rw [hskips, hended] at hnone
    cases hnone
  · rename_i found others hfound
    rw [hskips, hended] at hfound
    cases hfound
    rw [htaken]

/-- Two stretches that differ in one place: among their components, or in the block that ended
them. -/
inductive Differ (gap gap' : List Component) : Stretch → Stretch → Prop
  | parts {parts parts' : List Component} (block : Option (List Component)) :
      Component.Differ gap gap' parts parts' → SameStart gap gap' parts parts' →
      Differ gap gap' ⟨parts, block⟩ ⟨parts', block⟩
  | block {content content' : List Component} (parts : List Component) :
      Component.Differ gap gap' content content' →
      Differ gap gap' ⟨parts, some content⟩ ⟨parts, some content'⟩

/-- Two sequences of stretches that differ in one place, or not at all. -/
def SameOrDiffer (gap gap' : List Component) (stretches stretches' : List Stretch) : Prop :=
  stretches = stretches' ∨ ∃ before stretch stretch' after, Differ gap gap' stretch stretch' ∧
    stretches = before ++ stretch :: after ∧ stretches' = before ++ stretch' :: after

theorem SameOrDiffer.cons {stretches stretches' : List Stretch}
    (h : SameOrDiffer gap gap' stretches stretches') (stretch : Stretch) :
    SameOrDiffer gap gap' (stretch :: stretches) (stretch :: stretches') := by
  rcases h with rfl | ⟨before, old, new, after, hdiffer, rfl, rfl⟩
  · exact Or.inl rfl
  · exact Or.inr ⟨stretch :: before, old, new, after, hdiffer, rfl, rfl⟩

/-- A block goes on with a stretch, or ends it, whatever stands inside. -/
theorem goesOn_block (level : Level) (start : Start) (opener : Token)
    (content content' : List Component) (closer : Option Token) :
    goesOn level start (.block opener content closer) =
      goesOn level start (.block opener content' closer) := by
  simp only [goesOn, Item.ends, Part.ofComponent, Part.token, Component.firstToken]
  split <;> rfl

/-- Only blocks in curly brackets end a stretch. -/
theorem curlyContent?_block {opener : Token} (hopens : opener.kind.opens?.isSome = true)
    {start : Start} {content : List Component} {closer : Option Token}
    (h : goesOn level start (.block opener content closer) = false) (content : List Component) :
    (Component.block opener content closer).curlyContent? = some content := by
  rw [Component.curlyContent?]
  split
  · rfl
  · rename_i hcurly
    have hsemicolon : opener.kind ≠ .semicolon := by
      intro hkind
      rw [hkind] at hopens
      cases hopens
    simp [goesOn, Item.ends, Part.ofComponent, Part.token, Component.firstToken, hcurly,
      hsemicolon] at h

theorem skips_block {opener : Token} (hopens : opener.kind.opens?.isSome = true)
    (level : Level) (content : List Component) (closer : Option Token) :
    skips level (.block opener content closer) = false := by
  cases hkind : opener.kind <;> rw [hkind] at hopens <;> try cases hopens
  all_goals cases level <;>
    simp [skips, Item.skips, Part.isSkipped, Part.ofComponent, Part.token, Component.firstToken,
      hkind, Token.Kind.isSkipped]

theorem isSkipped_of_skips {component : Component} (h : skips level component = false) :
    component.firstToken.kind.isSkipped = false := by
  rw [← Part.token_ofComponent]
  cases level <;> simp_all [skips, Item.skips, Part.isSkipped]

section Cut

variable (front : List Component) {between between' back : List Component} {start : Start}

/-- Where the place goes on with a stretch, it is among the components of the stretch. -/
theorem all_differ_of_goesOn (hgap : Component.IsGap gap) (hgap' : Component.IsGap gap')
    (h : Component.Exchange gap gap' between between')
    (hstart : (startOf (front ++ between ++ back)).1 = start)
    (hstart' : (startOf (front ++ between' ++ back)).1 = start)
    (hhead : ∀ c ∈ (front ++ between).head?, skips level c = false)
    (hhead' : ∀ c ∈ (front ++ between').head?, skips level c = false)
    (hon : ∀ c ∈ front ++ between, goesOn level start c = true)
    (hon' : ∀ c ∈ front ++ between', goesOn level start c = true) :
    SameOrDiffer gap gap' (all level (front ++ between ++ back))
      (all level (front ++ between' ++ back)) := by
  obtain ⟨hne, hne'⟩ := h.ne_nil hgap hgap'
  -- What begins the stretch stands before the place or at it, whatever follows.
  have hskips : ∀ more, ∀ c ∈ (front ++ between ++ more).head?, skips level c = false := by
    intro more
    rwa [List.head?_append_of_ne_nil _ (by simp [hne])]
  have hskips' : ∀ more, ∀ c ∈ (front ++ between' ++ more).head?, skips level c = false := by
    intro more
    rwa [List.head?_append_of_ne_nil _ (by simp [hne'])]
  have hdiffer : ∀ (more : List Component) (block : Option (List Component)),
      Differ gap gap' ⟨front ++ between ++ more, block⟩ ⟨front ++ between' ++ more, block⟩ := by
    intro more block
    apply Differ.parts block (h.differ front more)
    exact sameStart_of_differ hgap hgap' (h.differ front more)
      fun c hc => isSkipped_of_skips (hskips more c hc)
  -- The stretch ends with the level, or at a component behind the place.
  cases hended : back.dropWhile (goesOn level start) with
  | nil =>
      rw [List.dropWhile_eq_nil_iff] at hended
      rw [all_eq_singleton (by simp [hne]) (hskips back), all_eq_singleton (by simp [hne'])
        (hskips' back)]
      · exact Or.inr ⟨[], _, _, [], hdiffer back none, rfl, rfl⟩
      · rw [hstart', List.forall_mem_append]
        exact ⟨hon', hended⟩
      · rw [hstart, List.forall_mem_append]
        exact ⟨hon, hended⟩
  | cons last after =>
      obtain ⟨taken, rfl, htaken, hlast⟩ := exists_of_dropWhile_eq_cons hended
      rw [← List.append_assoc] at hstart hstart' ⊢
      rw [← List.append_assoc (front ++ between')]
      have hall := all_eq_cons rfl
        (by rw [List.append_assoc]; exact hskips (taken ++ last :: after))
        (by rw [hstart, List.forall_mem_append]; exact ⟨hon, htaken⟩) (by rw [hstart, hlast])
      have hall' := all_eq_cons rfl
        (by rw [List.append_assoc]; exact hskips' (taken ++ last :: after))
        (by rw [hstart', List.forall_mem_append]; exact ⟨hon', htaken⟩) (by rw [hstart', hlast])
      rw [hall, hall']
      exact Or.inr ⟨[], _, _, _, hdiffer taken _, rfl, rfl⟩

/-- Where nothing before the place ends the stretch, the place is among its components or in the
block that ends it. -/
theorem all_differ_of_begun (hgap : Component.IsGap gap) (hgap' : Component.IsGap gap')
    (h : Component.Exchange gap gap' between between')
    (hstart : (startOf (front ++ between ++ back)).1 = start)
    (hstart' : (startOf (front ++ between' ++ back)).1 = start)
    (hhead : ∀ c ∈ (front ++ between).head?, skips level c = false)
    (hhead' : ∀ c ∈ (front ++ between').head?, skips level c = false)
    (hon : ∀ c ∈ front, goesOn level start c = true) :
    SameOrDiffer gap gap' (all level (front ++ between ++ back))
      (all level (front ++ between' ++ back)) := by
  cases h with
  | gap =>
      apply all_differ_of_goesOn front hgap hgap' .gap hstart hstart' hhead hhead'
      · rw [List.forall_mem_append]
        exact ⟨hon, fun c hc => hgap.goesOn level start hc⟩
      · rw [List.forall_mem_append]
        exact ⟨hon, fun c hc => hgap'.goesOn level start hc⟩
  | @block opener content content' closer hopens hcontent =>
      -- The block is among the components of the stretch, or ends it.
      cases hblock : goesOn level start (.block opener content closer) with
      | true =>
          apply all_differ_of_goesOn front hgap hgap' (.block closer hopens hcontent) hstart hstart'
            hhead hhead'
          · rw [List.forall_mem_append, List.forall_mem_singleton]
            exact ⟨hon, hblock⟩
          · rw [List.forall_mem_append, List.forall_mem_singleton]
            exact ⟨hon, (goesOn_block level start opener content' content closer).trans hblock⟩
      | false =>
          have hblock' : goesOn level start (.block opener content' closer) = false := by
            rw [← hblock]
            exact goesOn_block level start opener content' content closer
          rw [List.append_assoc, List.singleton_append] at hstart hstart' ⊢
          rw [List.append_assoc, List.singleton_append]
          have hall : all level (front ++ .block opener content closer :: back) =
              ⟨front, (Component.block opener content closer).curlyContent?⟩ :: all level back :=
            all_eq_cons rfl (by simpa using hhead) (by rwa [hstart]) (by rw [hstart, hblock])
          have hall' : all level (front ++ .block opener content' closer :: back) =
              ⟨front, (Component.block opener content' closer).curlyContent?⟩ :: all level back :=
            all_eq_cons rfl (by simpa using hhead') (by rwa [hstart']) (by rw [hstart', hblock'])
          rw [hall, hall', curlyContent?_block hopens hblock, curlyContent?_block hopens hblock]
          exact Or.inr ⟨[], _, _, _, .block front hcontent, rfl, rfl⟩

/-- Where a stretch begins before the place, the place is in the stretch or in what follows it. -/
theorem all_differ_of_head (hgap : Component.IsGap gap) (hgap' : Component.IsGap gap')
    (h : Component.Exchange gap gap' between between') {head : Component} {rest : List Component}
    (hhead : skips level head = false)
    (hrest : ∀ others, others.length ≤ rest.length →
      SameOrDiffer gap gap' (all level (others ++ between ++ back))
        (all level (others ++ between' ++ back))) :
    SameOrDiffer gap gap' (all level (head :: rest ++ between ++ back))
      (all level (head :: rest ++ between' ++ back)) := by
  have hsame := sameStart_of_differ hgap hgap' (h.differ (head :: rest) back)
    (by rintro c ⟨⟩; exact isSkipped_of_skips hhead)
  obtain ⟨start, after, after', hstart, hstart', -⟩ := hsame
  -- If the stretch ends before the place, the hypothesis speaks of what follows it.
  cases hended : (head :: rest).dropWhile (goesOn level start) with
  | nil =>
      rw [List.dropWhile_eq_nil_iff] at hended
      exact all_differ_of_begun (head :: rest) hgap hgap' h (by rw [hstart]) (by rw [hstart'])
        (by rintro c ⟨⟩; exact hhead) (by rintro c ⟨⟩; exact hhead) hended
  | cons last others =>
      obtain ⟨taken, hcut, htaken, hlast⟩ := exists_of_dropWhile_eq_cons hended
      have hshorter : others.length ≤ rest.length := by
        have hlength := congrArg List.length hcut
        simp only [List.length_append, List.length_cons] at hlength
        omega
      have hcons : ∀ more, (startOf (head :: rest ++ more)).1 = start →
          all level (head :: rest ++ more) =
            ⟨taken, last.curlyContent?⟩ :: all level (others ++ more) := by
        intro more hmore
        apply all_eq_cons
        · rw [hcut, List.append_assoc, List.cons_append]
        · rintro c ⟨⟩
          exact hhead
        · rwa [hmore]
        · rwa [hmore]
      rw [List.append_assoc] at hstart hstart'
      rw [List.append_assoc, List.append_assoc, hcons _ (by rw [hstart]),
        hcons _ (by rw [hstart']), ← List.append_assoc, ← List.append_assoc]
      exact (hrest others hshorter).cons _

end Cut

/-- Cutting a level puts the place in one stretch, or between two of them. -/
theorem all_differ_of_exchange (hgap : Component.IsGap gap) (hgap' : Component.IsGap gap')
    {between between' : List Component} (h : Component.Exchange gap gap' between between')
    (front back : List Component) :
    SameOrDiffer gap gap' (all level (front ++ between ++ back))
      (all level (front ++ between' ++ back)) := by
  cases hbegun : front.dropWhile (skips level) with
  | nil =>
      -- Only what is skipped stands before the place.
      rw [List.dropWhile_eq_nil_iff] at hbegun
      rw [List.append_assoc, List.append_assoc, all_append_of_skips hbegun,
        all_append_of_skips hbegun]
      cases h with
      | gap =>
          left
          rw [all_append_of_skips fun c hc => hgap.skips level hc,
            all_append_of_skips fun c hc => hgap'.skips level hc]
      | @block opener content content' closer hopens hcontent =>
          have hstart := fun content => congrArg Prod.fst (startOf_block hopens content closer back)
          have hhead : ∀ content, ∀ c ∈ [Component.block opener content closer].head?,
              skips level c = false := by
            intro content c hc
            cases hc
            exact skips_block hopens level content closer
          exact all_differ_of_begun [] hgap hgap' (.block closer hopens hcontent)
            (hstart content) (hstart content') (hhead content) (hhead content') (by simp)
  | cons head rest =>
      -- A stretch begins before the place. What is left behind it is shorter.
      obtain ⟨passed, hcut, hpassed, hhead⟩ := exists_of_dropWhile_eq_cons hbegun
      have hshorter : rest.length < front.length := by
        rw [hcut, List.length_append, List.length_cons]
        omega
      simp only [hcut, List.append_assoc, all_append_of_skips hpassed]
      simp only [← List.append_assoc]
      apply all_differ_of_head hgap hgap' h hhead
      intro others hothers
      exact all_differ_of_exchange hgap hgap' h others back
termination_by front.length
decreasing_by omega

theorem all_differ {components components' : List Component} (hgap : Component.IsGap gap)
    (hgap' : Component.IsGap gap') (h : Component.Differ gap gap' components components')
    (level : Level) :
    SameOrDiffer gap gap' (all level components) (all level components') := by
  obtain ⟨front, between, between', back, hexchange, rfl, rfl⟩ := h.exists_exchange
  exact all_differ_of_exchange hgap hgap' hexchange front back

end Stretch

end UtilityCss
