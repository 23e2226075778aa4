import UtilityCss.Proofs.Arithmetic.Reread

/-!
# Evaluating twice

A product is looked for before the products inside a block are evaluated. So a block may become a
product by the evaluation, which a second evaluation would find. The blocks of an evaluated value
are those of the value, with the products gone, so that nothing else can be found
(`isReread_of_formed`).

* `Component.throughout` says that a condition holds of a component and of all those inside it.
* `Calc.isLasting` is the condition that a block is no product even when the products inside it are
  evaluated, `Calc.isParted` that no address joins the product in front of it.

The main statement is `Calc.simplify_twice_iff`: evaluating twice is evaluating once exactly where
all blocks are lasting.
-/

set_option autoImplicit false

namespace UtilityCss

/-! ## Conditions on trees -/

namespace Component

mutual
/-- Whether a condition holds of a component, with the one before it on its level, and of all those
inside it. -/
def throughout (p : Option Component → Component → Bool) (before : Option Component) :
    Component → Bool
  | .single token => p before (.single token)
  | .block opener content closer =>
    p before (.block opener content closer) && throughoutAll p none content
/-- Whether a condition holds of all components of a sequence, with those before them, and of all
those inside them. -/
def throughoutAll (p : Option Component → Component → Bool) (before : Option Component) :
    List Component → Bool
  | [] => true
  | component :: rest =>
    throughout p before component && throughoutAll p (some component) rest
end

end Component

namespace Calc

open Component (Formed ofText sources throughout throughoutAll)

/-- Whether the component is evaluated as a product. -/
def isProduct : Component → Bool
  | .single _ => false
  | .block opener content _ => (replacement? opener content).isSome

/-- No product, whatever stands before it. -/
def isSettled (_ : Option Component) (component : Component) : Bool :=
  !isProduct component

/-- No address that stands just behind a product. Its name would join the product, so that the text
inside its brackets would be read as components. -/
def isParted (before : Option Component) (component : Component) : Bool :=
  !(before.any isProduct && decide (component.firstToken.kind = .url))

/-- No block that becomes a product when the products inside it are evaluated. A block whose name
joins a product in front of it becomes none. -/
def isLasting (before : Option Component) : Component → Bool
  | .single _ => true
  | .block opener content _ =>
    before.any isProduct || (replacement? opener content).isSome ||
      (replacement? opener (ofText (reducedAll content))).isNone

/-! ## Settled components -/

mutual
/-- The settled components are those without edits. -/
theorem edits_eq_nil_iff (start : Nat) (before : Option Component) (component : Component) :
    edits start component = [] ↔ throughout isSettled before component = true := by
  cases component with
  | single token => simp [edits, throughout, isSettled, isProduct]
  | block opener content closer =>
      have hcontent := fun start => editsOf_eq_nil_iff start none content
      rw [edits, throughout, isSettled, isProduct]
      cases replacement? opener content with
      | some text => simp
      | none => simpa using hcontent _
/-- The settled components are those without edits. -/
theorem editsOf_eq_nil_iff (start : Nat) (before : Option Component)
    (components : List Component) :
    editsOf start components = [] ↔ throughoutAll isSettled before components = true := by
  cases components with
  | nil => simp [editsOf, throughoutAll]
  | cons component rest =>
      rw [editsOf, throughoutAll, List.append_eq_nil_iff, Bool.and_eq_true,
        edits_eq_nil_iff start before component, editsOf_eq_nil_iff _ (some component) rest]
end

/-- A pass leaves a value as it is exactly if its components are settled. -/
theorem walked_eq_self_iff_isSettled (value : Text) :
    walked value = value ↔ throughoutAll isSettled none (ofText value) = true := by
  rw [walked_eq_self_iff, ← editsOf_eq_nil_iff 0, List.eq_nil_iff_forall_not_mem]
  simp only [mem_editsOf_iff (Component.formed_ofText value)]

theorem throughoutAll_isSettled_none (before : Option Component) (components : List Component) :
    throughoutAll isSettled before components = throughoutAll isSettled none components := by
  rw [Bool.eq_iff_iff, ← editsOf_eq_nil_iff 0, ← editsOf_eq_nil_iff 0]

/-- Tokens of their own are settled. -/
theorem throughoutAll_isSettled_singles (tokens : List Token) (before : Option Component)
    (components : List Component) :
    throughoutAll isSettled before (tokens.map .single ++ components) =
      throughoutAll isSettled none components := by
  induction tokens generalizing before with
  | nil => exact throughoutAll_isSettled_none before components
  | cons token tokens ih =>
      rw [List.map_cons, List.cons_append, throughoutAll, ih, throughout, isSettled, isProduct]
      rfl

theorem throughoutAll_isSettled_map_single (tokens : List Token) (before : Option Component) :
    throughoutAll isSettled before (tokens.map .single) = true := by
  have hsettled := throughoutAll_isSettled_singles tokens before []
  rwa [List.append_nil, throughoutAll] at hsettled

/-- Tokens of their own are lasting. -/
theorem throughoutAll_isLasting_of_isSingle {components : List Component}
    (h : ∀ component ∈ components, component.IsSingle) (before : Option Component) :
    throughoutAll isLasting before components = true := by
  induction components generalizing before with
  | nil => rw [throughoutAll]
  | cons component rest ih =>
      obtain ⟨⟨token, rfl⟩, hrest⟩ := List.forall_mem_cons.1 h
      rw [throughoutAll, ih hrest, throughout, isLasting]
      rfl

/-! ## Lasting blocks are settled afterwards -/

/-- A block that stays is settled afterwards if it was lasting. -/
theorem isSettled_block {before : Option Component} {opener opener' : Token}
    {content content' : List Component} (hopens : Opens (before.any isProduct) opener opener')
    (hnone : replacement? opener content = none)
    (hcontent : ofText (reducedAll content) = content') (closer : Option Token) :
    isSettled none (.block opener' content' closer) =
      isLasting before (.block opener content closer) := by
  rw [isSettled, isProduct, isLasting, hnone, hcontent]
  -- Either the same token begins the block again, or one that begins no product.
  rcases hopens.cases with ⟨rfl, hafter⟩ | ⟨hne, hbefore | hkind⟩
  · by_cases hkind : opener'.kind = .function functionName
    · have hfalse : before.any isProduct = false := by
        rw [Bool.eq_false_iff]
        exact fun htrue => hafter htrue hkind
      rw [hfalse]
      cases replacement? opener' content' <;> rfl
    · simp [replacement?_of_ne hkind]
  · simp [replacement?_of_ne hne, hbefore]
  · simp [replacement?_of_ne hne, replacement?_of_ne hkind]

/-- What stays around a block is settled if it was lasting. -/
theorem throughoutAll_isSettled_block {before : Option Component} {opener opener' : Token}
    {content content' rest again : List Component}
    (hopens : Opens (before.any isProduct) opener opener')
    (hnone : replacement? opener content = none)
    (hcontent : ofText (reducedAll content) = content') (closer : Option Token)
    (hinside : throughoutAll isSettled none content' = throughoutAll isLasting none content)
    (hrest : throughoutAll isSettled none again =
      throughoutAll isLasting (some (.block opener content closer)) rest) (front : List Token) :
    throughoutAll isSettled none
        (front.map .single ++ .block opener' content' closer :: again) =
      throughoutAll isLasting before (.block opener content closer :: rest) := by
  rw [throughoutAll_isSettled_singles, throughoutAll, throughout, throughoutAll, throughout,
    isSettled_block hopens hnone hcontent, hinside, throughoutAll_isSettled_none, hrest]

/-- A product holds tokens of their own only, which are lasting. -/
theorem throughoutAll_isLasting_product {opener : Token} {content : List Component} {written : Text}
    {bracket : Option Bracket} {ended : Bool}
    (hreplacement : replacement? opener content = some written)
    (hcontent : Formed bracket ended content) (closer : Option Token) (before : Option Component)
    (rest : List Component) :
    throughoutAll isLasting before (.block opener content closer :: rest) =
      throughoutAll isLasting (some (.block opener content closer)) rest := by
  obtain ⟨-, dimension, hproduct, -⟩ := replacement?_eq_some_iff.1 hreplacement
  have hsingles := singles_of_product hcontent hproduct
  rw [throughoutAll, throughout, isLasting, hreplacement,
    throughoutAll_isLasting_of_isSingle hsingles]
  simp

theorem throughoutAll_isLasting_single (token : Token) (before : Option Component)
    (rest : List Component) :
    throughoutAll isLasting before (.single token :: rest) =
      throughoutAll isLasting (some (.single token)) rest := by
  rw [throughoutAll, throughout, isLasting, Bool.true_and]

/-- The components of an evaluated text are those of the text, with tokens instead of products and
other loose tokens around them. They are settled exactly if those of the text are lasting. This
holds wherever the components stand, behind any text that is pending. -/
def IsReread (bracket : Option Bracket) (ended : Bool) (components : List Component) : Prop :=
  ∀ ⦃before : Option Component⦄ ⦃text behind : Text⦄,
    Pending (before.any isProduct) text (sources components ++ behind) →
    Reads components behind → throughoutAll isParted before components = true →
    (ended = true → behind = []) →
    ∃ again, ReadsAgain bracket ended text components behind again ∧
      throughoutAll isSettled none again = throughoutAll isLasting before components

namespace IsReread

variable {bracket : Option Bracket} {inner : Bracket} {ended : Bool}
  {content rest : List Component} {token opener closer : Token}

/-- At the end, what is pending is read. -/
theorem nil : IsReread bracket ended [] := by
  intro before text behind hpending hreads _ _
  rw [Component.sources_nil, List.nil_append] at hpending
  refine ⟨_, .nil hpending hreads.closes, ?_⟩
  rw [throughoutAll_isSettled_map_single, throughoutAll]

/-- A loose token is added to what is pending, which a firm token ends. -/
theorem single (hopens : token.kind.opens? = none)
    (hsingle : Formed bracket ended (.single token :: rest)) (h : IsReread bracket ended rest) :
    IsReread bracket ended (.single token :: rest) := by
  intro before text behind hpending hreads hparted hended
  rw [Component.sources_cons, Component.source_single, List.append_assoc] at hpending
  rw [throughoutAll, Bool.and_eq_true] at hparted
  obtain ⟨hread, hreadsRest⟩ := hreads.single
  rw [throughoutAll_isLasting_single]
  by_cases hfirm : token.kind.isFirm = true
  · -- Only the name of an address could join a product, and none stands behind one.
    have hafter : before.any isProduct = true → Token.startsName token.source = false := by
      intro hproduct
      refine startsName_of_firm hfirm hopens hread fun hurl => ?_
      have hfalse := hparted.1
      rw [throughout, isParted, hproduct, Component.firstToken, hurl] at hfalse
      cases hfalse
    have hnothing : Pending ((some (Component.single token)).any isProduct) []
        (sources rest ++ behind) := .nil _
    obtain ⟨again, hagain, hsettled⟩ := h hnothing hreadsRest hparted.2 hended
    refine ⟨_, hagain.firm hpending hfirm hafter hsingle hreads, ?_⟩
    rw [throughoutAll_isSettled_singles, ← hsettled]
    exact throughoutAll_isSettled_singles [token] none again
  · have hloose : token.kind.isFirm = false := by simpa using hfirm
    have hlater : Pending ((some (Component.single token)).any isProduct) (text ++ token.source)
        (sources rest ++ behind) := hpending.single hloose hread
    obtain ⟨again, hagain, hsettled⟩ := h hlater hreadsRest hparted.2 hended
    exact ⟨again, .cons (by rwa [reduced_single]), hsettled⟩

/-- A product is added to what is pending. Any other block ends it, and nothing is pending inside
the block nor behind it. -/
theorem closed (hopens : opener.kind.opens? = some inner) (hcloser : closer.kind = .closing inner)
    (hcontent : Formed (some inner) false content) (hinside : IsReread (some inner) false content)
    (h : IsReread bracket ended rest) :
    IsReread bracket ended (.block opener content (some closer) :: rest) := by
  intro before text behind hpending hreads hparted hended
  simp only [Component.sources_cons, Component.source_block, Component.closerSource,
    List.append_assoc] at hpending
  rw [throughoutAll, throughout, Bool.and_eq_true, Bool.and_eq_true] at hparted
  obtain ⟨⟨-, hpartedContent⟩, hpartedRest⟩ := hparted
  obtain ⟨hread, hreadsContent, -, hreadsRest⟩ := hreads.closed hcloser
  have hproduct : (some (Component.block opener content (some closer))).any isProduct =
      (replacement? opener content).isSome := rfl
  -- What is written for a product is pending, and behind a block that stays nothing is.
  cases hreplacement : replacement? opener content with
  | some written =>
      have hlater : Pending ((some (Component.block opener content (some closer))).any isProduct)
          (text ++ written) (sources rest ++ behind) := by
        rw [hproduct, hreplacement]
        exact hpending.product hread hreplacement _
      obtain ⟨again, hagain, hsettled⟩ := h hlater hreadsRest hpartedRest hended
      refine ⟨again, .cons ?_, hsettled.trans
        (throughoutAll_isLasting_product hreplacement hcontent _ _ _).symm⟩
      rwa [reduced_block, hreplacement, Option.getD_some]
  | none =>
      have hnothing : Pending ((none : Option Component).any isProduct) []
          (sources content ++ (closer.source ++ (sources rest ++ behind))) := .nil _
      have hlater : Pending ((some (Component.block opener content (some closer))).any isProduct)
          [] (sources rest ++ behind) := by
        rw [hproduct, hreplacement]
        exact .nil _
      obtain ⟨content', hagainInside, hsettledInside⟩ :=
        hinside hnothing hreadsContent hpartedContent (by simp)
      obtain ⟨again, hagain, hsettled⟩ := h hlater hreadsRest hpartedRest hended
      obtain ⟨front, opener', hopens', hall⟩ :=
        hagainInside.closed hpending hopens hcloser hcontent hreads hreplacement hagain
      exact ⟨_, hall, throughoutAll_isSettled_block hopens' hreplacement hagainInside.ofText_eq _
        hsettledInside hsettled front⟩

/-- A block without an end is the last component. -/
theorem unclosed (hopens : opener.kind.opens? = some inner)
    (hcontent : Formed (some inner) true content) (hinside : IsReread (some inner) true content) :
    IsReread bracket true [.block opener content none] := by
  intro before text behind hpending hreads hparted hended
  simp only [Component.sources_cons, Component.source_block, Component.closerSource,
    Component.sources_nil, List.append_nil, List.append_assoc] at hpending
  rw [throughoutAll, throughout, Bool.and_eq_true, Bool.and_eq_true] at hparted
  obtain ⟨⟨-, hpartedContent⟩, -⟩ := hparted
  obtain ⟨hread, hreadsContent⟩ := hreads.unclosed
  -- No component follows, so that the induction is needed inside the block only.
  cases hreplacement : replacement? opener content with
  | some written =>
      have hlater := hpending.product hread hreplacement behind
      have hreduced : reduced (.block opener content none) = written := by
        rw [reduced_block, hreplacement, Option.getD_some]
      rw [← hreduced] at hlater
      refine ⟨_, .cons (.nil hlater hreads.closes), ?_⟩
      rw [throughoutAll_isSettled_map_single,
        throughoutAll_isLasting_product hreplacement hcontent, throughoutAll]
  | none =>
      have hnothing : Pending ((none : Option Component).any isProduct) []
          (sources content ++ behind) := .nil _
      obtain ⟨content', hagainInside, hsettledInside⟩ :=
        hinside hnothing hreadsContent hpartedContent hended
      obtain ⟨front, opener', hopens', hall⟩ :=
        hagainInside.unclosed hpending hopens hcontent hreads hreplacement
      refine ⟨_, hall, throughoutAll_isSettled_block hopens' hreplacement hagainInside.ofText_eq _
        hsettledInside ?_ front⟩
      rw [throughoutAll, throughoutAll]

end IsReread

/-- Components that are in order are read again. -/
theorem isReread_of_formed {bracket : Option Bracket} {ended : Bool} {components : List Component}
    (h : Formed bracket ended components) : IsReread bracket ended components := by
  induction h with
  | nil => exact .nil
  | single hopens hcloses hrest ih => exact .single hopens (.single hopens hcloses hrest) ih
  | closed hopens hcloser hcontent _ ihContent ihRest =>
      exact .closed hopens hcloser hcontent ihContent ihRest
  | unclosed hopens hcontent ih => exact .unclosed hopens hcontent ih

/-! ## Evaluating again -/

/-- Evaluating a value leaves it as it is if `calc(` is not spelled out, or if a pass does. -/
theorem simplify_eq_self_iff (value : Text) :
    simplify value = value ↔
      Text.contains "calc(".toList value = false ∨
        throughoutAll isSettled none (ofText value) = true := by
  rw [← walked_eq_self_iff_isSettled, walked_eq_reducedAll, simplify]
  cases Text.contains "calc(".toList value <;> simp

/-- The blocks of a value without addresses behind products are settled after a pass exactly if they
are lasting. -/
theorem isSettled_reducedAll (value : Text)
    (hparted : throughoutAll isParted none (ofText value) = true) :
    throughoutAll isSettled none (ofText (reducedAll (ofText value))) =
      throughoutAll isLasting none (ofText value) := by
  have hreads : Reads (ofText value) [] := by
    refine ⟨?_, by simp [Closes]⟩
    rw [List.append_nil, Component.sources_ofText, Component.tokensOf_ofText, Token.ofText,
      List.append_nil]
  have hnothing : Pending ((none : Option Component).any isProduct) []
      (sources (ofText value) ++ []) := .nil _
  obtain ⟨again, hagain, hsettled⟩ :=
    isReread_of_formed (Component.formed_ofText value) hnothing hreads hparted fun _ => rfl
  rw [hagain.ofText_eq, hsettled]

/-- Each evaluation that changes a value takes an opening bracket away. -/
theorem simplify_eq_self_or_count_lt (value : Text) :
    simplify value = value ∨ (simplify value).count '(' < value.count '(' := by
  rw [simplify]
  split
  · have hcount := count_reducedAll 0 (ofText value)
      (by rw [Component.tokensOf_ofText]; exact hasBrackets_ofText value)
    rw [Component.sources_ofText] at hcount
    cases hedits : editsOf 0 (ofText value) with
    | nil =>
        left
        rw [← walked_eq_reducedAll, walked_eq_self_iff_isSettled, ← editsOf_eq_nil_iff 0, hedits]
    | cons edit later =>
        right
        rw [hedits, List.length_cons] at hcount
        omega
  · exact Or.inl rfl

/-- Evaluating again and again comes to an end after as many evaluations as the value has opening
brackets. -/
theorem exists_simplify_iterate (value : Text) :
    ∃ count ≤ value.count '(', simplify (simplify^[count] value) = simplify^[count] value := by
  -- An evaluation that changes the value leaves fewer opening brackets.
  induction hcount : value.count '(' using Nat.strongRecOn generalizing value with
  | ind bound ih =>
      rcases simplify_eq_self_or_count_lt value with hsame | hless
      · exact ⟨0, Nat.zero_le _, hsame⟩
      · obtain ⟨count, hle, hends⟩ := ih _ (hcount ▸ hless) (simplify value) rfl
        refine ⟨count + 1, by omega, ?_⟩
        rw [Function.iterate_succ_apply]
        exact hends

/-- Evaluating a value twice is evaluating it once exactly if no `calc(` is left, or no block
becomes a product by the evaluation of those inside it, provided that no address stands just behind
a product. Evaluating any value again and again comes to an end, after as many evaluations as the
value has opening brackets. -/
theorem simplify_twice_iff (value : Text) :
    (throughoutAll isParted none (ofText value) = true →
      (simplify (simplify value) = simplify value ↔
        Text.contains "calc(".toList (simplify value) = false ∨
          throughoutAll isLasting none (ofText value) = true)) ∧
      ∃ count ≤ value.count '(', simplify (simplify^[count] value) = simplify^[count] value := by
  refine ⟨fun hparted => ?_, exists_simplify_iterate value⟩
  rw [simplify_eq_self_iff]
  by_cases hcontains : Text.contains "calc(".toList value = true
  · rw [← isSettled_reducedAll value hparted, simplify, if_pos hcontains]
  · have hleft : simplify value = value := if_neg hcontains
    rw [hleft, Bool.eq_false_iff.2 hcontains]
    simp

/-- Products beside and inside a block that is none. -/
def sumValue : Text :=
  "calc(calc(1px * 2) + 3px) calc(0.5em * 4)".toList

theorem simplify_twice_sumValue :
    throughoutAll isParted none (ofText sumValue) = true ∧
      simplify sumValue = "calc(2px + 3px) 2em".toList ∧
      simplify (simplify sumValue) = simplify sumValue := by
  have hparted : throughoutAll isParted none (ofText sumValue) = true := by decide +kernel
  have hlasting : throughoutAll isLasting none (ofText sumValue) = true := by decide +kernel
  exact ⟨hparted, by decide +kernel, ((simplify_twice_iff sumValue).1 hparted).2 (Or.inr hlasting)⟩

/-- A product that holds another one instead of its dimension. -/
def nestedValue : Text :=
  "calc(calc(1px * 2) * 3)".toList

/-- A product with an address behind it. -/
def joinedValue : Text :=
  "calc(1px * 2)url(calc(1px * 3))".toList

/-- A block around a product becomes a product. Behind a product, the name of an address belongs to
its unit, so that what stands in the brackets is evaluated, though all blocks are lasting. -/
theorem simplify_twice_nestedValue :
    (simplify nestedValue = "calc(2px * 3)".toList ∧
      simplify (simplify nestedValue) = "6px".toList ∧
      simplify (simplify nestedValue) ≠ simplify nestedValue) ∧
    (throughoutAll isLasting none (ofText joinedValue) = true ∧
      simplify joinedValue = "2pxurl(calc(1px * 3))".toList ∧
      simplify (simplify joinedValue) = "2pxurl(3px)".toList ∧
      simplify (simplify joinedValue) ≠ simplify joinedValue) := by
  decide +kernel

end Calc

end UtilityCss
