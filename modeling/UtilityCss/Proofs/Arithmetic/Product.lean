import UtilityCss.Arithmetic
import UtilityCss.Proofs.Component.Formed
import UtilityCss.Proofs.Number.Layout
import UtilityCss.Proofs.Reference.Dangling
import UtilityCss.Proofs.Token.Boundary

/-!
# What is written for a product

The evaluation of products makes no references (`Calc.refersTo_of_refersTo_simplify`). What is
written for a product could be a part of a reference only in the name of one, and no product stands
where a name goes on, because a name is read as far as it goes. What is evaluated holds no block
(`Calc.singles_of_product`), and what is written for it has letters, digits and marks of numbers only
(`Calc.isMarked_of_replacement?`).

* `Calc.IsWritten` is the form of what is written for a product.
* `Calc.Reduces` says how a text comes from another one when parts of it are written anew. It
  supposes of each part that no reference ends in the text before it with a name that may go on.
-/

set_option autoImplicit false

namespace UtilityCss.Calc

open Reference (endsInName)
open Token (EndsInReference)

/-! ## What is written for a product -/

/-- What is written begins like a number and ends in a character of a name, and such a character
stands before each letter with which a reference could begin. -/
structure IsWritten (written : Text) : Prop where
  head : ∃ c rest, written = c :: rest ∧ isNumberStart c = true
  last : ∀ inName, endsInName inName written = true
  letters : ∀ before after, written = before ++ 'v' :: after → ∀ inName,
    endsInName inName before = true

/-- A number begins in no part of a reference but its name. -/
theorem not_mem_of_isNumberStart {c : Char} (h : isNumberStart c = true) :
    c ∉ Reference.opening ++ "--".toList ∧
      ∀ reference : Reference, reference.IsWellFormed → c ∉ reference.gap ++ [')'] := by
  -- The digits and the two letters lie between the marks of references and their letters.
  have hrange : 48 ≤ c.toNat ∧ c.toNat ≤ 78 := by
    simp only [isNumberStart, isDigit, Bool.or_eq_true, Bool.and_eq_true, decide_eq_true_eq,
      beq_iff_eq] at h
    rcases h with (⟨hlow, hhigh⟩ | rfl) | rfl
    · exact ⟨hlow, Nat.le_trans hhigh (by decide)⟩
    · decide
    · decide
  have hmark : ∀ mark : Char, mark.toNat < 48 ∨ 78 < mark.toNat → c ≠ mark := by
    rintro mark hmark rfl
    omega
  constructor
  · intro hmem
    have hopening : (Reference.opening ++ "--".toList).all
        (fun mark => mark.toNat < 48 || 78 < mark.toNat) = true := by decide
    have hoff := List.all_eq_true.1 hopening c hmem
    simp only [Bool.or_eq_true, decide_eq_true_eq] at hoff
    exact hmark c hoff rfl
  · intro reference hform hmem
    rcases List.mem_append.1 hmem with hgap | hclose
    · rcases hform.gap with hnil | ⟨blanks, hcons, hblanks⟩
      · simp [hnil] at hgap
      · rw [hcons, List.mem_cons] at hgap
        rcases hgap with hcomma | hblank
        · exact hmark ',' (by decide) hcomma
        · have hclass := hblanks c hblank
          simp only [isBlank, Bool.or_eq_true, Bool.and_eq_true, decide_eq_true_eq] at hclass
          omega
    · exact hmark ')' (by decide) (List.mem_singleton.1 hclose)

theorem isUnitChar_of_isUnit {unit : Text} (h : Dimension.isUnit unit = true) :
    ∀ c ∈ unit, Dimension.isUnitChar c = true := by
  rw [Dimension.isUnit, Bool.and_eq_true, List.all_eq_true] at h
  exact h.2

theorem isNameChar_of_isUnitChar {c : Char} (h : Dimension.isUnitChar c = true) :
    Reference.isNameChar c = true := by
  have hletter : isAsciiLetter c = true := by
    rw [Dimension.isUnitChar] at h
    rw [isAsciiLetter, h, Bool.true_or]
  rw [Reference.isNameChar, hletter]
  simp

/-- A number with letters of a unit after it ends in a character of a name. -/
theorem endsInName_append_unit {number unit : Text} (hnumber : IsNumberText number)
    (hunit : ∀ c ∈ unit, Dimension.isUnitChar c = true) (inName : Bool) :
    endsInName inName (number ++ unit) = true := by
  rcases List.eq_nil_or_concat unit with rfl | ⟨letters, c, rfl⟩
  · obtain ⟨front, c, rfl, hc⟩ := hnumber.last
    rw [List.append_nil, Reference.endsInName_concat, hc]
  · rw [List.concat_eq_append, ← List.append_assoc, Reference.endsInName_concat]
    exact isNameChar_of_isUnitChar (hunit c (by simp))

theorem isWritten_append {number unit : Text} (hnumber : IsNumberText number)
    (hunit : ∀ c ∈ unit, Dimension.isUnitChar c = true) : IsWritten (number ++ unit) where
  head := by
    obtain ⟨c, rest, rfl, hc⟩ := hnumber.head
    exact ⟨c, rest ++ unit, rfl, hc⟩
  last := endsInName_append_unit hnumber hunit
  letters := by
    intro before after heq inName
    rcases List.append_eq_append_iff.1 heq with ⟨letters, rfl, hletters⟩ | ⟨rest, hrest, hmark⟩
    · -- The letter is in the unit. The number or other letters stand before it.
      apply endsInName_append_unit hnumber
      intro c hc
      apply hunit
      rw [hletters]
      exact List.mem_append_left _ hc
    · cases rest with
      | nil =>
          rw [List.append_nil] at hrest
          rw [← hrest, ← List.append_nil number]
          exact endsInName_append_unit hnumber (by simp) inName
      | cons c rest =>
          -- The letter would be in the number.
          exfalso
          obtain ⟨rfl, -⟩ := List.cons.inj hmark
          apply hnumber.letters
          rw [hrest]
          simp

theorem exists_of_bind_eq_ok {α β : Type} {result : Except ReadError α}
    {next : α → Except ReadError β} {value : β} (h : result >>= next = .ok value) :
    ∃ found, result = .ok found ∧ next found = .ok value := by
  cases result with
  | error failure => cases h
  | ok found => exact ⟨found, rfl, h⟩

theorem isUnit_of_dimension {reading : Cursor.Reading} {dimension : Dimension}
    (h : reading.dimension = .ok dimension) : Dimension.isUnit dimension.unit = true := by
  rw [Cursor.Reading.dimension] at h
  split at h
  · split at h
    · rename_i hunit
      split at h
      · cases h
        exact hunit
      · cases h
    · cases h
  · cases h

/-- A product has the unit of its first factor. -/
theorem isUnit_of_product {content : List Component} {dimension : Dimension}
    (h : product content = .ok dimension) : Dimension.isUnit dimension.unit = true := by
  rw [product] at h
  obtain ⟨factor, hfactor, h⟩ := exists_of_bind_eq_ok h
  obtain ⟨_, -, h⟩ := exists_of_bind_eq_ok h
  obtain ⟨multiplier, -, h⟩ := exists_of_bind_eq_ok h
  obtain ⟨_, -, h⟩ := exists_of_bind_eq_ok h
  cases h
  have hunit : Dimension.isUnit factor.unit = true := isUnit_of_dimension hfactor
  exact hunit

/-- What a product is replaced by has the form of what is written. -/
theorem isWritten_of_replacement? {opener : Token} {content : List Component} {written : Text}
    (h : replacement? opener content = some written) :
    opener.kind.isName = true ∧ IsWritten written := by
  rw [replacement?] at h
  split at h
  · rename_i hkind
    split at h
    · rename_i dimension hproduct
      cases h
      have hunit := isUnitChar_of_isUnit (isUnit_of_product hproduct)
      rw [hkind]
      exact ⟨rfl, isWritten_append (NumberLayout.isNumberText_write _) hunit⟩
    · cases h
  · cases h

/-! ## Parts written anew -/

/-- How the second text comes from the first one, behind the text `before`: characters are kept,
and parts are written anew where no name of a reference could go on. -/
inductive Reduces : Text → Text → Text → Prop
  | nil {before : Text} : Reduces before [] []
  | keep {before rest reduced : Text} (c : Char) :
      Reduces (before ++ [c]) rest reduced → Reduces before (c :: rest) (c :: reduced)
  | write {before part written rest reduced : Text} : IsWritten written →
      ¬ EndsInReference before → Reduces (before ++ part) rest reduced →
      Reduces before (part ++ rest) (written ++ reduced)

namespace Reduces

variable {before text reduced : Text}

theorem refl (before text : Text) : Reduces before text text := by
  induction text generalizing before with
  | nil => exact nil
  | cons c rest ih => exact (ih (before ++ [c])).keep

theorem append {text' reduced' : Text} (h : Reduces before text reduced)
    (h' : Reduces (before ++ text) text' reduced') :
    Reduces before (text ++ text') (reduced ++ reduced') := by
  induction h with
  | nil => simpa using h'
  | keep c _ ih =>
      apply keep
      apply ih
      simpa using h'
  | write hwritten hends _ ih =>
      rw [List.append_assoc, List.append_assoc]
      apply write hwritten hends
      apply ih
      simpa using h'

/-- Behind the beginning of a reference all characters of it are kept. -/
theorem keeps_source {reference : Reference} (h : Reduces before text reduced)
    (hform : reference.IsWellFormed) {begun missing after : Text}
    (hsource : reference.source = begun ++ missing) (hbegun : begun ≠ [])
    (hbefore : begun <:+ before) (hreduced : reduced = missing ++ after) :
    ∃ rest, text = missing ++ rest := by
  -- What is begun grows with the text before, so that it stays at the end of it.
  induction h generalizing begun missing with
  | nil =>
      rw [eq_comm, List.append_eq_nil_iff] at hreduced
      exact ⟨[], by rw [hreduced.1]; rfl⟩
  | @keep before rest reduced c _ ih =>
      cases missing with
      | nil => exact ⟨c :: rest, rfl⟩
      | cons d missing =>
          obtain ⟨rfl, hrest⟩ := List.cons.inj hreduced
          have hnext : begun ++ [c] <:+ before ++ [c] := by
            obtain ⟨front, rfl⟩ := hbefore
            exact ⟨front, by rw [List.append_assoc]⟩
          obtain ⟨rest, rfl⟩ := ih (by rw [hsource, List.append_assoc]; rfl) (by simp) hnext hrest
          exact ⟨rest, rfl⟩
  | @write before part written rest reduced hwritten hends _ _ =>
      cases missing with
      | nil => exact ⟨part ++ rest, rfl⟩
      | cons d missing =>
          -- What is written would begin in the name of the reference.
          exfalso
          obtain ⟨c, more, rfl, hc⟩ := hwritten.head
          obtain ⟨rfl, -⟩ := List.cons.inj hreduced
          apply hends
          obtain ⟨front, rfl⟩ := hbefore
          obtain ⟨hopening, hgap⟩ := not_mem_of_isNumberStart hc
          obtain ⟨name, rfl, hname⟩ :=
            hform.exists_name_of_begun hsource hopening (hgap reference hform)
          exact ⟨front, name, rfl, hname⟩

/-- A reference in front of the new text that begins with a kept character is in front of the old
one. -/
theorem exists_source_append {reference : Reference} {c : Char} {after : Text}
    (h : Reduces (before ++ [c]) text reduced) (hform : reference.IsWellFormed)
    (hreduced : c :: reduced = reference.source ++ after) :
    ∃ rest, c :: text = reference.source ++ rest := by
  cases hsource : reference.source with
  | nil => exact absurd hsource hform.source_ne_nil
  | cons d more =>
      rw [hsource] at hreduced
      obtain ⟨rfl, htail⟩ := List.cons.inj hreduced
      have hbegun : reference.source = [c] ++ more := hsource
      obtain ⟨rest, rfl⟩ := h.keeps_source hform hbegun (by simp)
        (List.suffix_append before [c]) htail
      exact ⟨rest, rfl⟩

/-- No reference begins in what is written for a product, or just behind it. -/
theorem occursIn_of_written_append {reference : Reference} {written : Text} {inName : Bool}
    (hwritten : IsWritten written) (hform : reference.IsWellFormed)
    (h : reference.OccursIn inName (written ++ reduced)) : reference.OccursIn true reduced := by
  obtain ⟨front, after, htext, hfront⟩ := h
  -- The reference stands behind the product, since its letters would end the unit.
  rcases List.append_eq_append_iff.1 htext with ⟨between, rfl, hbetween⟩ | ⟨middle, rfl, hmiddle⟩
  · rw [Reference.endsInName_append, hwritten.last] at hfront
    exact ⟨between, after, hbetween, hfront⟩
  · exfalso
    cases middle with
    | nil =>
        rw [List.append_nil] at hwritten
        rw [hwritten.last] at hfront
        cases hfront
    | cons c middle =>
        have hhead := hform.head?_source_append after
        rw [hmiddle] at hhead
        cases hhead
        rw [hwritten.letters front middle rfl] at hfront
        cases hfront

/-- A reference that occurs in the new text occurs in the old one. -/
theorem occursIn {reference : Reference} (h : Reduces before text reduced)
    (hform : reference.IsWellFormed) {inName : Bool}
    (hname : endsInName false before = true → inName = true)
    (hoccurs : reference.OccursIn inName reduced) :
    reference.OccursIn (endsInName false before) text := by
  -- `inName` is about the new text. It need not agree with the old one behind what is written,
  -- where no reference counts.
  induction h generalizing inName with
  | nil => exact absurd hoccurs (hform.not_occursIn_nil inName)
  | @keep before rest reduced c hrest ih =>
      obtain ⟨front, after, htext, hfront⟩ := hoccurs
      cases front with
      | nil =>
          have hbefore : endsInName false before = false := by
            rw [Bool.eq_false_iff]
            intro hends
            rw [Reference.endsInName_nil, hname hends] at hfront
            cases hfront
          obtain ⟨later, hlater⟩ := hrest.exists_source_append hform htext
          exact ⟨[], later, hlater, hbefore⟩
      | cons d front =>
          obtain ⟨rfl, hreduced⟩ := List.cons.inj htext
          have hinside : reference.OccursIn (endsInName false (before ++ [c])) rest :=
            ih (by simp) ⟨front, after, hreduced, hfront⟩
          rw [Reference.endsInName_append] at hinside
          exact hinside.append_left [c]
  | @write before part written rest reduced hwritten _ _ ih =>
      have hinside := ih (fun _ => rfl) (occursIn_of_written_append hwritten hform hoccurs)
      rw [Reference.endsInName_append] at hinside
      exact hinside.append_left part

end Reduces

/-! ## Evaluation -/

mutual
/-- The evaluation of the products in a component writes parts of its text anew. -/
theorem reduces_reduced {text : Text} {before after : List Token} (component : Component)
    (h : Token.ofText text = before ++ (component.tokens ++ after)) :
    Reduces (before.flatMap Token.source) component.source (reduced component) := by
  cases component with
  | single token =>
      rw [reduced_single, Component.source_single]
      exact Reduces.refl _ _
  | block opener content closer =>
      rw [reduced_block]
      cases hreplacement : replacement? opener content with
      | some written =>
          -- The whole block is written anew, whatever stands inside.
          obtain ⟨hname, hwritten⟩ := isWritten_of_replacement? hreplacement
          rw [Component.tokens_block] at h
          have hends := Token.not_endsInReference_of_function h hname
          simpa using Reduces.write hwritten hends Reduces.nil
      | none =>
          have hinside : Token.ofText text = (before ++ [opener]) ++
              (Component.tokensOf content ++ (closer.toList ++ after)) := by
            rw [h, Component.tokens_block]
            simp
          have hcontent := reduces_reducedAll content hinside
          rw [List.flatMap_append, List.flatMap_singleton] at hcontent
          rw [Component.source_block, Option.getD_none]
          exact ((Reduces.refl _ opener.source).append hcontent).append (Reduces.refl _ _)
/-- The evaluation of the products in a sequence writes parts of its text anew. -/
theorem reduces_reducedAll {text : Text} {before after : List Token} (components : List Component)
    (h : Token.ofText text = before ++ (Component.tokensOf components ++ after)) :
    Reduces (before.flatMap Token.source) (Component.sources components)
      (reducedAll components) := by
  cases components with
  | nil =>
      rw [Component.sources_nil, reducedAll_nil]
      exact Reduces.nil
  | cons component rest =>
      rw [Component.tokensOf_cons, List.append_assoc] at h
      rw [Component.sources_cons, reducedAll_cons]
      apply (reduces_reduced component h).append
      rw [Component.source_eq_flatMap_tokens, ← List.flatMap_append]
      rw [← List.append_assoc] at h
      exact reduces_reducedAll rest h
end

/-- The evaluation of products writes parts of a value anew. -/
theorem reduces_simplify (value : Text) : Reduces [] value (simplify value) := by
  rw [simplify]
  split
  · have hwhole : Token.ofText value =
        [] ++ (Component.tokensOf (Component.ofText value) ++ []) := by
      rw [Component.tokensOf_ofText]
      simp
    have hreduces := reduces_reducedAll (Component.ofText value) hwhole
    rwa [Component.sources_ofText] at hreduces
  · exact Reduces.refl [] value

/-- What a value refers to once its products are evaluated, it has referred to before. -/
theorem refersTo_of_refersTo_simplify {value name : Text}
    (h : (Template.ofValue (simplify value)).RefersTo name) :
    (Template.ofValue value).RefersTo name := by
  obtain ⟨⟨reference, after⟩, hpiece, rfl⟩ := Template.refersTo_iff.1 h
  obtain ⟨hform, hoccurs⟩ := Template.exists_mem_tail_ofValue_iff.1 ⟨after, hpiece⟩
  have hbefore := (reduces_simplify value).occursIn hform id hoccurs
  obtain ⟨after', hpiece'⟩ := Template.exists_mem_tail_ofValue_iff.2 ⟨hform, hbefore⟩
  exact Template.refersTo_iff.2 ⟨_, hpiece', rfl⟩

end UtilityCss.Calc

namespace UtilityCss

open Component (Formed)

/-! ## What a cursor passes -/

namespace Cursor

/-- The components that are not read are skipped ones. -/
theorem next_ahead (cursor : Cursor) :
    (cursor.next.token = none ∧ ∀ component ∈ cursor.ahead, component.isSkipped = true) ∨
      ∃ skipped component, cursor.ahead = skipped ++ component :: cursor.next.cursor.ahead ∧
        (∀ component ∈ skipped, component.isSkipped = true) ∧
        cursor.next.token = some component.firstToken := by
  have hsplit := List.takeWhile_append_dropWhile (p := Component.isSkipped) (l := cursor.ahead)
  cases hdrop : cursor.ahead.dropWhile Component.isSkipped with
  | nil =>
      refine Or.inl ⟨by simp [next, hdrop], ?_⟩
      simpa using hdrop
  | cons component rest =>
      refine Or.inr ⟨cursor.ahead.takeWhile Component.isSkipped, component, ?_, ?_, ?_⟩
      · rw [hdrop] at hsplit
        simpa [next, hdrop] using hsplit.symm
      · intro component hmem
        exact List.mem_takeWhile_imp hmem
      · simp [next, hdrop]

end Cursor

namespace Component

/-- A token of its own. -/
def IsSingle (component : Component) : Prop :=
  ∃ token, component = .single token

theorem isSingle_of_isSkipped {component : Component} (h : component.isSkipped = true) :
    component.IsSingle := by
  cases component with
  | single token => exact ⟨token, rfl⟩
  | block => cases h

/-- A component in order whose first token opens nothing is that token. -/
theorem Formed.isSingle {bracket : Option Bracket} {ended : Bool} {components : List Component}
    (h : Formed bracket ended components) {component : Component} (hmem : component ∈ components)
    (hopens : component.firstToken.kind.opens? = none) : component.IsSingle := by
  cases component with
  | single token => exact ⟨token, rfl⟩
  | block opener content closer =>
      obtain ⟨before, after, rfl⟩ := List.append_of_mem hmem
      cases h.of_append with
      | closed hopener _ _ _ => exact absurd (hopens.symm.trans hopener) (by simp)
      | unclosed hopener _ => exact absurd (hopens.symm.trans hopener) (by simp)

end Component

namespace Calc

open Component (IsSingle)

theorem kind_of_dimension {reading : Cursor.Reading} {dimension : Dimension}
    (h : reading.dimension = .ok dimension) :
    reading.token.map Token.kind = some (.dimension dimension.unit) := by
  rw [Cursor.Reading.dimension] at h
  split at h
  · rename_i unit hkind
    split at h
    · split at h
      · cases h
        exact hkind
      · cases h
    · cases h
  · cases h

theorem kind_of_number {reading : Cursor.Reading} {value : Binary64}
    (h : reading.number = .ok value) : reading.token.map Token.kind = some .number := by
  rw [Cursor.Reading.number] at h
  split at h
  · rename_i hkind
    exact hkind
  · cases h

theorem delimiter_cursor (cursor : Cursor) (c : Char) :
    (cursor.delimiter c).2 = cursor.next.cursor := by
  simp only [Cursor.delimiter]
  split <;> rfl

/-- The readings of a product, one behind the other. -/
theorem product_eq (content : List Component) :
    product content = (do
      let factor ← (Cursor.start content).next.dimension
      ((Cursor.start content).next.cursor.delimiter '*').1
      let multiplier ← (Cursor.start content).next.cursor.next.cursor.next.number
      (Cursor.start content).next.cursor.next.cursor.next.cursor.finish
      return ⟨factor.value.mul multiplier, factor.unit⟩) := by
  rw [← delimiter_cursor (Cursor.start content).next.cursor '*']
  rfl

theorem kind_of_delimiter {cursor : Cursor} {c : Char} {found : Unit}
    (h : (cursor.delimiter c).1 = .ok found) :
    cursor.next.token.map Token.kind = some (.delimiter c) := by
  simp only [Cursor.delimiter] at h
  split at h
  · assumption
  · cases h

theorem isSkipped_of_finish {cursor : Cursor} {found : Unit} (h : cursor.finish = .ok found) :
    ∀ component ∈ cursor.ahead, component.isSkipped = true := by
  rcases cursor.next_ahead with ⟨-, hskipped⟩ | ⟨_, _, -, -, htoken⟩
  · exact hskipped
  · rw [Cursor.finish, htoken] at h
    cases h

/-- Reading a token that opens nothing passes tokens of their own only. -/
theorem singles_of_next {cursor : Cursor} {bracket : Option Bracket} {ended : Bool}
    (hformed : Formed bracket ended cursor.ahead) {kind : Token.Kind}
    (hkind : cursor.next.token.map Token.kind = some kind) (hopens : kind.opens? = none) :
    ∃ passed, cursor.ahead = passed ++ cursor.next.cursor.ahead ∧
      ∀ component ∈ passed, component.IsSingle := by
  rcases cursor.next_ahead with ⟨hnone, -⟩ | ⟨skipped, component, hahead, hskipped, htoken⟩
  · rw [hnone] at hkind
    cases hkind
  · rw [htoken] at hkind
    obtain rfl : component.firstToken.kind = kind := by simpa using hkind
    refine ⟨skipped ++ [component], by simpa using hahead, ?_⟩
    intro other hmem
    rcases List.mem_append.1 hmem with hskip | hlast
    · exact Component.isSingle_of_isSkipped (hskipped other hskip)
    · rw [List.mem_singleton.1 hlast]
      exact hformed.isSingle (by rw [hahead]; simp) hopens

/-- What is evaluated holds no block. -/
theorem singles_of_product {content : List Component} {dimension : Dimension}
    {bracket : Option Bracket} {ended : Bool} (hformed : Formed bracket ended content)
    (h : product content = .ok dimension) : ∀ component ∈ content, component.IsSingle := by
  rw [product_eq] at h
  obtain ⟨factor, hfactor, h⟩ := exists_of_bind_eq_ok h
  obtain ⟨_, hasterisk, h⟩ := exists_of_bind_eq_ok h
  obtain ⟨multiplier, hmultiplier, h⟩ := exists_of_bind_eq_ok h
  obtain ⟨_, hfinish, -⟩ := exists_of_bind_eq_ok h
  -- Each reading passes some tokens, and nothing is left behind the last one.
  have hahead : (Cursor.start content).ahead = content := rfl
  rw [← hahead] at hformed ⊢
  obtain ⟨first, hfirst, hsingles⟩ := singles_of_next hformed (kind_of_dimension hfactor) rfl
  rw [hfirst] at hformed ⊢
  obtain ⟨second, hsecond, hsingles'⟩ :=
    singles_of_next hformed.of_append (kind_of_delimiter hasterisk) rfl
  rw [hsecond] at hformed ⊢
  obtain ⟨third, hthird, hsingles''⟩ :=
    singles_of_next hformed.of_append.of_append (kind_of_number hmultiplier) rfl
  rw [hthird]
  have hrest := isSkipped_of_finish hfinish
  intro component hmem
  simp only [List.mem_append] at hmem
  rcases hmem with hmem | hmem | hmem | hmem
  · exact hsingles component hmem
  · exact hsingles' component hmem
  · exact hsingles'' component hmem
  · exact Component.isSingle_of_isSkipped (hrest component hmem)

/-! ## The marks of what is written -/

theorem replacement?_eq_some_iff {opener : Token} {content : List Component} {written : Text} :
    replacement? opener content = some written ↔
      opener.kind = .function functionName ∧
        ∃ dimension, product content = .ok dimension ∧ written = writeDimension dimension := by
  rw [replacement?]
  split
  · rename_i hkind
    cases product content with
    | ok dimension => simp [hkind, eq_comm]
    | error failure => simp
  · rename_i hkind
    simp [hkind]

theorem isMarked_of_replacement? {opener : Token} {content : List Component} {written : Text}
    (h : replacement? opener content = some written) : isMarked written = true := by
  obtain ⟨-, dimension, hproduct, rfl⟩ := replacement?_eq_some_iff.1 h
  refine isMarked_append (NumberLayout.isMarked_write _) (isMarked_of_all ?_)
  intro c hc
  have hletter := isUnitChar_of_isUnit (isUnit_of_product hproduct) c hc
  rw [Dimension.isUnitChar] at hletter
  rw [isAsciiLetter, hletter, Bool.true_or]
  exact Or.inl rfl

end Calc

end UtilityCss
