import UtilityCss.Proofs.Rule.Outline
import Mathlib.Algebra.Order.BigOperators.Group.List
import Mathlib.Algebra.Order.Ring.Nat

/-!
# The theme of a sheet

The theme is to hold the declarations that stand directly in the rules for the root and the host.
It is read from the leaves of the rules, and there two things can be lost: a block that also holds
rules is no leaf, and a written block need not read back.

* `Outline.themeBlocks` lists the blocks of the rules for the root and the host.
* `Outline.readTheme` is what the theme takes from such a block.

The main statement is `Stylesheet.theme_keeps_iff`: the theme is what it takes from these blocks,
in their order, and no declaration of them is lost exactly when those that hold rules hold no
declaration and all others read back.
-/

set_option autoImplicit false

namespace UtilityCss

/-! ## What a block holds -/

namespace Outline

/-- The declaration that an item is, if it is one. -/
def declaration? : Outline → Option Declaration
  | .declaration written => some written
  | .registration _ _ | .rule _ _ => none

/-- The declarations that stand directly in a block. -/
def declarations (block : List Outline) : List Declaration :=
  block.filterMap declaration?

/-- Whether an item is a rule other than a registration. -/
def isRule : Outline → Bool
  | .rule _ _ => true
  | .declaration _ | .registration _ _ => false

theorem declarations_concat_meanings (block : List Outline) :
    (Body.concat (meanings block)).declarations = declarations block := by
  rw [meanings_eq_map, Body.declarations_concat, declarations]
  induction block with
  | nil => rfl
  | cons item rest ih =>
      rw [List.map_cons, List.flatMap_cons, ih]
      cases item <;> rw [meaning] <;> rfl

/-- The contents of a block hold a rule for each rule that stands directly in it. -/
theorem isEmpty_rules_concat_meanings (block : List Outline) :
    (Body.concat (meanings block)).rules.isEmpty = !block.any isRule := by
  rw [meanings_eq_map, Body.rules_concat]
  induction block with
  | nil => rfl
  | cons item rest ih =>
      rw [List.map_cons, List.flatMap_cons, List.any_cons]
      cases item with
      | declaration written | registration name inside => rw [meaning]; exact ih
      | rule heading inside => rw [meaning]; rfl

/-! ## The blocks of the theme -/

mutual
/-- The blocks of the rules for the root or the host that an item is, or holds inside of at-rules
only. A heading counts only as it is written, so that a comment or a capital in `:root` keeps the
block out. The block of a registration is not entered, although a registration is an at-rule too. -/
def themeBlocks : Outline → List (List Outline)
  | .declaration _ | .registration _ _ => []
  | .rule heading inside =>
    if RuleNode.isAtHeading heading then themeBlocksOf inside
    else if RuleNode.isThemeSelector heading then [inside]
    else []
/-- The blocks of the rules for the root or the host among several items, in their order. -/
def themeBlocksOf : List Outline → List (List Outline)
  | [] => []
  | item :: rest => themeBlocks item ++ themeBlocksOf rest
end

/-- What the theme takes from a block. -/
def readTheme (block : List Outline) : List Declaration :=
  -- A block that holds rules makes a group, of which the theme looks at at-rules only.
  if block.any isRule then []
  else Declaration.readBlock (Declaration.writeBlock (declarations block))

end Outline

namespace RuleNode

theorem themeOf_append (first second : List RuleNode) :
    themeOf (first ++ second) = themeOf first ++ themeOf second := by
  induction first with
  | nil => rw [themeOf]; rfl
  | cons node rest ih => rw [List.cons_append, themeOf, themeOf, ih, List.append_assoc]

/-- The declarations that a group carries in a leaf of their own are none of the theme. -/
theorem theme_self (declarations : Text) : theme (.style selfSelector declarations) = [] := by
  have hself : isThemeSelector selfSelector = false := by decide
  rw [theme, hself]
  rfl

theorem theme_ofBlock (heading : Text) (declarations : List Declaration)
    (children : List RuleNode) :
    theme (ofBlock heading declarations children) =
      if isAtHeading heading then themeOf children
      else if isThemeSelector heading && children.isEmpty then
        Declaration.readBlock (Declaration.writeBlock declarations)
      else [] := by
  have hnil : themeOf [] = [] := by rw [themeOf]
  -- An at-rule gives what its children give, and any other heading counts for a leaf only.
  cases hat : isAtHeading heading with
  | true =>
      rw [ofBlock, hat, if_pos rfl]
      simp only [Bool.not_true, Bool.and_false, Bool.false_eq_true, if_false]
      split
      · rw [theme, hat, if_pos rfl]
      · rw [theme, hat, if_pos rfl, themeOf, theme_self, List.nil_append]
  | false =>
      cases hchildren : children.isEmpty with
      | true => simp [ofBlock, hat, hchildren, theme]
      | false =>
          simp only [ofBlock, hat, hchildren, Bool.false_and, Bool.false_eq_true, if_false,
            Bool.and_false]
          split <;> simp [theme, hat]

end RuleNode

namespace Outline

mutual
/-- The theme takes from an item what it takes from its blocks. -/
theorem theme_meaning (item : Outline) :
    RuleNode.themeOf (meaning item).rules = (themeBlocks item).flatMap readTheme := by
  cases item with
  | declaration written => rw [meaning, themeBlocks, RuleNode.themeOf, List.flatMap_nil]
  | registration name inside =>
      rw [meaning, themeBlocks, Body.ofRegistration, RuleNode.themeOf, List.flatMap_nil]
  | rule heading inside =>
      rw [meaning, themeBlocks, Body.ofRule, RuleNode.themeOf, RuleNode.themeOf, List.append_nil,
        RuleNode.theme_ofBlock, theme_meanings inside, isEmpty_rules_concat_meanings,
        declarations_concat_meanings]
      cases RuleNode.isAtHeading heading with
      | true => rfl
      | false =>
          cases RuleNode.isThemeSelector heading with
          | false => rfl
          | true =>
              simp only [Bool.false_eq_true, if_false, Bool.true_and, if_true,
                List.flatMap_singleton, readTheme]
              cases inside.any isRule <;> rfl
theorem theme_meanings (items : List Outline) :
    RuleNode.themeOf (Body.concat (meanings items)).rules =
      (themeBlocksOf items).flatMap readTheme := by
  cases items with
  | nil => rw [meanings, themeBlocksOf]; exact RuleNode.themeOf.eq_1
  | cons item rest =>
      have hrest := theme_meanings rest
      rw [Body.rules_concat] at hrest
      rw [meanings, themeBlocksOf, Body.rules_concat, List.flatMap_cons, List.flatMap_append,
        RuleNode.themeOf_append, theme_meaning item, hrest]
end

end Outline

/-- The theme of a sheet is what it takes from the blocks of its outline. -/
theorem Stylesheet.theme_parse (text : Text) :
    theme (parse text) = (Outline.themeBlocksOf (outline text)).flatMap Outline.readTheme := by
  rw [parse_eq, theme, Outline.theme_meanings]

/-! ## What is lost -/

namespace Declaration

theorem weight_pos (declaration : Declaration) : 0 < declaration.weight := by
  have := inkLength_write declaration
  omega

theorem eq_nil_of_sum_weight {declarations : List Declaration}
    (h : (declarations.map weight).sum = 0) : declarations = [] := by
  cases declarations with
  | nil => rfl
  | cons first others =>
      have := first.weight_pos
      rw [List.map_cons, List.sum_cons] at h
      omega

/-- What is read from a written block counts at most what the block counts. -/
theorem sum_weight_readBlock_le (declarations : List Declaration) :
    ((readBlock (writeBlock declarations)).map weight).sum ≤ (declarations.map weight).sum := by
  by_cases hnil : declarations = []
  · subst hnil
    exact Nat.le_of_eq rfl
  · have hne : Text.splitTopLevel ';' (writeBlock declarations) ≠ [] :=
      Scan.splitFrom_ne_nil _ _ _ _
    have hitems := sum_itemWeight _ hne
    rw [Text.intercalate_splitTopLevel, ← sum_weight declarations hnil] at hitems
    rw [readBlock, ← hitems]
    exact sum_weight_le _

/-- Beginnings of one sequence that count alike are the same. -/
theorem append_inj_of_sum_weight {first first' rest rest' : List Declaration}
    (happend : first ++ rest = first' ++ rest')
    (hsum : (first.map weight).sum = (first'.map weight).sum) : first = first' ∧ rest = rest' := by
  rcases List.append_eq_append_iff.1 happend with ⟨more, rfl, rfl⟩ | ⟨more, rfl, rfl⟩
  · rw [List.map_append, List.sum_append] at hsum
    have hmore : (more.map weight).sum = 0 := by omega
    obtain rfl := eq_nil_of_sum_weight hmore
    simp
  · rw [List.map_append, List.sum_append] at hsum
    have hmore : (more.map weight).sum = 0 := by omega
    obtain rfl := eq_nil_of_sum_weight hmore
    simp

/-- A subsequence that counts as much as the whole is the whole. -/
theorem eq_of_sublist_of_sum_weight {part whole : List Declaration} (h : part.Sublist whole)
    (hsum : (whole.map weight).sum ≤ (part.map weight).sum) : part = whole := by
  induction h with
  | slnil => rfl
  | cons declaration hsub ih =>
      have hle := (hsub.map weight).sum_le_sum fun _ _ => Nat.zero_le _
      have := declaration.weight_pos
      rw [List.map_cons, List.sum_cons] at hsum
      omega
  | cons_cons declaration hsub ih =>
      rw [List.map_cons, List.map_cons, List.sum_cons, List.sum_cons] at hsum
      rw [ih (by omega)]

end Declaration

namespace Outline

open Declaration (weight)

theorem sum_weight_readTheme_le (block : List Outline) :
    ((readTheme block).map weight).sum ≤ ((declarations block).map weight).sum := by
  rw [readTheme]
  split
  · exact Nat.zero_le _
  · exact Declaration.sum_weight_readBlock_le _

theorem sum_weight_flatMap_readTheme_le (blocks : List (List Outline)) :
    ((blocks.flatMap readTheme).map weight).sum ≤
      ((blocks.flatMap declarations).map weight).sum := by
  induction blocks with
  | nil => exact Nat.le_refl _
  | cons block rest ih =>
      have := sum_weight_readTheme_le block
      simp only [List.flatMap_cons, List.map_append, List.sum_append]
      omega

/-- What the theme takes from several blocks is all of their declarations only if it is so for
each of them. -/
theorem readTheme_eq_of_flatMap_eq {blocks : List (List Outline)}
    (h : blocks.flatMap declarations = blocks.flatMap readTheme) :
    ∀ block ∈ blocks, readTheme block = declarations block := by
  induction blocks with
  | nil => simp
  | cons block rest ih =>
      rw [List.flatMap_cons, List.flatMap_cons] at h
      have hblock := sum_weight_readTheme_le block
      have hrest := sum_weight_flatMap_readTheme_le rest
      -- The blocks count alike together, and none of them counts more when it is read.
      have hsum := congrArg (fun all => (all.map weight).sum) h
      simp only [List.map_append, List.sum_append] at hsum
      obtain ⟨hfirst, hothers⟩ := Declaration.append_inj_of_sum_weight h (by omega)
      rw [List.forall_mem_cons]
      exact ⟨hfirst.symm, ih hothers⟩

/-- What the theme takes from a block are its declarations exactly when there are none beside
rules, and they read back. -/
theorem readTheme_eq_iff (block : List Outline) :
    readTheme block = declarations block ↔
      ((∃ item ∈ block, item.isRule = true) → declarations block = []) ∧
        Declaration.readBlock (Declaration.writeBlock (declarations block)) =
          declarations block := by
  rw [← List.any_eq_true, readTheme]
  cases block.any isRule with
  | false => simp
  | true =>
      simp only [if_true, true_implies]
      constructor
      · intro h
        rw [← h]
        exact ⟨rfl, rfl⟩
      · rintro ⟨h, -⟩
        exact h.symm

end Outline

/-- The theme is what it takes from the blocks of the rules for the root and the host, in their
order. All their declarations are in the theme in this order exactly when no block has
declarations beside rules and each block, as it is written, reads back. -/
theorem Stylesheet.theme_keeps_iff (text : Text) :
    theme (parse text) = (Outline.themeBlocksOf (outline text)).flatMap Outline.readTheme ∧
    (((Outline.themeBlocksOf (outline text)).flatMap Outline.declarations).Sublist
        (theme (parse text)) ↔
      ∀ block ∈ Outline.themeBlocksOf (outline text),
        ((∃ item ∈ block, item.isRule = true) → Outline.declarations block = []) ∧
          Declaration.readBlock (Declaration.writeBlock (Outline.declarations block)) =
            Outline.declarations block) := by
  refine ⟨theme_parse text, ?_⟩
  simp only [← Outline.readTheme_eq_iff]
  rw [theme_parse]
  constructor
  · -- No block reads as more than was written for it, so that none may lose anything.
    intro hsub
    apply Outline.readTheme_eq_of_flatMap_eq
    exact Declaration.eq_of_sublist_of_sum_weight hsub
      (Outline.sum_weight_flatMap_readTheme_le _)
  · intro h
    rw [List.flatMap_congr h]

/-- A rule for the root that holds a declaration and a rule. -/
def Stylesheet.besideSheet : Text :=
  ":root \x7b --ink: black; .dark \x7b --ink: white \x7d \x7d".toList

/-- A rule inside the block of the root takes the declarations beside it out of the theme. -/
theorem Stylesheet.theme_loses_beside_rule :
    (Outline.themeBlocksOf (outline besideSheet)).flatMap Outline.declarations =
        [⟨"--ink".toList, "black".toList⟩] ∧
      theme (parse besideSheet) = [] := by
  decide +kernel

end UtilityCss
