import UtilityCss.Stylesheet
import Mathlib.Data.List.Lex
import Mathlib.Tactic.Common

/-!
# Which rules are utilities

A sheet lists as utilities the rules whose heading begins with a class, white space apart, and above
which there are at-rules only. It lists each of them once and in document order
(`Stylesheet.utilities_exact`). So no utility stands inside of another one.

* `RuleNode.Stands` says which rule stands at a place of a forest, and which rules stand above it.
* `RuleNode.utilityPlaces` lists the utilities of a rule with their places.

A place gives the index of the rule in the forest, then that of the rule among the children of the
first one, and so on. The lexicographic order of places is document order.
-/

set_option autoImplicit false

namespace UtilityCss

namespace RuleNode

/-! ## Places -/

/-- The rules directly inside of a rule. -/
def children : RuleNode → List RuleNode
  | .style _ _ => []
  | .group _ children => children

/-- A rule stands at a place of a forest, below certain others, of which the outermost comes
first. -/
inductive Stands : List RuleNode → List Nat → List RuleNode → RuleNode → Prop where
  | here {rules : List RuleNode} {index : Nat} {node : RuleNode} (h : rules[index]? = some node) :
      Stands rules [index] [] node
  | inside {rules above : List RuleNode} {index : Nat} {place : List Nat} {outer node : RuleNode}
      (h : rules[index]? = some outer) (hinside : Stands outer.children place above node) :
      Stands rules (index :: place) (outer :: above) node

theorem Stands.ne_nil {rules above : List RuleNode} {place : List Nat} {node : RuleNode}
    (h : Stands rules place above node) : place ≠ [] := by
  cases h with
  | here => exact List.cons_ne_nil _ _
  | inside => exact List.cons_ne_nil _ _

/-- A place determines what stands above it. -/
theorem Stands.above_unique {rules above above' : List RuleNode} {place : List Nat}
    {node node' : RuleNode} (h : Stands rules place above node)
    (h' : Stands rules place above' node') : above = above' := by
  induction h generalizing above' with
  | here =>
      cases h' with
      | here => rfl
      | inside _ hinside => exact absurd rfl hinside.ne_nil
  | inside hindex hinside ih =>
      cases h' with
      | here => exact absurd rfl hinside.ne_nil
      | inside hindex' hinside' =>
          obtain rfl := Option.some.inj (hindex.symm.trans hindex')
          rw [ih hinside']

/-! ## Headings -/

/-- A rule whose heading begins with a class, white space apart. -/
def IsUtility (node : RuleNode) : Prop :=
  (Text.trimStart node.heading).head? = some '.'

/-- A group whose condition begins with the mark of at-rules. -/
def IsAtGroup : RuleNode → Prop
  | .style _ _ => False
  | .group condition _ => condition.head? = some '@'

theorem isUtilityHeading_iff (node : RuleNode) :
    isUtilityHeading node.heading = true ↔ IsUtility node := by
  rw [isUtilityHeading, beq_iff_eq, IsUtility]

theorem isAtHeading_iff {condition : Text} {children : List RuleNode} :
    isAtHeading condition = true ↔ IsAtGroup (.group condition children) := by
  rw [isAtHeading, beq_iff_eq, IsAtGroup]

theorem IsAtGroup.not_isUtility {node : RuleNode} (h : IsAtGroup node) : ¬ IsUtility node := by
  cases node with
  | style => exact absurd h id
  | group condition children =>
      cases condition with
      | nil => cases h
      | cons c rest =>
          -- The mark is not blank, so that trimming leaves it.
          obtain rfl : c = '@' := by simpa [IsAtGroup] using h
          intro hutility
          cases hutility

/-- A utility with at-rules above it only. -/
def IsUtilityAt (rules : List RuleNode) (place : List Nat) (node : RuleNode) : Prop :=
  IsUtility node ∧ ∃ above, Stands rules place above node ∧ ∀ outer ∈ above, IsAtGroup outer

/-- It is a rule of the forest, or stands in the same way inside of an at-rule of the forest. -/
theorem isUtilityAt_cons_iff {rules : List RuleNode} {index : Nat} {place : List Nat}
    {node : RuleNode} :
    IsUtilityAt rules (index :: place) node ↔
      ∃ outer, rules[index]? = some outer ∧
        ((place = [] ∧ node = outer ∧ IsUtility outer) ∨
          (IsAtGroup outer ∧ IsUtilityAt outer.children place node)) := by
  constructor
  · rintro ⟨hutility, above, hstands, habove⟩
    cases hstands with
    | here hindex => exact ⟨node, hindex, Or.inl ⟨rfl, rfl, hutility⟩⟩
    | @inside _ above _ _ outer _ hindex hinside =>
        rw [List.forall_mem_cons] at habove
        exact ⟨outer, hindex, Or.inr ⟨habove.1, hutility, above, hinside, habove.2⟩⟩
  · rintro ⟨outer, hindex, ⟨rfl, rfl, hutility⟩ | ⟨hgroup, hutility, above, hinside, habove⟩⟩
    · exact ⟨hutility, [], .here hindex, by simp⟩
    · exact ⟨hutility, outer :: above, .inside hindex hinside,
        List.forall_mem_cons.2 ⟨hgroup, habove⟩⟩

/-! ## The list of utilities with their places -/

mutual
/-- The utilities that a rule is or contains, with their places from there. -/
def utilityPlaces : RuleNode → List (List Nat × RuleNode)
  | .style selector declarations =>
    if isUtilityHeading selector then [([], .style selector declarations)] else []
  | .group condition children =>
    if isUtilityHeading condition then [([], .group condition children)]
    else if isAtHeading condition then utilityPlacesFrom 0 children
    else []
/-- The utilities of a sequence of rules, of which the first one has a given index. -/
def utilityPlacesFrom (index : Nat) : List RuleNode → List (List Nat × RuleNode)
  | [] => []
  | node :: rest =>
    (utilityPlaces node).map (fun found => (index :: found.1, found.2)) ++
      utilityPlacesFrom (index + 1) rest
end

/-- What a sheet lists for a utility. -/
def toUtility (node : RuleNode) : UtilityRule :=
  ⟨Text.trim node.heading, node⟩

mutual
theorem utilities_eq_map (node : RuleNode) :
    utilities node = (utilityPlaces node).map (fun found => toUtility found.2) := by
  cases node with
  | style selector declarations =>
      rw [utilities, utilityPlaces]
      split <;> rfl
  | group condition children =>
      rw [utilities, utilityPlaces]
      split
      · rfl
      · split
        · exact utilitiesOf_eq_map 0 children
        · rfl
theorem utilitiesOf_eq_map (index : Nat) (nodes : List RuleNode) :
    utilitiesOf nodes = (utilityPlacesFrom index nodes).map (fun found => toUtility found.2) := by
  cases nodes with
  | nil => rfl
  | cons node rest =>
      rw [utilitiesOf, utilityPlacesFrom, List.map_append, List.map_map, utilities_eq_map node,
        utilitiesOf_eq_map (index + 1) rest]
      rfl
end

/-! ## Membership -/

theorem isUtilityAt_cons_succ_iff {outer : RuleNode} {rules : List RuleNode} {index : Nat}
    {place : List Nat} {node : RuleNode} :
    IsUtilityAt (outer :: rules) ((index + 1) :: place) node ↔
      IsUtilityAt rules (index :: place) node := by
  rw [isUtilityAt_cons_iff, isUtilityAt_cons_iff, List.getElem?_cons_succ]

theorem isUtilityAt_cons_zero_iff {outer : RuleNode} {rules : List RuleNode} {place : List Nat}
    {node : RuleNode} :
    IsUtilityAt (outer :: rules) (0 :: place) node ↔
      (place = [] ∧ node = outer ∧ IsUtility outer) ∨
        (IsAtGroup outer ∧ IsUtilityAt outer.children place node) := by
  rw [isUtilityAt_cons_iff, List.getElem?_cons_zero]
  constructor
  · rintro ⟨other, heq, h⟩
    obtain rfl := Option.some.inj heq
    exact h
  · intro h
    exact ⟨outer, rfl, h⟩

/-- No utility stands at the empty place. -/
theorem exists_cons_isUtilityAt_iff {rules : List RuleNode} {place : List Nat} {node : RuleNode} :
    (∃ offset rest, place = (0 + offset) :: rest ∧ IsUtilityAt rules (offset :: rest) node) ↔
      IsUtilityAt rules place node := by
  simp only [Nat.zero_add]
  constructor
  · rintro ⟨index, rest, rfl, h⟩
    exact h
  · intro h
    obtain ⟨-, above, hstands, -⟩ := id h
    obtain ⟨index, rest, rfl⟩ := List.exists_cons_of_ne_nil hstands.ne_nil
    exact ⟨index, rest, rfl, h⟩

mutual
/-- The list for a rule has the rule itself if it is a utility, and else what stands inside of an
at-rule. -/
theorem mem_utilityPlaces_iff (outer : RuleNode) {place : List Nat} {node : RuleNode} :
    (place, node) ∈ utilityPlaces outer ↔
      (place = [] ∧ node = outer ∧ IsUtility outer) ∨
        (IsAtGroup outer ∧ IsUtilityAt outer.children place node) := by
  have hself := isUtilityHeading_iff outer
  cases outer with
  | style selector declarations =>
      rw [utilityPlaces]
      split
      · rename_i h
        simp [IsAtGroup, hself.1 h]
      · rename_i h
        simp [IsAtGroup, mt hself.2 h]
  | group condition children =>
      rw [utilityPlaces]
      split
      · -- A utility is no at-rule.
        rename_i h
        have hutility := hself.1 h
        have hgroup := mt IsAtGroup.not_isUtility (not_not_intro hutility)
        simp [hgroup, hutility]
      · rename_i h
        have hutility := mt hself.2 h
        split
        · rename_i hat
          have hgroup : IsAtGroup (.group condition children) := isAtHeading_iff.1 hat
          rw [mem_utilityPlacesFrom_iff 0 children, exists_cons_isUtilityAt_iff]
          simp [hutility, hgroup, RuleNode.children]
        · rename_i hat
          have hgroup : ¬ IsAtGroup (.group condition children) := mt isAtHeading_iff.2 hat
          simp [hutility, hgroup]
/-- The list for a sequence of rules has the utilities of the forest, with shifted places. -/
theorem mem_utilityPlacesFrom_iff (index : Nat) (rules : List RuleNode) {place : List Nat}
    {node : RuleNode} :
    (place, node) ∈ utilityPlacesFrom index rules ↔
      ∃ offset rest, place = (index + offset) :: rest ∧
        IsUtilityAt rules (offset :: rest) node := by
  cases rules with
  | nil =>
      rw [utilityPlacesFrom]
      constructor
      · intro h
        cases h
      · rintro ⟨offset, rest, -, h⟩
        obtain ⟨outer, hindex, -⟩ := isUtilityAt_cons_iff.1 h
        cases hindex
  | cons outer rules =>
      rw [utilityPlacesFrom, List.mem_append, List.mem_map,
        mem_utilityPlacesFrom_iff (index + 1) rules]
      constructor
      · -- The first rule is at offset zero, the others are one offset further than in the rest.
        rintro (⟨⟨rest, other⟩, hmem, heq⟩ | ⟨offset, rest, rfl, h⟩)
        · obtain ⟨rfl, rfl⟩ := Prod.mk.inj heq
          refine ⟨0, rest, rfl, ?_⟩
          rw [isUtilityAt_cons_zero_iff]
          exact (mem_utilityPlaces_iff outer).1 hmem
        · refine ⟨offset + 1, rest, ?_, isUtilityAt_cons_succ_iff.2 h⟩
          rw [Nat.add_assoc, Nat.add_comm 1]
      · rintro ⟨offset, rest, rfl, h⟩
        cases offset with
        | zero =>
            rw [isUtilityAt_cons_zero_iff] at h
            exact Or.inl ⟨(rest, node), (mem_utilityPlaces_iff outer).2 h, rfl⟩
        | succ offset =>
            refine Or.inr ⟨offset, rest, ?_, isUtilityAt_cons_succ_iff.1 h⟩
            rw [Nat.add_assoc, Nat.add_comm 1]
end

/-! ## Order -/

mutual
theorem pairwise_utilityPlaces (node : RuleNode) :
    (utilityPlaces node).Pairwise (fun first second => first.1 < second.1) := by
  cases node with
  | style selector declarations =>
      rw [utilityPlaces]
      split
      · exact List.pairwise_singleton _ _
      · exact .nil
  | group condition children =>
      rw [utilityPlaces]
      split
      · exact List.pairwise_singleton _ _
      · split
        · exact pairwise_utilityPlacesFrom 0 children
        · exact .nil
theorem pairwise_utilityPlacesFrom (index : Nat) (nodes : List RuleNode) :
    (utilityPlacesFrom index nodes).Pairwise (fun first second => first.1 < second.1) := by
  cases nodes with
  | nil => exact .nil
  | cons node rest =>
      rw [utilityPlacesFrom, List.pairwise_append]
      refine ⟨?_, pairwise_utilityPlacesFrom (index + 1) rest, ?_⟩
      · rw [List.pairwise_map]
        refine (pairwise_utilityPlaces node).imp ?_
        intro first second h
        exact List.cons_lt_cons_iff.2 (Or.inr ⟨rfl, h⟩)
      · -- What comes later has a greater index in front.
        rintro first hfirst ⟨place, later⟩ hlater
        obtain ⟨found, -, rfl⟩ := List.mem_map.1 hfirst
        obtain ⟨offset, place, rfl, -⟩ := (mem_utilityPlacesFrom_iff (index + 1) rest).1 hlater
        apply List.cons_lt_cons_iff.2
        apply Or.inl
        omega
end

end RuleNode

/-! ## Sheets -/

namespace Stylesheet

open RuleNode (Stands IsUtility IsAtGroup toUtility)

/-- A sheet lists exactly the rules whose heading begins with a class, white space apart, and above
which there are at-rules only. It lists them in document order and each once, with the trimmed
heading and the rule as it is. Nothing above a listed rule is a utility. -/
theorem utilities_exact (sheet : Stylesheet) :
    ∃ found : List (List Nat × RuleNode),
      sheet.utilities = found.map (fun entry => toUtility entry.2) ∧
      found.Pairwise (fun first second => first.1 < second.1) ∧
      (∀ place node, (place, node) ∈ found ↔
        IsUtility node ∧ ∃ above, Stands sheet.rules place above node ∧
          ∀ outer ∈ above, IsAtGroup outer) ∧
      ∀ place node above, (place, node) ∈ found → Stands sheet.rules place above node →
        ∀ outer ∈ above, IsAtGroup outer ∧ ¬ IsUtility outer := by
  have hmem : ∀ place node, (place, node) ∈ RuleNode.utilityPlacesFrom 0 sheet.rules ↔
      RuleNode.IsUtilityAt sheet.rules place node := by
    intro place node
    rw [RuleNode.mem_utilityPlacesFrom_iff, RuleNode.exists_cons_isUtilityAt_iff]
  refine ⟨RuleNode.utilityPlacesFrom 0 sheet.rules, RuleNode.utilitiesOf_eq_map 0 sheet.rules,
    RuleNode.pairwise_utilityPlacesFrom 0 sheet.rules, hmem, ?_⟩
  intro place node above hfound hstands outer houter
  obtain ⟨-, above', hstands', habove⟩ := (hmem place node).1 hfound
  obtain rfl := hstands.above_unique hstands'
  exact ⟨habove outer houter, (habove outer houter).not_isUtility⟩

/-- Utilities inside of at-rules. One has a rule of the same kind inside, and one stands in a group
whose condition begins with a blank. -/
def layeredSheet : Stylesheet where
  rules :=
    [.group "@layer utilities".toList
        [.style " .m-4".toList "margin: 1rem".toList,
          .group ".card".toList [.style ".inner".toList "color: red".toList],
          .group "@media print".toList [.style ".p-2\n".toList "padding: 2px".toList]],
      .group " @layer base".toList [.style ".lost".toList "color: tan".toList]]
  registrations := []

theorem utilities_layeredSheet :
    layeredSheet.utilities.map UtilityRule.selector =
      [".m-4".toList, ".card".toList, ".p-2".toList] ∧
    ∃ found : List (List Nat × RuleNode),
      layeredSheet.utilities = found.map (fun entry => toUtility entry.2) ∧
      ([0, 2, 0], .style ".p-2\n".toList "padding: 2px".toList) ∈ found ∧
      ∀ node, ([0, 1, 0], node) ∉ found := by
  obtain ⟨found, hlist, -, hmem, habove⟩ := utilities_exact layeredSheet
  have hplain : Stands layeredSheet.rules [0, 2, 0] _
      (.style ".p-2\n".toList "padding: 2px".toList) :=
    .inside rfl (.inside rfl (.here rfl))
  have hinner : Stands layeredSheet.rules [0, 1, 0] _
      (.style ".inner".toList "color: red".toList) :=
    .inside rfl (.inside rfl (.here rfl))
  refine ⟨by decide, found, hlist, (hmem _ _).2 ⟨rfl, _, hplain, by simp [IsAtGroup]⟩, ?_⟩
  intro node hfound
  obtain ⟨-, above, hstands, -⟩ := (hmem _ _).1 hfound
  obtain rfl := hinner.above_unique hstands
  have hcard := habove _ _ _ hfound hstands _ (List.mem_cons_of_mem _ List.mem_cons_self)
  exact hcard.2 rfl

end Stylesheet

end UtilityCss
