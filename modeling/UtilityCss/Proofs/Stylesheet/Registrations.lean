import UtilityCss.Proofs.PropertyName
import UtilityCss.Proofs.Stylesheet.RoundTrip

/-!
# Reading printed registrations

Registrations between printed rules are collected in their order, from any depth, and the rules
are the same as without them (`Stylesheet.parse_printOf`).

A registration is an item of its own (`PlainRegistration.printedAs`) that adds nothing to the rules
around it, so that the proof follows the printed items as it does for rules alone.
-/

set_option autoImplicit false

namespace UtilityCss

open Component (IsInline Written)
open Token (Stops EndsName Anything Framed)

/-! ## Names -/

namespace PropertyName

/-- The characters of plain names are visible ones of ASCII, and none is a bracket. -/
theorem bounds_of_isPlainCustom {name : Text} (h : isPlainCustom name = true) :
    ∀ c ∈ name, Text.isPlainChar c = true ∧ 33 ≤ c.toNat ∧ c.toNat ≤ 126 ∧ c ≠ '(' ∧ c ≠ ')' := by
  simp only [isPlainCustom, Bool.and_eq_true, List.all_eq_true] at h
  obtain ⟨hlead, hall⟩ := h
  obtain ⟨after, rfl⟩ := List.isPrefixOf_iff_prefix.1 hlead
  intro c hc
  rcases List.mem_append.1 hc with hc | hc
  · have hhyphen : c = '-' := by simpa using hc
    subst hhyphen
    decide
  · have hclass := hall c hc
    -- No bracket is in the class of these characters.
    have hne : ∀ d, (isAsciiLetter d || isDigit d || d == '_' || d == '-') = false → c ≠ d := by
      intro d hd heq
      rw [heq, hd] at hclass
      cases hclass
    have hopen := hne '(' rfl
    have hclose := hne ')' rfl
    simp only [Bool.or_eq_true, beq_iff_eq] at hclass
    rcases hclass with ((hletter | hdigit) | rfl) | rfl
    · have hcases : (97 ≤ c.toNat ∧ c.toNat ≤ 122) ∨ (65 ≤ c.toNat ∧ c.toNat ≤ 90) := by
        simp only [isAsciiLetter, Bool.or_eq_true, Bool.and_eq_true, decide_eq_true_eq,
          Char.le_def, UInt32.le_iff_toNat_le] at hletter
        exact hletter
      exact ⟨by simp [Text.isPlainChar, hletter], by omega, by omega, hopen, hclose⟩
    · have hbounds := isDigit_bounds hdigit
      exact ⟨by simp [Text.isPlainChar, hdigit], by omega, by omega, hopen, hclose⟩
    · decide
    · decide

/-- The name of a custom property is a plain text. -/
theorem isPlain_of_isPlainCustom {name : Text} (h : isPlainCustom name = true) : name.IsPlain := by
  have hbounds := bounds_of_isPlainCustom h
  refine ⟨?_, fun c hc => (hbounds c hc).1, ?_, ?_⟩
  · exact Text.trim_of_not_blank fun c hc =>
      isBlank_of_bounds (hbounds c hc).2.1 (hbounds c hc).2.2.1
  · have hinner : name.all Token.isInner = true := by
      rw [List.all_eq_true]
      intro c hc
      obtain ⟨-, -, -, hopen, hclose⟩ := hbounds c hc
      simp [Token.isInner, hopen, hclose]
    have hnone := Token.balancedFrom_append_of_inner hinner 0 []
    rw [List.append_nil] at hnone
    rw [hnone]
    rfl
  · -- An address has a bracket, and no capital letter has one for its small form.
    rw [Bool.eq_false_iff]
    intro hurl
    rw [Text.contains_eq_true_iff] at hurl
    have hbracket : '(' ∈ Text.asciiLower name := hurl.subset (by decide)
    obtain ⟨c, hc, hlower⟩ := List.mem_map.1 hbracket
    obtain ⟨-, -, -, hopen, -⟩ := hbounds c hc
    by_cases hupper : c.isUpper = true
    · exact forall_capital (p := fun c => c.toLower ≠ '(') (by decide) hupper hlower
    · rw [toLower_of_not_isUpper hupper] at hlower
      exact hopen hlower

end PropertyName

/-! ## Quoted texts -/

namespace Token

/-- A quoted text runs to its closing quote. -/
theorem stringExtent_append {text : Text} (h : text.IsQuotable) (rest : Text) :
    stringExtent '"' (text ++ '"' :: rest) = text.length + 1 := by
  induction text with
  | nil =>
      rw [List.nil_append, stringExtent, if_neg (by decide), if_pos rfl]
      rfl
  | cons c text ih =>
      rw [Text.IsQuotable, List.forall_mem_cons] at h
      obtain ⟨⟨hquote, hslash, hnewline⟩, htext⟩ := h
      rw [List.cons_append, stringExtent, if_neg hslash, if_neg hquote, if_neg (by simp [hnewline]),
        ih htext, List.length_cons]
      omega

theorem framed_quoted {text : Text} (h : text.IsQuotable) :
    Framed Anything ('"' :: (text ++ ['"'])) [⟨.string, '"' :: (text ++ ['"'])⟩] := by
  intro rest _
  have hfirst : first '"' ((text ++ ['"']) ++ rest) = (.string, (text ++ ['"']).length + 1) := by
    have hstring : first '"' ((text ++ ['"']) ++ rest) =
        (.string, 1 + stringExtent '"' ((text ++ ['"']) ++ rest)) := rfl
    rw [hstring, List.append_assoc, List.singleton_append, stringExtent_append h,
      List.length_append, List.length_singleton, Nat.add_comm]
  exact ofText_cons_of_first hfirst

end Token

theorem Text.trim_quoted (text : Text) :
    Text.trim ('"' :: (text ++ ['"'])) = '"' :: (text ++ ['"']) := by
  have hblank : isBlank '"' = false := by decide
  rw [Text.trim_eq_self_iff, ← List.cons_append, List.getLast?_concat]
  simpa using hblank

/-- A quoted text is read back as the value of a declaration. -/
theorem exists_written_quoted {text : Text} (h : text.IsQuotable) :
    ∃ components, Written Stops (' ' :: '"' :: (text ++ ['"'])) components ∧
      (∀ component ∈ components, IsInline component) ∧
      Part.text (Part.ofComponents components) = '"' :: (text ++ ['"']) := by
  have hspace : Written _ [' '] [.single ⟨.space, [' ']⟩] :=
    ⟨_, Token.framed_space, Component.Gathers.single rfl rfl⟩
  have hquoted : Written Anything ('"' :: (text ++ ['"']))
      [.single ⟨.string, '"' :: (text ++ ['"'])⟩] :=
    ⟨_, Token.framed_quoted h, Component.Gathers.single rfl rfl⟩
  have hwhole := hspace.append hquoted fun rest _ c hc => by
    cases hc
    rfl
  refine ⟨_, hwhole.mono fun _ _ => trivial, ?_, ?_⟩
  · simp [IsInline, Component.firstToken]
  · rw [Part.text_ofComponents, hwhole.sources_eq trivial, List.singleton_append,
      Text.trim_space_cons, Text.trim_quoted]

/-! ## Descriptors -/

namespace Registration

theorem unquote_quoted (grammar : Text) : unquote (Content.quoted grammar) = grammar := by
  rw [unquote, Content.quoted, Text.trim_quoted]
  simp [between?]

/-- Descriptors of different names may be exchanged. -/
theorem describe_comm (registration : Registration) {first second : Declaration}
    (h : first.name ≠ second.name) :
    (registration.describe first).describe second =
      (registration.describe second).describe first := by
  -- Each name sets a field of its own, whatever the three names are.
  simp only [describe]
  generalize "syntax".toList = grammarName
  generalize "inherits".toList = inheritsName
  generalize "initial-value".toList = valueName
  split_ifs <;> simp_all

theorem eq_or_name_ne_of_mem_descriptors {content : Content} {first second : Declaration}
    (h : first ∈ content.descriptors) (h' : second ∈ content.descriptors) :
    first = second ∨ first.name ≠ second.name := by
  simp only [Content.descriptors, List.mem_append, Option.mem_toList,
    Option.map_eq_some_iff] at h h'
  rcases h with (⟨grammar, hfirst, rfl⟩ | ⟨inherits, hfirst, rfl⟩) | ⟨value, hfirst, rfl⟩ <;>
    rcases h' with (⟨grammar', hsecond, rfl⟩ | ⟨inherits', hsecond, rfl⟩) | ⟨value', hsecond, rfl⟩
  -- Descriptors of one name are the same, since none is there twice.
  case inl.inl.inl.inl | inl.inr.inl.inr | inr.inr =>
    rw [hfirst] at hsecond
    cases hsecond
    exact Or.inl rfl
  all_goals exact Or.inr (by dsimp only; decide)

theorem describe_syntax (registration : Registration) (grammar : Text) :
    registration.describe ⟨"syntax".toList, Content.quoted grammar⟩ =
      { registration with grammar := some grammar } := by
  have hname : (⟨"syntax".toList, Content.quoted grammar⟩ : Declaration).name =
      "syntax".toList := rfl
  rw [describe, if_pos hname, unquote_quoted]

theorem describe_inherits (registration : Registration) (inherits : Bool) :
    registration.describe
        ⟨"inherits".toList, if inherits then "true".toList else "false".toList⟩ =
      { registration with inherits := inherits } := by
  cases inherits <;> rfl

theorem describe_initialValue (registration : Registration) (value : Text) :
    registration.describe ⟨"initial-value".toList, value⟩ =
      { registration with initialValue := some value } := rfl

theorem ofDescriptors_descriptors (name : Text) (content : Content) :
    ofDescriptors name content.descriptors =
      ⟨name, content.grammar, content.inherits.getD true, content.initialValue⟩ := by
  obtain ⟨grammar, inherits, initialValue⟩ := content
  rw [ofDescriptors, Content.descriptors, List.foldl_append, List.foldl_append]
  cases grammar <;> cases inherits <;> cases initialValue <;>
    simp only [Option.map_none, Option.map_some, Option.toList_none, Option.toList_some,
      List.foldl_nil, List.foldl_cons, describe_syntax, describe_inherits, describe_initialValue,
      bare, Option.getD_none, Option.getD_some]

/-- Each descriptor is written once, so that their order does not matter. -/
theorem ofDescriptors_perm {name : Text} {content : Content} {written : List Declaration}
    (h : written.Perm content.descriptors) :
    ofDescriptors name written =
      ⟨name, content.grammar, content.inherits.getD true, content.initialValue⟩ := by
  rw [← ofDescriptors_descriptors, ofDescriptors, ofDescriptors]
  refine (h.symm.foldl_eq' ?_ (bare name)).symm
  intro first hfirst second hsecond registration
  rcases eq_or_name_ne_of_mem_descriptors hfirst hsecond with rfl | hne
  · rfl
  · exact describe_comm registration hne

end Registration

namespace PlainRegistration

variable (plain : PlainRegistration)

theorem isReadable_of_mem_written {declaration : Declaration} (h : declaration ∈ plain.written) :
    declaration.IsReadable := by
  have hmem := plain.perm.mem_iff.1 h
  simp only [Registration.Content.descriptors, List.mem_append, Option.mem_toList,
    Option.map_eq_some_iff] at hmem
  rcases hmem with (⟨grammar, hgrammar, rfl⟩ | ⟨inherits, -, rfl⟩) | ⟨value, hvalue, rfl⟩
  · exact ⟨Or.inl (by dsimp only; decide),
      exists_written_quoted (plain.isQuotable_grammar grammar hgrammar)⟩
  · refine ⟨Or.inl (by dsimp only; decide), exists_written_space ?_⟩
    cases inherits <;> decide
  · exact ⟨Or.inl (by dsimp only; decide),
      exists_written_space (plain.isPlain_initialValue value hvalue)⟩

/-- The heading of a registration begins an item that registers the property. -/
theorem openedBy_heading :
    Item.OpenedBy plain.heading (Body.ofRegistration plain.name) := by
  have hsmall : ∀ c ∈ "property".toList, isSmallLetter c = true := List.all_eq_true.1 rfl
  have hkeyword : Written EndsName "@property".toList
      [.single ⟨.atKeyword "property".toList, "@property".toList⟩] :=
    ⟨_, Token.framed_atKeyword (by decide) hsmall, Component.Gathers.single rfl rfl⟩
  obtain ⟨components, hwritten, hinline, htext⟩ :=
    exists_written_space (PropertyName.isPlain_of_isPlainCustom plain.isPlainCustom_name)
  have hends : ∀ rest, Stops rest → EndsName ((' ' :: plain.name) ++ rest) := by
    intro rest _ c hc
    cases hc
    decide
  refine ⟨_, .atRule "property".toList, hkeyword.append hwritten hends, rfl, fun _ _ _ => rfl, ?_⟩
  intro level
  refine ⟨_, segment_of_atKeyword hinline level, ?_⟩
  intro body
  have hname : Text.asciiLower "property".toList = "property".toList := by decide
  simp only [Item.meaning, hname, if_true, htext]

theorem printedAs : Body.PrintedAs plain.print [⟨[], [], [plain.registration]⟩] := by
  obtain ⟨components, hwritten, hitems⟩ :=
    Declaration.exists_written_writeBlock fun _ h => plain.isReadable_of_mem_written h
  have hbody : Body.ofParts (Part.ofComponents components) = ⟨plain.written, [], []⟩ := by
    rw [Body.ofParts, hitems, Declaration.concat_map_asBody]
  have hprinted := Body.printedAs_block plain.openedBy_heading hwritten
  rw [hbody, Body.ofRegistration, Registration.ofDescriptors_perm plain.perm] at hprinted
  exact hprinted

end PlainRegistration

/-! ## Rules with registrations between them -/

namespace RuleNode

theorem printAll_append (first second : List RuleNode) :
    printAll (first ++ second) = printAll first ++ printAll second := by
  induction first with
  | nil => rw [printAll]; rfl
  | cons node rest ih => rw [List.cons_append, printAll, printAll, ih, List.append_assoc]

theorem IsPlain.of_style {selector declarations : Text}
    (h : IsPlain (.style selector declarations)) :
    IsPlainSelector selector := by
  cases h with
  | style hselector _ => exact hselector

theorem IsPlain.of_group {condition : Text} {children : List RuleNode}
    (h : IsPlain (.group condition children)) :
    ReadsAsHeading condition ∧ ∀ child ∈ children, child.IsPlain := by
  cases h with
  | nest hselector _ hchildren => exact ⟨readsAsHeading_of_isPlainSelector hselector, hchildren⟩
  | atRule hheading hchildren => exact ⟨readsAsHeading_of_isPlainAtHeading hheading, hchildren⟩

/-- A plain rule that holds rules, or nothing, has a plain heading. -/
theorem IsPlain.of_ofBlock {heading : Text} {children : List RuleNode}
    (h : IsPlain (ofBlock heading [] children)) :
    ReadsAsHeading heading ∧ ∀ child ∈ children, child.IsPlain := by
  rw [ofBlock] at h
  split at h
  · rename_i hleaf
    rw [Bool.and_eq_true, List.isEmpty_iff] at hleaf
    exact ⟨readsAsHeading_of_isPlainSelector h.of_style, by simp [hleaf.1]⟩
  · exact h.of_group

end RuleNode

namespace PrintedItem

/-- What an item adds to the block around it. -/
def body (item : PrintedItem) : Body :=
  ⟨[], item.rules, item.registrations⟩

theorem concat_map_body (items : List PrintedItem) :
    Body.concat (items.map body) = ⟨[], rulesOf items, registrationsOf items⟩ := by
  induction items with
  | nil => rw [rulesOf, registrationsOf]; rfl
  | cons item rest ih =>
      simp only [Body.concat, Body.mk.injEq] at ih
      obtain ⟨hdeclarations, hrules, hregistrations⟩ := ih
      rw [rulesOf, registrationsOf]
      simp [Body.concat, body, hdeclarations, hrules, hregistrations]

mutual
/-- A printed item adds its rules and registrations wherever it stands. -/
theorem printedAs (item : PrintedItem) (h : ∀ node ∈ item.rules, node.IsPlain) :
    Body.PrintedAs item.print [item.body] := by
  cases item with
  | registration plain =>
      rw [print, body, rules, registrations]
      exact plain.printedAs
  | style selector declarations =>
      rw [rules, List.forall_mem_singleton] at h
      have hprinted := h.printsAs
      rw [print, body, rules, registrations]
      rw [RuleNode.print] at hprinted
      exact hprinted
  | group condition children =>
      rw [rules, List.forall_mem_singleton] at h
      obtain ⟨hheading, hchildren⟩ := h.of_ofBlock
      obtain ⟨components, hwritten, hbody⟩ := (printedAs_printOf children hchildren).exists_block
      have hprinted := Body.printedAs_block hheading hwritten
      rw [hbody, concat_map_body, Body.ofRule] at hprinted
      rw [print, body, rules, registrations]
      exact hprinted
theorem printedAs_printOf (items : List PrintedItem)
    (h : ∀ node ∈ rulesOf items, node.IsPlain) :
    Body.PrintedAs (printOf items) (items.map body) := by
  cases items with
  | nil => rw [printOf]; exact Body.PrintedAs.nil
  | cons item rest =>
      rw [rulesOf, List.forall_mem_append] at h
      rw [printOf]
      exact (printedAs item h.1).append (printedAs_printOf rest h.2)
end

mutual
/-- What is printed without the registrations are the rules. -/
theorem printAll_rules (item : PrintedItem) : RuleNode.printAll item.rules = item.printRules := by
  have hsingle : ∀ node, RuleNode.printAll [node] = node.print := by
    intro node
    rw [RuleNode.printAll, RuleNode.printAll, List.append_nil]
  cases item with
  | registration plain => rw [rules, printRules, RuleNode.printAll]
  | style selector declarations => rw [rules, printRules, hsingle, RuleNode.print]
  | group condition children =>
      rw [rules, printRules, hsingle, ← printAll_rulesOf children, RuleNode.ofBlock]
      split
      · rename_i hleaf
        -- Without rules inside the group is a leaf, which prints alike.
        rw [Bool.and_eq_true, List.isEmpty_iff] at hleaf
        rw [RuleNode.print, hleaf.1, RuleNode.printAll]
        rfl
      · exact RuleNode.print.eq_2 condition _
theorem printAll_rulesOf (items : List PrintedItem) :
    RuleNode.printAll (rulesOf items) = printRulesOf items := by
  cases items with
  | nil => rw [rulesOf, printRulesOf, RuleNode.printAll]
  | cons item rest =>
      rw [rulesOf, printRulesOf, RuleNode.printAll_append, printAll_rules item,
        printAll_rulesOf rest]
end

end PrintedItem

/-- Registrations between printed rules, at any depth, are collected each once and in their order,
and the rules are read as if the registrations were not there. -/
theorem Stylesheet.parse_printOf (items : List PrintedItem)
    (h : ∀ node ∈ PrintedItem.rulesOf items, node.IsPlain) :
    parse (PrintedItem.printOf items) =
      ⟨(parse (PrintedItem.printRulesOf items)).rules, PrintedItem.registrationsOf items⟩ := by
  have hrules : Body.PrintedAs (RuleNode.printAll (PrintedItem.rulesOf items)) _ :=
    RuleNode.printsAs_printAll fun node hnode => (h node hnode).printsAs
  rw [(PrintedItem.printedAs_printOf items h).parse_eq, ← PrintedItem.printAll_rulesOf,
    hrules.parse_eq, PrintedItem.concat_map_body, RuleNode.concat_map_asBody]

/-- A registration with all descriptors, the last of them first. -/
def PlainRegistration.ink : PlainRegistration where
  name := "--Ink".toList
  content := ⟨some "<color> | none".toList, some false, some "rgb(0, 0, 0)".toList⟩
  written :=
    [⟨"initial-value".toList, "rgb(0, 0, 0)".toList⟩, ⟨"inherits".toList, "false".toList⟩,
      ⟨"syntax".toList, "\"<color> | none\"".toList⟩]
  isPlainCustom_name := by decide +kernel
  isQuotable_grammar := by decide +kernel
  isPlain_initialValue := by decide +kernel
  perm := by decide +kernel

/-- A registration without descriptors. -/
def PlainRegistration.bare : PlainRegistration where
  name := "--n".toList
  content := ⟨none, none, none⟩
  written := []
  isPlainCustom_name := by decide +kernel
  isQuotable_grammar := by decide +kernel
  isPlain_initialValue := by decide +kernel
  perm := by decide +kernel

/-- A layered forest with registrations before, between and inside of its rules. -/
def PrintedItem.registeredForest : List PrintedItem :=
  [.registration PlainRegistration.ink,
   .group "@layer base".toList
    [.style ".a:hover".toList (Declaration.writeBlock
      [⟨"--Ink".toList, "calc(2px * var(--n))".toList⟩, ⟨"color".toList, "var(--Ink)".toList⟩]),
     .registration PlainRegistration.bare,
     .group "&.b".toList
      [.style ".c".toList (Declaration.writeBlock []),
       .registration PlainRegistration.ink]],
   .group "@page".toList [.registration PlainRegistration.bare]]

theorem Stylesheet.parse_registeredForest :
    (∀ node ∈ PrintedItem.rulesOf PrintedItem.registeredForest, node.IsPlain) ∧
      parse (PrintedItem.printOf PrintedItem.registeredForest) =
        ⟨(parse (PrintedItem.printRulesOf PrintedItem.registeredForest)).rules,
          [⟨"--Ink".toList, some "<color> | none".toList, false, some "rgb(0, 0, 0)".toList⟩,
           ⟨"--n".toList, none, true, none⟩,
           ⟨"--Ink".toList, some "<color> | none".toList, false, some "rgb(0, 0, 0)".toList⟩,
           ⟨"--n".toList, none, true, none⟩]⟩ := by
  have hplain : ∀ node ∈ PrintedItem.rulesOf PrintedItem.registeredForest, node.IsPlain :=
    RuleNode.isPlain_of_mem_layeredForest
  exact ⟨hplain, parse_printOf PrintedItem.registeredForest hplain⟩

end UtilityCss
