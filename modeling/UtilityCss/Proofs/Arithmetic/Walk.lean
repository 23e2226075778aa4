import UtilityCss.Proofs.Arithmetic.Product
import UtilityCss.Proofs.Token.Spaced

/-!
# The evaluation of a value in one pass

The products of a value can be evaluated in one pass over its components, with one output and one
place up to which the value has been copied. The pass writes what `reducedAll` gives
(`walked_eq_reducedAll`), whatever the depth at which products stand.

* `Calc.Walk` is the state of the pass, `Calc.walked` the text it ends with.
* `Calc.Edit` is a part of a value with the text that goes there, `Calc.splice` makes edits.
* `Calc.Evaluates` says of an edit that it evaluates a product which stands in a tree.

The evaluation of a value makes the edits that evaluate its products, and copies all other text
(`Calc.simplify_exact`). A value in which `calc(` is not spelled out is left alone. A pass over it
would change it exactly if a product stands in it (`Calc.simplify_eq_walked_iff`), which takes a
function name that is spelled with an escape. So a product in such a spelling is evaluated only
beside a `calc(` somewhere else in the value (`Calc.walked_escaped`).
-/

set_option autoImplicit false

namespace UtilityCss.Calc

open Component (Formed Stands ofText sources tokensOf)
open Text (utf8Length)

/-! ## Edits -/

/-- A part of a value, between two places, and the text that goes there. -/
structure Edit where
  start : Nat
  stop : Nat
  text : Text
  deriving DecidableEq, Repr

/-- The value from a place on, with edits made in it. The text between them is copied. -/
def splice (value : Text) (copied : Nat) : List Edit → Text
  | [] => Text.dropBytes copied value
  | edit :: later =>
    Text.slice copied edit.start value ++ edit.text ++ splice value edit.stop later

/-- The edit puts what is computed in the place of a product that stands in the components, which
begin at the place `start`. -/
def Evaluates (start : Nat) (components : List Component) (edit : Edit) : Prop :=
  ∃ front before opener content closer after dimension,
    Stands components front before (.block opener content closer) after ∧
      opener.kind = .function functionName ∧ product content = .ok dimension ∧
      edit.start = start + utf8Length front ∧
      edit.stop = edit.start + utf8Length (Component.block opener content closer).source ∧
      edit.text = writeDimension dimension

mutual
/-- The edits that evaluate the products of a component which begins at a place. -/
def edits (start : Nat) : Component → List Edit
  | .single _ => []
  | .block opener content closer =>
    match replacement? opener content with
    | some text =>
      [⟨start, start + utf8Length (Component.block opener content closer).source, text⟩]
    | none => editsOf (start + utf8Length opener.source) content
/-- The edits that evaluate the products of a sequence which begins at a place. -/
def editsOf (start : Nat) : List Component → List Edit
  | [] => []
  | component :: rest =>
    edits start component ++ editsOf (start + utf8Length component.source) rest
end

/-! ## One pass -/

/-- What a pass has written, and the place up to which it has copied the value. -/
structure Walk where
  out : Text
  copied : Nat

namespace Walk

/-- Copies the value up to an edit and makes the edit. -/
def write (value : Text) (walk : Walk) (edit : Edit) : Walk :=
  ⟨walk.out ++ Text.slice walk.copied edit.start value ++ edit.text, edit.stop⟩

/-- Copies the rest of the value. -/
def finish (value : Text) (walk : Walk) : Text :=
  walk.out ++ Text.dropBytes walk.copied value

end Walk

mutual
/-- Passes a component that begins at a place. -/
def walk (value : Text) (start : Nat) : Component → Walk → Walk
  | .single _, state => state
  | .block opener content closer, state =>
    match replacement? opener content with
    | some text => state.write value
        ⟨start, start + utf8Length (Component.block opener content closer).source, text⟩
    | none => walkAll value (start + utf8Length opener.source) content state
/-- Passes a sequence of components that begins at a place. -/
def walkAll (value : Text) (start : Nat) : List Component → Walk → Walk
  | [], state => state
  | component :: rest, state =>
    walkAll value (start + utf8Length component.source) rest (walk value start component state)
end

/-- The value after one pass over the whole of it. -/
def walked (value : Text) : Text :=
  (walkAll value 0 (ofText value) ⟨[], 0⟩).finish value

mutual
/-- A pass makes the edits of a component. -/
theorem walk_eq_foldl (value : Text) (start : Nat) (component : Component) (state : Walk) :
    walk value start component state = (edits start component).foldl (Walk.write value) state := by
  cases component with
  | single token => rw [walk, edits, List.foldl_nil]
  | block opener content closer =>
      have hcontent := fun start => walkAll_eq_foldl value start content state
      rw [walk, edits]
      split
      · rfl
      · exact hcontent _
/-- A pass makes the edits of a sequence. -/
theorem walkAll_eq_foldl (value : Text) (start : Nat) (components : List Component)
    (state : Walk) :
    walkAll value start components state =
      (editsOf start components).foldl (Walk.write value) state := by
  cases components with
  | nil => rw [walkAll, editsOf, List.foldl_nil]
  | cons component rest =>
      rw [walkAll, editsOf, List.foldl_append, walk_eq_foldl value start component,
        walkAll_eq_foldl value _ rest]
end

theorem finish_foldl_write (value : Text) (changes : List Edit) (state : Walk) :
    (changes.foldl (Walk.write value) state).finish value =
      state.out ++ splice value state.copied changes := by
  induction changes generalizing state with
  | nil => rfl
  | cons edit later ih =>
      rw [List.foldl_cons, ih, splice, Walk.write]
      simp

theorem walked_eq_splice (value : Text) :
    walked value = splice value 0 (editsOf 0 (ofText value)) := by
  rw [walked, walkAll_eq_foldl, finish_foldl_write]
  rfl

/-! ## What a pass has written -/

/-- At the end of the text `before`, the pass is to write `written` for it. The part of it that is
not copied yet is the same in both. -/
def Walk.Covers (state : Walk) (before written : Text) : Prop :=
  ∃ done pending, before = done ++ pending ∧ state.copied = utf8Length done ∧
    written = state.out ++ pending

namespace Walk.Covers

variable {state : Walk} {value before written : Text}

theorem keep (h : state.Covers before written) (text : Text) :
    state.Covers (before ++ text) (written ++ text) := by
  obtain ⟨done, pending, rfl, hcopied, rfl⟩ := h
  exact ⟨done, pending ++ text, by simp, hcopied, by simp⟩

/-- An edit replaces the part in front. -/
theorem write (h : state.Covers before written) {part after : Text}
    (hvalue : value = before ++ (part ++ after)) (text : Text) :
    (state.write value ⟨utf8Length before, utf8Length before + utf8Length part, text⟩).Covers
      (before ++ part) (written ++ text) := by
  obtain ⟨done, pending, rfl, hcopied, rfl⟩ := h
  refine ⟨done ++ pending ++ part, [], by simp, (Text.utf8Length_append _ _).symm, ?_⟩
  have hpending : Text.slice state.copied (utf8Length (done ++ pending)) value = pending := by
    rw [hvalue, List.append_assoc]
    exact Text.slice_append _ hcopied (by simp [hcopied])
  rw [Walk.write, hpending]
  simp

/-- At the end everything is written once the rest is copied. -/
theorem finish (h : state.Covers value written) : state.finish value = written := by
  obtain ⟨done, pending, rfl, hcopied, rfl⟩ := h
  rw [Walk.finish, hcopied, Text.dropBytes_append]

end Walk.Covers

mutual
/-- A pass over a component writes it with its products evaluated. -/
theorem covers_walk {value before after written : Text} {state : Walk} (component : Component)
    (h : state.Covers before written) (hvalue : value = before ++ (component.source ++ after)) :
    (walk value (utf8Length before) component state).Covers (before ++ component.source)
      (written ++ reduced component) := by
  cases component with
  | single token =>
      rw [walk, reduced_single, Component.source_single]
      exact h.keep token.source
  | block opener content closer =>
      rw [walk, reduced_block]
      cases hreplacement : replacement? opener content with
      | some text => exact h.write hvalue text
      | none =>
          have hinside : value = (before ++ opener.source) ++
              (sources content ++ (Component.closerSource closer ++ after)) := by
            rw [hvalue, Component.source_block]
            simp
          have hcontent := covers_walkAll content (h.keep opener.source) hinside
          rw [Text.utf8Length_append] at hcontent
          simpa using hcontent.keep (Component.closerSource closer)
/-- A pass over a sequence writes it with its products evaluated. -/
theorem covers_walkAll {value before after written : Text} {state : Walk}
    (components : List Component) (h : state.Covers before written)
    (hvalue : value = before ++ (sources components ++ after)) :
    (walkAll value (utf8Length before) components state).Covers (before ++ sources components)
      (written ++ reducedAll components) := by
  cases components with
  | nil =>
      rw [walkAll]
      simpa using h
  | cons component rest =>
      rw [Component.sources_cons, List.append_assoc] at hvalue
      have hfirst := covers_walk component h hvalue
      have hrest : value = (before ++ component.source) ++ (sources rest ++ after) := by
        rw [hvalue, List.append_assoc]
      have hall := covers_walkAll rest hfirst hrest
      rw [walkAll, ← Text.utf8Length_append]
      simpa using hall
end

/-- One pass evaluates all products of a value. -/
theorem walked_eq_reducedAll (value : Text) : walked value = reducedAll (ofText value) := by
  have hstart : Walk.Covers ⟨[], 0⟩ [] [] := ⟨[], [], rfl, rfl, rfl⟩
  have hvalue : value = [] ++ (sources (ofText value) ++ []) := by
    rw [Component.sources_ofText]
    simp
  have hcovers := covers_walkAll (ofText value) hstart hvalue
  rw [Component.sources_ofText] at hcovers
  exact hcovers.finish

/-! ## Where edits are made -/

mutual
/-- The edits of a component lie in its text, each behind the one before it. -/
theorem edits_ordered (start : Nat) (component : Component) :
    (∀ edit ∈ edits start component,
        start ≤ edit.start ∧ edit.stop ≤ start + utf8Length component.source) ∧
      (edits start component).Pairwise fun edit later => edit.stop ≤ later.start := by
  cases component with
  | single token => simp [edits]
  | block opener content closer =>
      have hcontent := fun start => editsOf_ordered start content
      rw [edits]
      split
      · simp
      · obtain ⟨hwithin, hordered⟩ := hcontent (start + utf8Length opener.source)
        refine ⟨?_, hordered⟩
        intro edit hmem
        have hbounds := hwithin edit hmem
        rw [Component.source_block, Text.utf8Length_append, Text.utf8Length_append]
        omega
/-- The edits of a sequence lie in its text, each behind the one before it. -/
theorem editsOf_ordered (start : Nat) (components : List Component) :
    (∀ edit ∈ editsOf start components,
        start ≤ edit.start ∧ edit.stop ≤ start + utf8Length (sources components)) ∧
      (editsOf start components).Pairwise fun edit later => edit.stop ≤ later.start := by
  cases components with
  | nil => simp [editsOf]
  | cons component rest =>
      obtain ⟨hfirst, hfirstOrdered⟩ := edits_ordered start component
      obtain ⟨hrest, hrestOrdered⟩ :=
        editsOf_ordered (start + utf8Length component.source) rest
      rw [editsOf, Component.sources_cons, Text.utf8Length_append]
      constructor
      · intro edit hmem
        rcases List.mem_append.1 hmem with hmem | hmem
        · have hbounds := hfirst edit hmem
          omega
        · have hbounds := hrest edit hmem
          omega
      · refine List.pairwise_append.2 ⟨hfirstOrdered, hrestOrdered, ?_⟩
        intro edit hmem later hlater
        exact Nat.le_trans (hfirst edit hmem).2 (hrest later hlater).1
end

namespace Evaluates

variable {start : Nat} {edit : Edit} {first second content : List Component}

/-- Edits are made in the first part or in the second one. -/
theorem append_iff : Evaluates start (first ++ second) edit ↔
    Evaluates start first edit ∨ Evaluates (start + utf8Length (sources first)) second edit := by
  constructor
  · rintro ⟨front, before, opener, content, closer, after, dimension, hstands, hkind, hproduct,
      hstart, hrest⟩
    -- A block stands in the first part or in the second, where the places are shifted.
    rcases hstands.of_append with ⟨after', hfirst⟩ | ⟨front', before', rfl, hsecond⟩
    · exact Or.inl ⟨front, before, opener, content, closer, after', dimension, hfirst, hkind,
        hproduct, hstart, hrest⟩
    · refine Or.inr ⟨front', before', opener, content, closer, after, dimension, hsecond, hkind,
        hproduct, ?_, hrest⟩
      rw [hstart, Text.utf8Length_append, Nat.add_assoc]
  · rintro (⟨front, before, opener, content, closer, after, dimension, hstands, hrest⟩ |
      ⟨front, before, opener, content, closer, after, dimension, hstands, hkind, hproduct,
        hstart, hrest⟩)
    · obtain ⟨after', hstands'⟩ := hstands.append_right second
      exact ⟨front, before, opener, content, closer, after', dimension, hstands', hrest⟩
    · obtain ⟨before', hstands'⟩ := hstands.append_left first
      refine ⟨sources first ++ front, before', opener, content, closer, after, dimension,
        hstands', hkind, hproduct, ?_, hrest⟩
      rw [hstart, Text.utf8Length_append, Nat.add_assoc]

theorem cons_iff {component : Component} : Evaluates start (component :: second) edit ↔
    Evaluates start [component] edit ∨
      Evaluates (start + utf8Length component.source) second edit := by
  rw [← List.singleton_append, append_iff, Component.sources_cons, Component.sources_nil,
    List.append_nil]

theorem not_single {token : Token} : ¬ Evaluates start [.single token] edit := by
  rintro ⟨front, before, opener, content, closer, after, dimension, hstands, -⟩
  rcases hstands.of_singleton with ⟨-, h⟩ | ⟨_, _, _, _, h, -⟩
  · cases h
  · cases h

/-- A block is a product, or products stand inside. -/
theorem block_iff {opener : Token} {closer : Option Token} :
    Evaluates start [.block opener content closer] edit ↔
      replacement? opener content = some edit.text ∧ edit.start = start ∧
          edit.stop = start + utf8Length (Component.block opener content closer).source ∨
        Evaluates (start + utf8Length opener.source) content edit := by
  constructor
  · rintro ⟨front, before, opener', content', closer', after, dimension, hstands, hkind,
      hproduct, hstart, hstop, htext⟩
    -- The block itself is evaluated, or one behind its opening token.
    rcases hstands.of_singleton with ⟨rfl, h⟩ | ⟨_, _, _, front', h, rfl, hinside⟩
    · cases h
      rw [Text.utf8Length_nil, Nat.add_zero] at hstart
      rw [hstart] at hstop
      exact Or.inl ⟨replacement?_eq_some_iff.2 ⟨hkind, dimension, hproduct, htext⟩, hstart, hstop⟩
    · cases h
      refine Or.inr ⟨front', before, opener', content', closer', after, dimension, hinside, hkind,
        hproduct, ?_, hstop, htext⟩
      rw [hstart, Text.utf8Length_append, Nat.add_assoc]
  · rintro (⟨hreplacement, hstart, hstop⟩ |
      ⟨front, before, opener', content', closer', after, dimension, hstands, hkind, hproduct,
        hstart, hrest⟩)
    · obtain ⟨hkind, dimension, hproduct, htext⟩ := replacement?_eq_some_iff.1 hreplacement
      refine ⟨[], [], opener, content, closer, [], dimension, Stands.here [] _ [], hkind, hproduct,
        hstart, ?_, htext⟩
      rw [hstop, hstart]
    · have hinside := Stands.inside [] opener closer [] hstands
      refine ⟨opener.source ++ front, before, opener', content', closer', after, dimension,
        by simpa using hinside, hkind, hproduct, ?_, hrest⟩
      rw [hstart, Text.utf8Length_append, Nat.add_assoc]

theorem not_of_isSingle (h : ∀ component ∈ content, component.IsSingle) :
    ¬ Evaluates start content edit := by
  induction content generalizing start with
  | nil =>
      rintro ⟨front, before, opener, content, closer, after, dimension, hstands, -⟩
      exact hstands.not_nil
  | cons component rest ih =>
      obtain ⟨⟨token, rfl⟩, hrest⟩ := List.forall_mem_cons.1 h
      rw [cons_iff]
      rintro (hfirst | hsecond)
      · exact not_single hfirst
      · exact ih hrest hsecond

end Evaluates

/-- A block that is replaced holds no other product. -/
theorem mem_edits_block_iff {bracket : Option Bracket} {ended : Bool} {opener : Token}
    {content : List Component} {closer : Option Token} {start : Nat} {edit : Edit}
    (h : Formed bracket ended content)
    (hcontent : ∀ {start}, edit ∈ editsOf start content ↔ Evaluates start content edit) :
    edit ∈ edits start (.block opener content closer) ↔
      Evaluates start [.block opener content closer] edit := by
  rw [edits, Evaluates.block_iff]
  cases hreplacement : replacement? opener content with
  | some text =>
      obtain ⟨-, dimension, hproduct, -⟩ := replacement?_eq_some_iff.1 hreplacement
      have hinside : ¬ Evaluates (start + utf8Length opener.source) content edit :=
        Evaluates.not_of_isSingle (singles_of_product h hproduct)
      obtain ⟨first, last, written⟩ := edit
      simp [hinside]
      tauto
  | none => simp [hcontent]

/-- The edits of components in order are made where products stand. -/
theorem mem_editsOf_iff {bracket : Option Bracket} {ended : Bool} {components : List Component}
    (h : Formed bracket ended components) {start : Nat} {edit : Edit} :
    edit ∈ editsOf start components ↔ Evaluates start components edit := by
  induction h generalizing start with
  | nil =>
      rw [editsOf]
      exact iff_of_false (by simp) (Evaluates.not_of_isSingle (by simp))
  | single _ _ _ ih =>
      rw [editsOf, edits, List.nil_append, ih, Evaluates.cons_iff]
      exact (or_iff_right Evaluates.not_single).symm
  | closed _ _ hcontent _ ihContent ihRest =>
      rw [editsOf, List.mem_append, mem_edits_block_iff hcontent ihContent, ihRest]
      exact Evaluates.cons_iff.symm
  | unclosed _ hcontent ih =>
      rw [editsOf, editsOf, List.append_nil, mem_edits_block_iff hcontent ih]

/-- The evaluation of a value is one pass over it, which makes the edits that evaluate its products,
at any depth of blocks, and copies all text between them. Every token that begins a `calc()` block
stands in the tree in which products are looked for. -/
theorem simplify_exact (value : Text) (h : Text.contains "calc(".toList value = true) :
    ∃ changes : List Edit,
      simplify value = walked value ∧ walked value = splice value 0 changes ∧
        (∀ edit ∈ changes, edit.start < edit.stop ∧ edit.stop ≤ utf8Length value) ∧
        changes.Pairwise (fun edit later => edit.stop ≤ later.start) ∧
        (∀ edit, edit ∈ changes ↔ Evaluates 0 (ofText value) edit) ∧
        ∀ tokens opener later, Token.ofText value = tokens ++ opener :: later →
          opener.kind = .function functionName →
          ∃ before content closer after,
            Stands (ofText value) (tokens.flatMap Token.source) before
              (.block opener content closer) after := by
  have hformed := Component.formed_ofText value
  obtain ⟨hwithin, hordered⟩ := editsOf_ordered 0 (ofText value)
  refine ⟨editsOf 0 (ofText value), ?_, walked_eq_splice value, ?_, hordered,
    fun edit => mem_editsOf_iff hformed, ?_⟩
  · rw [simplify, if_pos h, walked_eq_reducedAll]
  · intro edit hmem
    have hstop := (hwithin edit hmem).2
    rw [Component.sources_ofText, Nat.zero_add] at hstop
    refine ⟨?_, hstop⟩
    -- An edit spans an opening token at least, which has a character.
    obtain ⟨_, _, opener, _, _, _, _, hstands, -, -, -, hlast, -⟩ :=
      (mem_editsOf_iff hformed).1 hmem
    have hopener : opener ∈ Token.ofText value := by
      rw [← Component.tokensOf_ofText]
      exact hstands.tokens_subset (by simp)
    have hsize : 0 < utf8Length opener.source := Text.utf8Length_pos (Token.source_ne_nil hopener)
    rw [Component.source_block, Text.utf8Length_append, Text.utf8Length_append] at hlast
    omega
  · intro tokens opener later htokens hkind
    rw [← Component.tokensOf_ofText] at htokens
    exact hformed.exists_stands_of_opens htokens (by rw [hkind]; rfl)

/-- A value with a product in a block that stays, one in a string, and a block that is no
product. -/
def clampValue : Text :=
  "clamp(calc(1px * 2), 'calc(1px * 2)', calc(1px))".toList

theorem simplify_clampValue :
    Text.contains "calc(".toList clampValue = true ∧
      simplify clampValue = "clamp(2px, 'calc(1px * 2)', calc(1px))".toList ∧
      ∃ edit, Evaluates 0 (ofText clampValue) edit := by
  have hcontains : Text.contains "calc(".toList clampValue = true := by decide
  have hsimplify : simplify clampValue = "clamp(2px, 'calc(1px * 2)', calc(1px))".toList := by
    decide +kernel
  refine ⟨hcontains, hsimplify, ?_⟩
  obtain ⟨changes, hwalked, hsplice, -, -, hmem, -⟩ := simplify_exact clampValue hcontains
  -- Without edits the value would stay as it is.
  cases changes with
  | nil =>
      rw [hwalked, hsplice, splice, Text.dropBytes_zero] at hsimplify
      exact absurd hsimplify (by decide)
  | cons edit later => exact ⟨edit, (hmem edit).1 List.mem_cons_self⟩

/-! ## Brackets go away -/

/-- The text of each function has its bracket. -/
def HasBrackets (tokens : List Token) : Prop :=
  ∀ token ∈ tokens, token.kind = .function functionName → '(' ∈ token.source

theorem hasBrackets_ofText (text : Text) : HasBrackets (Token.ofText text) := by
  intro token htoken hkind
  obtain ⟨written, hsource, -⟩ := Token.exists_source_of_function htoken hkind
  simp [hsource]

theorem HasBrackets.mono {tokens tokens' : List Token} (h : HasBrackets tokens)
    (hsub : tokens' ⊆ tokens) : HasBrackets tokens' :=
  fun token htoken hkind => h token (hsub htoken) hkind

/-- What is written for a product has no bracket. -/
theorem not_mem_of_isMarked {text : Text} (h : isMarked text = true) : '(' ∉ text := by
  induction text with
  | nil => simp
  | cons c rest ih =>
      rw [isMarked, Bool.and_eq_true] at h
      rw [List.mem_cons, not_or]
      refine ⟨?_, ih h.2⟩
      rintro rfl
      have hfirst := h.1
      rw [show isAsciiLetter '(' = false by decide, show isDigit '(' = false by decide,
        show ['.', '+', '-'].contains '(' = false by decide] at hfirst
      cases hfirst

mutual
/-- Each edit takes a bracket away. -/
theorem count_reduced (start : Nat) (component : Component) (h : HasBrackets component.tokens) :
    (reduced component).count '(' + (edits start component).length ≤
      component.source.count '(' := by
  cases component with
  | single token => simp [edits]
  | block opener content closer =>
      have hcontent := fun start => count_reducedAll start content
        (h.mono (by rw [Component.tokens_block]; intro; simp +contextual))
      rw [reduced_block, edits]
      cases hreplacement : replacement? opener content with
      | some text =>
          -- A product gives a text without brackets in place of at least one.
          have hmarked := isMarked_of_replacement? hreplacement
          have hnone : text.count '(' = 0 := List.count_eq_zero.2 (not_mem_of_isMarked hmarked)
          have hkind := (replacement?_eq_some_iff.1 hreplacement).1
          have hopener := List.count_pos_iff.2 (h opener (by simp) hkind)
          simp [hnone]
          omega
      | none =>
          have hinside := hcontent (start + Text.utf8Length opener.source)
          simp
          omega
/-- Each edit takes a bracket away. -/
theorem count_reducedAll (start : Nat) (components : List Component)
    (h : HasBrackets (tokensOf components)) :
    (reducedAll components).count '(' + (editsOf start components).length ≤
      (sources components).count '(' := by
  cases components with
  | nil => simp [editsOf]
  | cons component rest =>
      rw [Component.tokensOf_cons] at h
      have hfirst := count_reduced start component
        (h.mono (List.subset_append_left _ _))
      have hrest := count_reducedAll (start + Text.utf8Length component.source) rest
        (h.mono (List.subset_append_right _ _))
      simp [editsOf]
      omega
end

/-- A pass leaves a value as it is exactly if no product stands in it. -/
theorem walked_eq_self_iff (value : Text) :
    walked value = value ↔ ∀ edit, ¬ Evaluates 0 (ofText value) edit := by
  have hmem : ∀ edit, edit ∈ editsOf 0 (ofText value) ↔ Evaluates 0 (ofText value) edit :=
    fun edit => mem_editsOf_iff (Component.formed_ofText value)
  constructor
  · intro hsame edit hevaluates
    have hcount := count_reducedAll 0 (ofText value)
      (by rw [Component.tokensOf_ofText]; exact hasBrackets_ofText value)
    rw [← walked_eq_reducedAll, hsame, Component.sources_ofText] at hcount
    have hsome := List.length_pos_of_mem ((hmem edit).2 hevaluates)
    omega
  · intro hnone
    have hnil : editsOf 0 (ofText value) = [] :=
      List.eq_nil_iff_forall_not_mem.2 fun edit hedit => hnone edit ((hmem edit).1 hedit)
    rw [walked_eq_splice, hnil, splice, Text.dropBytes_zero]

/-! ## Spellings -/

/-- Without a backslash, products stand only where `calc(` is spelled out. -/
theorem contains_of_evaluates {value : Text} (hslash : '\\' ∉ value) {start : Nat} {edit : Edit}
    (h : Evaluates start (ofText value) edit) : Text.contains "calc(".toList value = true := by
  obtain ⟨front, before, opener, content, closer, after, dimension, hstands, hkind, -⟩ := h
  have hopener : opener ∈ Token.ofText value := by
    rw [← Component.tokensOf_ofText]
    exact hstands.tokens_subset (by simp)
  obtain ⟨written, hsource, hname⟩ := Token.exists_source_of_function hopener hkind
  obtain ⟨back, hvalue⟩ := hstands.exists_sources_eq
  rw [Component.sources_ofText, Component.source_block, hsource] at hvalue
  -- Without a backslash the token is spelled as its name.
  have hplain : '\\' ∉ written := by
    intro hmem
    apply hslash
    rw [hvalue]
    simp [hmem]
  have hspelled : written = functionName := Token.eq_of_nameValue hplain hname (by decide)
  rw [Text.contains_eq_true_iff]
  refine ⟨front, sources content ++ Component.closerSource closer ++ back, ?_⟩
  rw [hvalue, hspelled]
  simp [functionName]

/-- The evaluation of a value agrees with a pass over it exactly if `calc(` is spelled out in it or
no product stands in it. So it does wherever no backslash stands. -/
theorem simplify_eq_walked_iff (value : Text) :
    (simplify value = walked value ↔ Text.contains "calc(".toList value = true ∨
        ∀ edit, ¬ Evaluates 0 (ofText value) edit) ∧
      ('\\' ∉ value → simplify value = walked value) := by
  have hiff : simplify value = walked value ↔ Text.contains "calc(".toList value = true ∨
      ∀ edit, ¬ Evaluates 0 (ofText value) edit := by
    rw [simplify, ← walked_eq_reducedAll]
    split
    · rename_i hcontains
      exact iff_of_true rfl (Or.inl hcontains)
    · rename_i hcontains
      rw [eq_comm, walked_eq_self_iff]
      exact (or_iff_right hcontains).symm
  refine ⟨hiff, ?_⟩
  intro hslash
  apply hiff.2
  by_cases hcontains : Text.contains "calc(".toList value = true
  · exact Or.inl hcontains
  · exact Or.inr fun edit hevaluates => hcontains (contains_of_evaluates hslash hevaluates)

/-- A product whose function name is spelled with an escape is evaluated by a pass, and is evaluated
beside a `calc(` that has nothing to do with it, but not alone. -/
theorem walked_escaped :
    Text.contains "calc(".toList "c\\61lc(2px * 3)".toList = false ∧
      walked "c\\61lc(2px * 3)".toList = "6px".toList ∧
      simplify "c\\61lc(2px * 3)".toList = "c\\61lc(2px * 3)".toList ∧
      simplify "c\\61lc(2px * 3) calc(1px)".toList = "6px calc(1px)".toList := by
  rw [walked_eq_reducedAll]
  decide +kernel

end UtilityCss.Calc
