import UtilityCss.Proofs.Arithmetic.Pending
import UtilityCss.Proofs.Arithmetic.Walk

/-!
# Reading evaluated components

A product is written where its block stood, and joins the loose tokens around it. What is written
so is pending until a firm token comes, which is read on its own behind it. Firm tokens and blocks
are therefore read again where they stood, with what stands behind them.

* `Calc.Closes` says what stands behind the components of a block, and `Calc.Ending` what may stand
  there in its place.
* `Calc.Reads` says that components are read in front of a text.
* `Calc.ReadsAgain` says that what is written for components, behind a text that is pending, is read
  as other components.

There is one lemma for each kind of component: `ReadsAgain.nil`, `ReadsAgain.firm`,
`ReadsAgain.closed` and `ReadsAgain.unclosed`.
-/

set_option autoImplicit false

namespace UtilityCss.Calc

open Component (Formed ofText sources tokensOf)
open Token (Follows KeepsEnd Halts)

/-- Loose tokens are in order in front of other components. -/
theorem formed_singles {bracket : Option Bracket} {ended : Bool} {tokens : List Token}
    {components : List Component} (h : ∀ token ∈ tokens, token.kind.isFirm = false)
    (hcomponents : Formed bracket ended components) :
    Formed bracket ended (tokens.map .single ++ components) := by
  induction tokens with
  | nil => exact hcomponents
  | cons token tokens ih =>
      rw [List.forall_mem_cons] at h
      refine .single ?_ (Or.inl ?_) (ih h.2)
      · cases hkind : token.kind <;> first | rfl | (rw [hkind] at h; cases h.1)
      · cases hkind : token.kind <;> first | rfl | (rw [hkind] at h; cases h.1)

theorem tokensOf_singles (tokens : List Token) : tokensOf (tokens.map .single) = tokens := by
  induction tokens with
  | nil => rw [List.map_nil, Component.tokensOf_nil]
  | cons token tokens ih =>
      rw [List.map_cons, Component.tokensOf_cons, ih, Component.tokens_single,
        List.singleton_append]

/-! ## What stands behind components -/

/-- Nothing, or a text that begins with a closing bracket. -/
def Closes (behind : Text) : Prop :=
  ∀ c ∈ behind.head?, c = ')' ∨ c = ']' ∨ c = '\x7d'

/-- The second text can stand in the place of the first one behind components: it begins with the
same bracket, or is nothing. -/
structure Ending (behind behind' : Text) : Prop where
  nil : behind = [] → behind' = []
  head : ∀ c ∈ behind'.head?, behind.head? = some c

theorem Closes.halts {behind : Text} (h : Closes behind) : Halts behind := by
  intro c hc
  left
  rcases h c hc with rfl | rfl | rfl <;> decide

/-- White space and quotes, with which no name begins, and no block. -/
def isOutside (c : Char) : Bool :=
  isSpace c || c == '"' || c == '\''

theorem Closes.head?_ne {behind : Text} (h : Closes behind) {c : Char}
    (hc : isOutside c = true) : behind.head? ≠ some c := by
  intro hhead
  rcases h c hhead with rfl | rfl | rfl <;> exact absurd hc (by decide)

namespace Ending

variable {behind behind' : Text}

theorem of_ne_nil {text : Text} (h : text ≠ []) (behind behind' : Text) :
    Ending (text ++ behind) (text ++ behind') := by
  cases text with
  | nil => exact absurd rfl h
  | cons c text =>
      refine ⟨?_, fun _ hc => hc⟩
      intro hnil
      cases hnil

theorem halts (h : Ending behind behind') (hbehind : Closes behind) : Halts behind' :=
  fun c hc => hbehind.halts c (h.head c hc)

theorem head?_ne_round (h : Ending behind behind') (hbehind : Closes behind) :
    behind'.head? ≠ some '(' := by
  intro hhead
  rcases hbehind '(' (h.head '(' hhead) with hc | hc | hc <;> cases hc

theorem follows (h : Ending behind behind') (hbehind : Closes behind) : Follows behind behind' where
  nil := h.nil
  newline := by
    intro hnewline
    cases behind with
    | nil => cases hnewline
    | cons c rest =>
        have hspace : isSpace c = true := Token.isSpace_of_isNewline hnewline
        exact absurd rfl (hbehind.head?_ne (by simp [isOutside, hspace]))
  head := fun c hc _ => h.head c hc

end Ending

/-- What is read behind tokens that are read in front. -/
theorem ofText_behind {text behind : Text} {tokens after : List Token}
    (h : Token.ofText (text ++ behind) = tokens ++ after)
    (htokens : tokens.flatMap Token.source = text) : Token.ofText behind = after := by
  have hsources := congrArg (List.flatMap Token.source) h
  rw [Token.sources_ofText, List.flatMap_append, htokens] at hsources
  rw [List.append_cancel_left hsources]
  exact Token.ofText_of_append h

/-- A token is read in front of what is read behind it. -/
theorem ofText_front {token : Token} {behind : Text} {after : List Token}
    (h : Token.ofText (token.source ++ behind) = token :: after) :
    Token.ofText behind = after ∧
      Token.ofText (token.source ++ behind) = token :: Token.ofText behind := by
  have hbehind : Token.ofText behind = after :=
    ofText_behind (List.singleton_append ▸ h) (by simp)
  exact ⟨hbehind, by rw [h, hbehind]⟩

/-- Components that are read in front of a text. -/
structure Reads (components : List Component) (behind : Text) : Prop where
  read : Token.ofText (sources components ++ behind) =
    tokensOf components ++ Token.ofText behind
  closes : Closes behind

namespace Reads

variable {bracket : Option Bracket} {ended : Bool} {components rest content : List Component}
  {token opener : Token} {behind behind' : Text}

theorem single (h : Reads (.single token :: rest) behind) :
    Token.ofText (token.source ++ (sources rest ++ behind)) =
        token :: Token.ofText (sources rest ++ behind) ∧
      Reads rest behind := by
  have hread := h.read
  rw [Component.sources_cons, Component.source_single, Component.tokensOf_cons,
    Component.tokens_single, List.append_assoc, List.append_assoc, List.singleton_append] at hread
  obtain ⟨hrest, hfront⟩ := ofText_front hread
  exact ⟨hfront, hrest, h.closes⟩

theorem closed {closer : Token} {inner : Bracket}
    (h : Reads (.block opener content (some closer) :: rest) behind)
    (hcloser : closer.kind = .closing inner) :
    Token.ofText (opener.source ++ (sources content ++
        (closer.source ++ (sources rest ++ behind)))) =
      opener :: Token.ofText (sources content ++ (closer.source ++ (sources rest ++ behind))) ∧
    Reads content (closer.source ++ (sources rest ++ behind)) ∧
    (∀ more, Token.ofText (closer.source ++ more) = closer :: Token.ofText more) ∧
    Reads rest behind := by
  have hread := h.read
  simp only [Component.sources_cons, Component.source_block, Component.closerSource,
    Component.tokensOf_cons, Component.tokens_block, Option.toList_some, List.append_assoc,
    List.cons_append, List.nil_append] at hread
  -- The tokens are split behind the content, and again behind the closing bracket.
  obtain ⟨hinside, hfront⟩ := ofText_front hread
  have hcloses := ofText_behind hinside (Component.sources_eq_flatMap_tokensOf content).symm
  obtain ⟨hrest, hcloserFront⟩ := ofText_front hcloses
  obtain ⟨c, hsource, hfence, hfirst⟩ := Token.source_of_bracket hcloserFront (Or.inr hcloser)
  refine ⟨hfront, ⟨by rw [hinside, hcloses], ?_⟩, fun more => ?_, hrest, h.closes⟩
  · -- What closes a block is one of the fences, and no other fence gives a closing token.
    intro d hd
    rw [hsource] at hd
    obtain rfl : c = d := by simpa using hd
    have hnil := hfirst []
    rw [hcloser] at hnil
    rcases Token.isFence_iff.1 hfence with rfl | rfl | rfl | rfl | rfl | rfl | rfl | rfl <;>
      first | decide | cases hnil
  · obtain ⟨kind, source⟩ := closer
    dsimp only at hsource
    subst hsource
    exact Token.ofText_of_first (hfirst more)

theorem unclosed (h : Reads [.block opener content none] behind) :
    Token.ofText (opener.source ++ (sources content ++ behind)) =
      opener :: Token.ofText (sources content ++ behind) ∧ Reads content behind := by
  have hread := h.read
  simp only [Component.sources_cons, Component.source_block, Component.closerSource,
    Component.tokensOf_cons, Component.tokens_block, Option.toList_none, List.append_assoc,
    List.cons_append, List.append_nil, Component.sources_nil, Component.tokensOf_nil] at hread
  obtain ⟨hinside, hfront⟩ := ofText_front hread
  exact ⟨hfront, hinside, h.closes⟩

/-- White space and strings are tokens of their own. -/
theorem exists_single (h : Reads components behind) (hformed : Formed bracket ended components)
    {c : Char} (hc : isOutside c = true)
    (hhead : (sources components ++ behind).head? = some c) :
    ∃ token rest, components = .single token :: rest ∧ token.source.head? = some c ∧
      (isSpace c = true →
        token.source = (sources components ++ behind).takeWhile isSpace) := by
  cases components with
  | nil =>
      rw [Component.sources_nil, List.nil_append] at hhead
      exact absurd hhead (h.closes.head?_ne hc)
  | cons component rest =>
      have hread := h.read
      generalize sources (component :: rest) ++ behind = text at hread hhead ⊢
      cases text with
      | nil => cases hhead
      | cons d more =>
          obtain rfl : d = c := by simpa using hhead
          obtain ⟨tokens, htokens⟩ :
              ∃ tokens, component.tokens = component.firstToken :: tokens := by
            cases component <;> simp [Component.firstToken]
          rw [Token.ofText_cons, Component.tokensOf_cons, htokens, List.cons_append,
            List.cons_append] at hread
          -- The first token of the text is the one with which the component begins.
          have hfirst := (List.cons.inj hread).1
          have hspace : isSpace d = true → Token.first d more =
              (.space, Token.spaceExtent (d :: more)) := by
            intro hd
            rw [Token.first, if_pos hd]
          have hkind : (Token.first d more).1 = .space ∨ (Token.first d more).1 = .string := by
            simp only [isOutside, Bool.or_eq_true, beq_iff_eq] at hc
            rcases hc with (hd | rfl) | rfl
            · exact Or.inl (by rw [hspace hd])
            · exact Or.inr rfl
            · exact Or.inr rfl
          have hsingle := hformed.isSingle List.mem_cons_self (by
            rw [← hfirst]
            rcases hkind with hkind | hkind <;> rw [hkind] <;> rfl)
          obtain ⟨token, rfl⟩ := hsingle
          rw [Component.firstToken] at hfirst
          have hsource : token.source = (d :: more).take (Token.first d more).2 := by
            rw [← hfirst]
          refine ⟨token, rest, rfl, ?_, fun hd => ?_⟩
          · rw [hsource, List.take_cons (Token.first_pos d more)]
            rfl
          · rw [hsource, hspace hd]
            exact (List.prefix_iff_eq_take.1 (List.takeWhile_prefix isSpace)).symm

/-- White space and quotes in front stay in front when products are evaluated. -/
theorem head?_reducedAll (h : Reads components behind) (hformed : Formed bracket ended components)
    {c : Char} (hc : isOutside c = true)
    (hhead : (sources components ++ behind).head? = some c) (behind' : Text) :
    (reducedAll components ++ behind').head? = some c := by
  obtain ⟨token, rest, rfl, hfirst, -⟩ := h.exists_single hformed hc hhead
  rw [reducedAll_cons, reduced_single]
  cases hsource : token.source with
  | nil =>
      rw [hsource] at hfirst
      cases hfirst
  | cons d more =>
      rw [hsource] at hfirst
      exact hfirst

theorem eq_nil (h : Reads components behind) (hnil : sources components ++ behind = []) :
    components = [] ∧ behind = [] := by
  have hread := h.read
  rw [hnil, Token.ofText] at hread
  refine ⟨?_, (List.append_eq_nil_iff.1 hnil).2⟩
  cases components with
  | nil => rfl
  | cons component rest =>
      have hfirst := component.firstToken_mem_tokens
      rw [Component.tokensOf_cons] at hread
      rw [(List.append_eq_nil_iff.1 (List.append_eq_nil_iff.1 hread.symm).1).1] at hfirst
      cases hfirst

/-- The text of evaluated components keeps the end of the input and of the line. -/
theorem keepsEnd (h : Reads components behind) (hformed : Formed bracket ended components)
    (hending : Ending behind behind') :
    KeepsEnd (sources components ++ behind) (reducedAll components ++ behind') where
  nil := by
    intro hnil
    obtain ⟨rfl, hbehind⟩ := h.eq_nil hnil
    rw [hending.nil hbehind, reducedAll_nil, List.nil_append]
  newline := by
    intro hnewline
    cases htext : sources components ++ behind with
    | nil =>
        rw [htext] at hnewline
        cases hnewline
    | cons c more =>
        rw [htext] at hnewline
        have hspace : isSpace c = true := Token.isSpace_of_isNewline hnewline
        exact h.head?_reducedAll hformed (by simp [isOutside, hspace]) (by rw [htext]; rfl) behind'

/-- A quoted text in front, perhaps behind white space, stays in front when products are
evaluated. -/
theorem urlExtent_reducedAll (h : Reads components behind)
    (hformed : Formed bracket ended components)
    (hurl : Token.urlExtent (sources components ++ behind) = none) (behind' : Text) :
    Token.urlExtent (reducedAll components ++ behind') = none := by
  rw [Token.urlExtent_eq_none_iff] at hurl ⊢
  obtain ⟨quote, hquote, hmark⟩ := hurl
  have hout : isOutside quote = true := by
    rcases hmark with rfl | rfl <;> decide
  have hspace : isSpace quote = false := by
    rcases hmark with rfl | rfl <;> decide
  have hstays : ∀ text : Text, text.head? = some quote →
      (text.dropWhile isSpace).head? = some quote := by
    intro text hhead
    cases text with
    | nil => cases hhead
    | cons c more =>
        obtain rfl : c = quote := by simpa using hhead
        rw [List.dropWhile_cons_of_neg (by simp [hspace])]
        rfl
  refine ⟨quote, ?_, hmark⟩
  cases htext : sources components ++ behind with
  | nil =>
      rw [htext] at hquote
      cases hquote
  | cons c more =>
      by_cases hc : isSpace c = true
      · -- White space is one token, and the quote begins what is behind it.
        obtain ⟨token, rest, rfl, -, hsource⟩ :=
          h.exists_single hformed (c := c) (by simp [isOutside, hc]) (by rw [htext]; rfl)
        have hblanks := hsource hc
        have hsplit := List.takeWhile_append_dropWhile (p := isSpace)
          (l := sources (.single token :: rest) ++ behind)
        rw [← hblanks, Component.sources_cons, Component.source_single, List.append_assoc] at hsplit
        have hrest := List.append_cancel_left hsplit
        have hformed' : Formed bracket ended rest := by
          cases hformed with
          | single _ _ hrest => exact hrest
        rw [Component.sources_cons, Component.source_single, List.append_assoc, hrest] at hquote
        have hhead := h.single.2.head?_reducedAll hformed' hout hquote behind'
        rw [reducedAll_cons, reduced_single, List.append_assoc, List.dropWhile_append_of_pos]
        · exact hstays _ hhead
        · intro d hd
          rw [hblanks] at hd
          exact List.mem_takeWhile_imp hd
      · rw [htext, List.dropWhile_cons_of_neg hc] at hquote
        obtain rfl : c = quote := by simpa using hquote
        exact hstays _ (h.head?_reducedAll hformed hout (by rw [htext]; rfl) behind')

end Reads

/-! ## Evaluated components are read again -/

theorem replacement?_of_ne {opener : Token} (h : opener.kind ≠ .function functionName)
    (content : List Component) : replacement? opener content = none :=
  if_neg h

/-- The evaluated components behind a text are read as other components, with what stands behind
them in front of any text that can stand there. -/
structure ReadsAgain (bracket : Option Bracket) (ended : Bool) (text : Text)
    (components : List Component) (behind : Text) (again : List Component) : Prop where
  formed : Formed bracket ended again
  read : ∀ behind', Ending behind behind' →
    Token.ofText (text ++ (reducedAll components ++ behind')) =
      tokensOf again ++ Token.ofText behind'

namespace ReadsAgain

variable {bracket : Option Bracket} {inner : Bracket} {ended after : Bool}
  {text behind : Text} {component : Component}
  {components content rest again content' : List Component}
  {token opener closer : Token}

theorem ofText_eq (h : ReadsAgain bracket ended [] components behind again) :
    ofText (reducedAll components) = again := by
  have hread := h.read [] ⟨fun _ => rfl, by simp⟩
  rw [List.nil_append, List.append_nil, Token.ofText, List.append_nil] at hread
  rw [ofText, hread, h.formed.ofTokens_tokensOf]

/-- What is written for a component is pending with the text before it. -/
theorem cons (h : ReadsAgain bracket ended (text ++ reduced component) rest behind again) :
    ReadsAgain bracket ended text (component :: rest) behind again where
  formed := h.formed
  read := by
    intro behind' hending
    rw [reducedAll_cons, List.append_assoc, ← List.append_assoc]
    exact h.read behind' hending

/-- At the end, what is pending is read on its own. -/
theorem nil (h : Pending after text behind) (hbehind : Closes behind) :
    ReadsAgain bracket ended text [] behind ((Token.ofText text).map .single) := by
  have hread := fun behind' (hending : Ending behind behind') =>
    h.ofText_halts (hending.follows hbehind) (hending.halts hbehind)
      (hending.head?_ne_round hbehind)
  have hloose := (hread behind ⟨id, fun _ hc => hc⟩).1
  have hformed : Formed bracket ended ((Token.ofText text).map .single ++ []) :=
    formed_singles hloose .nil
  rw [List.append_nil] at hformed
  refine ⟨hformed, fun behind' hending => ?_⟩
  rw [reducedAll_nil, List.nil_append, tokensOf_singles]
  exact (hread behind' hending).2

/-- A firm token is read on its own behind what is pending. -/
theorem firm (hpending : Pending after text (token.source ++ (sources rest ++ behind)))
    (hfirm : token.kind.isFirm = true)
    (hafter : after = true → Token.startsName token.source = false)
    (hsingle : Formed bracket ended (.single token :: rest))
    (hreads : Reads (.single token :: rest) behind)
    (h : ReadsAgain bracket ended [] rest behind again) :
    ReadsAgain bracket ended text (.single token :: rest) behind
      ((Token.ofText text).map .single ++ .single token :: again) := by
  cases hsingle with
  | single hopens hcloses hrest =>
      obtain ⟨hread, hreadsRest⟩ := hreads.single
      obtain ⟨hloose, hall⟩ := hpending.ofText_firm hfirm hread hafter
        (fun hkind => by rw [hkind] at hopens; cases hopens)
      refine ⟨formed_singles hloose (.single hopens hcloses h.formed), fun behind' hending => ?_⟩
      have hagain := h.read behind' hending
      rw [List.nil_append] at hagain
      rw [reducedAll_cons, reduced_single, List.append_assoc,
        hall _ (hreadsRest.keepsEnd hrest hending)
          (fun hurl => hreadsRest.urlExtent_reducedAll hrest hurl behind'),
        hagain, Component.tokensOf_append, tokensOf_singles, Component.tokensOf_cons,
        Component.tokens_single, List.append_assoc, List.singleton_append, List.cons_append]

/-- A token that begins a block is read again behind what is pending, and so are its contents. -/
theorem opens (hpending : Pending after text (opener.source ++ (sources content ++ behind)))
    (hopens : opener.kind.opens? = some inner)
    (hread : Token.ofText (opener.source ++ (sources content ++ behind)) =
      opener :: Token.ofText (sources content ++ behind))
    (hreads : Reads content behind) (hcontent : Formed bracket ended content)
    (h : ReadsAgain bracket ended [] content behind content') :
    ∃ front opener', (∀ token ∈ front, token.kind.isFirm = false) ∧ Opens after opener opener' ∧
      ∀ behind', Ending behind behind' →
        Token.ofText (text ++ (opener.source ++ (reducedAll content ++ behind'))) =
          front ++ opener' :: (tokensOf content' ++ Token.ofText behind') := by
  obtain ⟨front, opener', hloose, hopens', hall⟩ := hpending.opener (by rw [hopens]; rfl) hread
  refine ⟨front, opener', hloose, hopens', fun behind' hending => ?_⟩
  have hagain := h.read behind' hending
  rw [List.nil_append] at hagain
  rw [hall _ (hreads.keepsEnd hcontent hending)
    (fun hurl => hreads.urlExtent_reducedAll hcontent hurl behind'), hagain]

/-- A block that stays is read again as a block. -/
theorem closed
    (hpending : Pending after text
      (opener.source ++ (sources content ++ (closer.source ++ (sources rest ++ behind)))))
    (hopens : opener.kind.opens? = some inner) (hcloser : closer.kind = .closing inner)
    (hcontent : Formed (some inner) false content)
    (hreads : Reads (.block opener content (some closer) :: rest) behind)
    (hnone : replacement? opener content = none)
    (hinside : ReadsAgain (some inner) false [] content
      (closer.source ++ (sources rest ++ behind)) content')
    (h : ReadsAgain bracket ended [] rest behind again) :
    ∃ (front : List Token) (opener' : Token), Opens after opener opener' ∧
      ReadsAgain bracket ended text (.block opener content (some closer) :: rest) behind
        (front.map .single ++ .block opener' content' (some closer) :: again) := by
  obtain ⟨hread, hreadsContent, hcloserRead, -⟩ := hreads.closed hcloser
  -- What was pending comes first, up to the token that opens the block.
  obtain ⟨front, opener', hloose, hopens', hall⟩ :=
    hinside.opens hpending hopens hread hreadsContent hcontent
  refine ⟨front, opener', hopens', formed_singles hloose
    (.closed (hopens'.bracket.trans hopens) hcloser hinside.formed h.formed),
    fun behind' hending => ?_⟩
  have hmem : closer ∈ Token.ofText (closer.source ++ []) := by
    rw [hcloserRead]
    exact List.mem_cons_self
  have hagain := h.read behind' hending
  rw [List.nil_append] at hagain
  -- The parts of the block are read one behind another, each where it stood.
  rw [reducedAll_cons, reduced_block, hnone, Option.getD_none, Component.closerSource]
  simp only [List.append_assoc]
  rw [hall _ (Ending.of_ne_nil (Token.source_ne_nil hmem) _ _), hcloserRead, hagain]
  simp [tokensOf_singles]

/-- A block that stays and has no end is read again as such a block. -/
theorem unclosed (hpending : Pending after text (opener.source ++ (sources content ++ behind)))
    (hopens : opener.kind.opens? = some inner) (hcontent : Formed (some inner) true content)
    (hreads : Reads [.block opener content none] behind)
    (hnone : replacement? opener content = none)
    (hinside : ReadsAgain (some inner) true [] content behind content') :
    ∃ (front : List Token) (opener' : Token), Opens after opener opener' ∧
      ReadsAgain bracket true text [.block opener content none] behind
        (front.map .single ++ [.block opener' content' none]) := by
  obtain ⟨hread, hreadsContent⟩ := hreads.unclosed
  obtain ⟨front, opener', hloose, hopens', hall⟩ :=
    hinside.opens hpending hopens hread hreadsContent hcontent
  refine ⟨front, opener', hopens', formed_singles hloose
    (.unclosed (hopens'.bracket.trans hopens) hinside.formed), fun behind' hending => ?_⟩
  rw [reducedAll_cons, reduced_block, hnone, Option.getD_none, Component.closerSource,
    reducedAll_nil, List.append_nil, List.append_nil]
  simp only [List.append_assoc]
  rw [hall _ hending]
  simp [tokensOf_singles]

end ReadsAgain

/-- Of the firm tokens that begin no block, only addresses begin with a name. -/
theorem startsName_of_firm {token : Token} {behind : Text} (hfirm : token.kind.isFirm = true)
    (hopens : token.kind.opens? = none)
    (hread : Token.ofText (token.source ++ behind) = token :: Token.ofText behind)
    (hurl : token.kind ≠ .url) : Token.startsName token.source = false := by
  rcases Token.halts_or_startsName hfirm hread with hhalts | ⟨-, -, hkind | hname⟩
  · have hstarts := Token.Cut.startsName_of_halts (hhalts [])
    rwa [List.append_nil] at hstarts
  · exact absurd hkind hurl
  · cases hkind : token.kind <;>
      simp [hkind, Token.Kind.isName, Token.Kind.isFirm, Token.Kind.opens?] at hname hfirm hopens

/-- A product is pending where its block stood. -/
theorem Pending.product {after : Bool} {text behind : Text} {opener : Token}
    {content : List Component} {written : Text} (h : Pending after text (opener.source ++ behind))
    (hread : Token.ofText (opener.source ++ behind) = opener :: Token.ofText behind)
    (hreplacement : replacement? opener content = some written) (more : Text) :
    Pending true (text ++ written) more :=
  .joined (h.write
    (Token.startsName_of_ofText_eq_cons hread (isWritten_of_replacement? hreplacement).1)
    (isProductText_of_replacement? hreplacement))

end UtilityCss.Calc
