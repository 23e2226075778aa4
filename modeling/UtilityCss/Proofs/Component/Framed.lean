import UtilityCss.Proofs.Component.Formed
import UtilityCss.Proofs.Token.Plain

/-!
# Texts that are read on their own

A text is written when it is framed and its tokens make components of their own, wherever it
stands. What is written can be put together and into curly brackets (`Written.append` and
`Written.block`), and is read as a whole in the end (`Written.ofText_eq`).

* `Component.Gathers` says that tokens make components on the level where they stand.
* `Component.Written` says that a text in front of anything that begins in a given way does so.

Where a few tokens in a text are exchanged for others, the brackets around them group the tokens
before and after as they did. So the components differ in one place, which may lie inside of blocks
(`differ_ofTokens`).

* `Component.Differ` says that two sequences of components are the same but for one place.
* `Component.Reader.Differ` says so of the components read so far.
-/

set_option autoImplicit false

namespace UtilityCss.Component

/-! ## Tokens that make components -/

open Token (Framed Balanced)

/-- The tokens make the components, on the level where they stand. -/
def Gathers (tokens : List Token) (components : List Component) : Prop :=
  ∀ reader : Reader, tokens.foldl Reader.step reader =
    { reader with latest := components.reverse ++ reader.latest }

namespace Gathers

variable {tokens tokens' : List Token} {components components' : List Component}

theorem nil : Gathers [] [] := by
  intro reader
  rfl

theorem append (h : Gathers tokens components) (h' : Gathers tokens' components') :
    Gathers (tokens ++ tokens') (components ++ components') := by
  intro reader
  rw [List.foldl_append, h, h', List.reverse_append, List.append_assoc]

theorem single {token : Token} (hopens : token.kind.opens? = none)
    (hcloses : token.kind.closes? = none) : Gathers [token] [.single token] := by
  intro reader
  rcases reader with ⟨latest, _ | ⟨level, outer⟩⟩
  · simp [Reader.step, hopens, Reader.push]
  · simp [Reader.step, hopens, hcloses, Reader.push]

theorem cons {token : Token} (hopens : token.kind.opens? = none)
    (hcloses : token.kind.closes? = none) (h : Gathers tokens components) :
    Gathers (token :: tokens) (.single token :: components) :=
  (single hopens hcloses).append h

theorem block {opener closer : Token} {bracket : Bracket}
    (hopener : opener.kind.opens? = some bracket) (hcloser : closer.kind = .closing bracket)
    (h : Gathers tokens components) :
    Gathers (opener :: (tokens ++ [closer])) [.block opener components (some closer)] := by
  intro reader
  have hopens : closer.kind.opens? = none := by rw [hcloser]; rfl
  have hcloses : closer.kind.closes? = some bracket := by rw [hcloser]; rfl
  rw [List.foldl_cons, List.foldl_append, h]
  simp [Reader.step, Reader.complete, hopener, hopens, hcloses]

theorem ofTokens_eq (h : Gathers tokens components) : ofTokens tokens = components := by
  rw [ofTokens, h]
  simp [Reader.finish, Reader.start]

theorem tokensOf_eq (h : Gathers tokens components) : tokensOf components = tokens := by
  rw [← h.ofTokens_eq, tokensOf_ofTokens]

/-- The first component begins with the first token. -/
theorem exists_firstToken {token : Token} (h : Gathers (token :: tokens) components) :
    ∃ component rest, components = component :: rest ∧ component.firstToken = token := by
  have htokens := h.tokensOf_eq
  cases components with
  | nil => simp at htokens
  | cons component rest =>
      refine ⟨component, rest, rfl, ?_⟩
      cases component with
      | single read =>
          rw [tokensOf_cons, tokens_single] at htokens
          exact (List.cons.inj htokens).1
      | block opener content closer =>
          rw [tokensOf_cons, tokens_block] at htokens
          exact (List.cons.inj htokens).1

end Gathers

/-- A component that neither separates declarations nor is a block of rules. -/
def IsInline (component : Component) : Prop :=
  component.firstToken.kind ≠ .semicolon ∧ component.firstToken.kind ≠ .opening .curly

/-- Balanced tokens make components without semicolons and blocks of rules. -/
theorem exists_gathers_of_balanced {tokens : List Token} (h : Balanced tokens) :
    ∃ components, Gathers tokens components ∧ ∀ component ∈ components, IsInline component := by
  induction h with
  | nil => exact ⟨[], Gathers.nil, by simp⟩
  | @inner token rest hopens hcloses hsemicolon _ ih =>
      obtain ⟨components, hgathers, hinline⟩ := ih
      refine ⟨.single token :: components, hgathers.cons hopens hcloses, ?_⟩
      rw [List.forall_mem_cons]
      refine ⟨⟨hsemicolon, ?_⟩, hinline⟩
      intro hkind
      rw [firstToken] at hkind
      rw [hkind] at hopens
      cases hopens
  | @block opener closer inside rest hopens hcloser _ _ ihInside ihRest =>
      obtain ⟨content, hcontent, -⟩ := ihInside
      obtain ⟨components, hgathers, hinline⟩ := ihRest
      refine ⟨.block opener content (some closer) :: components, ?_, ?_⟩
      · have hblock := (hcontent.block hopens hcloser).append hgathers
        simpa using hblock
      · rw [List.forall_mem_cons]
        refine ⟨⟨?_, ?_⟩, hinline⟩
        · -- Neither a semicolon nor a curly bracket opens a block of balanced tokens.
          intro hkind
          rw [firstToken] at hkind
          rw [hkind] at hopens
          cases hopens
        · intro hkind
          rw [firstToken] at hkind
          rw [hkind] at hopens
          cases hopens

/-! ## Written texts -/

/-- The text makes the components wherever it stands in front of text that begins in a given
way. -/
def Written (before : Text → Prop) (text : Text) (components : List Component) : Prop :=
  ∃ tokens, Framed before text tokens ∧ Gathers tokens components

namespace Written

variable {before before' : Text → Prop} {text text' : Text}
  {components components' : List Component}

theorem nil : Written before [] [] :=
  ⟨[], Token.framed_nil, Gathers.nil⟩

theorem append (h : Written before text components) (h' : Written before' text' components')
    (himp : ∀ rest, before' rest → before (text' ++ rest)) :
    Written before' (text ++ text') (components ++ components') := by
  obtain ⟨tokens, hframed, hgathers⟩ := h
  obtain ⟨tokens', hframed', hgathers'⟩ := h'
  exact ⟨tokens ++ tokens', hframed.append hframed' himp, hgathers.append hgathers'⟩

/-- A mark that is no bracket. -/
theorem mark {c : Char} {kind : Token.Kind} (hfirst : ∀ rest, Token.first c rest = (kind, 1))
    (hopens : kind.opens? = none) (hcloses : kind.closes? = none) :
    Written Token.Anything [c] [.single ⟨kind, [c]⟩] :=
  ⟨_, Token.framed_mark hfirst, Gathers.single hopens hcloses⟩

/-- The opening curly bracket of printed rules. -/
def curlyOpener : Token := ⟨.opening .curly, ['{']⟩

/-- The closing curly bracket of printed rules. -/
def curlyCloser : Token := ⟨.closing .curly, ['}']⟩

/-- A text in curly brackets makes a block. -/
theorem block (h : Written Token.Stops text components) :
    Written Token.Anything ('{' :: (text ++ ['}']))
      [.block curlyOpener components (some curlyCloser)] := by
  obtain ⟨tokens, hframed, hgathers⟩ := h
  have hopener : Framed Token.Anything ['{'] [curlyOpener] :=
    Token.framed_mark fun rest => by cases rest <;> rfl
  have hcloser : Framed Token.Anything ['}'] [curlyCloser] :=
    Token.framed_mark fun rest => by cases rest <;> rfl
  have hstops : ∀ rest, Token.Anything rest → Token.Stops (['}'] ++ rest) := by
    intro rest _ c hc
    cases hc
    exact Or.inr (Or.inl rfl)
  have hinside := hframed.append hcloser hstops
  have hwhole := hopener.append hinside fun _ _ => trivial
  exact ⟨_, hwhole, hgathers.block rfl rfl⟩

theorem mono (h : Written before text components) (himp : ∀ rest, before' rest → before rest) :
    Written before' text components := by
  obtain ⟨tokens, hframed, hgathers⟩ := h
  exact ⟨tokens, fun rest hrest => hframed rest (himp rest hrest), hgathers⟩

/-- A written text is read as its components. -/
theorem ofText_eq (h : Written before text components) (hbefore : before []) :
    ofText text = components := by
  obtain ⟨tokens, hframed, hgathers⟩ := h
  have htokens := hframed [] hbefore
  rw [List.append_nil, Token.ofText, List.append_nil] at htokens
  rw [ofText, htokens, hgathers.ofTokens_eq]

theorem sources_eq (h : Written before text components) (hbefore : before []) :
    sources components = text := by
  rw [← h.ofText_eq hbefore, sources_ofText]

end Written

/-! ## Components that differ in one place -/

variable {gap gap' : List Component}

/-- Two sequences of components that are the same but for one place, at some depth, where the first
has `gap` and the second has `gap'`. -/
inductive Differ (gap gap' : List Component) : List Component → List Component → Prop
  | here (front back : List Component) :
      Differ gap gap' (front ++ gap ++ back) (front ++ gap' ++ back)
  | inside {content content' : List Component} (front back : List Component) {opener : Token}
      (closer : Option Token) :
      opener.kind.opens?.isSome = true → Differ gap gap' content content' →
      Differ gap gap' (front ++ .block opener content closer :: back)
        (front ++ .block opener content' closer :: back)

namespace Differ

variable {components components' : List Component}

/-- More components may follow. -/
theorem append (h : Differ gap gap' components components') (more : List Component) :
    Differ gap gap' (components ++ more) (components' ++ more) := by
  cases h with
  | here front back =>
      rw [List.append_assoc (front ++ gap), List.append_assoc (front ++ gap')]
      exact here front (back ++ more)
  | inside front back closer hopens hcontent =>
      rw [List.append_assoc, List.append_assoc]
      exact inside front (back ++ more) closer hopens hcontent

/-- The texts of such sequences are the same but for the texts of `gap` and `gap'`. -/
theorem exists_sources (h : Differ gap gap' components components') :
    ∃ before after, sources components = before ++ sources gap ++ after ∧
      sources components' = before ++ sources gap' ++ after := by
  induction h with
  | here front back => exact ⟨sources front, sources back, by simp, by simp⟩
  | @inside content content' front back opener closer _ _ ih =>
      obtain ⟨before, after, hbefore, hafter⟩ := ih
      exact ⟨sources front ++ opener.source ++ before,
        after ++ closerSource closer ++ sources back, by simp [hbefore], by simp [hafter]⟩

end Differ

namespace Reader

/-- The open blocks of a reader begin with tokens that open a bracket. -/
def Opened (reader : Reader) : Prop :=
  ∀ level ∈ reader.outer, level.opener.kind.opens?.isSome = true

theorem Opened.step {reader : Reader} (h : reader.Opened) (token : Token) :
    (reader.step token).Opened := by
  unfold Reader.step
  split
  · rename_i bracket hopens
    rw [Opened, List.forall_mem_cons]
    exact ⟨by rw [hopens]; rfl, h⟩
  · split
    · exact h
    · rename_i level outer houter
      rw [Opened, houter, List.forall_mem_cons] at h
      split
      · exact h.2
      · rw [Opened, push, houter, List.forall_mem_cons]
        exact h

theorem opened_foldl {reader : Reader} (h : reader.Opened) (tokens : List Token) :
    (tokens.foldl step reader).Opened := by
  induction tokens generalizing reader with
  | nil => exact h
  | cons token rest ih => exact ih (h.step token)

/-- Readers of the same components but for one place, which is on the innermost level or before
one of the open blocks. -/
inductive Differ (gap gap' : List Component) : Reader → Reader → Prop
  | latest {latest latest' : List Component} (outer : List OpenBlock) :
      Component.Differ gap gap' latest.reverse latest'.reverse →
      Differ gap gap' ⟨latest, outer⟩ ⟨latest', outer⟩
  | outer (latest : List Component) (newer older : List OpenBlock) (opener : Token)
      (bracket : Bracket) {before before' : List Component} :
      Component.Differ gap gap' before.reverse before'.reverse →
      Differ gap gap' ⟨latest, newer ++ ⟨opener, bracket, before⟩ :: older⟩
        ⟨latest, newer ++ ⟨opener, bracket, before'⟩ :: older⟩

/-- One more token on the innermost level, or the end of a block, adds a component. -/
theorem differ_cons {latest latest' : List Component}
    (h : Component.Differ gap gap' latest.reverse latest'.reverse) (component : Component) :
    Component.Differ gap gap' (component :: latest).reverse (component :: latest').reverse := by
  rw [List.reverse_cons, List.reverse_cons]
  exact h.append [component]

theorem differ_complete {level : OpenBlock} (hopens : level.opener.kind.opens?.isSome = true)
    {latest latest' : List Component}
    (h : Component.Differ gap gap' latest.reverse latest'.reverse) (closer : Option Token) :
    Component.Differ gap gap' (complete level latest closer).reverse
      (complete level latest' closer).reverse := by
  rw [complete, complete, List.reverse_cons, List.reverse_cons]
  exact .inside level.before.reverse [] closer hopens h

theorem Differ.step {reader reader' : Reader} (h : Differ gap gap' reader reader')
    (hopened : reader.Opened) (token : Token) :
    Differ gap gap' (reader.step token) (reader'.step token) := by
  cases h with
  | latest outer hlatest =>
      -- The place is on the innermost level, which stays so, is closed, or gets another one inside.
      cases hopens : token.kind.opens? with
      | some bracket =>
          simp only [Reader.step, hopens]
          exact .outer [] [] outer token bracket hlatest
      | none =>
          cases outer with
          | nil =>
              simp only [Reader.step, hopens, push]
              exact .latest [] (differ_cons hlatest _)
          | cons level outer =>
              rw [Opened, List.forall_mem_cons] at hopened
              simp only [Reader.step, hopens]
              split
              · exact .latest outer (differ_complete hopened.1 hlatest _)
              · exact .latest (level :: outer) (differ_cons hlatest _)
  | outer latest newer older opener bracket hbefore =>
      -- The place is further out, and its level is the innermost one again when those inside close.
      cases hopens : token.kind.opens? with
      | some bracket' =>
          simp only [Reader.step, hopens]
          exact .outer [] (⟨token, bracket', latest⟩ :: newer) older opener bracket hbefore
      | none =>
          cases newer with
          | nil =>
              simp only [Reader.step, hopens, List.nil_append]
              split
              · exact .latest older (differ_cons hbefore _)
              · exact .outer _ [] older opener bracket hbefore
          | cons level newer =>
              simp only [Reader.step, hopens, List.cons_append]
              split
              · exact .outer _ newer older opener bracket hbefore
              · exact .outer _ (level :: newer) older opener bracket hbefore

theorem Differ.foldl {reader reader' : Reader} (h : Differ gap gap' reader reader')
    (hopened : reader.Opened) (tokens : List Token) :
    Differ gap gap' (tokens.foldl Reader.step reader) (tokens.foldl Reader.step reader') := by
  induction tokens generalizing reader reader' with
  | nil => exact h
  | cons token rest ih => exact ih (h.step hopened token) (hopened.step token)

/-- The end of the input completes the open blocks. -/
theorem differ_foldl_complete {outer : List OpenBlock} {latest latest' : List Component}
    (hopened : ∀ level ∈ outer, level.opener.kind.opens?.isSome = true)
    (h : Component.Differ gap gap' latest.reverse latest'.reverse) :
    Component.Differ gap gap'
      (outer.foldl (fun latest level => complete level latest none) latest).reverse
      (outer.foldl (fun latest level => complete level latest none) latest').reverse := by
  induction outer generalizing latest latest' with
  | nil => exact h
  | cons level outer ih =>
      rw [List.forall_mem_cons] at hopened
      exact ih hopened.2 (differ_complete hopened.1 h none)

theorem Differ.finish {reader reader' : Reader} (h : Differ gap gap' reader reader')
    (hopened : reader.Opened) : Component.Differ gap gap' reader.finish reader'.finish := by
  cases h with
  | latest outer hlatest => exact differ_foldl_complete hopened hlatest
  | outer latest newer older opener bracket hbefore =>
      rw [Opened, List.forall_mem_append, List.forall_mem_cons] at hopened
      rw [Reader.finish, Reader.finish]
      simp only [List.foldl_append, List.foldl_cons]
      exact differ_foldl_complete hopened.2.2 (differ_cons hbefore _)

end Reader

/-- Exchanging tokens that make components on their own level makes the components differ in one
place. -/
theorem differ_ofTokens {tokens tokens' : List Token} (h : Gathers tokens gap)
    (h' : Gathers tokens' gap') (front back : List Token) :
    Differ gap gap' (ofTokens (front ++ tokens ++ back)) (ofTokens (front ++ tokens' ++ back)) := by
  have hopened : (front.foldl Reader.step Reader.start).Opened :=
    Reader.opened_foldl (by simp [Reader.Opened, Reader.start]) front
  rw [ofTokens, ofTokens]
  simp only [List.foldl_append, h _, h' _]
  generalize front.foldl Reader.step Reader.start = reader at hopened ⊢
  obtain ⟨latest, outer⟩ := reader
  have hdiffer : Reader.Differ gap gap' ⟨gap.reverse ++ latest, outer⟩
      ⟨gap'.reverse ++ latest, outer⟩ := by
    apply Reader.Differ.latest outer
    have hhere : Differ gap gap' (latest.reverse ++ gap ++ []) (latest.reverse ++ gap' ++ []) :=
      .here latest.reverse []
    simpa using hhere
  have hopened' : Reader.Opened ⟨gap.reverse ++ latest, outer⟩ := hopened
  exact (hdiffer.foldl hopened' back).finish (Reader.opened_foldl hopened' back)

end UtilityCss.Component
