import UtilityCss.Token

/-!
# Components

Brackets group tokens into a tree. A component is one token or a block: an opening token, the
components inside, and the closing token if the input has one. A block ends at the closing bracket
of its own kind. Other closing brackets inside it are ordinary tokens, and blocks that are still
open at the end of the input end there.

* `Component.source` is the text that a component was read from, `Component.sources` that of a
  sequence of components. Both are written from the right, each in front of what follows it
  (`sourceThen`), so that the time they take does not grow with the depth of the blocks. The
  equations `source_single`, `source_block`, `sources_nil` and `sources_cons` say what they are.
* `Component.Reader` holds the components read so far under the blocks that are open.
* `Component.ofTokens` reads a sequence of tokens, `Component.ofText` a text.

Reading loses nothing: the source of the components is the text (`sources_ofText`).
-/

set_option autoImplicit false

namespace UtilityCss

/-- A token, or a block from an opening token to the closing one. -/
inductive Component where
  | single (token : Token)
  | block (opener : Token) (content : List Component) (closer : Option Token)
  deriving Repr

namespace Component

/-- The text of a closing token, if there is one. -/
def closerSource (closer : Option Token) : Text :=
  match closer with
  | none => []
  | some token => token.source

mutual
/-- The text that a component was read from, in front of a given text. -/
def sourceThen : Component → Text → Text
  | .single token, after => token.source ++ after
  | .block opener content closer, after =>
    opener.source ++ sourcesThen content (closerSource closer ++ after)
/-- The text that a sequence of components was read from, in front of a given text. -/
def sourcesThen : List Component → Text → Text
  | [], after => after
  | component :: rest, after => sourceThen component (sourcesThen rest after)
end

/-- The text that a component was read from. -/
def source (component : Component) : Text :=
  sourceThen component []

/-- The text that a sequence of components was read from. -/
def sources (components : List Component) : Text :=
  sourcesThen components []

mutual
theorem sourceThen_eq (component : Component) (after : Text) :
    sourceThen component after = source component ++ after := by
  cases component with
  | single token => simp [source, sourceThen]
  | block opener content closer =>
      have inside := fun after => sourcesThen_eq content after
      simp [source, sourceThen, inside]
theorem sourcesThen_eq (components : List Component) (after : Text) :
    sourcesThen components after = sources components ++ after := by
  cases components with
  | nil => simp [sources, sourcesThen]
  | cons component rest =>
      have first := fun after => sourceThen_eq component after
      have others := fun after => sourcesThen_eq rest after
      -- The definition of `sources` is unfolded for the whole sequence only.
      change sourcesThen (component :: rest) after = sourcesThen (component :: rest) [] ++ after
      simp [sourcesThen, first, others]
end

@[simp] theorem source_single (token : Token) : source (.single token) = token.source := by
  simp [source, sourceThen]

@[simp] theorem source_block (opener : Token) (content : List Component)
    (closer : Option Token) :
    source (.block opener content closer) =
      opener.source ++ sources content ++ closerSource closer := by
  simp [source, sourceThen, sourcesThen_eq]

@[simp] theorem sources_nil : sources [] = [] := by
  simp [sources, sourcesThen]

@[simp] theorem sources_cons (component : Component) (rest : List Component) :
    sources (component :: rest) = source component ++ sources rest := by
  change sourcesThen (component :: rest) [] = _
  simp [sourcesThen, sourceThen_eq, sourcesThen_eq]

@[simp] theorem sources_append (first second : List Component) :
    sources (first ++ second) = sources first ++ sources second := by
  induction first with
  | nil => simp
  | cons component rest ih => simp [ih]

/-- The first token of a component. -/
def firstToken : Component → Token
  | .single token => token
  | .block opener _ _ => opener

/-- Whether a component only separates others. -/
def isSkipped : Component → Bool
  | .single token => token.kind.isSkipped
  | .block _ _ _ => false

/-! ## Reading components -/

/-- A block that is open: its first token, its bracket, and the components before it on its
level, the latest first. -/
structure OpenBlock where
  opener : Token
  bracket : Bracket
  before : List Component

/-- The components read so far on the innermost level, the latest first, and the open blocks
around them, the innermost first. -/
structure Reader where
  latest : List Component
  outer : List OpenBlock

namespace Reader

/-- Nothing read. -/
def start : Reader := ⟨[], []⟩

/-- The level around a block once the block is complete. -/
def complete (level : OpenBlock) (latest : List Component) (closer : Option Token) :
    List Component :=
  .block level.opener latest.reverse closer :: level.before

/-- One more component on the innermost level. -/
def push (reader : Reader) (component : Component) : Reader :=
  { reader with latest := component :: reader.latest }

/-- One more token. -/
def step (reader : Reader) (token : Token) : Reader :=
  match token.kind.opens? with
  -- Every opening token begins a level of its own, even where its bracket will never close.
  | some bracket => ⟨[], ⟨token, bracket, reader.latest⟩ :: reader.outer⟩
  | none =>
    match reader.outer with
    | [] => reader.push (.single token)
    | level :: outer =>
      if token.kind.closes? = some level.bracket then
        ⟨complete level reader.latest (some token), outer⟩
      else reader.push (.single token)

/-- The components once the input has ended. -/
def finish (reader : Reader) : List Component :=
  (reader.outer.foldl (fun latest level => complete level latest none) reader.latest).reverse

end Reader

/-- The components of a sequence of tokens. -/
def ofTokens (tokens : List Token) : List Component :=
  (tokens.foldl Reader.step Reader.start).finish

/-- The components of a text. -/
def ofText (text : Text) : List Component :=
  ofTokens (Token.ofText text)

/-! ## Nothing is lost -/

namespace Reader

/-- The text of the open blocks. -/
def outerText : List OpenBlock → Text
  | [] => []
  | level :: outer => outerText outer ++ sources level.before.reverse ++ level.opener.source

/-- The text read so far. -/
def text (reader : Reader) : Text :=
  outerText reader.outer ++ sources reader.latest.reverse

theorem text_push (reader : Reader) (component : Component) :
    (reader.push component).text = reader.text ++ component.source := by
  simp [text, push]

theorem text_step (reader : Reader) (token : Token) :
    (reader.step token).text = reader.text ++ token.source := by
  unfold step
  split
  · simp [text, outerText]
  · split
    · simp [text_push]
    · rename_i level outer houter
      split
      · simp [text, complete, houter, outerText, closerSource]
      · simp [text_push]

theorem text_foldl (tokens : List Token) (reader : Reader) :
    (tokens.foldl step reader).text = reader.text ++ tokens.flatMap Token.source := by
  induction tokens generalizing reader with
  | nil => simp
  | cons token rest ih => simp [ih, text_step]

theorem sources_finish_aux (outer : List OpenBlock) (latest : List Component) :
    sources (outer.foldl (fun latest level => complete level latest none) latest).reverse =
      outerText outer ++ sources latest.reverse := by
  induction outer generalizing latest with
  | nil => simp [outerText]
  | cons level outer ih =>
      rw [List.foldl_cons, ih]
      simp [complete, outerText, closerSource]

theorem sources_finish (reader : Reader) : sources reader.finish = reader.text :=
  sources_finish_aux reader.outer reader.latest

end Reader

/-- The components of a sequence of tokens have the text of the tokens. -/
theorem sources_ofTokens (tokens : List Token) :
    sources (ofTokens tokens) = tokens.flatMap Token.source := by
  rw [ofTokens, Reader.sources_finish, Reader.text_foldl]
  simp [Reader.text, Reader.start, Reader.outerText]

/-- The components of a text have the text for their source. -/
theorem sources_ofText (text : Text) : sources (ofText text) = text := by
  rw [ofText, sources_ofTokens, Token.sources_ofText]

end Component

end UtilityCss
