import UtilityCss.Proofs.Arithmetic.Product
import UtilityCss.Proofs.Token.Firm

/-!
# Products between loose tokens

What is written for a product joins the loose tokens around it, so that they are read anew together
with it. The text since the last firm token is pending: only the next firm token, or the end,
decides how it is read.

* `Calc.IsProductText` is the form of what is written for products in a row.
* `Calc.Joined` says that a pending text ends in such a text.
* `Calc.Pending` says what can be pending in front of the rest of a value.

Main statements: `Pending.ofText_halts` for the end of a pending text, `Pending.ofText_firm` for a
firm token behind it, and `Pending.opener` for one that opens a block.
-/

set_option autoImplicit false

namespace UtilityCss.Calc

open Token (IsLoose Units AnyChar InName EndsGap Follows KeepsEnd Halts Cut isGap isNameChar
  startsName)

/-! ## What is written for products -/

/-- The text of products in a row begins like a number and ends in a character of a name, and a
digit follows each mark. -/
structure IsProductText (text : Text) : Prop where
  head : ∃ c rest, text = c :: rest ∧ isNumberStart c = true
  marked : isMarked text = true
  last : ∃ front c, text = front ++ [c] ∧ isNameChar c = true

theorem isProductText_of_replacement? {opener : Token} {content : List Component} {written : Text}
    (h : replacement? opener content = some written) : IsProductText written where
  head := (isWritten_of_replacement? h).2.head
  marked := isMarked_of_replacement? h
  last := by
    obtain ⟨-, dimension, hproduct, rfl⟩ := replacement?_eq_some_iff.1 h
    have hunit := isUnit_of_product hproduct
    rw [Dimension.isUnit, Bool.and_eq_true, Bool.not_eq_true', List.isEmpty_eq_false_iff,
      List.all_eq_true] at hunit
    have hlast := List.dropLast_concat_getLast hunit.1
    refine ⟨NumberLayout.computed.write dimension.value ++ dimension.unit.dropLast,
      dimension.unit.getLast hunit.1, ?_, ?_⟩
    · rw [writeDimension, List.append_assoc, hlast]
    · have hletter := hunit.2 _ (List.getLast_mem hunit.1)
      rw [Dimension.isUnitChar] at hletter
      simp [isNameChar, Token.isNameStart, isAsciiLetter, hletter]

namespace IsProductText

variable {text : Text}

theorem append {other : Text} (h : IsProductText text) (h' : IsProductText other) :
    IsProductText (text ++ other) where
  head := by
    obtain ⟨c, rest, rfl, hc⟩ := h.head
    exact ⟨c, rest ++ other, rfl, hc⟩
  marked := isMarked_append h.marked h'.marked
  last := by
    obtain ⟨front, c, rfl, hc⟩ := h'.last
    exact ⟨text ++ front, c, by simp, hc⟩

theorem isSafe (h : IsProductText text) : ∀ c ∈ text, Token.isSafe c = true :=
  fun c hc => Token.isSafe_of_class (p := fun c => isAsciiLetter c || isDigit c ||
    ['.', '+', '-'].contains c) (by decide) (class_of_isMarked h.marked c hc)

theorem units (h : IsProductText text) (behind : Text) : Units IsLoose behind text := by
  refine Units.of_not_mem (Token.not_mem_of_isSafe h.isSafe) ?_
  intro front c rest heq
  exact Token.isLoose_of_isSafe (h.isSafe c (by simp [heq])) _

/-- Only the words for numbers without digits begin like a name. -/
theorem head_of_startsName (h : IsProductText text) {rest : Text}
    (hname : startsName (text ++ rest) = true) :
    ∃ c more, text = c :: more ∧ (c = 'I' ∨ c = 'N') := by
  obtain ⟨c, more, rfl, hc⟩ := h.head
  refine ⟨c, more, rfl, ?_⟩
  rw [isNumberStart, Bool.or_eq_true, Bool.or_eq_true, beq_iff_eq, beq_iff_eq, or_assoc] at hc
  refine hc.resolve_left fun hdigit => ?_
  have hdigits : Token.startsDigit (c :: (more ++ rest)) = true := hdigit
  rw [List.cons_append, Token.startsName_of_startsDigit hdigits] at hname
  cases hname

theorem not_endsGap (h : IsProductText text) (front : Text) : ¬ EndsGap (front ++ text) := by
  rintro ⟨before, d, heq, hd, -⟩
  obtain ⟨inside, c, rfl, hc⟩ := h.last
  rw [← List.append_assoc] at heq
  obtain rfl : c = d := by simpa using (List.append_inj' heq rfl).2
  simp [isGap, hc] at hd

/-- A digit stands behind a gap inside the text of products, and begins no name. -/
theorem startsName_of_endsGap {front part tail : Text} (h : IsProductText (part ++ tail))
    (hgap : EndsGap (front ++ part)) (hne : part ≠ []) (more : Text) :
    startsName (tail ++ more) = false := by
  obtain ⟨before, d, heq, hd, -⟩ := hgap
  obtain ⟨inside, e, rfl⟩ := List.eq_nil_or_concat part |>.resolve_left hne
  rw [List.concat_eq_append, ← List.append_assoc] at heq
  obtain rfl : e = d := by simpa using (List.append_inj' heq rfl).2
  have hmarked := h.marked
  rw [List.concat_eq_append, List.append_assoc] at hmarked
  have hmark := isMarked_of_append hmarked
  rw [List.singleton_append, isMarked, Bool.and_eq_true, Bool.or_eq_true, Bool.and_eq_true] at hmark
  rcases hmark.1 with hclass | ⟨-, hdigit⟩
  · -- Letters and digits are no gaps.
    have hname : isNameChar e = true := by
      simp only [Bool.or_eq_true] at hclass
      rcases hclass with hletter | hdigit
      · simp [isNameChar, Token.isNameStart, hletter]
      · simp [isNameChar, hdigit]
    simp [isGap, hname] at hd
  · refine Token.startsName_of_startsDigit ?_
    cases tail with
    | nil => cases hdigit
    | cons c tail => exact hdigit

end IsProductText

/-! ## Runs of loose tokens -/

/-- Loose tokens in a row, as they are read in front of the rest of a value. -/
structure IsRun (tokens : List Token) (behind : Text) : Prop where
  loose : ∀ token ∈ tokens, token.kind.isFirm = false
  read : Token.ofText (tokens.flatMap Token.source ++ behind) = tokens ++ Token.ofText behind

namespace IsRun

variable {tokens : List Token} {behind : Text}

theorem nil (behind : Text) : IsRun [] behind :=
  ⟨by simp, rfl⟩

theorem concat {token : Token} (h : IsRun tokens (token.source ++ behind))
    (hloose : token.kind.isFirm = false)
    (hread : Token.ofText (token.source ++ behind) = token :: Token.ofText behind) :
    IsRun (tokens ++ [token]) behind where
  loose := by
    intro other hmem
    rcases List.mem_append.1 hmem with hmem | hmem
    · exact h.loose other hmem
    · rw [List.mem_singleton.1 hmem, hloose]
  read := by
    have hall := h.read
    rw [hread] at hall
    simpa using hall

theorem units (h : IsRun tokens behind) :
    Units IsLoose behind (tokens.flatMap Token.source) ∧
      (startsName behind = true → tokens ≠ [] → EndsGap (tokens.flatMap Token.source)) := by
  have hunits := Token.units_of_ofText h.read h.loose
  rwa [Token.sources_ofText] at hunits

/-- No name stands at the end of a run in front of a round bracket, since the bracket would belong
to it. -/
theorem not_isWord {inside first word : Text} (h : IsRun tokens ('(' :: inside))
    (heq : tokens.flatMap Token.source = first ++ word) (hgap : first = [] ∨ EndsGap first)
    (hunits : Units AnyChar (word ++ '(' :: inside) first)
    (hword : Token.IsWord word ('(' :: inside)) : False := by
  have hread := h.read
  have hloose := h.units.1
  rw [heq] at hloose
  rw [heq, List.append_assoc] at hread
  cases word with
  | nil =>
      have hname := hword.reads.name
      cases hname
  | cons c rest =>
      have hcut : first ≠ [] → Cut first (c :: rest ++ '(' :: inside) := by
        intro hne
        refine ⟨hunits.left hloose, Or.inr ⟨hgap.resolve_left hne, ?_⟩⟩
        rw [hword.cut.startsName]
        exact hword.reads.name
      -- What stands before the name is read on its own, and the name takes the bracket along.
      have hsplit := Cut.ofText_append hcut (by
        intro hround
        have hname := hword.reads.name
        obtain rfl : c = '(' := by simpa using hround
        rw [Token.startsName_of_ne (by decide) (by decide)] at hname
        exact absurd hname (by decide))
      rw [List.cons_append, Token.ofText_cons] at hsplit
      have hfirm : (Token.first c (rest ++ '(' :: inside)).1.isFirm = true := by
        rw [hword.first]
        split
        · cases Token.urlExtent inside <;> rfl
        · rfl
      -- The name and the bracket are in one token, which is no token of the run.
      rw [List.cons_append, hsplit] at hread
      rcases Component.split_of_append_eq hread.symm with ⟨more, hmore⟩ | ⟨more, hmore, -⟩
      · have hall := h.loose
        rw [hmore, List.forall_mem_append, List.forall_mem_cons, hfirm] at hall
        cases hall.2.1
      · have hsources := congrArg (List.flatMap Token.source) hmore
        rw [Token.sources_ofText, List.flatMap_append, heq] at hsources
        have hlength := congrArg List.length hsources
        simp only [List.length_append, List.length_cons] at hlength
        omega

end IsRun

/-! ## What is pending -/

/-- A text that ends in what is written for products. Nothing or a gap stands before that, since
their names have been read there. -/
structure Joined (text : Text) : Prop where
  exists_parts : ∃ front written, text = front ++ written ∧ IsProductText written ∧
    (front = [] ∨ EndsGap front) ∧ ∀ behind, Units IsLoose (written ++ behind) front

namespace Joined

variable {text : Text}

theorem units (h : Joined text) (behind : Text) : Units IsLoose behind text := by
  obtain ⟨front, written, rfl, hwritten, -, hfront⟩ := h.exists_parts
  exact (hfront behind).append (hwritten.units behind)

theorem append {written : Text} (h : Joined text) (hwritten : IsProductText written) :
    Joined (text ++ written) := by
  obtain ⟨front, before, rfl, hbefore, hgap, hfront⟩ := h.exists_parts
  refine ⟨front, before ++ written, by simp, hbefore.append hwritten, hgap, fun behind => ?_⟩
  rw [List.append_assoc]
  exact hfront _

/-- A name that begins in a joined text begins with a word for a number without digits. -/
theorem head_of_isWord (h : Joined text) {more first word behind : Text}
    (heq : text ++ more = first ++ word) (hgap : first = [] ∨ EndsGap first)
    (hunits : Units AnyChar (word ++ behind) first) (hword : Token.IsWord word behind) :
    (∃ c rest, word = c :: rest ∧ (c = 'I' ∨ c = 'N')) ∨
      ∃ between, more = between ++ word ∧ EndsGap between ∧
        Units AnyChar (word ++ behind) between := by
  have htext := h.units
  obtain ⟨front, written, rfl, hwritten, hgap', hfront⟩ := h.exists_parts
  have hstart : word = written ++ more → ∃ c rest, word = c :: rest ∧ (c = 'I' ∨ c = 'N') := by
    rintro rfl
    obtain ⟨c, rest, rfl, hc⟩ := hwritten.head_of_startsName hword.reads.name
    exact ⟨c, rest ++ more, rfl, hc⟩
  rcases List.append_eq_append_iff.1 heq with ⟨between, rfl, rfl⟩ | ⟨tail, hsplit, rfl⟩
  · -- The name begins behind the products.
    right
    have hfirst : front ++ written ++ between ≠ [] := by
      obtain ⟨c, rest, rfl, -⟩ := hwritten.head
      simp
    have hends := hgap.resolve_left hfirst
    have hne : between ≠ [] := by
      rintro rfl
      rw [List.append_nil] at hends
      exact hwritten.not_endsGap front hends
    exact ⟨between, rfl, hends.cancel (htext (between ++ (word ++ behind))) hne,
      (htext (between ++ (word ++ behind))).cancel hunits⟩
  · left
    rcases List.append_eq_append_iff.1 hsplit with ⟨part, rfl, rfl⟩ | ⟨part, rfl, rfl⟩
    · -- The name begins in the products. Only a digit stands behind a gap there.
      by_cases hpart : part = []
      · exact hstart (by rw [hpart]; rfl)
      have hends := hgap.resolve_left (List.append_ne_nil_of_right_ne_nil front hpart)
      have hname := hword.reads.name
      rw [hwritten.startsName_of_endsGap hends hpart] at hname
      cases hname
    · by_cases hpart : part = []
      · exact hstart (by rw [hpart]; rfl)
      -- The gap before the products would be in the name.
      have hends := hgap'.resolve_left (List.append_ne_nil_of_right_ne_nil first hpart)
      rw [List.append_assoc, List.append_assoc] at hunits
      rw [List.append_assoc] at hword
      exact absurd (hends.cancel hunits hpart) hword.not_endsGap

end Joined

/-- What can be pending in front of the rest of a value: loose tokens, perhaps behind a text that
ends in a product. The flag says whether a product stands just in front of the rest. -/
inductive Pending : Bool → Text → Text → Prop
  | loose {tokens : List Token} {behind : Text} : IsRun tokens behind →
      Pending false (tokens.flatMap Token.source) behind
  | between {front : Text} {tokens : List Token} {behind : Text} : Joined front → tokens ≠ [] →
      IsRun tokens behind → Pending false (front ++ tokens.flatMap Token.source) behind
  | joined {text behind : Text} : Joined text → Pending true text behind

namespace Pending

variable {after : Bool} {text behind behind' : Text}

theorem nil (behind : Text) : Pending false [] behind :=
  .loose (IsRun.nil behind)

/-- A loose token is added to what is pending. -/
theorem single {token : Token} (h : Pending after text (token.source ++ behind))
    (hloose : token.kind.isFirm = false)
    (hread : Token.ofText (token.source ++ behind) = token :: Token.ofText behind) :
    Pending false (text ++ token.source) behind := by
  cases h with
  | loose hrun => simpa using Pending.loose (hrun.concat hloose hread)
  | between hjoined _ hrun =>
      simpa using Pending.between hjoined (by simp) (hrun.concat hloose hread)
  | joined hjoined =>
      simpa using Pending.between hjoined (by simp)
        ((IsRun.nil (token.source ++ behind)).concat hloose hread)

theorem units_halts (h : Pending after text behind) (hfollows : Follows behind behind')
    (hhalts : Halts behind') : Units IsLoose behind' text := by
  cases h with
  | loose hrun => exact hrun.units.1.exchange_halts hfollows hhalts
  | between hjoined _ hrun =>
      exact (hjoined.units _).append (hrun.units.1.exchange_halts hfollows hhalts)
  | joined hjoined => exact hjoined.units behind'

/-- In front of a name, a pending text that does not end in a product ends in a gap. -/
theorem units_gap (h : Pending false text behind) (hname : startsName behind = true)
    (hne : text ≠ []) :
    EndsGap text ∧ ∀ behind', (∀ c ∈ behind'.head?, c ≠ '*' ∧ c ≠ '!') →
      ("--".toList <+: behind' → "--".toList <+: behind) → Units IsLoose behind' text := by
  cases h with
  | @loose tokens _ hrun =>
      obtain ⟨hunits, hgap⟩ := hrun.units
      have hends := hgap hname (by rintro rfl; exact hne rfl)
      exact ⟨hends, fun _ => hunits.exchange_gap hends⟩
  | between hjoined hsome hrun =>
      obtain ⟨hunits, hgap⟩ := hrun.units
      have hends := hgap hname hsome
      exact ⟨hends.append (hjoined.units (_ ++ behind)), fun _ hhead hhyphens =>
        (hjoined.units _).append (hunits.exchange_gap hends hhead hhyphens)⟩

/-- What is written for a product joins what is pending. -/
theorem write {written : Text} (h : Pending after text behind) (hname : startsName behind = true)
    (hwritten : IsProductText written) : Joined (text ++ written) := by
  cases after with
  | true =>
      cases h with
      | joined hjoined => exact hjoined.append hwritten
  | false =>
      by_cases hne : text = []
      · exact ⟨[], written, by rw [hne], hwritten, Or.inl rfl, fun _ => .nil⟩
      · -- The name of the block stood behind a gap, and no number ends a mark.
        obtain ⟨hgap, hunits⟩ := h.units_gap hname hne
        obtain ⟨c, rest, rfl, hc⟩ := hwritten.head
        have hmark : ∀ d, isNumberStart d = false → c ≠ d :=
          fun d hd => ne_of_class hc hd
        refine ⟨text, c :: rest, rfl, hwritten, Or.inr hgap, fun behind' => hunits _ ?_ ?_⟩
        · intro d hd
          obtain rfl : c = d := by simpa using hd
          exact ⟨hmark '*' (by decide), hmark '!' (by decide)⟩
        · intro hhyphens
          exact absurd (List.cons_prefix_cons.1 hhyphens).1.symm (hmark '-' (by decide))

/-- What is pending is read on its own in front of a firm token, unless it joins its name or its
bracket. -/
theorem cut {token : Token} (h : Pending after text (token.source ++ behind))
    (hfirm : token.kind.isFirm = true)
    (hread : Token.ofText (token.source ++ behind) = token :: Token.ofText behind)
    (hafter : after = true → startsName token.source = false) (behind' : Text) (hne : text ≠ []) :
    Cut text (token.source ++ behind') := by
  obtain ⟨c, rest, hsource, -⟩ := Token.exists_first_of_ofText hread
  have hhead : Follows (token.source ++ behind) (token.source ++ behind') := by
    rw [hsource]
    exact Follows.of_head? rfl
  -- A token that halts nothing is a name, and what is pending before it ends in a gap.
  rcases Token.halts_or_startsName hfirm hread with hhalts | ⟨hname, hlength, -⟩
  · exact ⟨h.units_halts hhead (hhalts behind'), Or.inl (hhalts behind')⟩
  · cases after with
    | true =>
        rw [hafter rfl] at hname
        cases hname
    | false =>
        have hstarts := fun more => Token.startsName_append_of_two_le hlength more
        obtain ⟨hgap, hunits⟩ := h.units_gap (by rw [hstarts, hname]) hne
        refine ⟨hunits _ ?_ ?_, Or.inr ⟨hgap, by rw [hstarts, hname]⟩⟩
        · intro d hd
          rw [hsource] at hname hd
          obtain rfl : c = d := by simpa using hd
          constructor <;> rintro rfl <;>
            rw [Token.startsName_of_ne (by decide) (by decide)] at hname <;>
            exact absurd hname (by decide)
        · intro hhyphens
          have hleads : "--".toList <+: token.source :=
            List.prefix_of_prefix_length_le hhyphens (List.prefix_append token.source behind')
              hlength
          exact hleads.trans (List.prefix_append token.source behind)

/-- What is pending is read on its own in front of an end, or of another text that halts it and is
no round bracket. -/
theorem ofText_halts (h : Pending after text behind) (hfollows : Follows behind behind')
    (hhalts : Halts behind') (hround : behind'.head? ≠ some '(') :
    (∀ token ∈ Token.ofText text, token.kind.isFirm = false) ∧
      Token.ofText (text ++ behind') = Token.ofText text ++ Token.ofText behind' := by
  have hcut : text ≠ [] → Cut text behind' :=
    fun _ => ⟨h.units_halts hfollows hhalts, Or.inl hhalts⟩
  exact ⟨Cut.isFirm_of_mem hcut, Cut.ofText_append hcut fun hhead => absurd hhead hround⟩

/-- A firm token is read behind what is pending, unless it joins its name or its bracket. -/
theorem ofText_firm {token : Token} (h : Pending after text (token.source ++ behind))
    (hfirm : token.kind.isFirm = true)
    (hread : Token.ofText (token.source ++ behind) = token :: Token.ofText behind)
    (hafter : after = true → startsName token.source = false)
    (hround : token.kind ≠ .opening .round) :
    (∀ token ∈ Token.ofText text, token.kind.isFirm = false) ∧
      ∀ behind', KeepsEnd behind behind' →
        (Token.urlExtent behind = none → Token.urlExtent behind' = none) →
        Token.ofText (text ++ (token.source ++ behind')) =
          Token.ofText text ++ token :: Token.ofText behind' := by
  have hcut := h.cut hfirm hread hafter
  refine ⟨Cut.isFirm_of_mem (hcut behind), fun behind' hends hurl => ?_⟩
  rw [Cut.ofText_append (hcut behind'), Token.ofText_of_isFirm hends hfirm hread]
  · -- The name of a function stands for an address only in front of a quoted text.
    intro name hkind hname
    obtain ⟨word, -, -, -, hnone⟩ := Token.exists_isWord_of_function hread hkind
    exact hurl (hnone hname)
  · intro hhead
    obtain ⟨c, rest, hsource, hfirst, -⟩ := Token.exists_first_of_ofText hread
    rw [hsource] at hhead
    obtain rfl : c = '(' := by simpa using hhead
    exact absurd hfirst.symm hround

end Pending

/-! ## Blocks behind what is pending -/

/-- A round bracket behind a text opens a block with the name at the end of the text, if a name
ends there. No product begins with such a name if it begins with a word for a number. -/
theorem exists_opener {text : Text} (inside : Text)
    (hunits : ∀ inside, Units IsLoose ('(' :: inside) text)
    (hword : ∀ first word, text = first ++ word → (first = [] ∨ EndsGap first) →
      Units AnyChar (word ++ '(' :: inside) first → Token.IsWord word ('(' :: inside) →
      ∃ c rest, word = c :: rest ∧ (c = 'I' ∨ c = 'N')) :
    ∃ front opener, (∀ token ∈ front, token.kind.isFirm = false) ∧
      opener.kind.opens? = some .round ∧ opener.kind ≠ .function functionName ∧
      ∀ inside, Token.ofText (text ++ '(' :: inside) =
        front ++ opener :: Token.ofText inside := by
  have hcut : ∀ inside, Cut text ('(' :: inside) := by
    intro inside
    refine ⟨hunits inside, Or.inl fun c hc => ?_⟩
    obtain rfl : '(' = c := by simpa using hc
    exact Or.inl (by decide)
  have hname : ∀ front last name, Token.ofText text = front ++ [last] → last.kind = .ident name →
      name ≠ functionName ∧ Text.asciiLower name ≠ "url".toList := by
    intro front last name heq hident
    obtain ⟨first, word, htext, hgap, hfirst, hisWord, rfl⟩ :=
      (hcut inside).exists_isWord heq hident
    obtain ⟨c, rest, rfl, hc⟩ := hword first word htext hgap hfirst hisWord
    rw [Token.nameOf, hisWord.whole, List.take_length, Token.nameValue]
    rcases hc with rfl | rfl <;> simp [functionName, Text.asciiLower]
  obtain ⟨front, opener, hfront, hopener, hread⟩ := Cut.ofText_round (fun _ => hcut)
    fun front last name heq hident => (hname front last name heq hident).2
  -- The bracket begins the block itself, or with the name in front of it.
  refine ⟨front, opener, hfront, ?_, ?_, hread⟩
  · rcases hopener with hopening | ⟨-, name, -, -, hfunction⟩
    · rw [hopening]
      rfl
    · rw [hfunction]
      rfl
  · rcases hopener with hopening | ⟨last, name, heq, hident, hfunction⟩
    · simp [hopening]
    · have hne := (hname front last name heq hident).1
      simpa [hfunction] using hne

theorem halts_round (inside : Text) : Halts ('(' :: inside) := by
  intro c hc
  obtain rfl : '(' = c := by simpa using hc
  exact Or.inl (by decide)

/-- The name of a function joins the products in front of it. -/
theorem Joined.exists_opener_of_isWord {text name inside : Text} (h : Joined text)
    (hname : Token.IsWord name ('(' :: inside)) :
    ∃ front opener, (∀ token ∈ front, token.kind.isFirm = false) ∧
      opener.kind.opens? = some .round ∧ opener.kind ≠ .function functionName ∧
      ∀ inside, Token.ofText (text ++ name ++ '(' :: inside) =
        front ++ opener :: Token.ofText inside := by
  have hunits : ∀ inside, Units IsLoose ('(' :: inside) (text ++ name) := fun inside =>
    (h.units _).append (hname.cut.loose.exchange_halts (Follows.of_head? rfl) (halts_round inside))
  refine exists_opener inside hunits fun first word heq hgap hfirst hword => ?_
  rcases h.head_of_isWord heq hgap hfirst hword with hhead | ⟨between, rfl, hends, -⟩
  · exact hhead
  · exact absurd hends hname.not_endsGap

/-- A round bracket behind what is pending. -/
theorem Pending.exists_opener {after : Bool} {text inside : Text}
    (h : Pending after text ('(' :: inside)) :
    ∃ front opener, (∀ token ∈ front, token.kind.isFirm = false) ∧
      opener.kind.opens? = some .round ∧ opener.kind ≠ .function functionName ∧
      ∀ inside, Token.ofText (text ++ '(' :: inside) =
        front ++ opener :: Token.ofText inside := by
  have hunits : ∀ inside, Units IsLoose ('(' :: inside) text := fun inside =>
    h.units_halts (Follows.of_head? rfl) (halts_round inside)
  -- Loose tokens end in no word, so that a word before the bracket begins in the joined text.
  refine Calc.exists_opener inside hunits fun first word heq hgap hfirst hword => ?_
  cases h with
  | loose hrun => exact absurd hword fun hword => hrun.not_isWord heq hgap hfirst hword
  | between hjoined _ hrun =>
      rcases hjoined.head_of_isWord heq hgap hfirst hword with
        hhead | ⟨between, hmore, hends, hunits⟩
      · exact hhead
      · exact absurd hword fun hword => hrun.not_isWord hmore (Or.inr hends) hunits hword
  | joined hjoined =>
      rcases hjoined.head_of_isWord ((List.append_nil text).trans heq) hgap hfirst hword with
        hhead | ⟨between, hnil, hends, -⟩
      · exact hhead
      · exact absurd (List.append_eq_nil_iff.1 hnil.symm).1 hends.ne_nil

/-- A token that begins a block behind what is pending begins one again. Only where a product stands
just before it, or where it is no function, another token begins the block, and then no product. -/
structure Opens (after : Bool) (opener opener' : Token) : Prop where
  bracket : opener'.kind.opens? = opener.kind.opens?
  cases : (opener' = opener ∧ (after = true → opener.kind ≠ .function functionName)) ∨
    (opener'.kind ≠ .function functionName ∧
      (after = true ∨ opener.kind ≠ .function functionName))

theorem Pending.opener {after : Bool} {text behind : Text} {opener : Token}
    (h : Pending after text (opener.source ++ behind)) (hopens : opener.kind.opens?.isSome = true)
    (hread : Token.ofText (opener.source ++ behind) = opener :: Token.ofText behind) :
    ∃ front opener', (∀ token ∈ front, token.kind.isFirm = false) ∧ Opens after opener opener' ∧
      ∀ behind', KeepsEnd behind behind' →
        (Token.urlExtent behind = none → Token.urlExtent behind' = none) →
        Token.ofText (text ++ (opener.source ++ behind')) =
          front ++ opener' :: Token.ofText behind' := by
  have hfirm : opener.kind.isFirm = true := by
    cases hkind : opener.kind <;> rw [hkind] at hopens <;> first | rfl | cases hopens
  cases hkind : opener.kind with
  | function name =>
      cases after with
      | false =>
          obtain ⟨hloose, hall⟩ := h.ofText_firm hfirm hread (by simp) (by simp [hkind])
          exact ⟨_, opener, hloose, ⟨rfl, Or.inl ⟨rfl, by simp⟩⟩, hall⟩
      | true =>
          -- The name of the function joins the product.
          cases h with
          | joined hjoined =>
              obtain ⟨name, hsource, hname, -, -⟩ := Token.exists_isWord_of_function hread hkind
              obtain ⟨front, opener', hloose, hround, hne, hall⟩ :=
                hjoined.exists_opener_of_isWord hname
              refine ⟨front, opener', hloose,
                ⟨by rw [hround, hkind]; rfl, Or.inr ⟨hne, Or.inl rfl⟩⟩, fun behind' _ _ => ?_⟩
              rw [← hall, hsource]
              simp
  | opening bracket =>
      obtain ⟨c, hsource, hfence, hfirst⟩ := Token.source_of_bracket hread (Or.inl hkind)
      have hstarts : startsName opener.source = false := by
        rw [hsource]
        rcases Token.isFence_iff.1 hfence with rfl | rfl | rfl | rfl | rfl | rfl | rfl | rfl <;> rfl
      by_cases hround : bracket = .round
      · subst hround
        obtain rfl : c = '(' := by
          have hnil := hfirst []
          rw [hkind] at hnil
          rcases Token.isFence_iff.1 hfence with rfl | rfl | rfl | rfl | rfl | rfl | rfl | rfl <;>
            first | rfl | cases hnil
        rw [hsource] at h
        obtain ⟨front, opener', hloose, hround, hne, hall⟩ := h.exists_opener
        refine ⟨front, opener', hloose, ⟨by rw [hround, hkind]; rfl,
          Or.inr ⟨hne, Or.inr (by simp [hkind])⟩⟩, fun behind' _ _ => ?_⟩
        rw [← hall, hsource]
        rfl
      · obtain ⟨hloose, hall⟩ := h.ofText_firm hfirm hread (fun _ => hstarts)
          (by simpa [hkind] using hround)
        exact ⟨_, opener, hloose, ⟨rfl, Or.inl ⟨rfl, by simp [hkind]⟩⟩, hall⟩
  | _ => rw [hkind] at hopens; cases hopens

end UtilityCss.Calc
