import UtilityCss.Proofs.Arithmetic.Product
import UtilityCss.Proofs.Token.Numeral

/-!
# What decides the reading of a quantity

A number or a dimension is found behind white space and comments, but its value is taken from all
the text since the place of the cursor. So the reading depends on the token alone only if the way to
it is clear: a comment on the way, or the rest of a block that was begun, is taken for a part of the
number (`quantities_exact`).

* `Cursor.IsPlace` holds of the places in a text, on any level of its blocks.
* `Cursor.Meets` says which token stands next, and what is skipped on the way to it.
* `Cursor.IsClear` says that there is only white space on the way.
-/

set_option autoImplicit false

namespace UtilityCss

open Component (IsLevel Formed sources)

theorem Component.mem_sources {components : List Component} {c : Char} :
    c ∈ sources components ↔ ∃ component ∈ components, c ∈ component.source := by
  induction components with
  | nil => simp
  | cons component rest ih => simp [ih]

namespace Cursor

variable {text : Text} {level skipped : List Component} {cursor : Cursor} {token : Token}

/-! ## Places -/

/-- A place before, between or behind the components on one level of a text. The component before
it may have been begun only. -/
def IsPlace (text : Text) (cursor : Cursor) : Prop :=
  ∃ before after, IsLevel text (before ++ cursor.ahead ++ after) ∧
    ∀ component ∈ cursor.begun, before.getLast? = some component

theorem isPlace_start (h : IsLevel text level) : (start level).IsPlace text :=
  ⟨[], [], by simpa [start] using h, by simp [start]⟩

/-- A reading ends at a place on the same level. -/
theorem IsPlace.next (h : cursor.IsPlace text) : cursor.next.cursor.IsPlace text := by
  obtain ⟨before, after, hlevel, -⟩ := h
  -- What is read joins what stands before the place, so that the level stays the same.
  cases hdrop : cursor.ahead.dropWhile Component.isSkipped with
  | nil =>
      refine ⟨before ++ cursor.ahead, after, ?_, ?_⟩
      · simpa [Cursor.next, hdrop] using hlevel
      · simp [Cursor.next, hdrop]
  | cons component rest =>
      have hsplit := List.takeWhile_append_dropWhile (p := Component.isSkipped) (l := cursor.ahead)
      rw [hdrop] at hsplit
      rw [← hsplit] at hlevel
      refine ⟨before ++ cursor.ahead.takeWhile Component.isSkipped ++ [component], after, ?_, ?_⟩
      · simpa [Cursor.next, hdrop] using hlevel
      · simp [Cursor.next, hdrop]

theorem IsPlace.firstToken_mem (h : cursor.IsPlace text) (component : Component)
    (hmem : component ∈ cursor.ahead) : component.firstToken ∈ Token.ofText text := by
  obtain ⟨before, after, hlevel, -⟩ := h
  have hlisted : component ∈ before ++ cursor.ahead ++ after := by simp [hmem]
  exact hlevel.tokensOf_subset
    (Component.tokens_subset_of_mem hlisted component.firstToken_mem_tokens)

/-- A block that was begun is closed if anything stands behind it. -/
theorem IsPlace.exists_fence (h : cursor.IsPlace text) (hahead : cursor.ahead ≠ [])
    (hleft : cursor.leftOver ≠ []) : ∃ c ∈ cursor.leftOver, Token.isFence c = true := by
  obtain ⟨before, after, hlevel, hbegun⟩ := h
  rw [leftOver] at hleft ⊢
  cases hcomponent : cursor.begun with
  | none => simp [hcomponent] at hleft
  | some component =>
      obtain ⟨front, rfl⟩ := List.getLast?_eq_some_iff.1 (hbegun component hcomponent)
      rw [hcomponent] at hleft
      cases component with
      | single token => exact absurd rfl hleft
      | block opener content closer =>
          obtain ⟨bracket, ended, hformed⟩ := hlevel.exists_formed
          have hlisted : front ++ [.block opener content closer] ++ cursor.ahead ++ after =
              front ++ .block opener content closer :: (cursor.ahead ++ after) := by simp
          rw [hlisted] at hlevel hformed
          have hblock := hformed.of_append
          -- A block without its closer is the last one on its level.
          generalize hmore : cursor.ahead ++ after = more at hblock
          cases hblock with
          | @closed _ _ _ closer inner _ _ _ hcloser _ _ =>
              have hmem : closer ∈ Token.ofText text := hlevel.tokensOf_subset (by simp)
              obtain ⟨c, hsource, hfence⟩ := Token.exists_fence_of_bracket hmem (Or.inr hcloser)
              exact ⟨c, by simp [Component.inside, Component.closerSource, hsource], hfence⟩
          | unclosed => exact absurd (List.append_eq_nil_iff.1 hmore).1 hahead

/-! ## The next token -/

/-- The token stands next behind what is skipped. -/
def Meets (cursor : Cursor) (skipped : List Component) (token : Token) : Prop :=
  (∀ component ∈ skipped, component.isSkipped = true) ∧
    ∃ component rest, cursor.ahead = skipped ++ component :: rest ∧
      component.isSkipped = false ∧ component.firstToken = token

/-- What is read is the token that stands next, with all the text up to its end. -/
theorem Meets.next (h : cursor.Meets skipped token) :
    cursor.next.token = some token ∧
      cursor.next.text = cursor.leftOver ++ sources skipped ++ token.source := by
  obtain ⟨hskipped, component, rest, hahead, hstays, rfl⟩ := h
  have hnot : ¬ component.isSkipped = true := by simp [hstays]
  have htake : cursor.ahead.takeWhile Component.isSkipped = skipped := by
    rw [hahead, List.takeWhile_append_of_pos hskipped, List.takeWhile_cons_of_neg hnot,
      List.append_nil]
  have hdrop : cursor.ahead.dropWhile Component.isSkipped = component :: rest := by
    rw [hahead, List.dropWhile_append_of_pos hskipped, List.dropWhile_cons_of_neg hnot]
  simp [Cursor.next, htake, hdrop]

theorem exists_meets (h : cursor.next.token = some token) :
    ∃ skipped, cursor.Meets skipped token := by
  cases hdrop : cursor.ahead.dropWhile Component.isSkipped with
  | nil => simp [Cursor.next, hdrop] at h
  | cons component rest =>
      have hhead := List.head?_dropWhile_not Component.isSkipped cursor.ahead
      rw [hdrop] at hhead
      refine ⟨cursor.ahead.takeWhile Component.isSkipped,
        fun _ hmem => List.mem_takeWhile_imp hmem, component, rest, ?_, by simpa using hhead, ?_⟩
      · rw [← hdrop, List.takeWhile_append_dropWhile]
      · simpa [Cursor.next, hdrop] using h

theorem Meets.mem_ofText (h : cursor.Meets skipped token) (hplace : cursor.IsPlace text) :
    token ∈ Token.ofText text := by
  obtain ⟨-, component, rest, hahead, -, rfl⟩ := h
  exact hplace.firstToken_mem component (by simp [hahead])

/-! ## The way to the next token -/

/-- Only white space is on the way: no rest of a block that was begun, and no comment. -/
structure IsClear (cursor : Cursor) (skipped : List Component) : Prop where
  leftOver : cursor.leftOver = []
  space : ∀ component ∈ skipped, component.firstToken.kind = .space

namespace Meets

theorem isBlank_of_isClear (h : cursor.Meets skipped token) (hplace : cursor.IsPlace text)
    (hclear : cursor.IsClear skipped) :
    ∀ c ∈ cursor.leftOver ++ sources skipped, isBlank c = true := by
  obtain ⟨hskipped, component, rest, hahead, -, -⟩ := h
  rw [hclear.leftOver, List.nil_append]
  intro c hc
  obtain ⟨other, hmem, hsource⟩ := Component.mem_sources.1 hc
  obtain ⟨space, rfl⟩ := Component.isSingle_of_isSkipped (hskipped other hmem)
  rw [Component.source_single] at hsource
  have hread : space ∈ Token.ofText text :=
    hplace.firstToken_mem (.single space) (by simp [hahead, hmem])
  exact isBlank_of_isSpace (Token.isSpace_of_space hread (hclear.space _ hmem) c hsource)

/-- A comment begins with a slash, and a block ends in a bracket. -/
theorem exists_mark_of_not_isClear (h : cursor.Meets skipped token) (hplace : cursor.IsPlace text)
    (hclear : ¬ cursor.IsClear skipped) :
    ∃ c ∈ cursor.leftOver ++ sources skipped, c = '/' ∨ Token.isFence c = true := by
  obtain ⟨hskipped, component, rest, hahead, -, -⟩ := h
  by_cases hleft : cursor.leftOver = []
  · -- Not all that is skipped is white space.
    have hspace : ¬ ∀ other ∈ skipped, other.firstToken.kind = .space :=
      fun hspace => hclear ⟨hleft, hspace⟩
    simp only [not_forall] at hspace
    obtain ⟨other, hmem, hkind⟩ := hspace
    have hskip := hskipped other hmem
    obtain ⟨comment, rfl⟩ := Component.isSingle_of_isSkipped hskip
    have hread : comment ∈ Token.ofText text :=
      hplace.firstToken_mem (.single comment) (by simp [hahead, hmem])
    obtain ⟨kind, source⟩ := comment
    have hcomment : kind = .comment := by
      cases kind <;> first | rfl | exact absurd rfl hkind | cases hskip
    subst hcomment
    obtain ⟨inside, rfl⟩ := Token.exists_source_of_comment hread
    refine ⟨'/', List.mem_append_right _ (Component.mem_sources.2 ⟨_, hmem, ?_⟩), Or.inl rfl⟩
    rw [Component.source_single]
    exact List.mem_cons_self
  · obtain ⟨c, hmem, hfence⟩ := hplace.exists_fence (by simp [hahead]) hleft
    exact ⟨c, List.mem_append_left _ hmem, Or.inr hfence⟩

end Meets

/-! ## Readings -/

namespace Meets

/-- The number is read from all the text on the way. -/
theorem number_eq (h : cursor.Meets skipped token) (hkind : token.kind = .number) :
    cursor.number.1 =
      (Decimal.parse? (Text.trim (cursor.leftOver ++ sources skipped ++ token.source))).elim
        (.error .unsupportedNumber) .ok := by
  obtain ⟨htoken, htext⟩ := h.next
  have hkind' : cursor.next.token.map Token.kind = some .number := by
    rw [htoken, Option.map_some, hkind]
  rw [← htext]
  simp only [number, Reading.number, hkind']
  cases Decimal.parse? (Text.trim cursor.next.text) with
  | none => rfl
  | some value => rfl

/-- So is the number of a dimension, in front of the unit. -/
theorem dimension_eq (h : cursor.Meets skipped token) {unit : Text}
    (hkind : token.kind = .dimension unit) (hunit : Dimension.isUnit unit = true) :
    cursor.dimension.1 =
      ((Text.before? unit
        (Text.trim (cursor.leftOver ++ sources skipped ++ token.source))).bind Decimal.parse?).elim
        (.error .unsupportedNumber) (fun value => .ok ⟨value, unit⟩) := by
  obtain ⟨htoken, htext⟩ := h.next
  have hkind' : cursor.next.token.map Token.kind = some (.dimension unit) := by
    rw [htoken, Option.map_some, hkind]
  rw [← htext]
  simp only [dimension, Reading.dimension, hkind', hunit, if_true]
  cases (Text.before? unit (Text.trim cursor.next.text)).bind Decimal.parse? with
  | none => rfl
  | some value => rfl

/-- On a clear way, the text that is read is trimmed to that of the token. -/
theorem trim_of_isClear (h : cursor.Meets skipped token) (hplace : cursor.IsPlace text)
    (hclear : cursor.IsClear skipped) :
    Text.trim (cursor.leftOver ++ sources skipped ++ token.source) = Text.trim token.source :=
  Text.trim_append_of_blank (h.isBlank_of_isClear hplace hclear)

end Meets

theorem isBlank_of_isUnitChar {c : Char} (h : Dimension.isUnitChar c = true) :
    isBlank c = false := by
  have hrange : 97 ≤ c.toNat ∧ c.toNat ≤ 122 := by
    simp only [Dimension.isUnitChar, Bool.and_eq_true, decide_eq_true_eq, Char.le_def,
      UInt32.le_iff_toNat_le] at h
    exact h
  exact isBlank_of_bounds (by omega) (by omega)

/-- What stands on a way that is not clear belongs to no number and to no unit. -/
theorem isForeign_of_mark {c : Char} (h : c = '/' ∨ Token.isFence c = true) :
    Decimal.IsForeign c ∧ Dimension.isUnitChar c = false := by
  rcases h with rfl | hfence
  · exact ⟨⟨by decide, by decide, by decide⟩, by decide⟩
  · rcases Token.isFence_iff.1 hfence with rfl | rfl | rfl | rfl | rfl | rfl | rfl | rfl <;>
      exact ⟨⟨by decide, by decide, by decide⟩, by decide⟩

theorem number_of_isClear (h : cursor.Meets skipped token) (hplace : cursor.IsPlace text)
    (hkind : token.kind = .number) {value : Binary64}
    (hvalue : Decimal.parse? token.source = some value) (hclear : cursor.IsClear skipped) :
    cursor.number.1 = .ok value := by
  rw [h.number_eq hkind, h.trim_of_isClear hplace hclear,
    Decimal.trim_of_isPlain (Decimal.isPlain_of_parse? hvalue), hvalue, Option.elim_some]

theorem number_of_not_isClear (h : cursor.Meets skipped token) (hplace : cursor.IsPlace text)
    (hkind : token.kind = .number) (hclear : ¬ cursor.IsClear skipped) :
    cursor.number.1 = .error .unsupportedNumber := by
  obtain ⟨c, hmem, hmark⟩ := h.exists_mark_of_not_isClear hplace hclear
  rw [h.number_eq hkind, Decimal.parse?_trim_eq_none (isForeign_of_mark hmark).1
    (List.mem_append_left _ hmem), Option.elim_none]

theorem dimension_of_isClear (h : cursor.Meets skipped token) (hplace : cursor.IsPlace text)
    {unit digits : Text} (hkind : token.kind = .dimension unit)
    (hsource : token.source = digits ++ unit) (hunit : Dimension.isUnit unit = true)
    {value : Binary64} (hvalue : Decimal.parse? digits = some value)
    (hclear : cursor.IsClear skipped) : cursor.dimension.1 = .ok ⟨value, unit⟩ := by
  have htrim : Text.trim token.source = digits ++ unit := by
    rw [hsource]
    refine Text.trim_of_not_blank fun c hc => ?_
    rcases List.mem_append.1 hc with hdigit | hletter
    · exact Decimal.not_blank_of_isPlain (Decimal.isPlain_of_parse? hvalue) c hdigit
    · exact isBlank_of_isUnitChar (Calc.isUnitChar_of_isUnit hunit c hletter)
  have hdigits : Text.before? unit (digits ++ unit) = some digits := Text.before?_eq_some_iff.2 rfl
  rw [h.dimension_eq hkind hunit, h.trim_of_isClear hplace hclear, htrim, hdigits,
    Option.bind_some, hvalue, Option.elim_some]

theorem dimension_of_not_isClear (h : cursor.Meets skipped token) (hplace : cursor.IsPlace text)
    {unit : Text} (hkind : token.kind = .dimension unit) (hunit : Dimension.isUnit unit = true)
    (hclear : ¬ cursor.IsClear skipped) : cursor.dimension.1 = .error .unsupportedNumber := by
  obtain ⟨c, hmem, hmark⟩ := h.exists_mark_of_not_isClear hplace hclear
  obtain ⟨hforeign, hletter⟩ := isForeign_of_mark hmark
  have hnone : (Text.before? unit
      (Text.trim (cursor.leftOver ++ sources skipped ++ token.source))).bind Decimal.parse? =
        none := by
    rw [Option.bind_eq_none_iff]
    intro digits hdigits
    rw [Text.before?_eq_some_iff] at hdigits
    have htrimmed : c ∈ digits ++ unit := by
      rw [← hdigits]
      exact Text.mem_trim hforeign.notBlank (List.mem_append_left _ hmem)
    -- The unit does not hold the mark, so the digits do.
    refine Decimal.parse?_eq_none_of_mem hforeign ((List.mem_append.1 htrimmed).resolve_right ?_)
    intro hin
    rw [Calc.isUnitChar_of_isUnit hunit c hin] at hletter
    cases hletter
  rw [h.dimension_eq hkind hunit, hnone, Option.elim_none]

/-- A number is unsupported exactly if it has a sign or an exponent, or the way to it is not
clear. -/
theorem number_eq_unsupportedNumber_iff (hplace : cursor.IsPlace text) :
    cursor.number.1 = .error .unsupportedNumber ↔
      ∃ skipped token, cursor.Meets skipped token ∧ token.kind = .number ∧
        (Token.IsSigned token.source ∨ Token.HasExponent token.source ∨
          ¬ cursor.IsClear skipped) := by
  constructor
  · intro h
    -- Without a number the error is another one.
    have hkind : ∃ token, cursor.next.token = some token ∧ token.kind = .number := by
      rw [number, Reading.number] at h
      split at h
      · rename_i hnumber
        exact Option.map_eq_some_iff.1 hnumber
      · cases h
    obtain ⟨token, htoken, hkind⟩ := hkind
    obtain ⟨skipped, hmeets⟩ := exists_meets htoken
    refine ⟨skipped, token, hmeets, hkind, ?_⟩
    -- On a clear way only the token is read, so that its spelling decides.
    by_cases hclear : cursor.IsClear skipped
    · obtain ⟨numeral, hnumeral⟩ :=
        Token.exists_numeral_of_number (hmeets.mem_ofText hplace) hkind
      rw [hmeets.number_eq hkind, hmeets.trim_of_isClear hplace hclear] at h
      have hnone : Decimal.parse? (Text.trim token.source) = none := by
        cases hparse : Decimal.parse? (Text.trim token.source) with
        | none => rfl
        | some value =>
            rw [hparse] at h
            cases h
      rw [hnumeral, numeral.parse?_trim_eq_none_iff, ← hnumeral] at hnone
      exact hnone.imp_right Or.inl
    · exact Or.inr (Or.inr hclear)
  · rintro ⟨skipped, token, hmeets, hkind, hreason⟩
    by_cases hclear : cursor.IsClear skipped
    · have hmarked : Token.IsSigned token.source ∨ Token.HasExponent token.source :=
        hreason.imp_right fun h => h.resolve_right (not_not_intro hclear)
      obtain ⟨c, hmem, hforeign⟩ := Token.exists_foreign_of_marked hmarked
      rw [hmeets.number_eq hkind, hmeets.trim_of_isClear hplace hclear,
        Decimal.parse?_trim_eq_none hforeign hmem, Option.elim_none]
    · exact number_of_not_isClear hmeets hplace hkind hclear

/-- At every place, a number that is spelled as a plain decimal is read, and so is a dimension that
is spelled as a plain decimal with small letters behind it, exactly if the way to the token is
clear. A number is unsupported only if it has a sign or an exponent, or the way to it is not
clear. -/
theorem quantities_exact (hplace : cursor.IsPlace text) :
    (∀ skipped token value, cursor.Meets skipped token → token.kind = .number →
      Decimal.parse? token.source = some value →
        (cursor.IsClear skipped → cursor.number.1 = .ok value) ∧
        (¬ cursor.IsClear skipped → cursor.number.1 = .error .unsupportedNumber)) ∧
    (∀ skipped token name digits unit value, cursor.Meets skipped token →
      token.kind = .dimension name → token.source = digits ++ unit →
      Dimension.isUnit unit = true → Decimal.parse? digits = some value →
        (cursor.IsClear skipped → cursor.dimension.1 = .ok ⟨value, unit⟩) ∧
        (¬ cursor.IsClear skipped → cursor.dimension.1 = .error .unsupportedNumber)) ∧
    (cursor.number.1 = .error .unsupportedNumber ↔
      ∃ skipped token, cursor.Meets skipped token ∧ token.kind = .number ∧
        (Token.IsSigned token.source ∨ Token.HasExponent token.source ∨
          ¬ cursor.IsClear skipped)) := by
  refine ⟨?_, ?_, number_eq_unsupportedNumber_iff hplace⟩
  · intro skipped token value hmeets hkind hvalue
    exact ⟨number_of_isClear hmeets hplace hkind hvalue,
      number_of_not_isClear hmeets hplace hkind⟩
  · intro skipped token name digits unit value hmeets hkind hsource hunit hvalue
    -- The token has the unit that it is spelled with.
    obtain rfl : name = unit :=
      Token.unit_of_dimension (hmeets.mem_ofText hplace) hkind hsource
        (Decimal.isPlain_of_parse? hvalue) (Calc.isUnitChar_of_isUnit hunit)
    exact ⟨dimension_of_isClear hmeets hplace hkind hsource hunit hvalue,
      dimension_of_not_isClear hmeets hplace hkind hunit⟩

/-- A number and a dimension, each behind white space. -/
def spacedLevel : List Component :=
  [.single ⟨.space, [' ']⟩, .single ⟨.number, "0.5".toList⟩, .single ⟨.space, [' ']⟩,
    .single ⟨.dimension "px".toList, "2px".toList⟩]

/-- Both are read, one after the other. -/
theorem quantities_spacedLevel :
    (start spacedLevel).IsPlace " 0.5 2px".toList ∧
      (start spacedLevel).number.1 = .ok ⟨0x3fe0000000000000⟩ ∧
      (start spacedLevel).number.2.dimension.1 = .ok ⟨⟨0x4000000000000000⟩, "px".toList⟩ := by
  have htokens : Token.ofText " 0.5 2px".toList = Component.tokensOf spacedLevel := by
    decide +kernel
  have hlevel : IsLevel " 0.5 2px".toList spacedLevel := .of_tokens htokens
  have hplace := isPlace_start hlevel
  obtain ⟨hnumber, -, -⟩ := quantities_exact hplace
  obtain ⟨-, hdimension, -⟩ := quantities_exact hplace.next
  have hhalf : (start spacedLevel).Meets [.single ⟨.space, [' ']⟩] ⟨.number, "0.5".toList⟩ :=
    ⟨by decide, _, _, rfl, rfl, rfl⟩
  have hlength : (start spacedLevel).next.cursor.Meets [.single ⟨.space, [' ']⟩]
      ⟨.dimension "px".toList, "2px".toList⟩ :=
    ⟨by decide, _, _, rfl, rfl, rfl⟩
  refine ⟨hplace, ?_, ?_⟩
  · exact (hnumber _ _ _ hhalf rfl (by decide +kernel)).1 ⟨rfl, by decide⟩
  · exact (hdimension _ _ _ ['2'] _ _ hlength rfl rfl (by decide) (by decide +kernel)).1
      ⟨rfl, by decide⟩

/-- A number behind a comment. -/
def commentedLevel : List Component :=
  [.single ⟨.comment, "/**/".toList⟩, .single ⟨.number, ['1']⟩]

/-- The number is a plain decimal and is not read. -/
theorem unsupported_commentedLevel :
    (start commentedLevel).IsPlace "/**/1".toList ∧
      (start commentedLevel).Meets [.single ⟨.comment, "/**/".toList⟩] ⟨.number, ['1']⟩ ∧
      Decimal.parse? ['1'] = some ⟨0x3ff0000000000000⟩ ∧
      ¬ Token.IsSigned ['1'] ∧ ¬ Token.HasExponent ['1'] ∧
      (start commentedLevel).number.1 = .error .unsupportedNumber := by
  have htokens : Token.ofText "/**/1".toList = Component.tokensOf commentedLevel := by
    decide +kernel
  have hlevel : IsLevel "/**/1".toList commentedLevel := .of_tokens htokens
  refine ⟨isPlace_start hlevel, ⟨by decide, _, _, rfl, rfl, rfl⟩, by decide +kernel, ?_, ?_, rfl⟩
  · simp [Token.IsSigned]
  · simp [Token.HasExponent]

end Cursor

end UtilityCss
