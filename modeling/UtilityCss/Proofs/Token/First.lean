import UtilityCss.Token
import Mathlib.Tactic.Common

/-!
# What the first token of a text can be

* `Token.First` lists the ways in which the first token of a text is read, each with what it
  supposes of the text, and `Token.Mark` those of tokens of fixed form.
* `Token.first_spec` and `Token.firstMark_spec` say that there are no others.

Where a name begins there is a name: it takes at least one character, and no identifier has the
empty name (`Token.ident_ne_nil`).
-/

set_option autoImplicit false

namespace UtilityCss.Token

/-- The readings of the first token of `c :: rest`, with what they suppose. -/
inductive First (c : Char) (rest : Text) : Kind × Nat → Prop
  | space : isSpace c = true → First c rest (.space, spaceExtent (c :: rest))
  | string : c = '"' ∨ c = '\'' → First c rest (.string, 1 + stringExtent c rest)
  | numeric : startsNumeral (c :: rest) = true → First c rest (firstNumeric (c :: rest))
  | documentClose : "-->".toList <+: c :: rest → First c rest (.documentClose, 3)
  | named : startsName (c :: rest) = true → First c rest (firstNamed (c :: rest))
  | documentOpen : "<!--".toList <+: c :: rest → First c rest (.documentOpen, 4)
  | comment : "/*".toList <+: c :: rest →
      First c rest (.comment, 2 + commentExtent ((c :: rest).drop 2))
  | hash : c = '#' → First c rest (firstHash rest)
  | atKeyword : c = '@' → First c rest (firstAt rest)
  | mark : startsNumeral (c :: rest) = false → startsName (c :: rest) = false →
      First c rest (firstMark c rest)

theorem first_spec (c : Char) (rest : Text) : First c rest (first c rest) := by
  simp only [first]
  -- The cases come in the order in which `first` tries them.
  by_cases hspace : isSpace c = true
  · rw [if_pos hspace]
    exact .space hspace
  rw [if_neg hspace]
  by_cases hquote : c = '"' ∨ c = '\''
  · rw [if_pos hquote]
    exact .string hquote
  rw [if_neg hquote]
  by_cases hnumeral : startsNumeral (c :: rest) = true
  · rw [if_pos hnumeral]
    exact .numeric hnumeral
  rw [if_neg hnumeral]
  by_cases hclose : "-->".toList.isPrefixOf (c :: rest) = true
  · rw [if_pos hclose]
    exact .documentClose (List.isPrefixOf_iff_prefix.1 hclose)
  rw [if_neg hclose]
  by_cases hname : startsName (c :: rest) = true
  · rw [if_pos hname]
    exact .named hname
  rw [if_neg hname]
  by_cases hopen : "<!--".toList.isPrefixOf (c :: rest) = true
  · rw [if_pos hopen]
    exact .documentOpen (List.isPrefixOf_iff_prefix.1 hopen)
  rw [if_neg hopen]
  by_cases hcomment : "/*".toList.isPrefixOf (c :: rest) = true
  · rw [if_pos hcomment]
    exact .comment (List.isPrefixOf_iff_prefix.1 hcomment)
  rw [if_neg hcomment]
  by_cases hhash : c = '#'
  · rw [if_pos hhash]
    exact .hash hhash
  rw [if_neg hhash]
  by_cases hat : c = '@'
  · rw [if_pos hat]
    exact .atKeyword hat
  · rw [if_neg hat]
    exact .mark (by simpa using hnumeral) (by simpa using hname)

/-- The tokens of fixed form: the marks of one character, and the operators of two. -/
inductive Mark (c : Char) (rest : Text) : Kind × Nat → Prop
  | colon : c = ':' → Mark c rest (.colon, 1)
  | semicolon : c = ';' → Mark c rest (.semicolon, 1)
  | comma : c = ',' → Mark c rest (.comma, 1)
  | opening {bracket : Bracket} : c = '(' ∨ c = '[' ∨ c = '{' →
      Mark c rest (.opening bracket, 1)
  | closing {bracket : Bracket} : c = ')' ∨ c = ']' ∨ c = '}' →
      Mark c rest (.closing bracket, 1)
  | comparison : rest.head? = some '=' → Mark c rest (.comparison, 2)
  | delimiter : Mark c rest (.delimiter c, 1)

theorem firstMark_spec (c : Char) (rest : Text) : Mark c rest (firstMark c rest) := by
  rw [firstMark]
  refine iteInduction .colon fun _ => ?_
  refine iteInduction .semicolon fun _ => ?_
  refine iteInduction .comma fun _ => ?_
  refine iteInduction (fun hc => .opening (Or.inl hc)) fun _ => ?_
  refine iteInduction (fun hc => .opening (Or.inr (Or.inl hc))) fun _ => ?_
  refine iteInduction (fun hc => .opening (Or.inr (Or.inr hc))) fun _ => ?_
  refine iteInduction (fun hc => .closing (Or.inl hc)) fun _ => ?_
  refine iteInduction (fun hc => .closing (Or.inr (Or.inl hc))) fun _ => ?_
  refine iteInduction (fun hc => .closing (Or.inr (Or.inr hc))) fun _ => ?_
  refine iteInduction (fun hequals => ?_) fun _ => .delimiter
  rw [Bool.and_eq_true, decide_eq_true_eq] at hequals
  exact .comparison hequals.2

/-! ## Identifiers and functions -/

/-- Whether the token is an identifier or a function. -/
def Kind.isName : Kind → Bool
  | .ident _ => true
  | .function _ => true
  | _ => false

theorem isName_firstNumeric (text : Text) : (firstNumeric text).1.isName = false := by
  rw [firstNumeric]
  split
  · rfl
  · split <;> rfl

theorem isName_firstHash (rest : Text) : (firstHash rest).1.isName = false := by
  rw [firstHash]
  split <;> rfl

theorem isName_firstAt (rest : Text) : (firstAt rest).1.isName = false := by
  rw [firstAt]
  split <;> rfl

theorem isName_firstMark (c : Char) (rest : Text) : (firstMark c rest).1.isName = false := by
  have hmark := firstMark_spec c rest
  generalize firstMark c rest = token at hmark ⊢
  cases hmark <;> rfl

/-- Identifiers and functions come from the reading of a name. -/
theorem first_eq_firstNamed_of_isName {c : Char} {rest : Text}
    (h : (first c rest).1.isName = true) :
    startsName (c :: rest) = true ∧ first c rest = firstNamed (c :: rest) := by
  have hfirst := first_spec c rest
  generalize first c rest = token at h hfirst ⊢
  cases hfirst with
  | named hname => exact ⟨hname, rfl⟩
  | numeric =>
      rw [isName_firstNumeric] at h
      cases h
  | hash =>
      rw [isName_firstHash] at h
      cases h
  | atKeyword =>
      rw [isName_firstAt] at h
      cases h
  | mark =>
      rw [isName_firstMark] at h
      cases h
  | space => cases h
  | string => cases h
  | documentClose => cases h
  | documentOpen => cases h
  | comment => cases h

/-! ## Names -/

theorem startsName_backslash (rest : Text) :
    startsName ('\\' :: rest) = !startsNewline rest := by
  cases rest <;> rfl

theorem startsName_of_ne {c : Char} (hslash : c ≠ '\\') (hhyphen : c ≠ '-') (rest : Text) :
    startsName (c :: rest) = isNameStart c := by
  cases rest <;> simp [startsName, hslash, hhyphen]

theorem nameExtent_pos {text : Text} (h : startsName text = true) : 0 < nameExtent text := by
  cases text with
  | nil => simp [startsName] at h
  | cons c rest =>
      rw [nameExtent]
      by_cases hslash : c = '\\'
      · subst hslash
        rw [startsName_backslash, Bool.not_eq_true'] at h
        rw [if_pos rfl, if_neg (by simp [h])]
        omega
      · rw [if_neg hslash]
        have hchar : isNameChar c = true := by
          by_cases hhyphen : c = '-'
          · rw [hhyphen]
            decide
          · rw [startsName_of_ne hslash hhyphen] at h
            simp [isNameChar, h]
        rw [if_pos hchar]
        omega

theorem nameOf_ne_nil {text : Text} (h : startsName text = true) : nameOf text ≠ [] := by
  have hpos := nameExtent_pos h
  cases text with
  | nil => simp [startsName] at h
  | cons c rest =>
      obtain ⟨extent, hextent⟩ : ∃ extent, nameExtent (c :: rest) = extent + 1 :=
        ⟨nameExtent (c :: rest) - 1, by omega⟩
      rw [nameOf, hextent, List.take_succ_cons, nameValue]
      split <;> simp

theorem ident_of_firstNamed {text name : Text} (h : (firstNamed text).1 = .ident name) :
    name = nameOf text := by
  rw [firstNamed] at h
  cases hdrop : text.drop (nameExtent text) with
  | nil =>
      rw [hdrop] at h
      cases h
      rfl
  | cons c inside =>
      rw [hdrop] at h
      dsimp only at h
      split at h
      · cases h
        rfl
      · split at h
        · cases hurl : urlExtent inside with
          | none =>
              rw [hurl] at h
              cases h
          | some length =>
              rw [hurl] at h
              cases h
        · cases h

/-- An identifier has the name in front of the text. -/
theorem first_eq_ident {c : Char} {rest name : Text} (h : (first c rest).1 = .ident name) :
    startsName (c :: rest) = true ∧ name = nameOf (c :: rest) := by
  obtain ⟨hname, hnamed⟩ := first_eq_firstNamed_of_isName (by rw [h]; rfl)
  rw [hnamed] at h
  exact ⟨hname, ident_of_firstNamed h⟩

/-- No identifier has the empty name. -/
theorem ident_ne_nil {text name : Text} {token : Token} (h : token ∈ ofText text)
    (hkind : token.kind = .ident name) : name ≠ [] := by
  fun_induction ofText text with
  | case1 => simp at h
  | case2 c rest read ih =>
      rw [List.mem_cons] at h
      rcases h with rfl | hrest
      · obtain ⟨hstart, rfl⟩ := first_eq_ident hkind
        exact nameOf_ne_nil hstart
      · exact ih hrest

end UtilityCss.Token
