import UtilityCss.Declaration
import UtilityCss.Proofs.Text.Basic
import Mathlib.Tactic.Common

/-!
# Keys in their hyphenated form

A key without hyphens, or that of a custom property, comes back from its hyphenated name
(`camelCase_hyphenate`), and all keys are of this kind (`isCustom_camelCase_or`). A name comes back
from its key exactly if it is that of a custom property or has the form of a hyphenated name
(`hyphenate_camelCase_iff`): so the two conversions are inverse to each other wherever they can be
(`casings_inverse`). Hyphenating adds only hyphens and small letters (`mem_hyphenate`), so that a
trimmed key gives a trimmed name (`trim_hyphenate`).

* `PropertyName.IsHyphenated` is the form of hyphenated names.
-/

set_option autoImplicit false

namespace UtilityCss.PropertyName

/-! ## Capitals -/

theorem toLower_ne_hyphen {c : Char} (hc : c.isUpper = true) : c.toLower ≠ '-' :=
  forall_capital (p := fun c => c.toLower ≠ '-') (by decide) hc

theorem isBlank_toLower {c : Char} (hc : c.isUpper = true) : isBlank c.toLower = false :=
  forall_capital (p := fun c => isBlank c.toLower = false) (by decide) hc

/-! ## There and back -/

theorem isCustom_cons_of_ne {c : Char} {rest : Text} (h : c ≠ '-') :
    isCustom (c :: rest) = false := by
  simp [isCustom, List.isPrefixOf, h.symm]

theorem isCustom_hyphen_cons_of_ne {c : Char} {rest : Text} (h : c ≠ '-') :
    isCustom ('-' :: c :: rest) = false := by
  simp [isCustom, List.isPrefixOf, h.symm]

/-- A capital brings one hyphen, which does not make a custom property. -/
theorem isCustom_flatMap_hyphenateChar {key : Text} (h : '-' ∉ key) :
    isCustom (key.flatMap hyphenateChar) = false := by
  cases key with
  | nil => rfl
  | cons c rest =>
      rw [List.flatMap_cons, hyphenateChar]
      split
      · rename_i hc
        exact isCustom_hyphen_cons_of_ne (toLower_ne_hyphen hc)
      · exact isCustom_cons_of_ne fun heq => h (heq ▸ List.mem_cons_self)

theorem camelCaseFrom_flatMap_hyphenateChar {key : Text} (h : '-' ∉ key) :
    camelCaseFrom false (key.flatMap hyphenateChar) = key := by
  induction key with
  | nil => rfl
  | cons c rest ih =>
      rw [List.mem_cons, not_or] at h
      have hrest := ih h.2
      rw [List.flatMap_cons, hyphenateChar]
      split
      · -- The hyphen raises the small letter again.
        rename_i hc
        simp [camelCaseFrom, toLower_ne_hyphen hc, toUpper_toLower hc, hrest]
      · rename_i hc
        have hne : ¬ c = '-' := fun heq => h.1 heq.symm
        simp [camelCaseFrom, hne, toLower_of_not_isUpper hc, hrest]

/-- The hyphenated name of a key is that of a custom property if the key is. -/
theorem isCustom_hyphenate {key : Text} (h : isCustom key = true ∨ '-' ∉ key) :
    isCustom (hyphenate key) = isCustom key := by
  rw [hyphenate]
  split
  · rfl
  · rename_i hcustom
    rw [isCustom_flatMap_hyphenateChar (h.resolve_left hcustom), Bool.eq_false_iff.2 hcustom]

/-- A key comes back from its hyphenated name. -/
theorem camelCase_hyphenate {key : Text} (h : isCustom key = true ∨ '-' ∉ key) :
    camelCase (hyphenate key) = key := by
  by_cases hcustom : isCustom key = true
  · rw [hyphenate_of_isCustom hcustom, camelCase_of_isCustom hcustom]
  · have hhyphen := h.resolve_left hcustom
    rw [hyphenate, if_neg hcustom, camelCase,
      if_neg (Bool.eq_false_iff.1 (isCustom_flatMap_hyphenateChar hhyphen)),
      camelCaseFrom_flatMap_hyphenateChar hhyphen]

/-! ## The characters of a key -/

theorem toUpper_ne_hyphen {c : Char} (h : c ≠ '-') : c.toUpper ≠ '-' := by
  by_cases hc : c.isLower = true
  · exact forall_small (p := fun c => c.toUpper ≠ '-') (by decide) hc
  · rwa [toUpper_of_not_isLower hc]

theorem hyphen_not_mem_camelCaseFrom (raised : Bool) (name : Text) :
    '-' ∉ camelCaseFrom raised name := by
  induction name generalizing raised with
  | nil => exact List.not_mem_nil
  | cons c rest ih =>
      rw [camelCaseFrom]
      split
      · exact ih true
      · -- A letter that changes its case does not become a hyphen.
        rename_i hc
        have hlower : c.toLower ≠ '-' := by
          by_cases hupper : c.isUpper = true
          · exact toLower_ne_hyphen hupper
          · rwa [toLower_of_not_isUpper hupper]
        rw [List.mem_cons, not_or]
        refine ⟨?_, ih false⟩
        split
        · exact (toUpper_ne_hyphen hc).symm
        · exact hlower.symm

/-- A key has hyphens only if it is that of a custom property. -/
theorem isCustom_camelCase_or (name : Text) :
    isCustom (camelCase name) = true ∨ '-' ∉ camelCase name := by
  by_cases hcustom : isCustom name = true
  · apply Or.inl
    rwa [camelCase_of_isCustom hcustom]
  · apply Or.inr
    rw [camelCase, if_neg hcustom]
    exact hyphen_not_mem_camelCaseFrom false name

/-! ## Names that come back from their keys -/

/-- The form of hyphenated names: no capitals, and a small letter behind each hyphen. -/
inductive IsHyphenated : Text → Prop
  | nil : IsHyphenated []
  | plain {c : Char} {rest : Text} : c ≠ '-' → c.isUpper = false → IsHyphenated rest →
      IsHyphenated (c :: rest)
  | hyphen {c : Char} {rest : Text} : c.isLower = true → IsHyphenated rest →
      IsHyphenated ('-' :: c :: rest)

theorem isUpper_toUpper {c : Char} (h : c.isLower = true) : c.toUpper.isUpper = true :=
  forall_small (p := fun c => c.toUpper.isUpper = true) (by decide) h

theorem toLower_toUpper {c : Char} (h : c.isLower = true) : c.toUpper.toLower = c :=
  forall_small (p := fun c => c.toUpper.toLower = c) (by decide) h

theorem isUpper_of_isLower {c : Char} (h : c.isLower = true) : c.isUpper = false :=
  forall_small (p := fun c => c.isUpper = false) (by decide) h

theorem isLower_toLower {c : Char} (h : c.isUpper = true) : c.toLower.isLower = true :=
  forall_capital (p := fun c => c.toLower.isLower = true) (by decide) h

theorem ne_hyphen_of_isLower {c : Char} (h : c.isLower = true) : c ≠ '-' := by
  rintro rfl
  cases h

namespace IsHyphenated

variable {name before after : Text}

theorem isUpper_eq_false (h : IsHyphenated name) : ∀ c ∈ name, c.isUpper = false := by
  induction h with
  | nil => simp
  | plain _ hupper _ ih => exact List.forall_mem_cons.2 ⟨hupper, ih⟩
  | hyphen hlower _ ih =>
      exact List.forall_mem_cons.2
        ⟨rfl, List.forall_mem_cons.2 ⟨isUpper_of_isLower hlower, ih⟩⟩

theorem exists_letter (h : IsHyphenated name) (hname : name = before ++ '-' :: after) :
    ∃ c ∈ after.head?, c.isLower = true := by
  induction h generalizing before with
  | nil => simp at hname
  | plain hne _ _ ih =>
      rcases List.cons_eq_append_iff.1 hname with ⟨rfl, hhyphen⟩ | ⟨before', rfl, hrest⟩
      · exact absurd (List.cons.inj hhyphen).1.symm hne
      · exact ih hrest
  | @hyphen c rest hlower _ ih =>
      rcases List.cons_eq_append_iff.1 hname with ⟨rfl, hhyphen⟩ | ⟨before', rfl, hletter⟩
      · obtain ⟨-, rfl⟩ := List.cons.inj hhyphen
        exact ⟨c, rfl, hlower⟩
      · -- The letter is no hyphen, so that the one in question stands behind it.
        rcases List.cons_eq_append_iff.1 hletter with ⟨rfl, hhyphen⟩ | ⟨before'', rfl, hrest⟩
        · exact absurd (List.cons.inj hhyphen).1.symm (ne_hyphen_of_isLower hlower)
        · exact ih hrest

end IsHyphenated

theorem isHyphenated_iff (name : Text) :
    IsHyphenated name ↔ (∀ c ∈ name, c.isUpper = false) ∧
      ∀ before after, name = before ++ '-' :: after → ∃ c ∈ after.head?, c.isLower = true := by
  constructor
  · intro h
    exact ⟨h.isUpper_eq_false, fun _ _ hname => h.exists_letter hname⟩
  · rintro ⟨hupper, hletter⟩
    induction name with
    | nil => exact .nil
    | cons c rest ih =>
        rw [List.forall_mem_cons] at hupper
        -- What follows each hyphen of the rest follows a hyphen of the name.
        have hrest := ih hupper.2 fun before after hname =>
          hletter (c :: before) after (by rw [hname, List.cons_append])
        by_cases hc : c = '-'
        · subst hc
          obtain ⟨d, hd, hlower⟩ := hletter [] rest rfl
          cases hrest with
          | nil => cases hd
          | plain _ _ hafter =>
              cases hd
              exact .hyphen hlower hafter
          | hyphen =>
              cases hd
              cases hlower
        · exact .plain hc hupper.1 hrest

/-- Hyphenating a key gives the form of hyphenated names. -/
theorem isHyphenated_flatMap_hyphenateChar {key : Text} (h : '-' ∉ key) :
    IsHyphenated (key.flatMap hyphenateChar) := by
  induction key with
  | nil => exact .nil
  | cons c rest ih =>
      rw [List.mem_cons, not_or] at h
      rw [List.flatMap_cons, hyphenateChar]
      split
      · rename_i hupper
        exact .hyphen (isLower_toLower hupper) (ih h.2)
      · rename_i hupper
        exact .plain (fun heq => h.1 heq.symm) (Bool.eq_false_iff.2 hupper) (ih h.2)

/-- A capital of the key is the letter behind a hyphen. -/
theorem IsHyphenated.flatMap_hyphenateChar_camelCaseFrom {name : Text} (h : IsHyphenated name) :
    (camelCaseFrom false name).flatMap hyphenateChar = name := by
  induction h with
  | nil => rfl
  | @plain c rest hne hupper _ ih =>
      have hnot : ¬ c.isUpper = true := Bool.eq_false_iff.1 hupper
      rw [camelCaseFrom, if_neg hne, if_neg Bool.false_ne_true, toLower_of_not_isUpper hnot,
        List.flatMap_cons, ih, hyphenateChar, if_neg hnot, List.singleton_append]
  | @hyphen c rest hlower _ ih =>
      rw [camelCaseFrom, if_pos rfl, camelCaseFrom, if_neg (ne_hyphen_of_isLower hlower),
        if_pos rfl, List.flatMap_cons, ih, hyphenateChar, if_pos (isUpper_toUpper hlower),
        toLower_toUpper hlower]
      rfl

/-- A name comes back from its key if it is in hyphenated form, and otherwise only if it is that of
a custom property. -/
theorem hyphenate_camelCase_iff (name : Text) :
    hyphenate (camelCase name) = name ↔ isCustom name = true ∨ IsHyphenated name := by
  by_cases hcustom : isCustom name = true
  · simp [hcustom]
  · have hhyphen := hyphen_not_mem_camelCaseFrom false name
    -- Without a hyphen the key is no custom property, and is hyphenated letter by letter.
    have hkey : isCustom (camelCaseFrom false name) = false := by
      cases hkey : camelCaseFrom false name with
      | nil => rfl
      | cons c rest =>
          rw [hkey, List.mem_cons, not_or] at hhyphen
          exact isCustom_cons_of_ne fun heq => hhyphen.1 heq.symm
    rw [camelCase, if_neg hcustom, hyphenate, hkey, if_neg Bool.false_ne_true]
    constructor
    · intro h
      rw [← h]
      exact Or.inr (isHyphenated_flatMap_hyphenateChar hhyphen)
    · intro h
      exact (h.resolve_left hcustom).flatMap_hyphenateChar_camelCaseFrom

/-- The two names of a property determine each other wherever they can: a name comes back from its
key if it has no capitals and a small letter behind each hyphen, a key from its name if it has no
hyphens, and both do for custom properties. So the key of a name is always kept. -/
theorem casings_inverse :
    (∀ name, hyphenate (camelCase name) = name ↔
      isCustom name = true ∨ (∀ c ∈ name, c.isUpper = false) ∧
        ∀ before after, name = before ++ '-' :: after → ∃ c ∈ after.head?, c.isLower = true) ∧
    (∀ key, isCustom key = true ∨ '-' ∉ key → camelCase (hyphenate key) = key) ∧
    ∀ name, camelCase (hyphenate (camelCase name)) = camelCase name := by
  refine ⟨?_, fun key h => camelCase_hyphenate h, ?_⟩
  · intro name
    rw [hyphenate_camelCase_iff, isHyphenated_iff]
  · intro name
    exact camelCase_hyphenate (isCustom_camelCase_or name)

/-- The key of a prefixed name has no hyphens, and its name has one for each capital. -/
theorem casings_prefixed :
    '-' ∉ "WebkitBoxOrient".toList ∧
      hyphenate "WebkitBoxOrient".toList = "-webkit-box-orient".toList ∧
      camelCase "-webkit-box-orient".toList = "WebkitBoxOrient".toList := by
  have hkey : '-' ∉ "WebkitBoxOrient".toList := by decide
  have hname : hyphenate "WebkitBoxOrient".toList = "-webkit-box-orient".toList := by decide
  refine ⟨hkey, hname, ?_⟩
  rw [← hname]
  exact casings_inverse.2.1 "WebkitBoxOrient".toList (Or.inr hkey)

/-! ## The characters of a hyphenated name -/

/-- A hyphenated name has characters of the key, hyphens and small letters for capitals. -/
theorem mem_hyphenate {key : Text} {c : Char} (h : c ∈ hyphenate key) :
    c ∈ key ∨ c = '-' ∨ ∃ capital : Char, capital.isUpper = true ∧ c = capital.toLower := by
  rw [hyphenate] at h
  split at h
  · exact Or.inl h
  · obtain ⟨d, hd, hc⟩ := List.mem_flatMap.1 h
    rw [hyphenateChar] at hc
    split at hc
    · rename_i hupper
      rcases List.mem_cons.1 hc with hhyphen | hletter
      · exact Or.inr (Or.inl hhyphen)
      · exact Or.inr (Or.inr ⟨d, hupper, List.mem_singleton.1 hletter⟩)
    · rw [List.mem_singleton.1 hc]
      exact Or.inl hd

theorem head?_hyphenateChar_append {c : Char} (hc : isBlank c = false) (rest : Text) :
    ∀ d ∈ (hyphenateChar c ++ rest).head?, isBlank d = false := by
  intro d hd
  rw [hyphenateChar] at hd
  split at hd
  · obtain rfl : '-' = d := by simpa using hd
    decide
  · obtain rfl : c = d := by simpa using hd
    exact hc

theorem getLast?_append_hyphenateChar {c : Char} (hc : isBlank c = false) (front : Text) :
    ∀ d ∈ (front ++ hyphenateChar c).getLast?, isBlank d = false := by
  intro d hd
  rw [hyphenateChar] at hd
  split at hd
  · rename_i hupper
    obtain rfl : c.toLower = d := by simpa [List.getLast?_append] using hd
    exact isBlank_toLower hupper
  · obtain rfl : c = d := by simpa [List.getLast?_append] using hd
    exact hc

/-- A trimmed key has a trimmed hyphenated name. -/
theorem trim_hyphenate {key : Text} (h : Text.trim key = key) :
    Text.trim (hyphenate key) = hyphenate key := by
  obtain ⟨hhead, hlast⟩ := Text.trim_eq_self_iff.1 h
  rw [hyphenate]
  split
  · exact h
  · rw [Text.trim_eq_self_iff]
    -- Each end of the name is a hyphen or the letter that stood at that end of the key.
    constructor
    · intro d hd
      cases key with
      | nil => cases hd
      | cons c rest =>
          rw [List.flatMap_cons] at hd
          exact head?_hyphenateChar_append (hhead c rfl) _ d hd
    · intro d hd
      rcases List.eq_nil_or_concat key with rfl | ⟨front, c, rfl⟩
      · cases hd
      · rw [List.concat_eq_append] at hlast hd
        rw [List.flatMap_append, List.flatMap_singleton] at hd
        exact getLast?_append_hyphenateChar (hlast c List.getLast?_concat) _ d hd

end UtilityCss.PropertyName
