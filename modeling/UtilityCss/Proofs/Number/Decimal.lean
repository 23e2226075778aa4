import UtilityCss.Proofs.Number.Layout
import UtilityCss.Proofs.Text.Basic
import UtilityCss.Proofs.Number.Rounding
import Mathlib.Tactic.NormNum
import Mathlib.Tactic.Positivity

/-!
# What plain decimals denote

A plain decimal is a run of digits, or any digits with a point and a run of digits behind them
(`Decimal.isPlain_iff`). So it holds digits and points only (`Decimal.isDigit_or_of_isPlain`), and
what holds a foreign character is none (`Decimal.parse?_eq_none_of_mem`).

It denotes a rational by the places of its digits, and reading it gives the number nearest to that
rational (`Decimal.decimals_exact`). So zeros in front, zeros at the end of a fraction and an absent
whole part make no difference: plain decimals that denote the same rational are read as the same
number.

* `Decimal.Denotes` relates the plain decimals to the rationals that they denote.
* `Decimal.wholeValue` and `Decimal.fractionValue` are the values of digits before and behind a
  point.
-/

set_option autoImplicit false

namespace UtilityCss.Decimal

/-! ## The form of plain decimals -/

variable {text : Text}

theorem ne_point_of_isDigit {c : Char} (h : isDigit c = true) : (c != '.') = true := by
  rw [bne_iff_ne]
  rintro rfl
  cases h

theorem fraction?_eq_none_iff : fraction? text = none ↔ '.' ∉ text := by
  rw [fraction?]
  split
  · rename_i hnil
    rw [List.dropWhile_eq_nil_iff] at hnil
    refine iff_of_true rfl fun hmem => ?_
    exact absurd (hnil '.' hmem) (by decide)
  · rename_i c rest hcons
    refine iff_of_false (by simp) fun hmem => ?_
    have hall : ∀ d ∈ text, (d != '.') = true := by
      intro d hd
      rw [bne_iff_ne]
      rintro rfl
      exact hmem hd
    rw [List.dropWhile_eq_nil_iff.2 hall] at hcons
    cases hcons

theorem fraction?_append_point {before : Text} (h : ∀ c ∈ before, isDigit c = true)
    (after : Text) :
    whole (before ++ '.' :: after) = before ∧
      fraction? (before ++ '.' :: after) = some after := by
  have hbefore : ∀ c ∈ before, (c != '.') = true := fun c hc => ne_point_of_isDigit (h c hc)
  rw [whole, fraction?, List.takeWhile_append_of_pos hbefore, List.dropWhile_append_of_pos hbefore]
  simp

/-- What is split at its first point. -/
theorem eq_of_fraction? {after : Text} (h : fraction? text = some after) :
    text = whole text ++ '.' :: after := by
  have hsplit := (List.takeWhile_append_dropWhile (p := (· != '.')) (l := text)).symm
  rw [fraction?] at h
  split at h
  · cases h
  · rename_i c rest hcons
    have hpoint : (c != '.') = false := by
      have hhead := List.head?_dropWhile_not (· != '.') text
      rw [hcons] at hhead
      simpa using hhead
    obtain rfl : c = '.' := by simpa using hpoint
    cases h
    rwa [hcons] at hsplit

/-- A plain decimal is a run of digits, or digits with a point and a run of digits behind them. -/
theorem isPlain_iff :
    isPlain text = true ↔ IsDigits text ∨
      ∃ before after, (∀ c ∈ before, isDigit c = true) ∧ IsDigits after ∧
        text = before ++ '.' :: after := by
  constructor
  · intro h
    rw [isPlain] at h
    split at h
    · rw [Bool.and_eq_true, List.all_eq_true] at h
      exact Or.inl ⟨by simpa using h.1, h.2⟩
    · rename_i after hafter
      rw [Bool.and_eq_true, Bool.and_eq_true, List.all_eq_true, List.all_eq_true] at h
      exact Or.inr ⟨whole text, after, h.1.1, ⟨by simpa using h.1.2, h.2⟩, eq_of_fraction? hafter⟩
  · rintro (hdigits | ⟨before, after, hbefore, hafter, rfl⟩)
    · have hnone : fraction? text = none := by
        rw [fraction?_eq_none_iff]
        intro hmem
        exact absurd (hdigits.digit '.' hmem) (by decide)
      rw [isPlain, hnone, Bool.and_eq_true, List.all_eq_true]
      exact ⟨by simpa using hdigits.ne_nil, hdigits.digit⟩
    · obtain ⟨hwhole, hfraction⟩ := fraction?_append_point hbefore after
      rw [isPlain, hfraction]
      simp only [hwhole, Bool.and_eq_true, List.all_eq_true]
      exact ⟨⟨hbefore, by simpa using hafter.ne_nil⟩, hafter.digit⟩

theorem isDigit_or_of_isPlain (h : isPlain text = true) :
    ∀ c ∈ text, isDigit c = true ∨ c = '.' := by
  rcases isPlain_iff.1 h with hdigits | ⟨before, after, hbefore, hafter, rfl⟩
  · exact fun c hc => Or.inl (hdigits.digit c hc)
  · intro c hc
    rw [List.mem_append, List.mem_cons] at hc
    rcases hc with hc | hpoint | hc
    · exact Or.inl (hbefore c hc)
    · exact Or.inr hpoint
    · exact Or.inl (hafter.digit c hc)

theorem isPlain_of_parse? {value : Binary64} (h : parse? text = some value) :
    isPlain text = true := by
  rw [parse?] at h
  split at h
  · assumption
  · cases h

theorem not_blank_of_isPlain (h : isPlain text = true) : ∀ c ∈ text, isBlank c = false := by
  intro c hc
  rcases isDigit_or_of_isPlain h c hc with hdigit | rfl
  · exact isBlank_of_isHexDigit (by simp [isHexDigit, hdigit])
  · decide

theorem trim_of_isPlain (h : isPlain text = true) : Text.trim text = text :=
  Text.trim_of_not_blank (not_blank_of_isPlain h)

/-- A character that no plain decimal holds, and that no trimming drops. -/
structure IsForeign (c : Char) : Prop where
  notBlank : isBlank c = false
  notDigit : isDigit c = false
  notPoint : c ≠ '.'

theorem parse?_eq_none_of_mem {c : Char} (h : IsForeign c) (hmem : c ∈ text) :
    parse? text = none := by
  rw [parse?, if_neg]
  intro hplain
  rcases isDigit_or_of_isPlain hplain c hmem with hdigit | hpoint
  · rw [h.notDigit] at hdigit
    cases hdigit
  · exact h.notPoint hpoint

theorem parse?_trim_eq_none {c : Char} (h : IsForeign c) (hmem : c ∈ text) :
    parse? (Text.trim text) = none :=
  parse?_eq_none_of_mem h (Text.mem_trim h.notBlank hmem)

/-! ## Places -/

/-- The value of a decimal digit. -/
def placeDigit (c : Char) : Nat :=
  c.toNat - '0'.toNat

/-- The value of digits before a point. The last one counts ones, and each of the others counts ten
times the next. -/
def wholeValue : Text → ℚ
  | [] => 0
  | c :: rest => placeDigit c * 10 ^ rest.length + wholeValue rest

/-- The value of digits behind a point. The first one counts tenths. -/
def fractionValue : Text → ℚ
  | [] => 0
  | c :: rest => (placeDigit c + fractionValue rest) / 10

/-- The plain decimals and what they denote. -/
inductive Denotes : Text → ℚ → Prop
  | whole {digits : Text} : IsDigits digits → Denotes digits (wholeValue digits)
  /-- There may be no digits before the point, but there are some after it. -/
  | point {before after : Text} : (∀ c ∈ before, isDigit c = true) → IsDigits after →
      Denotes (before ++ '.' :: after) (wholeValue before + fractionValue after)

variable {q : ℚ}

/-! ## The value that is rounded -/

/-- Further digits move those before them by as many places. -/
theorem cast_foldl_digits (count : Nat) (digits : Text) :
    ((digits.foldl (fun value c => 10 * value + (c.toNat - 48)) count : Nat) : ℚ) =
      count * 10 ^ digits.length + wholeValue digits := by
  induction digits generalizing count with
  | nil => simp [wholeValue]
  | cons c rest ih =>
      rw [List.foldl_cons, ih, wholeValue, List.length_cons, pow_succ,
        show c.toNat - 48 = placeDigit c from rfl]
      push_cast
      ring

theorem cast_digitsValue (digits : Text) : (digitsValue digits : ℚ) = wholeValue digits := by
  rw [digitsValue, cast_foldl_digits, Nat.cast_zero, zero_mul, zero_add]

theorem cast_digitsValue_append (before after : Text) :
    (digitsValue (before ++ after) : ℚ) =
      wholeValue before * 10 ^ after.length + wholeValue after := by
  rw [digitsValue, List.foldl_append, cast_foldl_digits, ← digitsValue, cast_digitsValue]

/-- Digits behind a point count as those before one, over a power of ten. -/
theorem wholeValue_eq (digits : Text) :
    wholeValue digits = fractionValue digits * 10 ^ digits.length := by
  induction digits with
  | nil => simp [wholeValue, fractionValue]
  | cons c rest ih =>
      rw [wholeValue, fractionValue, ih, List.length_cons, pow_succ]
      ring

theorem whole_of_isDigits {digits : Text} (h : IsDigits digits) :
    whole digits = digits ∧ fraction? digits = none := by
  have hpoint : '.' ∉ digits := fun hmem => absurd (h.digit '.' hmem) (by decide)
  refine ⟨?_, fraction?_eq_none_iff.2 hpoint⟩
  exact List.takeWhile_eq_self_iff.2 fun c hc => ne_point_of_isDigit (h.digit c hc)

/-- What is rounded is what the decimal denotes. -/
theorem Denotes.value_eq (h : Denotes text q) : value text = q := by
  cases h with
  | whole hdigits =>
      obtain ⟨hwhole, hfraction⟩ := whole_of_isDigits hdigits
      simp only [value, hwhole, hfraction, Option.getD_none, List.append_nil, List.length_nil,
        Rat.mkRat_eq_div, Int.cast_natCast, cast_digitsValue]
      simp
  | point hbefore hafter =>
      rename_i before after
      obtain ⟨hwhole, hfraction⟩ := fraction?_append_point hbefore after
      have hpow : (10 : ℚ) ^ after.length ≠ 0 := pow_ne_zero _ (by norm_num)
      simp only [value, hwhole, hfraction, Option.getD_some, Rat.mkRat_eq_div, Int.cast_natCast,
        cast_digitsValue_append, Nat.pow_eq, Nat.cast_pow, Nat.cast_ofNat]
      rw [wholeValue_eq after, ← add_mul, mul_div_cancel_right₀ _ hpow]

theorem Denotes.isPlain (h : Denotes text q) : isPlain text = true := by
  cases h with
  | whole hdigits => exact isPlain_iff.2 (Or.inl hdigits)
  | point hbefore hafter => exact isPlain_iff.2 (Or.inr ⟨_, _, hbefore, hafter, rfl⟩)

theorem exists_denotes (h : isPlain text = true) : ∃ q, Denotes text q := by
  rcases isPlain_iff.1 h with hdigits | ⟨before, after, hbefore, hafter, rfl⟩
  · exact ⟨_, .whole hdigits⟩
  · exact ⟨_, .point hbefore hafter⟩

theorem Denotes.nonneg (h : Denotes text q) : 0 ≤ q := by
  rw [← h.value_eq, value, Rat.mkRat_eq_div]
  positivity

/-! ## Reading -/

/-- A plain decimal is read as the number nearest to what it denotes. -/
theorem Denotes.exists_parse? (h : Denotes text q) :
    ∃ number, parse? text = some number ∧ Binary64.IsNearest number q := by
  refine ⟨Binary64.nearest (value text), ?_, ?_⟩
  · rw [parse?, if_pos h.isPlain]
  · rw [h.value_eq]
    exact Binary64.isNearest_nearest h.nonneg

theorem parse?_eq_some_iff {number : Binary64} :
    parse? text = some number ↔ ∃ q, Denotes text q ∧ Binary64.IsNearest number q := by
  constructor
  · intro h
    obtain ⟨q, hq⟩ := exists_denotes (isPlain_of_parse? h)
    obtain ⟨found, hfound, hnearest⟩ := hq.exists_parse?
    obtain rfl : found = number := Option.some.inj (hfound.symm.trans h)
    exact ⟨q, hq, hnearest⟩
  · rintro ⟨q, hq, hnearest⟩
    obtain ⟨found, hfound, hfoundNearest⟩ := hq.exists_parse?
    rw [hfound, hfoundNearest.unique hnearest]

/-- A text is read as a number exactly when it is a run of digits, or any digits with a point and a
run of digits behind them. The number is the one nearest to the rational that the text denotes, and
texts that denote the same rational are read as the same number, whatever zeros they have and
whether or not they have digits before the point. -/
theorem decimals_exact (text : Text) :
    ((∃ number, parse? text = some number) ↔ IsDigits text ∨
      ∃ before after, (∀ c ∈ before, isDigit c = true) ∧ IsDigits after ∧
        text = before ++ '.' :: after) ∧
    (∀ number, parse? text = some number ↔
      ∃ q, Denotes text q ∧ Binary64.IsNearest number q) ∧
    ∀ other q, Denotes text q → Denotes other q →
      ∃ number, parse? text = some number ∧ parse? other = some number := by
  refine ⟨?_, fun number => parse?_eq_some_iff, ?_⟩
  · rw [← isPlain_iff]
    constructor
    · rintro ⟨number, h⟩
      exact isPlain_of_parse? h
    · intro h
      obtain ⟨q, hq⟩ := exists_denotes h
      obtain ⟨number, hnumber, -⟩ := hq.exists_parse?
      exact ⟨number, hnumber⟩
  · intro other q htext hother
    obtain ⟨number, hnumber, hnearest⟩ := htext.exists_parse?
    exact ⟨number, hnumber, parse?_eq_some_iff.2 ⟨q, hother, hnearest⟩⟩

/-- One half without digits before the point and with a zero at the end. -/
def bareHalf : Text := ['.', '5', '0']

/-- One half with zeros in front. -/
def paddedHalf : Text := ['0', '0', '.', '5']

theorem decimals_half :
    Denotes bareHalf (1 / 2) ∧ Denotes paddedHalf (1 / 2) ∧
      parse? bareHalf = parse? paddedHalf ∧
      parse? bareHalf = some ⟨1022 * Binary64.fractions⟩ := by
  have hfive : placeDigit '5' = 5 := rfl
  have hzero : placeDigit '0' = 0 := rfl
  have hbare : Denotes bareHalf (1 / 2) := by
    have hdenotes : Denotes bareHalf (wholeValue [] + fractionValue ['5', '0']) :=
      @Denotes.point [] ['5', '0'] (fun _ h => absurd h List.not_mem_nil)
        ⟨by decide, List.all_eq_true.1 (by decide)⟩
    norm_num [wholeValue, fractionValue, hfive, hzero] at hdenotes
    exact hdenotes
  have hpadded : Denotes paddedHalf (1 / 2) := by
    have hdenotes : Denotes paddedHalf (wholeValue ['0', '0'] + fractionValue ['5']) :=
      @Denotes.point ['0', '0'] ['5'] (List.all_eq_true.1 (by decide))
        ⟨by decide, List.all_eq_true.1 (by decide)⟩
    norm_num [wholeValue, fractionValue, hfive, hzero] at hdenotes
    exact hdenotes
  obtain ⟨-, -, hsame⟩ := decimals_exact bareHalf
  obtain ⟨number, hnumber, hother⟩ := hsame paddedHalf (1 / 2) hbare hpadded
  exact ⟨hbare, hpadded, hnumber.trans hother.symm, by decide +kernel⟩

end UtilityCss.Decimal
