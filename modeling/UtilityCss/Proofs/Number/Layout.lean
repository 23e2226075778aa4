import UtilityCss.Number
import UtilityCss.Reference
import UtilityCss.Token
import Mathlib.Data.List.TakeWhile
import Mathlib.Tactic.IntervalCases

/-!
# The form of written numbers

A written number begins with a digit or a capital letter and ends in a character of a name
(`NumberLayout.isNumberText_write`). The digits of a number that is not zero are digits, and some
of them remain when zeros at the end are cut off (`Binary64.isDigits_shortest`), because zero is
never between the bounds of such a number (`Bounds.not_admits_zero`). It has letters, digits and
marks only, and a digit follows each mark (`NumberLayout.isMarked_write`).

* `isNumberStart` marks the characters with which written numbers begin.
* `IsDigits` says that a text has digits only, and at least one.
* `IsNumberText` is the form of written numbers.
-/

set_option autoImplicit false

namespace UtilityCss

/-- One digit or more. -/
structure IsDigits (text : Text) : Prop where
  ne_nil : text ≠ []
  digit : ∀ c ∈ text, isDigit c = true

/-- A digit, or the first letter of a number that has none. -/
def isNumberStart (c : Char) : Bool :=
  isDigit c || c == 'I' || c == 'N'

/-- How every written number begins and ends. No written number has the letter with which
references begin. -/
structure IsNumberText (text : Text) : Prop where
  head : ∃ c rest, text = c :: rest ∧ isNumberStart c = true
  letters : 'v' ∉ text
  last : ∃ front c, text = front ++ [c] ∧ Reference.isNameChar c = true

/-! ## Digits -/

theorem isDigit_iff {c : Char} : isDigit c = true ↔ c.isDigit = true := by
  simp [isDigit, Char.isDigit, Char.le_def]

namespace IsDigits

variable {text digits : Text}

theorem isNumberText (h : IsDigits text) : IsNumberText text where
  head := by
    cases text with
    | nil => exact absurd rfl h.ne_nil
    | cons c rest =>
        refine ⟨c, rest, rfl, ?_⟩
        rw [isNumberStart, h.digit c List.mem_cons_self, Bool.true_or, Bool.true_or]
  letters := fun hmem => absurd (h.digit 'v' hmem) (by decide)
  last := by
    have hlast := (List.dropLast_concat_getLast h.ne_nil).symm
    refine ⟨_, _, hlast, ?_⟩
    simp [Reference.isNameChar, h.digit _ (List.getLast_mem h.ne_nil)]

theorem zero : IsDigits ['0'] :=
  ⟨by simp, by simp [isDigit]⟩

theorem toDigits (n : Nat) : IsDigits (Nat.toDigits 10 n) :=
  ⟨Nat.toDigits_ne_nil, fun _ hc =>
    isDigit_iff.2 (Nat.isDigit_of_mem_toDigits (by decide) (by decide) hc)⟩

theorem append_zeros (h : IsDigits text) (count : Nat) :
    IsDigits (text ++ List.replicate count '0') where
  ne_nil := List.append_ne_nil_of_left_ne_nil h.ne_nil _
  digit := by
    intro c hc
    rcases List.mem_append.1 hc with hmem | hmem
    · exact h.digit c hmem
    · rw [List.eq_of_mem_replicate hmem]
      decide

theorem take (h : IsDigits text) {count : Nat} (hcount : 0 < count) :
    IsDigits (text.take count) where
  ne_nil := by
    rw [Ne, List.take_eq_nil_iff, not_or]
    exact ⟨Nat.ne_of_gt hcount, h.ne_nil⟩
  digit := fun c hc => h.digit c (List.mem_of_mem_take hc)

theorem drop (h : IsDigits text) {count : Nat} (hcount : count < text.length) :
    IsDigits (text.drop count) where
  ne_nil := by
    rw [Ne, List.drop_eq_nil_iff]
    exact Nat.not_le_of_gt hcount
  digit := fun c hc => h.digit c (List.mem_of_mem_drop hc)

end IsDigits

/-- Digits at the end keep the form. -/
theorem IsNumberText.append_digits {text middle digits : Text} (h : IsNumberText text)
    (hmiddle : 'v' ∉ middle) (hdigits : IsDigits digits) :
    IsNumberText (text ++ middle ++ digits) where
  head := by
    obtain ⟨c, rest, rfl, hc⟩ := h.head
    exact ⟨c, rest ++ middle ++ digits, by simp, hc⟩
  letters := by
    rw [List.mem_append, List.mem_append, not_or, not_or]
    exact ⟨⟨h.letters, hmiddle⟩, hdigits.isNumberText.letters⟩
  last := by
    obtain ⟨front, c, rfl, hc⟩ := hdigits.isNumberText.last
    exact ⟨text ++ middle ++ front, c, by rw [List.append_assoc _ front], hc⟩

/-! ## The digits of a number -/

/-- A number that is not zero has a digit that is not zero. -/
theorem exists_ne_zero_mem_toDigits {n : Nat} (h : n ≠ 0) :
    ∃ c ∈ Nat.toDigits 10 n, c ≠ '0' := by
  -- The last digit may be zero, but then the digits before it are those of a smaller number.
  induction n using Nat.strongRecOn with
  | ind n ih =>
      by_cases hsmall : n < 10
      · rw [Nat.toDigits_of_lt_base hsmall]
        refine ⟨n.digitChar, List.mem_singleton_self _, ?_⟩
        interval_cases n
        · exact absurd rfl h
        all_goals decide
      · have htenth : n / 10 ≠ 0 := by omega
        obtain ⟨c, hc, hne⟩ := ih (n / 10) (by omega) htenth
        rw [Nat.toDigits_of_base_le (by decide) (by omega)]
        exact ⟨c, List.mem_append_left _ hc, hne⟩

theorem DecimalDigits.isDigits_ofScaled {count : Nat} (h : count ≠ 0) (scale : Int) :
    IsDigits (ofScaled count scale).digits where
  ne_nil := by
    obtain ⟨c, hc, hne⟩ := exists_ne_zero_mem_toDigits h
    rw [ofScaled, Ne, List.reverse_eq_nil_iff, List.dropWhile_eq_nil_iff]
    intro hall
    have hzero := hall c (List.mem_reverse.2 hc)
    rw [beq_iff_eq] at hzero
    exact hne hzero
  digit := by
    intro c hc
    rw [ofScaled, List.mem_reverse] at hc
    have hmem := (List.dropWhile_suffix _).subset hc
    exact (IsDigits.toDigits count).digit c (List.mem_reverse.1 hmem)

namespace Bounds

/-- Zero is not between bounds of which the lower is positive. -/
theorem not_admits_zero {bounds : Bounds} (h : 0 < bounds.lower) : bounds.admits 0 = false := by
  rw [admits]
  split
  · simp only [Nat.zero_mul, Bool.and_eq_false_iff, decide_eq_false_iff_not]
    exact Or.inl (Nat.not_le_of_gt h)
  · simp

theorem nearestInteger?_ne_zero {bounds : Bounds} {n : Nat} (hlower : 0 < bounds.lower)
    (h : bounds.nearestInteger? = some n) : n ≠ 0 := by
  -- Of the two neighbours only the lower one can be zero.
  rintro rfl
  have hlow : ∀ low, low = 0 → bounds.admits low = true → False := by
    rintro low rfl hadmits
    rw [not_admits_zero hlower] at hadmits
    cases hadmits
  simp only [nearestInteger?] at h
  split at h
  · rename_i hboth
    rw [Bool.and_eq_true] at hboth
    split at h
    · exact hlow _ (Option.some.inj h) hboth.1
    · cases h
  · split at h
    · rename_i hadmits
      exact hlow _ (Option.some.inj h) hadmits
    · split at h <;> cases h

/-- The lower bound of a number that is not zero is positive. -/
theorem lower_ofBinary64_pos {x : Binary64} (h : x.bits ≠ 0) : 0 < (ofBinary64 x).lower := by
  have hsignificand : 1 ≤ x.significand := by
    rw [Binary64.significand, Binary64.exponent, Nat.sub_mul, Nat.one_mul]
    have hdiv := Nat.div_mul_le_self x.bits Binary64.fractions
    have hpos : 0 < Binary64.fractions := by decide
    omega
  rw [ofBinary64]
  apply Nat.mul_pos
  · split <;> omega
  · exact Nat.two_pow_pos _

end Bounds

theorem Binary64.isDigits_shortest {x : Binary64} (h : x.bits ≠ 0) :
    IsDigits x.shortest.digits := by
  simp only [Binary64.shortest]
  cases hfound : (List.range 17).findSome? (Bounds.ofBinary64 x).onGrid? with
  | none => exact IsDigits.zero
  | some decimal =>
      obtain ⟨count, -, hgrid⟩ := List.exists_of_findSome?_eq_some hfound
      rw [Bounds.onGrid?, Option.map_eq_some_iff] at hgrid
      obtain ⟨n, hn, rfl⟩ := hgrid
      apply DecimalDigits.isDigits_ofScaled
      apply Bounds.nearestInteger?_ne_zero _ hn
      exact Nat.mul_pos (Bounds.lower_ofBinary64_pos h) (Nat.pow_pos (by decide))

/-! ## Layouts -/

namespace NumberLayout

theorem isNumberText_pointAfter {count : Nat} {digits : Text} (hcount : 0 < count)
    (h : IsDigits digits) : IsNumberText (pointAfter count digits) := by
  rw [pointAfter]
  split
  · exact h.isNumberText
  · rename_i hlonger
    have hform := (h.take hcount).isNumberText.append_digits (by simp : 'v' ∉ ['.'])
      (h.drop (Nat.lt_of_not_le hlonger))
    simpa using hform

theorem isNumberText_full {decimal : DecimalDigits} (h : IsDigits decimal.digits) :
    IsNumberText (full decimal) := by
  rw [full]
  split
  · have hzeros : 'v' ∉ '.' :: List.replicate ((-decimal.exponent).toNat - 1) '0' := by
      simp [List.mem_replicate]
    have hform := IsDigits.zero.isNumberText.append_digits hzeros h
    simpa using hform
  · exact isNumberText_pointAfter (Nat.succ_pos _) (h.append_zeros _)

theorem isNumberText_scientific {layout : NumberLayout} {decimal : DecimalDigits}
    (hmark : 'v' ∉ layout.exponentMark) (hpositive : 'v' ∉ layout.positiveSign)
    (hnegative : 'v' ∉ layout.negativeSign) (h : IsDigits decimal.digits) :
    IsNumberText (layout.scientific decimal) := by
  have hsign : 'v' ∉ if decimal.exponent < 0 then layout.negativeSign
      else layout.positiveSign := by
    split
    · exact hnegative
    · exact hpositive
  have hmiddle : 'v' ∉ layout.exponentMark ++ (if decimal.exponent < 0 then layout.negativeSign
      else layout.positiveSign) := by
    rw [List.mem_append, not_or]
    exact ⟨hmark, hsign⟩
  have hform := (isNumberText_pointAfter Nat.one_pos h).append_digits hmiddle
    (IsDigits.toDigits decimal.exponent.natAbs)
  simpa [scientific] using hform

/-- Computed numbers have the form of written numbers. -/
theorem isNumberText_write (x : Binary64) : IsNumberText (computed.write x) := by
  rw [write]
  split
  · exact ⟨⟨'I', _, rfl, by decide⟩, by decide, ⟨"Infinit".toList, 'y', rfl, by decide⟩⟩
  split
  · exact ⟨⟨'N', _, rfl, by decide⟩, by decide, ⟨"Na".toList, 'N', rfl, by decide⟩⟩
  split
  · exact IsDigits.zero.isNumberText
  · rename_i hzero
    have hdigits := Binary64.isDigits_shortest hzero
    dsimp only
    split
    · exact isNumberText_full hdigits
    · exact isNumberText_scientific (by decide) (by decide) (by decide) hdigits

end NumberLayout

/-! ## Marks -/

/-- Letters, digits and marks of numbers, with a digit behind each mark. -/
def isMarked : Text → Bool
  | [] => true
  | c :: rest =>
    (isAsciiLetter c || isDigit c || ['.', '+', '-'].contains c && Token.startsDigit rest) &&
      isMarked rest

theorem isMarked_append {first second : Text} (h : isMarked first = true)
    (h' : isMarked second = true) : isMarked (first ++ second) = true := by
  induction first with
  | nil => exact h'
  | cons c rest ih =>
      rw [isMarked, Bool.and_eq_true] at h
      rw [List.cons_append, isMarked, Bool.and_eq_true]
      refine ⟨?_, ih h.2⟩
      cases rest with
      | nil => simpa [Token.startsDigit] using Or.inl h.1
      | cons d rest => exact h.1

theorem isMarked_of_all {text : Text}
    (h : ∀ c ∈ text, isAsciiLetter c = true ∨ isDigit c = true) : isMarked text = true := by
  induction text with
  | nil => rfl
  | cons c rest ih =>
      rw [List.forall_mem_cons] at h
      rw [isMarked, Bool.and_eq_true]
      refine ⟨?_, ih h.2⟩
      rcases h.1 with hletter | hdigit
      · rw [hletter, Bool.true_or, Bool.true_or]
      · rw [hdigit, Bool.or_true, Bool.true_or]

theorem isMarked_of_append {first second : Text} (h : isMarked (first ++ second) = true) :
    isMarked second = true := by
  induction first with
  | nil => exact h
  | cons c rest ih =>
      rw [List.cons_append, isMarked, Bool.and_eq_true] at h
      exact ih h.2

theorem class_of_isMarked {text : Text} (h : isMarked text = true) :
    ∀ c ∈ text, (isAsciiLetter c || isDigit c || ['.', '+', '-'].contains c) = true := by
  induction text with
  | nil => simp
  | cons c rest ih =>
      rw [isMarked, Bool.and_eq_true] at h
      rw [List.forall_mem_cons]
      refine ⟨?_, ih h.2⟩
      have hfirst := h.1
      simp only [Bool.or_eq_true, Bool.and_eq_true] at hfirst ⊢
      exact hfirst.imp_right And.left

theorem IsDigits.isMarked {digits : Text} (h : IsDigits digits) :
    UtilityCss.isMarked digits = true :=
  isMarked_of_all fun c hc => Or.inr (h.digit c hc)

/-- A mark with digits behind it. -/
theorem IsDigits.isMarked_cons {digits : Text} {mark : Char} (h : IsDigits digits)
    (hmark : ['.', '+', '-'].contains mark = true) :
    UtilityCss.isMarked (mark :: digits) = true := by
  have hstarts : Token.startsDigit digits = true := by
    obtain ⟨c, rest, hcons⟩ := List.exists_cons_of_ne_nil h.ne_nil
    subst hcons
    exact h.digit c List.mem_cons_self
  rw [UtilityCss.isMarked, hmark, hstarts, h.isMarked]
  simp

namespace NumberLayout

theorem isMarked_pointAfter {count : Nat} {digits : Text} (hcount : 0 < count)
    (h : IsDigits digits) : isMarked (pointAfter count digits) = true := by
  rw [pointAfter]
  split
  · exact h.isMarked
  · rename_i hlonger
    exact isMarked_append (h.take hcount).isMarked
      ((h.drop (Nat.lt_of_not_le hlonger)).isMarked_cons (by decide))

theorem isMarked_full {decimal : DecimalDigits} (h : IsDigits decimal.digits) :
    isMarked (full decimal) = true := by
  rw [full]
  split
  · have hzeros : IsDigits (List.replicate ((-decimal.exponent).toNat - 1) '0' ++
        decimal.digits) := by
      refine ⟨List.append_ne_nil_of_right_ne_nil _ h.ne_nil, ?_⟩
      intro c hc
      rcases List.mem_append.1 hc with hmem | hmem
      · rw [List.eq_of_mem_replicate hmem]
        decide
      · exact h.digit c hmem
    have hpoint : ['.', '+', '-'].contains '.' = true := by decide
    have hform := isMarked_append IsDigits.zero.isMarked (hzeros.isMarked_cons hpoint)
    simpa using hform
  · exact isMarked_pointAfter (Nat.succ_pos _) (h.append_zeros _)

theorem isMarked_scientific {decimal : DecimalDigits} (h : IsDigits decimal.digits) :
    isMarked (computed.scientific decimal) = true := by
  have hexponent := IsDigits.toDigits decimal.exponent.natAbs
  have hsigned : isMarked ((if decimal.exponent < 0 then computed.negativeSign
      else computed.positiveSign) ++ Nat.toDigits 10 decimal.exponent.natAbs) = true := by
    split
    · exact hexponent.isMarked_cons (by decide)
    · exact hexponent.isMarked_cons (by decide)
  have hmark : isMarked computed.exponentMark = true := by decide
  have hform := isMarked_append (isMarked_pointAfter Nat.one_pos h) (isMarked_append hmark hsigned)
  simpa [scientific] using hform

/-- In a computed number a digit follows each mark. -/
theorem isMarked_write (x : Binary64) : isMarked (computed.write x) = true := by
  rw [write]
  split
  · decide
  split
  · decide
  split
  · decide
  · rename_i hzero
    have hdigits := Binary64.isDigits_shortest hzero
    dsimp only
    split
    · exact isMarked_full hdigits
    · exact isMarked_scientific hdigits

end NumberLayout

end UtilityCss
