import UtilityCss.Text
import Mathlib.Data.List.DropRight
import Mathlib.Data.List.Infix
import Mathlib.Data.List.TakeWhile
import Mathlib.Tactic.Common

/-!
# Laws of texts

* What holds of the characters of a range one by one holds of each (`forall_range`), so that facts
  on the letters of ASCII are checked letter by letter (`forall_capital`, `forall_small`). Other
  characters are the same in either case.
* `Text.contains` finds exactly the stretches of a text (`Text.contains_eq_true_iff`).
* Places in a text are counted in bytes of UTF-8. A place where a part of the text ends is the sum
  of the sizes of the characters before it (`Text.utf8Length_append`), so that cutting there gives
  the part back (`Text.slice_append`). `Text.dropBytes` and `Text.takeBytes` are the text behind a
  place and the text before it, `Text.slice` is the text between two places.
* The digits of an escape end where no further digit stands (`Escape.digits_append`), and the number
  that they write depends neither on their letter case nor on zeros in front
  (`Escape.number_asciiLower`, `Escape.number_zeros_append`). The usual notation of a number writes
  it (`Escape.number_toDigits`), and a character is what its number names (`Escape.ofNumber_toNat`).
* A text is trimmed when no blank stands at either end (`Text.trim_eq_self_iff`). Trimming reaches
  such a text in one pass (`Text.trim_trim`), ignores blanks put in front
  (`Text.trim_append_of_blank`) and keeps every other character, so that `Text.inkLength`, the number
  of characters that are not blank, does not change (`Text.inkLength_trim`).
-/

set_option autoImplicit false

namespace UtilityCss

/-! ## Characters -/

/-- A character of a class is no character outside of it. -/
theorem ne_of_class {p : Char → Bool} {c d : Char} (hc : p c = true) (hd : p d = false) :
    c ≠ d := by
  rintro rfl
  rw [hd] at hc
  cases hc

/-- What holds of the characters of a range one by one holds of each. -/
theorem forall_range {p : Char → Prop} {first count : Nat}
    (h : ∀ n < count, p (Char.ofNat (first + n))) {c : Char} (hge : first ≤ c.toNat)
    (hlt : c.toNat < first + count) : p c := by
  have hletter := h (c.toNat - first) (by omega)
  rwa [Nat.add_sub_of_le hge, Char.ofNat_toNat] at hletter

theorem forall_capital {p : Char → Prop} (h : ∀ n < 26, p (Char.ofNat (65 + n))) {c : Char}
    (hc : c.isUpper = true) : p c := by
  have hbounds : c.val ≥ 'A'.val ∧ c.val ≤ 'Z'.val := of_decide_eq_true hc
  have hle : c.toNat ≤ 90 := hbounds.2
  exact forall_range h hbounds.1 (Nat.lt_succ_of_le hle)

theorem forall_small {p : Char → Prop} (h : ∀ n < 26, p (Char.ofNat (97 + n))) {c : Char}
    (hc : c.isLower = true) : p c := by
  obtain ⟨hge, hle⟩ := Bool.and_eq_true_iff.1 hc
  have hle : c.toNat ≤ 122 := of_decide_eq_true hle
  exact forall_range h (of_decide_eq_true hge) (Nat.lt_succ_of_le hle)

theorem toUpper_toLower {c : Char} (hc : c.isUpper = true) : c.toLower.toUpper = c :=
  forall_capital (p := fun c => c.toLower.toUpper = c) (by decide) hc

theorem toLower_of_not_isUpper {c : Char} (hc : ¬ c.isUpper = true) : c.toLower = c := by
  apply dif_neg
  intro hbounds
  exact hc (decide_eq_true hbounds)

theorem toUpper_of_not_isLower {c : Char} (hc : ¬ c.isLower = true) : c.toUpper = c := by
  apply dif_neg
  intro hbounds
  exact hc (Bool.and_eq_true_iff.2 ⟨decide_eq_true hbounds.1, decide_eq_true hbounds.2⟩)

end UtilityCss

namespace UtilityCss.Text

/-! ## Finding one text inside another -/

/-- A text is found where it is a stretch of the other. -/
theorem contains_eq_true_iff {needle text : Text} :
    contains needle text = true ↔ needle <:+: text := by
  induction text with
  | nil => simp [contains]
  | cons c rest ih =>
      rw [contains, Bool.or_eq_true, List.isPrefixOf_iff_prefix, ih, List.infix_cons_iff]

/-! ## Texts between bytes -/

/-- The text without so many bytes in front. -/
def dropBytes : Nat → Text → Text
  | _, [] => []
  | count, c :: rest => if count = 0 then c :: rest else dropBytes (count - c.utf8Size) rest

/-- So many bytes in front of the text. -/
def takeBytes : Nat → Text → Text
  | _, [] => []
  | count, c :: rest => if count = 0 then [] else c :: takeBytes (count - c.utf8Size) rest

/-- The text from one place to another. -/
def slice (start stop : Nat) (text : Text) : Text :=
  takeBytes (stop - start) (dropBytes start text)

/-! ## Sizes -/

@[simp] theorem utf8Length_nil : utf8Length [] = 0 := rfl

theorem foldl_utf8Size (text : Text) (size : Nat) :
    text.foldl (fun size c => size + c.utf8Size) size = size + utf8Length text := by
  induction text generalizing size with
  | nil => rfl
  | cons c rest ih =>
      have hrest : utf8Length (c :: rest) = c.utf8Size + utf8Length rest := by
        rw [← ih, ← Nat.zero_add c.utf8Size]
        rfl
      rw [List.foldl_cons, ih, hrest, Nat.add_assoc]

@[simp] theorem utf8Length_cons (c : Char) (rest : Text) :
    utf8Length (c :: rest) = c.utf8Size + utf8Length rest := by
  rw [← foldl_utf8Size, ← Nat.zero_add c.utf8Size]
  rfl

@[simp] theorem utf8Length_append (first second : Text) :
    utf8Length (first ++ second) = utf8Length first + utf8Length second := by
  rw [← foldl_utf8Size second (utf8Length first), utf8Length, List.foldl_append]
  rfl

theorem utf8Length_pos {text : Text} (h : text ≠ []) : 0 < utf8Length text := by
  cases text with
  | nil => exact absurd rfl h
  | cons c rest =>
      rw [utf8Length_cons]
      exact Nat.lt_of_lt_of_le c.utf8Size_pos (Nat.le_add_right _ _)

/-! ## Cutting where a part ends -/

theorem dropBytes_zero (text : Text) : dropBytes 0 text = text := by
  cases text <;> rfl

theorem takeBytes_zero (text : Text) : takeBytes 0 text = [] := by
  cases text <;> rfl

theorem dropBytes_append (first second : Text) :
    dropBytes (utf8Length first) (first ++ second) = second := by
  induction first with
  | nil => exact dropBytes_zero second
  | cons c rest ih =>
      have hpos := c.utf8Size_pos
      rw [utf8Length_cons, List.cons_append, dropBytes, if_neg (by omega), Nat.add_sub_cancel_left,
        ih]

theorem takeBytes_append (first second : Text) :
    takeBytes (utf8Length first) (first ++ second) = first := by
  induction first with
  | nil => exact takeBytes_zero second
  | cons c rest ih =>
      have hpos := c.utf8Size_pos
      rw [utf8Length_cons, List.cons_append, takeBytes, if_neg (by omega), Nat.add_sub_cancel_left,
        ih]

/-- The part of a text between two others stands between their places. -/
theorem slice_append {start stop : Nat} {before part : Text} (after : Text)
    (hstart : start = utf8Length before) (hstop : stop = start + utf8Length part) :
    slice start stop (before ++ (part ++ after)) = part := by
  subst hstart hstop
  rw [slice, dropBytes_append, Nat.add_sub_cancel_left, takeBytes_append]

end UtilityCss.Text

namespace UtilityCss

/-! ## Escapes -/

theorem takeWhile_append_of_head? {p : Char → Bool} {rest : Text}
    (h : ∀ c ∈ rest.head?, p c = false) (text : Text) :
    (text ++ rest).takeWhile p = text.takeWhile p := by
  have hrest : rest.takeWhile p = [] := by
    cases rest with
    | nil => rfl
    | cons c rest => simp [h c rfl]
  rw [List.takeWhile_append]
  split
  · rename_i hlen
    rw [hrest, List.append_nil]
    exact ((List.takeWhile_prefix p).eq_of_length hlen).symm
  · rfl

namespace Escape

/-! ## Where the digits end -/

theorem digits_append {rest : Text} (h : ∀ c ∈ rest.head?, isHexDigit c = false) (text : Text) :
    digits (text ++ rest) = digits text := by
  have hhead : ∀ c ∈ (rest.take (6 - text.length)).head?, isHexDigit c = false := by
    intro c hc
    rw [List.head?_take] at hc
    split at hc
    · cases hc
    · exact h c hc
  rw [digits, digits, List.take_append, takeWhile_append_of_head? hhead]

/-- A run of up to six digits is taken as a whole. -/
theorem digits_of_all {run : Text} (hlength : run.length ≤ 6)
    (h : ∀ c ∈ run, isHexDigit c = true) : digits run = run := by
  rw [digits, List.take_of_length_le hlength, List.takeWhile_eq_self_iff]
  exact h

/-! ## The number of a run of digits -/

theorem isHexDigit_toLower (c : Char) : isHexDigit c.toLower = isHexDigit c := by
  by_cases hupper : c.isUpper = true
  · exact forall_capital (p := fun c => isHexDigit c.toLower = isHexDigit c) (by decide) hupper
  · rw [toLower_of_not_isUpper hupper]

theorem digitValue_toLower (c : Char) : digitValue c.toLower = digitValue c := by
  by_cases hupper : c.isUpper = true
  · exact forall_capital (p := fun c => digitValue c.toLower = digitValue c) (by decide) hupper
  · rw [toLower_of_not_isUpper hupper]

theorem number_asciiLower (run : Text) : number (Text.asciiLower run) = number run := by
  rw [number, number, Text.asciiLower, List.foldl_map]
  simp only [digitValue_toLower]

theorem number_zeros_append (zeros : Nat) (run : Text) :
    number (List.replicate zeros '0' ++ run) = number run := by
  induction zeros with
  | zero => rfl
  | succ zeros ih =>
      -- A zero in front leaves the fold where it began.
      rw [List.replicate_succ, List.cons_append, ← ih]
      rfl

theorem number_append_singleton (run : Text) (c : Char) :
    number (run ++ [c]) = 16 * number run + digitValue c := by
  rw [number, List.foldl_append]
  rfl

/-- The usual notation of a number has the sixteen digits in small letters. -/
theorem exists_digitChar_of_mem_toDigits {n : Nat} {c : Char} (h : c ∈ Nat.toDigits 16 n) :
    ∃ digit < 16, c = Nat.digitChar digit := by
  induction n using Nat.strong_induction_on with
  | h n ih =>
      by_cases hsmall : n < 16
      · rw [Nat.toDigits_of_lt_base hsmall, List.mem_singleton] at h
        exact ⟨n, hsmall, h⟩
      · rw [Nat.toDigits_of_base_le (by decide) (by omega), List.mem_append,
          List.mem_singleton] at h
        rcases h with hmem | rfl
        · exact ih (n / 16) (by omega) hmem
        · exact ⟨n % 16, Nat.mod_lt n (by decide), rfl⟩

theorem isHexDigit_of_mem_toDigits {n : Nat} {c : Char} (h : c ∈ Nat.toDigits 16 n) :
    isHexDigit c = true := by
  have hall : ∀ digit < 16, isHexDigit (Nat.digitChar digit) = true := by decide
  obtain ⟨digit, hdigit, rfl⟩ := exists_digitChar_of_mem_toDigits h
  exact hall digit hdigit

theorem asciiLower_toDigits (n : Nat) :
    Text.asciiLower (Nat.toDigits 16 n) = Nat.toDigits 16 n := by
  have hall : ∀ digit < 16, (Nat.digitChar digit).toLower = Nat.digitChar digit := by decide
  have hself : ∀ c ∈ Nat.toDigits 16 n, c.toLower = id c := by
    intro c hc
    obtain ⟨digit, hdigit, rfl⟩ := exists_digitChar_of_mem_toDigits hc
    exact hall digit hdigit
  rw [Text.asciiLower, List.map_congr_left hself, List.map_id]

/-- A number is what its usual notation writes. -/
theorem number_toDigits (n : Nat) : number (Nat.toDigits 16 n) = n := by
  have hall : ∀ digit < 16, digitValue (Nat.digitChar digit) = digit := by decide
  induction n using Nat.strong_induction_on with
  | h n ih =>
      by_cases hsmall : n < 16
      · rw [Nat.toDigits_of_lt_base hsmall]
        simpa [number] using hall n hsmall
      · -- The last digit writes the remainder, those before it the quotient.
        rw [Nat.toDigits_of_base_le (by decide) (by omega), number_append_singleton,
          ih (n / 16) (by omega), hall (n % 16) (Nat.mod_lt n (by decide)), Nat.div_add_mod]

/-! ## The character of a number -/

/-- Every character but the null character is the one that its number names. -/
theorem ofNumber_toNat {c : Char} (h : c ≠ '\x00') : ofNumber c.toNat = c := by
  have hzero : c.toNat ≠ 0 := by
    intro heq
    apply h
    rw [← Char.ofNat_toNat c, heq]
  have hvalid : c.toNat < 0xD800 ∨ (0xDFFF < c.toNat ∧ c.toNat < 0x110000) := c.valid
  rw [ofNumber, if_neg hzero, if_pos (by simpa using hvalid), Char.ofNat_toNat]

end Escape

/-! ## Blanks of ASCII -/

/-- The characters of ASCII that are printed are not blank, a space apart. -/
theorem isBlank_of_bounds {c : Char} (h : 33 ≤ c.toNat) (h' : c.toNat ≤ 126) :
    isBlank c = false := by
  simp only [isBlank, Bool.or_eq_false_iff, Bool.and_eq_false_iff, decide_eq_false_iff_not]
  omega

theorem isBlank_of_isHexDigit {c : Char} (h : isHexDigit c = true) : isBlank c = false := by
  have hranges : ((48 ≤ c.toNat ∧ c.toNat ≤ 57) ∨ (97 ≤ c.toNat ∧ c.toNat ≤ 102)) ∨
      (65 ≤ c.toNat ∧ c.toNat ≤ 70) := by
    simp only [isHexDigit, isDigit, Bool.or_eq_true, Bool.and_eq_true, decide_eq_true_eq,
      Char.le_def, UInt32.le_iff_toNat_le] at h
    exact h
  apply isBlank_of_bounds
  · omega
  · omega

theorem isBlank_of_isSpace {c : Char} (h : isSpace c = true) : isBlank c = true := by
  simp only [isSpace, isNewline, Bool.or_eq_true, beq_iff_eq] at h
  rcases h with (rfl | rfl) | (rfl | rfl) | rfl <;> decide

namespace Text

/-! ## Trimmed texts -/

theorem trimEnd_eq_rdropWhile (text : Text) : trimEnd text = text.rdropWhile isBlank := rfl

theorem trimStart_eq_self_iff {text : Text} :
    trimStart text = text ↔ ∀ c ∈ text.head?, isBlank c = false := by
  cases text with
  | nil => simp [trimStart]
  | cons c rest =>
      by_cases hc : isBlank c = true
      · have hlen : (rest.dropWhile isBlank).length ≤ rest.length :=
          (List.dropWhile_sublist _).length_le
        have hne : rest.dropWhile isBlank ≠ c :: rest := by
          intro heq
          rw [heq, List.length_cons] at hlen
          omega
        simp [trimStart, hc, hne]
      · simp [trimStart, hc]

theorem trimEnd_eq_self_iff {text : Text} :
    trimEnd text = text ↔ ∀ c ∈ text.getLast?, isBlank c = false := by
  rw [trimEnd_eq_rdropWhile, List.rdropWhile_eq_self_iff]
  constructor
  · intro h c hc
    rw [Option.mem_def, List.getLast?_eq_some_iff] at hc
    obtain ⟨front, rfl⟩ := hc
    simpa using h
  · intro h hne
    have := h (text.getLast hne) (List.getLast?_eq_some_getLast hne)
    simp [this]

/-- Blanks are dropped in front of the first other character only. -/
theorem head?_trimEnd {text : Text} (h : ∀ c ∈ text.head?, isBlank c = false) :
    ∀ c ∈ (trimEnd text).head?, isBlank c = false := by
  intro c hc
  obtain ⟨after, hafter⟩ := List.rdropWhile_prefix isBlank text
  rw [trimEnd_eq_rdropWhile] at hc
  apply h
  rw [← hafter, List.head?_append]
  simp [Option.mem_def.1 hc]

theorem head?_trimStart (text : Text) : ∀ c ∈ (trimStart text).head?, isBlank c = false := by
  rw [← trimStart_eq_self_iff]
  exact List.dropWhile_idempotent isBlank text

theorem getLast?_trimEnd (text : Text) : ∀ c ∈ (trimEnd text).getLast?, isBlank c = false := by
  rw [← trimEnd_eq_self_iff]
  exact List.rdropWhile_idempotent isBlank text

/-- A text is trimmed exactly when neither end of it is blank. -/
theorem trim_eq_self_iff {text : Text} :
    trim text = text ↔
      (∀ c ∈ text.head?, isBlank c = false) ∧ ∀ c ∈ text.getLast?, isBlank c = false := by
  constructor
  · intro h
    constructor
    · rw [← h]
      exact head?_trimEnd (head?_trimStart text)
    · rw [← h]
      exact getLast?_trimEnd (trimStart text)
  · rintro ⟨hhead, hlast⟩
    rw [trim, trimStart_eq_self_iff.2 hhead, trimEnd_eq_self_iff.2 hlast]

theorem trim_of_not_blank {text : Text} (h : ∀ c ∈ text, isBlank c = false) :
    trim text = text :=
  trim_eq_self_iff.2
    ⟨fun c hc => h c (List.mem_of_mem_head? hc), fun c hc => h c (List.mem_of_mem_getLast? hc)⟩

@[simp] theorem trim_trim (text : Text) : trim (trim text) = trim text :=
  trim_eq_self_iff.2
    ⟨head?_trimEnd (head?_trimStart text), getLast?_trimEnd (trimStart text)⟩

theorem trim_append_of_blank {lead text : Text} (h : ∀ c ∈ lead, isBlank c = true) :
    trim (lead ++ text) = trim text := by
  rw [trim, trim, trimStart, trimStart, List.dropWhile_append_of_pos h]

/-- The blanks at the end of a text, after what trimming leaves. -/
theorem exists_trimEnd_append (text : Text) :
    ∃ blanks, text = trimEnd text ++ blanks ∧ ∀ c ∈ blanks, isBlank c = true :=
  ⟨text.rtakeWhile isBlank, List.rdropWhile_append_rtakeWhile.symm,
    fun _ hc => List.mem_rtakeWhile_imp hc⟩

theorem exists_append_trimStart (text : Text) :
    ∃ blanks, text = blanks ++ trimStart text ∧ ∀ c ∈ blanks, isBlank c = true :=
  ⟨text.takeWhile isBlank, List.takeWhile_append_dropWhile.symm,
    fun _ hc => List.mem_takeWhile_imp hc⟩

theorem trimEnd_append_of_blank {tail : Text} (h : ∀ c ∈ tail, isBlank c = true) (text : Text) :
    trimEnd (text ++ tail) = trimEnd text := by
  have hreverse : ∀ c ∈ tail.reverse, isBlank c = true := by simpa using h
  rw [trimEnd, trimEnd, List.reverse_append, List.dropWhile_append_of_pos hreverse]

theorem trimEnd_eq_nil_iff {text : Text} : trimEnd text = [] ↔ ∀ c ∈ text, isBlank c = true :=
  List.rdropWhile_eq_nil_iff

/-- A text with something that is not blank keeps what stands before it. -/
theorem trimEnd_append_of_not_blank {tail : Text} (h : ¬ ∀ c ∈ tail, isBlank c = true)
    (text : Text) : trimEnd (text ++ tail) = text ++ trimEnd tail := by
  have hne : (tail.reverse.dropWhile isBlank).isEmpty = false := by
    rw [List.isEmpty_eq_false_iff]
    intro hnil
    rw [List.dropWhile_eq_nil_iff] at hnil
    exact h (by simpa using hnil)
  rw [trimEnd, trimEnd, List.reverse_append, List.dropWhile_append, hne]
  simp

theorem trimEnd_cons_of_not_blank {c : Char} (hc : isBlank c = false) (rest : Text) :
    trimEnd (c :: rest) = c :: trimEnd rest := by
  have hself : trimEnd [c] = [c] := trimEnd_eq_self_iff.2 (by simpa using hc)
  by_cases hblank : ∀ d ∈ rest, isBlank d = true
  · rw [trimEnd_eq_nil_iff.2 hblank, ← List.singleton_append, trimEnd_append_of_blank hblank, hself]
  · rw [← List.singleton_append, trimEnd_append_of_not_blank hblank, List.singleton_append]

/-- A text that does not begin with a blank stays behind what is trimmed. -/
theorem trimStart_append_of_head? {tail : Text} (h : ∀ c ∈ tail.head?, isBlank c = false)
    (text : Text) : trimStart (text ++ tail) = trimStart text ++ tail := by
  induction text with
  | nil => exact trimStart_eq_self_iff.2 h
  | cons c rest ih =>
      by_cases hc : isBlank c = true
      · rw [trimStart] at ih ⊢
        rw [List.cons_append, List.dropWhile_cons_of_pos hc, ih, trimStart, trimStart,
          List.dropWhile_cons_of_pos hc]
      · rw [trimStart, trimStart, List.cons_append, List.dropWhile_cons_of_neg hc,
          List.dropWhile_cons_of_neg hc, List.cons_append]

/-- A text with something that is not blank keeps what stands behind it. -/
theorem trimStart_append_of_not_blank {text : Text} (h : ¬ ∀ c ∈ text, isBlank c = true)
    (tail : Text) : trimStart (text ++ tail) = trimStart text ++ tail := by
  have hne : (text.dropWhile isBlank).isEmpty = false := by
    rw [List.isEmpty_eq_false_iff]
    intro hnil
    exact h (List.dropWhile_eq_nil_iff.1 hnil)
  rw [trimStart, trimStart, List.dropWhile_append, hne]
  simp

theorem trimStart_trimStart (text : Text) : trimStart (trimStart text) = trimStart text :=
  trimStart_eq_self_iff.2 (head?_trimStart text)

/-- The ends can be trimmed in either order. -/
theorem trimStart_trimEnd (text : Text) : trimStart (trimEnd text) = trim text := by
  obtain ⟨blanks, htext, hblanks⟩ := exists_append_trimStart text
  by_cases hblank : ∀ c ∈ trimStart text, isBlank c = true
  · have hall : ∀ c ∈ text, isBlank c = true := by
      rw [htext]
      intro c hc
      rcases List.mem_append.1 hc with hc | hc
      · exact hblanks c hc
      · exact hblank c hc
    rw [trimEnd_eq_nil_iff.2 hall, trim, trimEnd_eq_nil_iff.2 hblank]
    rfl
  · have hhead := head?_trimEnd (head?_trimStart text)
    rw [trim]
    conv_lhs => rw [htext]
    rw [trimEnd_append_of_not_blank hblank, trimStart, List.dropWhile_append_of_pos hblanks,
      ← trimStart, trimStart_eq_self_iff.2 hhead]

theorem trim_space_cons (text : Text) : trim (' ' :: text) = trim text := by
  have hblank : isBlank ' ' = true := by decide
  rw [trim, trimStart, List.dropWhile_cons_of_pos hblank, ← trimStart, ← trim]

theorem mem_of_mem_trim {c : Char} {text : Text} (h : c ∈ trim text) : c ∈ text := by
  have hstart : c ∈ trimStart text := (List.rdropWhile_prefix isBlank (trimStart text)).subset h
  exact (List.dropWhile_sublist isBlank).subset hstart

/-- Trimming keeps every character that is not blank. -/
theorem mem_trim {c : Char} (hc : isBlank c = false) {text : Text} (h : c ∈ text) :
    c ∈ trim text := by
  have hblank : ∀ {blanks : Text}, (∀ d ∈ blanks, isBlank d = true) → c ∉ blanks := by
    intro blanks hblanks hmem
    rw [hblanks c hmem] at hc
    cases hc
  obtain ⟨front, htext, hfront⟩ := exists_append_trimStart text
  obtain ⟨back, hstart, hback⟩ := exists_trimEnd_append (trimStart text)
  have hstarted : c ∈ trimStart text := by
    rw [htext, List.mem_append] at h
    exact h.resolve_left (hblank hfront)
  rw [hstart, List.mem_append] at hstarted
  exact hstarted.resolve_right (hblank hback)

/-- The beginning of a text that does not begin with a blank. -/
theorem head?_trim_append {text : Text} (h : ¬ ∀ c ∈ text, isBlank c = true) (tail : Text) :
    (trim (text ++ tail)).head? = (trimStart text).head? := by
  have hhead := head?_trimStart text
  rw [trim, trimStart_append_of_not_blank h]
  cases hstart : trimStart text with
  | nil => exact absurd (List.dropWhile_eq_nil_iff.1 hstart) h
  | cons c rest =>
      rw [hstart] at hhead
      have hc := hhead c rfl
      -- The first ink stays, so that trimming the end leaves it in front.
      have hne : trimEnd (c :: rest ++ tail) ≠ [] := by
        intro hnil
        have := trimEnd_eq_nil_iff.1 hnil c (by simp)
        rw [hc] at this
        cases this
      obtain ⟨after, hafter⟩ := List.rdropWhile_prefix isBlank (c :: rest ++ tail)
      rw [← trimEnd_eq_rdropWhile] at hafter
      rw [List.head?_cons, ← List.head?_append_of_ne_nil _ hne, hafter]
      rfl

/-! ## Characters that are not blank -/

/-- The number of characters that are not blank. -/
def inkLength (text : Text) : Nat :=
  text.countP (fun c => !isBlank c)

@[simp] theorem inkLength_nil : inkLength [] = 0 := rfl

@[simp] theorem inkLength_append (first second : Text) :
    inkLength (first ++ second) = inkLength first + inkLength second :=
  List.countP_append

theorem inkLength_cons (c : Char) (rest : Text) :
    inkLength (c :: rest) = inkLength rest + if isBlank c then 0 else 1 := by
  by_cases hc : isBlank c = true <;> simp [inkLength, hc]

theorem inkLength_of_blank {text : Text} (h : ∀ c ∈ text, isBlank c = true) :
    inkLength text = 0 := by
  rw [inkLength, List.countP_eq_zero]
  intro c hc
  simp [h c hc]

theorem inkLength_trimStart (text : Text) : inkLength (trimStart text) = inkLength text := by
  induction text with
  | nil => rfl
  | cons c rest ih =>
      by_cases hc : isBlank c = true
      · rw [inkLength_cons, ← ih]
        simp [trimStart, hc]
      · simp [trimStart, hc]

theorem inkLength_reverse (text : Text) : inkLength text.reverse = inkLength text :=
  List.countP_reverse

theorem inkLength_trimEnd (text : Text) : inkLength (trimEnd text) = inkLength text := by
  calc inkLength (trimEnd text)
      = inkLength (trimStart text.reverse) := inkLength_reverse _
    _ = inkLength text.reverse := inkLength_trimStart _
    _ = inkLength text := inkLength_reverse text

@[simp] theorem inkLength_trim (text : Text) : inkLength (trim text) = inkLength text := by
  rw [trim, inkLength_trimEnd, inkLength_trimStart]

/-! ## Where a stretch ends -/

/-- A stretch without a character ends where that character first stands. -/
theorem append_cons_inj_of_not_mem {first first' rest rest' : Text} {c : Char}
    (h : first ++ c :: rest = first' ++ c :: rest') (hfirst : c ∉ first) (hfirst' : c ∉ first') :
    first = first' ∧ rest = rest' := by
  rw [List.append_eq_append_iff] at h
  rcases h with ⟨between, rfl, hrest⟩ | ⟨between, rfl, hrest⟩
  · cases between with
    | nil => exact ⟨by simp, by simpa using hrest⟩
    | cons d between =>
        rw [List.cons_append, List.cons.injEq] at hrest
        exact absurd (by simp [hrest.1]) hfirst'
  · cases between with
    | nil => exact ⟨by simp, by simpa using hrest.symm⟩
    | cons d between =>
        rw [List.cons_append, List.cons.injEq] at hrest
        exact absurd (by simp [hrest.1]) hfirst

/-- Two stretches in front of one text have the same end if they have as many characters that
are not blank, and such a character follows each of them. -/
theorem append_cons_inj_of_inkLength {first first' rest rest' : Text} {c c' : Char}
    (h : first ++ c :: rest = first' ++ c' :: rest') (hc : isBlank c = false)
    (hc' : isBlank c' = false) (hink : inkLength first = inkLength first') :
    first = first' ∧ c :: rest = c' :: rest' := by
  rw [List.append_eq_append_iff] at h
  -- If one text is longer, the character between is ink that the other does not have.
  rcases h with ⟨between, rfl, hrest⟩ | ⟨between, rfl, hrest⟩
  · cases between with
    | nil => exact ⟨by simp, by simpa using hrest⟩
    | cons d between =>
        rw [List.cons_append, List.cons.injEq] at hrest
        obtain ⟨rfl, -⟩ := hrest
        rw [inkLength_append, inkLength_cons, hc] at hink
        simp at hink
  · cases between with
    | nil => exact ⟨by simp, by simpa using hrest.symm⟩
    | cons d between =>
        rw [List.cons_append, List.cons.injEq] at hrest
        obtain ⟨rfl, -⟩ := hrest
        rw [inkLength_append, inkLength_cons, hc'] at hink
        simp at hink

end Text

end UtilityCss
