import UtilityCss.Proofs.ClassName.Basic

/-!
# Where a text is cut at its top level

A text is cut at exactly those separators before which no backslash has anything to take, no quote
is open and no bracket is open (`Nesting.splitTopLevel_exact`). Backslashes are read first, as in
class names, quotes in what they leave, and brackets in what stands outside quotes, so that the
three readings do not depend on each other.

* `Nesting.openQuote?` is the quote that is open behind a text.
* `Nesting.unquoted` is what is left of a text without its quotes.
* `Nesting.openBrackets` counts the brackets that are open behind a text.
* `Nesting.IsOutside` says that a text ends outside of everything.
-/

set_option autoImplicit false

namespace UtilityCss.Nesting

open ClassName (bare endsPending ne_backslash_of_cases)

/-! ## What stands before a place -/

/-- The marks that open a quote. -/
def quotes : List Char := ['"', '\'']

/-- The brackets that open. -/
def openings : List Char := ['(', '[', '{']

/-- The brackets that close. -/
def closings : List Char := [')', ']', '}']

/-- The characters that have a meaning of their own. -/
def meaningful : List Char := '\\' :: (quotes ++ openings ++ closings)

/-- The open quote after one more character. A quote ends at the mark that opened it. -/
def quoteAfter : Option Char → Char → Option Char
  | none, c => if c ∈ quotes then some c else none
  | some mark, c => if c = mark then none else some mark

/-- The quote that is open behind a text. -/
def openQuote? (text : Text) : Option Char :=
  (bare text).foldl quoteAfter none

/-- A text without its quotes and their marks. The given quote is open in front of it. -/
def unquoted : Option Char → Text → Text
  | _, [] => []
  | none, c :: rest => if c ∈ quotes then unquoted (some c) rest else c :: unquoted none rest
  | some mark, c :: rest => unquoted (quoteAfter (some mark) c) rest

/-- The number of open brackets after one more character. Any bracket closes any other, and one that
closes nothing does not count. -/
def countBracket (depth : Nat) (c : Char) : Nat :=
  if c ∈ openings then depth + 1 else if c ∈ closings then depth - 1 else depth

/-- The number of brackets that are open behind a text. Those in quotes do not count. -/
def openBrackets (text : Text) : Nat :=
  (unquoted none (bare text)).foldl countBracket 0

/-- A text that ends outside of everything. -/
structure IsOutside (text : Text) : Prop where
  /-- The last backslash has something to take. -/
  taken : endsPending text = false
  /-- No quote is open. -/
  unquoted : openQuote? text = none
  /-- No bracket is open. -/
  closed : openBrackets text = 0

/-! ## The scan -/

theorem isQuote_iff {c : Char} : isQuote c = true ↔ c ∈ quotes := by
  simp [isQuote, quotes]

theorem isOpening_iff {c : Char} : isOpening c = true ↔ c ∈ openings := by
  simp [isOpening, openings, or_assoc]

theorem isClosing_iff {c : Char} : isClosing c = true ↔ c ∈ closings := by
  simp [isClosing, closings, or_assoc]

theorem reads_scan_iff {c : Char} : scan.reads c = true ↔ c ∈ meaningful := by
  simp only [scan, isSpecial, Bool.or_eq_true, beq_iff_eq, isQuote_iff, isOpening_iff,
    isClosing_iff, meaningful, List.mem_cons, List.mem_append, or_assoc]

theorem isQuiet_scan : scan.IsQuiet := fun _ hc => step_top_of_not_special hc

theorem unquoted_cons (quote : Option Char) (c : Char) (rest : Text) :
    unquoted quote (c :: rest) = unquoted quote [c] ++ unquoted (quoteAfter quote c) rest := by
  cases quote with
  | none =>
      by_cases hc : c ∈ quotes
      · simp [unquoted, quoteAfter, hc]
      · simp [unquoted, quoteAfter, hc]
  | some mark => simp [unquoted]

/-- Away from backslashes the scan reads the quote, and outside quotes the brackets. -/
theorem step_of_ne_backslash {c : Char} (h : c ≠ '\\') (quote : Option Char) (depth : Nat) :
    scan.step ⟨false, quote, depth⟩ c =
      ⟨false, quoteAfter quote c, (unquoted quote [c]).foldl countBracket depth⟩ := by
  cases quote with
  | some mark =>
      simp only [scan, step, Bool.false_eq_true, if_false, h, quoteAfter, unquoted, List.foldl_nil]
      split <;> rfl
  | none =>
      simp only [scan, step, Bool.false_eq_true, if_false, h, isQuote_iff, isOpening_iff,
        isClosing_iff, quoteAfter, unquoted]
      by_cases hquote : c ∈ quotes
      · simp only [hquote, if_true, List.foldl_nil]
      · simp only [hquote, if_false, List.foldl_cons, List.foldl_nil, countBracket]
        split
        · rfl
        · split <;> rfl

/-- The scan comes to where the three readings of a text say. -/
theorem finish_scan (quote : Option Char) (depth : Nat) (text : Text) :
    scan.finish ⟨false, quote, depth⟩ text =
      ⟨endsPending text, (bare text).foldl quoteAfter quote,
        (unquoted quote (bare text)).foldl countBracket depth⟩ := by
  fun_induction bare text generalizing quote depth with
  | case1 => rfl
  | case2 => rfl
  | case3 c rest ih =>
      -- A backslash and the character it takes change neither the quote nor the depth.
      rw [endsPending]
      exact ih quote depth
  | case4 c rest hlone hpair ih =>
      have hpending : endsPending (c :: rest) = endsPending rest := by
        rw [endsPending]
        · exact hlone
        · exact hpair
      rw [Scan.finish_cons, step_of_ne_backslash (ne_backslash_of_cases hlone hpair), ih, hpending,
        List.foldl_cons, unquoted_cons quote c (bare rest), List.foldl_append]

/-- At the start of the scan nothing is open. -/
theorem finish_scan_eq_start_iff {text : Text} :
    scan.finish scan.start text = scan.start ↔ IsOutside text := by
  rw [show scan.start = ⟨false, none, 0⟩ from rfl, finish_scan, Nesting.mk.injEq]
  exact ⟨fun h => ⟨h.1, h.2.1, h.2.2⟩, fun h => ⟨h.taken, h.unquoted, h.closed⟩⟩

/-! ## Cuts -/

/-- A text is cut at exactly those separators before which it is outside of backslashes, quotes and
brackets. Characters that have a meaning of their own are no separators. The parts joined with the
separator are the text, and none of them is cut any further. A separator leaves both its sides to be
cut on their own exactly when it has no meaning of its own and the text before it ends outside. -/
theorem splitTopLevel_exact (separator : Char) (text : Text) :
    (∀ place, place ∈ Text.joints (Text.splitTopLevel separator text) ↔
      text[place]? = some separator ∧ separator ∉ meaningful ∧ IsOutside (text.take place)) ∧
    (Text.joints (Text.splitTopLevel separator text)).Pairwise (· < ·) ∧
    (separator ∈ meaningful → Text.splitTopLevel separator text = [text]) ∧
    [separator].intercalate (Text.splitTopLevel separator text) = text ∧
    (∀ part ∈ Text.splitTopLevel separator text, Text.splitTopLevel separator part = [part]) ∧
    ∀ rest, Text.splitTopLevel separator (text ++ separator :: rest) =
        Text.splitTopLevel separator text ++ Text.splitTopLevel separator rest ↔
      separator ∉ meaningful ∧ IsOutside text := by
  refine ⟨?_, Text.pairwise_joints _, ?_, Text.intercalate_splitTopLevel separator text, ?_, ?_⟩
  · intro place
    rw [Text.splitTopLevel, Scan.mem_joints_split_iff scan separator isQuiet_scan,
      finish_scan_eq_start_iff, ← Bool.not_eq_true, reads_scan_iff]
  · intro h
    exact Scan.splitFrom_of_reads scan separator (reads_scan_iff.2 h) _ text
  · intro part h
    exact Scan.split_of_mem_split scan separator h
  · intro rest
    rw [Text.splitTopLevel, Text.splitTopLevel, Text.splitTopLevel,
      Scan.split_append_separator_iff scan separator isQuiet_scan, finish_scan_eq_start_iff,
      ← Bool.not_eq_true, reads_scan_iff]

/-- A text with separators in brackets, in a quote and behind a backslash. Its first bracket closes
nothing, and a bracket is closed by one of another kind. -/
def nestedText : Text := ")a;[b;\"c;]\"\x7d;\\;d".toList

/-- The part of the text with brackets and a quote. -/
def nestedPart : Text := "[b;\"c;]\"\x7d".toList

theorem splitTopLevel_nestedText :
    Text.joints (Text.splitTopLevel ';' nestedText) = [2, 12] ∧
    (∀ place, place ∈ [2, 12] ↔
      nestedText[place]? = some ';' ∧ ';' ∉ meaningful ∧ IsOutside (nestedText.take place)) ∧
    ')' ∈ meaningful ∧ Text.splitTopLevel ')' nestedText = [nestedText] ∧
    nestedPart ∈ Text.splitTopLevel ';' nestedText ∧
    Text.splitTopLevel ';' nestedPart = [nestedPart] ∧
    Text.splitTopLevel ';' (nestedText ++ ';' :: nestedText) =
      Text.splitTopLevel ';' nestedText ++ Text.splitTopLevel ';' nestedText := by
  have hjoints : Text.joints (Text.splitTopLevel ';' nestedText) = [2, 12] := by decide
  have hbracket : ')' ∈ meaningful := by decide
  have hpart : nestedPart ∈ Text.splitTopLevel ';' nestedText := by decide
  have houtside : IsOutside nestedText := ⟨by decide, by decide, by decide⟩
  obtain ⟨hplaces, -, -, -, hparts, hsides⟩ := splitTopLevel_exact ';' nestedText
  obtain ⟨-, -, hwhole, -, -, -⟩ := splitTopLevel_exact ')' nestedText
  rw [hjoints] at hplaces
  exact ⟨hjoints, hplaces, hbracket, hwhole hbracket, hpart, hparts nestedPart hpart,
    (hsides nestedText).2 ⟨by decide, houtside⟩⟩

end UtilityCss.Nesting
