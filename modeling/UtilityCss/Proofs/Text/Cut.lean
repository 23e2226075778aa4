import UtilityCss.Text
import Mathlib.Tactic.Common

/-!
# Laws of cutting

A stretch of text is uncut when its only piece is itself. An uncut stretch after which the scan
stands at its start is a piece of every longer text in which a separator follows
(`Scan.splitFrom_append_of_uncut`), and every first piece comes about in this way
(`Scan.splitFrom_eq_cons`).

A text that is cut at separators is known from the places of the cuts. They are the places where
the separator stands and the scan is at its start (`Scan.mem_joints_split_iff`). No piece is cut any
further (`Scan.split_of_mem_split`), and the last piece is what stands behind the last cut
(`Text.getLast_eq_drop`). The two sides of a cut are cut on their own
(`Scan.split_append_separator_iff`).

* `Text.joints` lists the places where pieces are joined by one character.
* `Scan.IsQuiet` says that the characters that the scan does not read leave it at its start.
-/

set_option autoImplicit false

namespace UtilityCss.Scan

/-! ## Pieces -/

variable {σ : Type} (scan : Scan σ)

@[simp] theorem finish_nil (s : σ) : scan.finish s [] = s := rfl

@[simp] theorem finish_cons (s : σ) (c : Char) (rest : Text) :
    scan.finish s (c :: rest) = scan.finish (scan.step s c) rest := rfl

variable [DecidableEq σ] (separator : Char)

theorem splitFrom_cons_of_cut {s : σ} {c : Char} {rest : Text}
    (h : scan.cutsAt separator s c = true) :
    scan.splitFrom separator s (c :: rest) = [] :: scan.split separator rest := by
  rw [splitFrom, if_pos h, split]

theorem splitFrom_cons_of_not_cut {s : σ} {c : Char} {rest : Text}
    (h : scan.cutsAt separator s c = false) :
    scan.splitFrom separator s (c :: rest) =
      (scan.splitFrom separator (scan.step s c) rest).modifyHead (c :: ·) := by
  rw [splitFrom, if_neg (by simp [h])]

theorem cutsAt_start (h : scan.reads separator = false) :
    scan.cutsAt separator scan.start separator = true := by
  simp [cutsAt, h]

/-- A cut is at a separator, where the scan stands at its start. -/
theorem of_cutsAt {s : σ} {c : Char} (h : scan.cutsAt separator s c = true) :
    c = separator ∧ s = scan.start := by
  simp only [cutsAt, Bool.and_eq_true, beq_iff_eq, decide_eq_true_eq] at h
  exact ⟨h.1.1, h.2⟩

/-- A text is uncut when its first character cuts nothing and the rest is uncut. -/
theorem splitFrom_cons_eq_self_iff {s : σ} {c : Char} {rest : Text} :
    scan.splitFrom separator s (c :: rest) = [c :: rest] ↔
      scan.cutsAt separator s c = false ∧
        scan.splitFrom separator (scan.step s c) rest = [rest] := by
  cases hcut : scan.cutsAt separator s c with
  | true =>
      rw [splitFrom_cons_of_cut scan separator hcut]
      simp
  | false =>
      rw [splitFrom_cons_of_not_cut scan separator hcut]
      cases hrest : scan.splitFrom separator (scan.step s c) rest with
      | nil => exact absurd hrest (splitFrom_ne_nil _ _ _ _)
      | cons first others => simp

/-- A text is uncut when no separator in it finds the scan at its start. -/
theorem splitFrom_eq_self_iff (hsep : scan.reads separator = false) {s : σ} {text : Text} :
    scan.splitFrom separator s text = [text] ↔
      ∀ before after, text = before ++ separator :: after → scan.finish s before ≠ scan.start := by
  induction text generalizing s with
  | nil => simp [splitFrom]
  | cons c text ih =>
      rw [splitFrom_cons_eq_self_iff, ih]
      constructor
      · rintro ⟨hcut, hrest⟩ before after heq
        cases before with
        | nil =>
            -- The separator is the first character, where the scan has not moved.
            rw [List.nil_append, List.cons.injEq] at heq
            intro hstart
            rw [heq.1, show s = scan.start from hstart, cutsAt_start scan separator hsep] at hcut
            cases hcut
        | cons d before =>
            rw [List.cons_append, List.cons.injEq] at heq
            obtain ⟨rfl, rfl⟩ := heq
            exact hrest before after rfl
      · intro h
        constructor
        · rw [Bool.eq_false_iff]
          intro hcut
          obtain ⟨rfl, rfl⟩ := of_cutsAt scan separator hcut
          exact h [] text rfl rfl
        · rintro before after rfl
          exact h (c :: before) after rfl

/-- An uncut stretch that leaves the scan at its start is a piece where a separator follows. -/
theorem splitFrom_append_of_uncut (hsep : scan.reads separator = false) {s : σ}
    {piece rest : Text} (hcut : scan.splitFrom separator s piece = [piece])
    (hstart : scan.finish s piece = scan.start) :
    scan.splitFrom separator s (piece ++ separator :: rest) =
      piece :: scan.split separator rest := by
  induction piece generalizing s with
  | nil =>
      rw [finish_nil] at hstart
      subst hstart
      exact splitFrom_cons_of_cut scan separator (cutsAt_start scan separator hsep)
  | cons c piece ih =>
      obtain ⟨hc, hpiece⟩ := (splitFrom_cons_eq_self_iff scan separator).1 hcut
      rw [List.cons_append, splitFrom_cons_of_not_cut scan separator hc, ih hpiece hstart]
      rfl

/-- The first piece is uncut. It is the whole text, or a separator follows it and the scan stands
at its start there. -/
theorem splitFrom_eq_cons {s : σ} {text first : Text} {others : List Text}
    (h : scan.splitFrom separator s text = first :: others) :
    scan.splitFrom separator s first = [first] ∧
      ((text = first ∧ others = []) ∨
        ∃ rest, text = first ++ separator :: rest ∧ others = scan.split separator rest ∧
          scan.finish s first = scan.start) := by
  induction text generalizing s first with
  | nil =>
      simp only [splitFrom, List.cons.injEq] at h
      obtain ⟨rfl, rfl⟩ := h
      exact ⟨rfl, Or.inl ⟨rfl, rfl⟩⟩
  | cons c text ih =>
      cases hcut : scan.cutsAt separator s c with
      | true =>
          rw [splitFrom_cons_of_cut scan separator hcut, List.cons.injEq] at h
          obtain ⟨rfl, rfl⟩ := h
          obtain ⟨rfl, rfl⟩ := of_cutsAt scan separator hcut
          exact ⟨rfl, Or.inr ⟨text, rfl, rfl, rfl⟩⟩
      | false =>
          -- The first piece begins with `c`, and what follows is the first piece of the rest.
          rw [splitFrom_cons_of_not_cut scan separator hcut] at h
          cases hrest : scan.splitFrom separator (scan.step s c) text with
          | nil => exact absurd hrest (splitFrom_ne_nil _ _ _ _)
          | cons first' others' =>
              rw [hrest, List.modifyHead_cons, List.cons.injEq] at h
              obtain ⟨rfl, rfl⟩ := h
              obtain ⟨huncut, hplace⟩ := ih hrest
              refine ⟨(splitFrom_cons_eq_self_iff scan separator).2 ⟨hcut, huncut⟩, ?_⟩
              rcases hplace with ⟨rfl, hothers⟩ | ⟨rest, rfl, hothers, hfinish⟩
              · exact Or.inl ⟨rfl, hothers⟩
              · exact Or.inr ⟨rest, rfl, hothers, hfinish⟩

end UtilityCss.Scan

namespace UtilityCss.Nesting

/-- A character that is neither special nor the separator can stand in front of a text. -/
theorem splitTopLevel_cons_of_not_special {separator c : Char} {text : Text}
    (hc : isSpecial c = false) (hne : c ≠ separator) :
    Text.splitTopLevel separator (c :: text) =
      (Text.splitTopLevel separator text).modifyHead (c :: ·) := by
  have hcut : scan.cutsAt separator top c = false := by simp [Scan.cutsAt, hne]
  have hstep : scan.step top c = top := step_top_of_not_special hc
  rw [Text.splitTopLevel, Scan.split, show scan.start = top from rfl,
    Scan.splitFrom_cons_of_not_cut scan separator hcut, hstep]
  rfl

/-- The same for a whole stretch of such characters. -/
theorem splitTopLevel_append_of_not_special {separator : Char} {lead text : Text}
    (hlead : ∀ c ∈ lead, isSpecial c = false ∧ c ≠ separator) :
    Text.splitTopLevel separator (lead ++ text) =
      (Text.splitTopLevel separator text).modifyHead (lead ++ ·) := by
  induction lead with
  | nil => exact (congrFun List.modifyHead_id _).symm
  | cons c lead ih =>
      obtain ⟨hc, hne⟩ := hlead c List.mem_cons_self
      rw [List.cons_append, splitTopLevel_cons_of_not_special hc hne,
        ih fun d hd => hlead d (List.mem_cons_of_mem c hd), List.modifyHead_modifyHead]
      rfl

theorem finish_top_append_of_not_special {lead text : Text}
    (hlead : ∀ c ∈ lead, isSpecial c = false) :
    scan.finish top (lead ++ text) = scan.finish top text := by
  induction lead with
  | nil => rfl
  | cons c lead ih =>
      have hstep : scan.step top c = top :=
        step_top_of_not_special (hlead c List.mem_cons_self)
      rw [List.cons_append, Scan.finish_cons, hstep,
        ih fun d hd => hlead d (List.mem_cons_of_mem c hd)]

end UtilityCss.Nesting

namespace UtilityCss

/-! ## The places of cuts -/

namespace Text

/-- The places of the separators between pieces, in the text in which one character joins them. -/
def joints : List Text → List Nat
  | [] => []
  | [_] => []
  | first :: second :: rest =>
    first.length :: (joints (second :: rest)).map (· + (first.length + 1))

theorem joints_cons {pieces : List Text} (hne : pieces ≠ []) (first : Text) :
    joints (first :: pieces) =
      first.length :: (joints pieces).map (· + (first.length + 1)) := by
  cases pieces with
  | nil => exact absurd rfl hne
  | cons second rest => rfl

/-- A character in front of the first piece moves all places by one. -/
theorem joints_modifyHead_cons {pieces : List Text} (hne : pieces ≠ []) (c : Char) :
    joints (pieces.modifyHead (c :: ·)) = (joints pieces).map (· + 1) := by
  match pieces, hne with
  | [only], _ => rfl
  | first :: second :: rest, _ =>
      have hmove : (fun place => place + ((c :: first).length + 1)) =
          (· + 1) ∘ (· + (first.length + 1)) := by
        funext place
        simp [Nat.add_assoc]
      rw [List.modifyHead_cons, joints_cons (List.cons_ne_nil _ _), hmove,
        joints_cons (List.cons_ne_nil _ _), List.map_cons, List.map_map, List.length_cons]

/-- The places come in order. -/
theorem pairwise_joints (pieces : List Text) : (joints pieces).Pairwise (· < ·) := by
  fun_induction joints pieces with
  | case1 => exact .nil
  | case2 => exact .nil
  | case3 first second rest ih =>
      apply List.Pairwise.cons
      · intro place hplace
        obtain ⟨before, -, rfl⟩ := List.mem_map.1 hplace
        omega
      · rw [List.pairwise_map]
        exact ih.imp fun h => Nat.add_lt_add_right h _

/-- Without joints there is one piece. -/
theorem getLast_of_joints_eq_nil {pieces : List Text} (hne : pieces ≠ []) (separator : Text)
    (h : joints pieces = []) : pieces.getLast hne = separator.intercalate pieces := by
  match pieces, hne with
  | [only], _ => simp
  | first :: second :: rest, _ => exact absurd h (List.cons_ne_nil _ _)

/-- Places behind the first piece and its separator are places in what follows. -/
theorem drop_intercalate_cons {pieces : List Text} (hne : pieces ≠ []) (separator : Char)
    (first : Text) (count : Nat) :
    ([separator].intercalate (first :: pieces)).drop (first.length + 1 + count) =
      ([separator].intercalate pieces).drop count := by
  have hlength : first.length + 1 = (first ++ [separator]).length := by
    rw [List.length_append, List.length_singleton]
  rw [List.intercalate_cons_of_ne_nil hne, hlength, List.drop_length_add_append]

/-- Where pieces are followed by others, there is a joint behind them. -/
theorem length_intercalate_mem_joints {pieces others : List Text} (hne : pieces ≠ [])
    (hothers : others ≠ []) (separator : Char) :
    ([separator].intercalate pieces).length ∈ joints (pieces ++ others) := by
  induction pieces with
  | nil => exact absurd rfl hne
  | cons first pieces ih =>
      rw [List.cons_append, joints_cons (List.append_ne_nil_of_right_ne_nil _ hothers)]
      cases pieces with
      | nil => simp
      | cons second rest =>
          have hrest := List.cons_ne_nil second rest
          have hlength : ([separator].intercalate (first :: second :: rest)).length =
              ([separator].intercalate (second :: rest)).length + (first.length + 1) := by
            rw [List.intercalate_cons_of_ne_nil hrest, List.length_append, List.length_append,
              List.length_singleton, Nat.add_comm]
          rw [hlength]
          exact List.mem_cons_of_mem _ (List.mem_map_of_mem (ih hrest))

/-- The last piece stands behind the last joint. -/
theorem getLast_eq_drop {pieces : List Text} (hne : pieces ≠ []) (separator : Char) {place : Nat}
    (h : (joints pieces).getLast? = some place) :
    pieces.getLast hne = ([separator].intercalate pieces).drop (place + 1) := by
  induction pieces generalizing place with
  | nil => exact absurd rfl hne
  | cons first pieces ih =>
      cases pieces with
      | nil => cases h
      | cons second rest =>
          have hrest := List.cons_ne_nil second rest
          rw [joints_cons hrest, List.getLast?_cons, List.getLast?_map] at h
          rw [List.getLast_cons hrest]
          cases hlast : (joints (second :: rest)).getLast? with
          | none =>
              -- The only joint is the one behind the first piece.
              obtain rfl : first.length = place := by simpa [hlast] using h
              rw [drop_intercalate_cons hrest separator first 0, List.drop_zero]
              exact getLast_of_joints_eq_nil hrest _ (List.getLast?_eq_none_iff.1 hlast)
          | some before =>
              obtain rfl : before + (first.length + 1) = place := by simpa [hlast] using h
              have hplace : before + (first.length + 1) + 1 = first.length + 1 + (before + 1) := by
                omega
              rw [hplace, drop_intercalate_cons hrest]
              exact ih hrest hlast

end Text

namespace Scan

variable {σ : Type} (scan : Scan σ)

/-- The characters that the scan does not read leave it at its start. -/
def IsQuiet : Prop :=
  ∀ c, scan.reads c = false → scan.step scan.start c = scan.start

variable [DecidableEq σ] (separator : Char)

/-- A character that the scan reads cuts nothing. -/
theorem splitFrom_of_reads (h : scan.reads separator = true) (s : σ) (text : Text) :
    scan.splitFrom separator s text = [text] := by
  induction text generalizing s with
  | nil => rfl
  | cons c text ih =>
      have hcut : scan.cutsAt separator s c = false := by
        rw [Bool.eq_false_iff]
        intro hcut
        obtain ⟨rfl, -⟩ := of_cutsAt scan separator hcut
        simp [cutsAt, h] at hcut
      rw [splitFrom_cons_of_not_cut scan separator hcut, ih]
      rfl

/-- No piece is cut any further. -/
theorem split_of_mem_split {text piece : Text} (h : piece ∈ scan.split separator text) :
    scan.split separator piece = [piece] := by
  generalize hpieces : scan.split separator text = pieces at h
  induction pieces generalizing text with
  | nil => cases h
  | cons first others ih =>
      obtain ⟨huncut, hplace⟩ := splitFrom_eq_cons scan separator hpieces
      rcases List.mem_cons.1 h with rfl | hothers
      · exact huncut
      · rcases hplace with ⟨-, rfl⟩ | ⟨rest, -, hrest, -⟩
        · cases hothers
        · exact ih hrest.symm hothers

/-- What stands before and behind a separator that finds the scan at its start is cut on its own. -/
theorem splitFrom_append_separator (hquiet : scan.IsQuiet) (hsep : scan.reads separator = false)
    {s : σ} {first : Text} (hstart : scan.finish s first = scan.start) (rest : Text) :
    scan.splitFrom separator s (first ++ separator :: rest) =
      scan.splitFrom separator s first ++ scan.split separator rest := by
  induction first generalizing s with
  | nil =>
      rw [finish_nil] at hstart
      subst hstart
      exact splitFrom_cons_of_cut scan separator (cutsAt_start scan separator hsep)
  | cons c first ih =>
      rw [finish_cons] at hstart
      rw [List.cons_append]
      cases hcut : scan.cutsAt separator s c with
      | true =>
          -- A cut leaves the scan where it was, so that the rest is read from the start again.
          obtain ⟨rfl, rfl⟩ := of_cutsAt scan separator hcut
          rw [hquiet c hsep] at hstart
          rw [splitFrom_cons_of_cut scan c hcut, splitFrom_cons_of_cut scan c hcut]
          simp only [split, ih hstart, List.cons_append]
      | false =>
          rw [splitFrom_cons_of_not_cut scan separator hcut,
            splitFrom_cons_of_not_cut scan separator hcut, ih hstart]
          cases hfirst : scan.splitFrom separator (scan.step s c) first with
          | nil => exact absurd hfirst (splitFrom_ne_nil _ _ _ _)
          | cons piece pieces => rfl

/-- The first character is a joint if it cuts, and the others are those of the rest. -/
theorem joints_splitFrom_cons (hquiet : scan.IsQuiet) (s : σ) (c : Char) (rest : Text) :
    Text.joints (scan.splitFrom separator s (c :: rest)) =
      (if scan.cutsAt separator s c then [0] else []) ++
        (Text.joints (scan.splitFrom separator (scan.step s c) rest)).map (· + 1) := by
  have hne := splitFrom_ne_nil scan separator
  cases hcut : scan.cutsAt separator s c with
  | false =>
      rw [splitFrom_cons_of_not_cut scan separator hcut, Text.joints_modifyHead_cons (hne _ _)]
      rfl
  | true =>
      -- At a cut the scan is at its start, where the separator leaves it.
      have hstart : scan.step s c = scan.start := by
        obtain ⟨rfl, rfl⟩ := of_cutsAt scan separator hcut
        apply hquiet
        simp only [cutsAt, Bool.and_eq_true, Bool.not_eq_true'] at hcut
        exact hcut.1.2
      rw [splitFrom_cons_of_cut scan separator hcut, hstart, split, Text.joints_cons (hne _ _)]
      rfl

/-- The joints are where a character cuts that finds the scan after all before it. -/
theorem mem_joints_splitFrom_iff (hquiet : scan.IsQuiet) {s : σ} {text : Text} {place : Nat} :
    place ∈ Text.joints (scan.splitFrom separator s text) ↔
      ∃ c, text[place]? = some c ∧
        scan.cutsAt separator (scan.finish s (text.take place)) c = true := by
  induction text generalizing s place with
  | nil => simp [splitFrom, Text.joints]
  | cons c rest ih =>
      rw [joints_splitFrom_cons scan separator hquiet, List.mem_append, List.mem_map]
      -- A cut is at the first character, or at a place in the rest, one further.
      cases place with
      | zero =>
          cases hcut : scan.cutsAt separator s c with
          | true => simp [hcut]
          | false => simp [hcut]
      | succ place =>
          simp only [List.getElem?_cons_succ, List.take_succ_cons, finish_cons, ← ih]
          constructor
          · rintro (hfirst | ⟨before, hbefore, heq⟩)
            · split at hfirst
              · simp at hfirst
              · cases hfirst
            · obtain rfl : before = place := by omega
              exact hbefore
          · intro hplace
            exact Or.inr ⟨place, hplace, rfl⟩

/-- The joints of a text are the separators that find the scan at its start. -/
theorem mem_joints_split_iff (hquiet : scan.IsQuiet) {text : Text} {place : Nat} :
    place ∈ Text.joints (scan.split separator text) ↔
      text[place]? = some separator ∧ scan.reads separator = false ∧
        scan.finish scan.start (text.take place) = scan.start := by
  rw [split, mem_joints_splitFrom_iff scan separator hquiet]
  constructor
  · rintro ⟨c, hc, hcut⟩
    simp only [cutsAt, Bool.and_eq_true, beq_iff_eq, Bool.not_eq_true', decide_eq_true_eq] at hcut
    obtain ⟨⟨rfl, hreads⟩, hstart⟩ := hcut
    exact ⟨hc, hreads, hstart⟩
  · rintro ⟨hc, hreads, hstart⟩
    refine ⟨separator, hc, ?_⟩
    rw [hstart]
    exact cutsAt_start scan separator hreads

/-- A separator cuts a text into what the two sides give on their own exactly when it finds the scan
at its start. -/
theorem split_append_separator_iff (hquiet : scan.IsQuiet) {first rest : Text} :
    scan.split separator (first ++ separator :: rest) =
        scan.split separator first ++ scan.split separator rest ↔
      scan.reads separator = false ∧ scan.finish scan.start first = scan.start := by
  constructor
  · intro h
    -- The pieces of the first side end where the separator stands.
    have hne := splitFrom_ne_nil scan separator scan.start
    have hjoint := Text.length_intercalate_mem_joints (hne first) (hne rest) separator
    rw [intercalate_splitFrom, ← split, ← split, ← h,
      mem_joints_split_iff scan separator hquiet, List.take_left] at hjoint
    exact hjoint.2
  · rintro ⟨hsep, hstart⟩
    exact splitFrom_append_separator scan separator hquiet hsep hstart rest

end Scan

end UtilityCss
