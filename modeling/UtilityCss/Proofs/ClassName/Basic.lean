import UtilityCss.ClassName
import UtilityCss.Proofs.Text.Cut
import UtilityCss.Proofs.Text.Basic
import Mathlib.Data.List.Dedup

/-!
# Chains, states and class lists

A raw class name is cut at the separators that stand outside square brackets and that no backslash
takes, at all of them and nowhere else (`ClassName.segments_exact`). Segments are not cut any
further, and the chain is written as it was read.

* `ClassName.bare` is what is left of a text without backslashes and the characters they take.
* `ClassName.openBrackets` counts the brackets that are open behind a text.
* `ClassName.endsPending` says that the last backslash of a text has nothing to take yet.

A state is a set of variants, so that what it admits does not depend on the order in which they
became active (`VariantState.admits_congr`). A chain is a list. Strict mode compares the length
of the chain with the size of the state, which says that the chain names the active variants and
no others only if no variant is repeated: each repetition makes up for an active variant that is
left out (`VariantState.admits_strict_iff`).

* `VariantState.IsNamedBy` says that a chain and a state have the same variants.
* `VariantState.unnamed` lists the active variants that a chain leaves out.
* `VariantState.repetitions` counts the variants of a chain that stand there once more.

A list of entries that are single words is the same class list as the text in which blanks
separate them (`ClassList.ofText_intercalate`).
-/

set_option autoImplicit false

namespace UtilityCss.ClassName

/-! ## What stands before a place -/

/-- A text without its backslashes and the characters that they take. -/
def bare : Text → Text
  | [] => []
  | ['\\'] => []
  | '\\' :: _ :: rest => bare rest
  | c :: rest => c :: bare rest

/-- Whether a text ends in a backslash that takes what comes next. -/
def endsPending : Text → Bool
  | [] => false
  | ['\\'] => true
  | '\\' :: _ :: rest => endsPending rest
  | _ :: rest => endsPending rest

/-- A character that is neither the last backslash of a text nor takes another one is none. -/
theorem ne_backslash_of_cases {c : Char} {rest : Text} (hlone : c = '\\' → rest ≠ [])
    (hpair : ∀ d others, c = '\\' → rest ≠ d :: others) : c ≠ '\\' := by
  intro hc
  cases rest with
  | nil => exact hlone hc rfl
  | cons d others => exact hpair d others hc rfl

/-- The number of open brackets after one more character. One that closes nothing does not count. -/
def countBracket (depth : Nat) (c : Char) : Nat :=
  if c = '[' then depth + 1 else if c = ']' then depth - 1 else depth

/-- The number of brackets that are open behind a text. -/
def openBrackets (text : Text) : Nat :=
  (bare text).foldl countBracket 0

/-- The characters that have a meaning in a chain. -/
def meaningful : List Char := ['\\', '[', ']']

theorem step_of_ne_backslash {c : Char} (h : c ≠ '\\') (depth : Nat) :
    scan.step ⟨false, depth⟩ c = ⟨false, countBracket depth c⟩ := by
  simp only [scan, h, Bool.false_eq_true, if_false, countBracket]
  split
  · rfl
  · split <;> rfl

/-- The scan counts the open brackets, and remembers a backslash that has nothing to take yet. -/
theorem finish_scan (depth : Nat) (text : Text) :
    scan.finish ⟨false, depth⟩ text = ⟨endsPending text, (bare text).foldl countBracket depth⟩ := by
  fun_induction bare text generalizing depth with
  | case1 => rfl
  | case2 => rfl
  | case3 c rest ih =>
      -- A backslash and the character it takes leave the depth as it is.
      rw [endsPending]
      exact ih depth
  | case4 c rest hlone hpair ih =>
      have hc : c ≠ '\\' := ne_backslash_of_cases hlone hpair
      have hpending : endsPending (c :: rest) = endsPending rest := by
        rw [endsPending]
        · exact hlone
        · exact hpair
      rw [Scan.finish_cons, step_of_ne_backslash hc, ih, hpending, List.foldl_cons]

theorem isQuiet_scan : scan.IsQuiet := by
  intro c hc
  simp only [scan, Bool.or_eq_false_iff, beq_eq_false_iff_ne, ne_eq] at hc
  obtain ⟨⟨hbackslash, hopen⟩, hclose⟩ := hc
  simp [scan, hbackslash, hopen, hclose]

theorem reads_scan_iff {c : Char} : scan.reads c = true ↔ c ∈ meaningful := by
  simp [scan, meaningful, or_assoc]

/-- At the start of the scan no bracket is open and no backslash has anything to take. -/
theorem finish_scan_eq_start_iff {text : Text} :
    scan.finish scan.start text = scan.start ↔
      openBrackets text = 0 ∧ endsPending text = false := by
  rw [show scan.start = ⟨false, 0⟩ from rfl, finish_scan, Depth.mk.injEq, and_comm, openBrackets]

/-! ## Cuts -/

/-- A raw name is cut at exactly those separators before which no bracket is open and no backslash
has anything to take. Characters that have a meaning of their own are no separators. The segments
joined with the separator are the raw name, and none of them is cut any further, so that the chain
is written as it was read. Its base is what stands behind the last cut. -/
theorem segments_exact (separator : Char) (raw : Text) :
    (∀ place, place ∈ Text.joints (segments separator raw) ↔
      raw[place]? = some separator ∧ separator ∉ meaningful ∧
        openBrackets (raw.take place) = 0 ∧ endsPending (raw.take place) = false) ∧
    (Text.joints (segments separator raw)).Pairwise (· < ·) ∧
    (separator ∈ meaningful → segments separator raw = [raw]) ∧
    [separator].intercalate (segments separator raw) = raw ∧
    (∀ segment ∈ segments separator raw, segments separator segment = [segment]) ∧
    (parse separator raw).display = raw ∧
    (Text.joints (segments separator raw) = [] → (parse separator raw).base = raw) ∧
    ∀ place, (Text.joints (segments separator raw)).getLast? = some place →
      (parse separator raw).base = raw.drop (place + 1) := by
  have hjoin : [separator].intercalate (segments separator raw) = raw :=
    Scan.intercalate_split scan separator raw
  have hne := segments_ne_nil separator raw
  refine ⟨?_, Text.pairwise_joints _, ?_, hjoin, ?_, display_parse separator raw, ?_, ?_⟩
  · intro place
    rw [segments, Scan.mem_joints_split_iff scan separator isQuiet_scan, finish_scan_eq_start_iff,
      ← Bool.not_eq_true, reads_scan_iff]
  · intro h
    exact Scan.splitFrom_of_reads scan separator (reads_scan_iff.2 h) _ raw
  · intro segment h
    exact Scan.split_of_mem_split scan separator h
  · intro h
    rw [parse, Text.getLast_of_joints_eq_nil hne _ h, hjoin]
  · intro place h
    have hbase := Text.getLast_eq_drop hne separator h
    rwa [hjoin] at hbase

/-- A chain with separators in brackets and behind a backslash. One bracket closes nothing. -/
def bracketedName : Text := "md:[a:b]]\\::x".toList

theorem segments_bracketedName :
    Text.joints (segments ':' bracketedName) = [2, 11] ∧
    (∀ place, place ∈ [2, 11] ↔ bracketedName[place]? = some ':' ∧ ':' ∉ meaningful ∧
      openBrackets (bracketedName.take place) = 0 ∧
      endsPending (bracketedName.take place) = false) ∧
    segments ']' bracketedName = [bracketedName] ∧
    segments ':' "[a:b]]\\:".toList = ["[a:b]]\\:".toList] ∧
    (parse ':' bracketedName).base = "x".toList ∧
    (parse ']' bracketedName).base = bracketedName := by
  have hjoints : Text.joints (segments ':' bracketedName) = [2, 11] := by decide
  obtain ⟨hplaces, -, -, -, hpieces, -, -, hbase⟩ := segments_exact ':' bracketedName
  obtain ⟨-, -, hwhole, -, -, -, honly, -⟩ := segments_exact ']' bracketedName
  rw [hjoints] at hplaces
  exact ⟨hjoints, hplaces, hwhole (by decide), hpieces _ (by decide),
    hbase 11 (by rw [hjoints]; rfl), honly (by decide)⟩

end UtilityCss.ClassName

namespace UtilityCss.VariantState

variable {state : VariantState} {chain : List Text} {variant : Text}

/-! ## Members -/

@[simp] theorem contains_eq_true_iff : state.contains variant = true ↔ variant ∈ state.active := by
  simp [contains]

theorem mem_active_insert {other : Text} :
    other ∈ (state.insert variant).active ↔ other ∈ state.active ∨ other = variant := by
  rw [insert]
  split
  · rename_i h
    constructor
    · exact Or.inl
    · rintro (hmem | rfl)
      · exact hmem
      · exact h
  · rw [List.mem_append, List.mem_singleton]

theorem mem_active_foldl_insert (variants : List Text) :
    variant ∈ (variants.foldl insert state).active ↔
      variant ∈ state.active ∨ variant ∈ variants := by
  induction variants generalizing state with
  | nil => simp
  | cons first rest ih => rw [List.foldl_cons, ih, mem_active_insert, List.mem_cons, or_assoc]

/-- The variants of a list are active and no others. -/
@[simp] theorem mem_active_ofList {variants : List Text} :
    variant ∈ (ofList variants).active ↔ variant ∈ variants := by
  rw [ofList, mem_active_foldl_insert]
  simp [empty]

/-- States with the same variants have the same size. -/
theorem size_congr {other : VariantState}
    (h : ∀ variant, variant ∈ other.active ↔ variant ∈ state.active) :
    other.size = state.size :=
  ((List.perm_ext_iff_of_nodup other.nodup state.nodup).2 h).length_eq

/-- What a state admits depends on its variants only. -/
theorem admits_congr {other : VariantState} (strict : Bool)
    (h : ∀ variant, variant ∈ other.active ↔ variant ∈ state.active) :
    other.admits strict chain = state.admits strict chain := by
  have hcontains : other.contains = state.contains := by
    funext variant
    rw [contains, contains, decide_eq_decide]
    exact h variant
  rw [admits, admits, size_congr h, hcontains]

/-- Any mode but the strict one asks that the variants of the chain are active. -/
theorem admits_loose_iff :
    state.admits false chain = true ↔ ∀ variant ∈ chain, variant ∈ state.active := by
  simp [admits]

/-! ## Strict mode -/

/-- The chain names every active variant and no other. -/
def IsNamedBy (state : VariantState) (chain : List Text) : Prop :=
  ∀ variant, variant ∈ chain ↔ variant ∈ state.active

instance (state : VariantState) (chain : List Text) : Decidable (state.IsNamedBy chain) :=
  decidable_of_iff (chain.all state.contains = true ∧ state.active.all chain.contains = true)
    (by
      simp only [List.all_eq_true, contains_eq_true_iff, List.contains_iff_mem]
      exact ⟨fun h variant => ⟨h.1 variant, h.2 variant⟩,
        fun h => ⟨fun variant => (h variant).1, fun variant => (h variant).2⟩⟩)

/-- The active variants that a chain leaves out. -/
def unnamed (state : VariantState) (chain : List Text) : List Text :=
  state.active.filter (fun variant => !chain.contains variant)

/-- How many variants of a chain stand there once more. -/
def repetitions (chain : List Text) : Nat :=
  chain.length - chain.dedup.length

theorem repetitions_eq_zero (h : chain.Nodup) : repetitions chain = 0 := by
  rw [repetitions, h.dedup, Nat.sub_self]

theorem length_eq_add_repetitions (chain : List Text) :
    chain.length = chain.dedup.length + repetitions chain := by
  have hle : chain.dedup.length ≤ chain.length := (List.dedup_sublist chain).length_le
  rw [repetitions]
  omega

/-- Of the active variants a chain names its own, if these are active, and leaves out the rest. -/
theorem size_eq_add_unnamed (h : ∀ variant ∈ chain, variant ∈ state.active) :
    state.size = chain.dedup.length + (state.unnamed chain).length := by
  have hnamed : (state.active.filter chain.contains).Perm chain.dedup := by
    apply (List.perm_ext_iff_of_nodup (state.nodup.filter _) chain.nodup_dedup).2
    intro variant
    rw [List.mem_filter, List.mem_dedup, List.contains_iff_mem]
    exact ⟨And.right, fun hmem => ⟨h variant hmem, hmem⟩⟩
  rw [size, unnamed, ← hnamed.length_eq]
  exact List.length_eq_length_filter_add _

theorem unnamed_eq_nil_iff :
    state.unnamed chain = [] ↔ ∀ variant ∈ state.active, variant ∈ chain := by
  simp [unnamed, List.filter_eq_nil_iff]

/-- Strict mode admits the chains of active variants that repeat as many as they leave out. -/
theorem admits_strict_iff :
    state.admits true chain = true ↔
      (∀ variant ∈ chain, variant ∈ state.active) ∧
        repetitions chain = (state.unnamed chain).length := by
  have hadmits : state.admits true chain = true ↔
      chain.length = state.size ∧ ∀ variant ∈ chain, variant ∈ state.active := by
    simp [admits]
  rw [hadmits, and_comm, and_congr_right_iff]
  intro h
  rw [size_eq_add_unnamed h, length_eq_add_repetitions chain, Nat.add_left_cancel_iff]

/-- Strict mode is equality of sets for the chains that repeat nothing. -/
theorem admits_strict_iff_of_nodup (h : chain.Nodup) :
    state.admits true chain = true ↔ state.IsNamedBy chain := by
  rw [admits_strict_iff, repetitions_eq_zero h, eq_comm, List.length_eq_zero_iff,
    unnamed_eq_nil_iff, IsNamedBy]
  constructor
  · rintro ⟨hchain, hactive⟩ variant
    exact ⟨hchain variant, hactive variant⟩
  · intro hsame
    exact ⟨fun variant => (hsame variant).1, fun variant => (hsame variant).2⟩

end UtilityCss.VariantState

namespace UtilityCss.ClassList

/-! ## Class lists -/

theorem ext_names {first second : ClassList} (h : first.names = second.names) :
    first = second := by
  cases first
  cases second
  cases h
  rfl

/-- Each entry counts by itself. -/
theorem names_ofEntries_cons (first : Text) (rest : List Text) :
    (ofEntries (first :: rest)).names = (ofEntries [first]).names ++ (ofEntries rest).names := by
  rw [ofEntries, ofEntries, ofEntries, ← List.filter_append, ← List.map_append,
    List.singleton_append]

/-! ## The words of a text -/

@[simp] theorem names_ofText_nil : (ofText []).names = [] := by
  simp [ofText, ofEntries]

/-- A blank separates the words before it from those after it. -/
theorem names_ofText_append_cons {c : Char} (hc : isBlank c = true) (first rest : Text) :
    (ofText (first ++ c :: rest)).names = (ofText first).names ++ (ofText rest).names := by
  rw [ofText, ofText, ofText, List.splitOnP_append_cons first rest hc]
  simp only [ofEntries, List.map_append, List.filter_append]

theorem names_ofText_append_of_blank {lead : Text} (h : ∀ c ∈ lead, isBlank c = true)
    (text : Text) : (ofText (lead ++ text)).names = (ofText text).names := by
  induction lead with
  | nil => rfl
  | cons c lead ih =>
      rw [List.forall_mem_cons] at h
      have hword := names_ofText_append_cons h.1 [] (lead ++ text)
      rwa [names_ofText_nil, List.nil_append, List.nil_append, ih h.2] at hword

/-- The same where more than one blank separates the words. -/
theorem names_ofText_append {separator : Text} (hne : separator ≠ [])
    (h : ∀ c ∈ separator, isBlank c = true) (first rest : Text) :
    (ofText (first ++ separator ++ rest)).names =
      (ofText first).names ++ (ofText rest).names := by
  cases separator with
  | nil => exact absurd rfl hne
  | cons c separator =>
      rw [List.forall_mem_cons] at h
      rw [List.append_assoc, List.cons_append, names_ofText_append_cons h.1,
        names_ofText_append_of_blank h.2]

theorem names_ofText_append_blanks {tail : Text} (h : ∀ c ∈ tail, isBlank c = true)
    (text : Text) : (ofText (text ++ tail)).names = (ofText text).names := by
  cases tail with
  | nil => rw [List.append_nil]
  | cons c tail =>
      have hword := names_ofText_append (List.cons_ne_nil c tail) h text []
      rwa [names_ofText_nil, List.append_nil, List.append_nil] at hword

/-- A text without blanks is one word. -/
theorem names_ofText_of_not_blank {word : Text} (h : ∀ c ∈ word, isBlank c = false) :
    (ofText word).names = (ofEntries [word]).names := by
  rw [ofText, List.splitOnP_eq_singleton]
  exact h

/-! ## Entries that are words -/

/-- A text with blanks at its ends only has the word between them. -/
theorem names_ofText_entry {entry : Text} (h : ∀ c ∈ Text.trim entry, isBlank c = false) :
    (ofText entry).names = (ofEntries [entry]).names := by
  obtain ⟨lead, hlead, hleadBlank⟩ := Text.exists_append_trimStart entry
  obtain ⟨tail, htail, htailBlank⟩ := Text.exists_trimEnd_append (Text.trimStart entry)
  have hentry : entry = lead ++ (Text.trim entry ++ tail) := by
    rw [Text.trim, ← htail]
    exact hlead
  calc (ofText entry).names
      = (ofText (lead ++ (Text.trim entry ++ tail))).names := by rw [← hentry]
    _ = (ofText (Text.trim entry)).names := by
        rw [names_ofText_append_of_blank hleadBlank, names_ofText_append_blanks htailBlank]
    _ = (ofEntries [entry]).names := by
        rw [names_ofText_of_not_blank h]
        simp [ofEntries]

/-- Words that blanks separate in a text make the same class list as the words in a list. -/
theorem ofText_intercalate {separator : Text} (hne : separator ≠ [])
    (hseparator : ∀ c ∈ separator, isBlank c = true) {entries : List Text}
    (h : ∀ entry ∈ entries, ∀ c ∈ Text.trim entry, isBlank c = false) :
    ofText (separator.intercalate entries) = ofEntries entries := by
  apply ext_names
  induction entries with
  | nil => exact names_ofText_nil
  | cons first rest ih =>
      rw [List.forall_mem_cons] at h
      cases rest with
      | nil =>
          rw [List.intercalate_singleton]
          exact names_ofText_entry h.1
      | cons second rest =>
          rw [List.intercalate_cons_cons, names_ofText_append hne hseparator,
            names_ofText_entry h.1, ih h.2]
          exact (names_ofEntries_cons first (second :: rest)).symm

end UtilityCss.ClassList
