import UtilityCss.Proofs.Reference.Occurrence
import UtilityCss.Proofs.Text.Basic
import UtilityCss.Proofs.Reference.Solved

/-!
# References to removed names

Putting texts together can make a reference that neither of them has: the first may end in the
beginning of one, and trimming may take away the character that kept one from counting. Settled
texts exclude both. They can be put one after the other (`Reference.Settled.append`) and trimmed at
either end (`Reference.Settled.trimStart`, `Reference.Settled.trim`). The references that are kept
are settled (`Reference.settled_source`), and so is the text between references once it is clean when
trimmed (`Reference.settled_of_mem_stretches`).

* `Reference.EndsUnfinished` says that a text ends in the beginning of a reference to a removed
  name.
* `Reference.Clean` says that a text has no reference to a removed name and does not end so.
* `Reference.Settled` says that a text is clean and stays so when it is trimmed.

The pass leaves no reference to a removed name if what it puts into a value is settled. The
invariant is that the values passed so far are settled (`StyleSet.Passed`): one step keeps it
(`Passed.substituteKey`), and so the whole pass ends with settled values
(`StyleSet.settled_substitute`).

* `StyleSet.Feeds` says that the value under a key gets into the value of one that is kept.
* `StyleSet.ReadsClean` is what is asked of a style set and a store: where values get into those
  that are kept, the text between references is clean, and so is every value that the pass reads
  as it was written.
-/

set_option autoImplicit false

namespace UtilityCss.Reference

variable {removed : Text → Prop} {first second text : Text}

/-- The text ends in the beginning of a reference to a removed name, at a place that counts. -/
def EndsUnfinished (removed : Text → Prop) (text : Text) : Prop :=
  ∃ (reference : Reference) (before begun missing : Text),
    reference.IsWellFormed ∧ removed reference.name ∧ reference.source = begun ++ missing ∧
      begun ≠ [] ∧ missing ≠ [] ∧ text = before ++ begun ∧ endsInName false before = false

/-- The text neither refers to a removed name nor ends in an unfinished reference to one. -/
structure Clean (removed : Text → Prop) (text : Text) : Prop where
  free : ∀ reference : Reference, reference.IsWellFormed → removed reference.name →
    ¬ reference.OccursIn false text
  finished : ¬ EndsUnfinished removed text

/-- The text is clean as it is and once it is trimmed. -/
structure Settled (removed : Text → Prop) (text : Text) : Prop where
  clean : Clean removed text
  clean_trim : Clean removed (Text.trim text)

/-! ## Clean texts -/

theorem endsInName_of_append (h : endsInName false (first ++ second) = false) :
    endsInName false second = false := by
  by_cases hsecond : second = []
  · rw [hsecond]
    rfl
  · rw [endsInName_append] at h
    rwa [endsInName_of_ne_nil hsecond false (endsInName false first)]

theorem not_endsUnfinished_append (hfirst : ¬ EndsUnfinished removed first)
    (hsecond : ¬ EndsUnfinished removed second) : ¬ EndsUnfinished removed (first ++ second) := by
  rintro ⟨reference, before, begun, missing, hform, hremoved, hsource, hbegun, hmissing, htext,
    hname⟩
  rcases List.append_eq_append_iff.1 htext with ⟨middle, rfl, rfl⟩ | ⟨middle, rfl, rfl⟩
  · exact hsecond ⟨reference, middle, begun, missing, hform, hremoved, hsource, hbegun, hmissing,
      rfl, endsInName_of_append hname⟩
  · by_cases hmiddle : middle = []
    · subst hmiddle
      exact hsecond ⟨reference, [], second, missing, hform, hremoved, hsource, hbegun, hmissing,
        rfl, rfl⟩
    · have hrest : second ++ missing ≠ [] := by simp [hmissing]
      exact hfirst ⟨reference, before, middle, second ++ missing, hform, hremoved,
        by rw [hsource, List.append_assoc], hmiddle, hrest, rfl, hname⟩

theorem not_occursIn_append {reference : Reference} (hform : reference.IsWellFormed)
    (hremoved : removed reference.name) (hunfinished : ¬ EndsUnfinished removed first)
    (hfirst : ¬ reference.OccursIn false first) (hsecond : ¬ reference.OccursIn false second) :
    ¬ reference.OccursIn false (first ++ second) := by
  rintro ⟨before, after, htext, hname⟩
  rcases List.append_eq_append_iff.1 htext with ⟨middle, rfl, rfl⟩ | ⟨middle, rfl, hrest⟩
  · exact hsecond ⟨middle, after, rfl, endsInName_of_append hname⟩
  · -- `middle` is what the first text has of the reference.
    rcases List.append_eq_append_iff.1 hrest with ⟨more, rfl, -⟩ | ⟨missing, hsource, rfl⟩
    · exact hfirst ⟨before, more, rfl, hname⟩
    · by_cases hmiddle : middle = []
      · subst hmiddle
        exact hsecond ⟨[], after, by rw [hsource]; rfl, rfl⟩
      · by_cases hmissing : missing = []
        · rw [hmissing, List.append_nil] at hsource
          exact hfirst ⟨before, [], by rw [hsource, List.append_nil], hname⟩
        · exact hunfinished ⟨reference, before, middle, missing, hform, hremoved, hsource,
            hmiddle, hmissing, rfl, hname⟩

theorem Clean.append (hfirst : Clean removed first) (hsecond : Clean removed second) :
    Clean removed (first ++ second) where
  free := fun reference hform hremoved =>
    not_occursIn_append hform hremoved hfirst.finished (hfirst.free reference hform hremoved)
      (hsecond.free reference hform hremoved)
  finished := not_endsUnfinished_append hfirst.finished hsecond.finished

theorem clean_nil : Clean removed [] where
  free := fun _ hform _ => hform.not_occursIn_nil false
  finished := by
    rintro ⟨reference, before, begun, missing, -, -, -, hbegun, -, hnil, -⟩
    rw [eq_comm, List.append_eq_nil_iff] at hnil
    exact hbegun hnil.2

/-- A text without the letter with which references begin. -/
theorem clean_of_not_mem (h : 'v' ∉ text) : Clean removed text where
  free := by
    rintro reference hform - ⟨before, after, rfl, -⟩
    obtain ⟨inside, hsource, -⟩ := hform.exists_source_eq
    apply h
    rw [hsource]
    simp
  finished := by
    rintro ⟨reference, before, begun, missing, hform, -, hsource, hbegun, -, rfl, -⟩
    have hhead := hform.head?_begun hsource hbegun
    exact h (List.mem_append_right _ (List.mem_of_mem_head? hhead))

/-! ## Blanks at the ends -/

/-- The beginning of a reference begins with a letter. -/
theorem IsWellFormed.not_blank {reference : Reference} (h : reference.IsWellFormed)
    {begun missing : Text} (hsource : reference.source = begun ++ missing) (hbegun : begun ≠ []) :
    ¬ ∀ c ∈ begun, isBlank c = true := by
  intro hblank
  have hhead := h.head?_begun hsource hbegun
  have hv := hblank 'v' (List.mem_of_mem_head? hhead)
  revert hv
  decide

theorem EndsUnfinished.trimEnd (h : EndsUnfinished removed text) :
    EndsUnfinished removed (Text.trimEnd text) := by
  obtain ⟨reference, before, begun, missing, hform, hremoved, hsource, hbegun, hmissing, rfl,
    hname⟩ := h
  have hblank := hform.not_blank hsource hbegun
  obtain ⟨blanks, hblanks, -⟩ := Text.exists_trimEnd_append begun
  rw [Text.trimEnd_append_of_not_blank hblank]
  refine ⟨reference, before, Text.trimEnd begun, blanks ++ missing, hform, hremoved, ?_, ?_, ?_,
    rfl, hname⟩
  · rw [← List.append_assoc, ← hblanks, hsource]
  · intro hnil
    exact hblank (Text.trimEnd_eq_nil_iff.1 hnil)
  · simp [hmissing]

theorem EndsUnfinished.trimStart (h : EndsUnfinished removed text) :
    EndsUnfinished removed (Text.trimStart text) := by
  obtain ⟨reference, before, begun, missing, hform, hremoved, hsource, hbegun, hmissing, rfl,
    hname⟩ := h
  have hhead : ∀ c ∈ begun.head?, isBlank c = false := by
    intro c hc
    rw [Option.mem_def, hform.head?_begun hsource hbegun] at hc
    cases hc
    decide
  obtain ⟨blanks, hblanks, -⟩ := Text.exists_append_trimStart before
  rw [Text.trimStart_append_of_head? hhead]
  refine ⟨reference, Text.trimStart before, begun, missing, hform, hremoved, hsource, hbegun,
    hmissing, rfl, ?_⟩
  rw [hblanks] at hname
  exact endsInName_of_append hname

theorem EndsUnfinished.trim (h : EndsUnfinished removed text) :
    EndsUnfinished removed (Text.trim text) :=
  h.trimStart.trimEnd

theorem trimEnd_source {reference : Reference} :
    Text.trimEnd reference.source = reference.source := by
  rw [Text.trimEnd_eq_self_iff]
  intro c hc
  rw [source, List.getLast?_concat] at hc
  cases hc
  decide

theorem OccursIn.of_trimEnd {reference : Reference}
    (h : reference.OccursIn false (Text.trimEnd text)) : reference.OccursIn false text := by
  obtain ⟨before, after, htext, hname⟩ := h
  obtain ⟨blanks, hblanks, -⟩ := Text.exists_trimEnd_append text
  refine ⟨before, after ++ blanks, ?_, hname⟩
  rw [hblanks, htext]
  simp

/-- A reference ends in a bracket, which is not trimmed away. -/
theorem OccursIn.trimEnd {reference : Reference} (hform : reference.IsWellFormed)
    (h : reference.OccursIn false text) : reference.OccursIn false (Text.trimEnd text) := by
  obtain ⟨before, after, rfl, hname⟩ := h
  have hsource : ¬ ∀ c ∈ reference.source, isBlank c = true :=
    hform.not_blank (List.append_nil _).symm hform.source_ne_nil
  have hblank : ¬ ∀ c ∈ reference.source ++ after, isBlank c = true := fun hall =>
    hsource fun c hc => hall c (List.mem_append_left _ hc)
  rw [Text.trimEnd_append_of_not_blank hblank]
  by_cases hafter : ∀ c ∈ after, isBlank c = true
  · rw [Text.trimEnd_append_of_blank hafter, trimEnd_source]
    exact ⟨before, [], by rw [List.append_nil], hname⟩
  · rw [Text.trimEnd_append_of_not_blank hafter]
    exact ⟨before, Text.trimEnd after, rfl, hname⟩

/-! ## Settled texts -/

theorem Clean.trimStart (h : Clean removed (Text.trim text)) :
    Clean removed (Text.trimStart text) where
  free := fun reference hform hremoved hoccurs =>
    h.free reference hform hremoved (hoccurs.trimEnd hform)
  finished := fun hunfinished => h.finished hunfinished.trimEnd

/-- A text in which no removed name is referred to is settled if it is clean when trimmed. -/
theorem settled_of_clean_trim (hfree : ∀ reference : Reference, reference.IsWellFormed →
    removed reference.name → ¬ reference.OccursIn false text)
    (h : Clean removed (Text.trim text)) : Settled removed text :=
  ⟨⟨hfree, fun hunfinished => h.finished hunfinished.trim⟩, h⟩

theorem settled_nil : Settled removed [] :=
  ⟨clean_nil, clean_nil⟩

theorem settled_trim (h : Clean removed (Text.trim text)) : Settled removed (Text.trim text) :=
  ⟨h, by rwa [Text.trim_trim]⟩

theorem Settled.trim (h : Settled removed text) : Settled removed (Text.trim text) :=
  settled_trim h.clean_trim

theorem Settled.trimStart (h : Settled removed text) : Settled removed (Text.trimStart text) where
  clean := h.clean_trim.trimStart
  clean_trim := by
    rw [Text.trim, Text.trimStart_trimStart]
    exact h.clean_trim

theorem Settled.append (hfirst : Settled removed first) (hsecond : Settled removed second) :
    Settled removed (first ++ second) where
  clean := hfirst.clean.append hsecond.clean
  clean_trim := by
    -- Only the ends of the whole are trimmed: the part that is not blank keeps its side.
    by_cases hblank : ∀ c ∈ first, isBlank c = true
    · rw [Text.trim_append_of_blank hblank]
      exact hsecond.clean_trim
    · rw [Text.trim, Text.trimStart_append_of_not_blank hblank]
      by_cases hblank' : ∀ c ∈ second, isBlank c = true
      · rw [Text.trimEnd_append_of_blank hblank']
        exact hfirst.clean_trim
      · rw [Text.trimEnd_append_of_not_blank hblank']
        apply hfirst.clean_trim.trimStart.append
        refine ⟨?_, ?_⟩
        · intro reference hform hremoved hoccurs
          exact hsecond.clean.free reference hform hremoved hoccurs.of_trimEnd
        · intro hunfinished
          have htrim := hunfinished.trimStart
          rw [Text.trimStart_trimEnd] at htrim
          exact hsecond.clean_trim.finished htrim

/-- A reference to a name that is kept. -/
theorem settled_source {reference : Reference} (hform : reference.IsWellFormed)
    (hkept : ¬ removed reference.name) : Settled removed reference.source := by
  have hclean : Clean removed reference.source := by
    refine ⟨?_, ?_⟩
    · intro other hother hremoved hoccurs
      rw [← List.append_nil reference.source, Template.occursIn_source_append hform hother]
        at hoccurs
      rcases hoccurs with rfl | hnil
      · exact hkept hremoved
      · exact clean_nil.free other hother hremoved hnil
    · rintro ⟨other, before, begun, missing, hother, -, hsource, hbegun, hmissing, htext, -⟩
      -- The bracket at the end would be in the beginning of the other reference.
      exact hother.close_not_mem hsource hmissing (hform.close_mem htext hbegun)
  have htrim : Text.trim reference.source = reference.source := by
    rw [Text.trim, Text.trimStart_eq_self_iff.2, trimEnd_source]
    intro c hc
    have hwhole : reference.source = reference.source ++ [] := (List.append_nil _).symm
    rw [Option.mem_def, hform.head?_begun hwhole hform.source_ne_nil] at hc
    cases hc
    decide
  exact ⟨hclean, by rwa [htrim]⟩

/-- The text between references, once it is clean when trimmed. -/
theorem settled_of_mem_stretches {value stretch : Text}
    (hstretch : stretch ∈ (Template.ofValue value).stretches)
    (h : Clean removed (Text.trim stretch)) : Settled removed stretch :=
  settled_of_clean_trim
    (fun _ hform _ => Template.not_occursIn_of_mem_stretches hform hstretch) h

end UtilityCss.Reference

namespace UtilityCss

open Reference (Clean Settled)

variable {removed : Text → Prop}

/-! ## One value -/

namespace Template

/-- What replaces a reference is settled with the text after it. -/
theorem settled_expandPiece {lookup : Text → Option Text} {piece : Reference × Text}
    (hform : piece.1.IsWellFormed) (hafter : Settled removed piece.2)
    (hnone : lookup piece.1.name = none → ¬ removed piece.1.name)
    (hsome : ∀ read, lookup piece.1.name = some read → Clean removed (Text.trim read)) :
    Settled removed (expandPiece lookup piece) := by
  rw [expandPiece]
  cases hlookup : lookup piece.1.name with
  | none => exact (Reference.settled_source hform (hnone hlookup)).append hafter
  | some read =>
      have hread : Settled removed (Text.trim read) :=
        Reference.settled_trim (hsome read hlookup)
      rw [Option.map_some]
      cases htrim : Text.trim read with
      | nil => exact hafter.trimStart
      | cons c rest =>
          rw [htrim] at hread
          exact hread.append hafter

theorem settled_flatMap_expandPiece {lookup : Text → Option Text}
    {tail : List (Reference × Text)}
    (h : ∀ piece ∈ tail, Settled removed (expandPiece lookup piece)) :
    Settled removed (tail.flatMap (expandPiece lookup)) := by
  induction tail with
  | nil => exact Reference.settled_nil
  | cons piece rest ih =>
      rw [List.forall_mem_cons] at h
      rw [List.flatMap_cons]
      exact h.1.append (ih h.2)

/-- A value is settled after its references are replaced. -/
theorem settled_expand {lookup : Text → Option Text} {value : Text}
    (hstretches : ∀ stretch ∈ (ofValue value).stretches, Clean removed (Text.trim stretch))
    (hnone : ∀ name, (ofValue value).RefersTo name → lookup name = none → ¬ removed name)
    (hsome : ∀ name, (ofValue value).RefersTo name → ∀ read, lookup name = some read →
      Clean removed (Text.trim read)) :
    Settled removed ((ofValue value).expand lookup) := by
  have hhead : Settled removed (ofValue value).head :=
    Reference.settled_of_mem_stretches List.mem_cons_self
      (hstretches _ List.mem_cons_self)
  rw [expand]
  apply hhead.append
  apply settled_flatMap_expandPiece
  intro piece hpiece
  have hrefers : (ofValue value).RefersTo piece.1.name := refersTo_iff.2 ⟨piece, hpiece, rfl⟩
  have hform : piece.1.IsWellFormed := (exists_mem_tail_ofValue_iff.1 ⟨piece.2, hpiece⟩).1
  have hstretch : piece.2 ∈ (ofValue value).stretches :=
    List.mem_cons_of_mem _ (List.mem_map_of_mem hpiece)
  exact settled_expandPiece hform
    (Reference.settled_of_mem_stretches hstretch (hstretches _ hstretch))
    (hnone _ hrefers) (hsome _ hrefers)

/-- A value in which no reference begins has none. -/
theorem tail_ofValue_of_not_contains {value : Text}
    (h : Text.contains Reference.opening value = false) : (ofValue value).tail = [] := by
  rw [List.eq_nil_iff_forall_not_mem]
  rintro ⟨reference, after⟩ hpiece
  obtain ⟨-, before, rest, htext, -⟩ := exists_mem_tail_ofValue_iff.1 ⟨after, hpiece⟩
  have hopening : Reference.opening <:+: value := by
    rw [htext, Reference.source]
    exact ⟨before, reference.name ++ reference.gap ++ [')'] ++ rest, by simp⟩
  rw [← Text.contains_eq_true_iff, h] at hopening
  cases hopening

/-- A value without references is all of the text before them. -/
theorem ofValue_of_not_contains {value : Text}
    (h : Text.contains Reference.opening value = false) : (ofValue value).head = value := by
  have hsource := source_ofValue value
  rw [source, tail_ofValue_of_not_contains h] at hsource
  simpa using hsource

/-- A clean value refers to no removed name. -/
theorem not_refersTo_of_clean {value name : Text} (h : Clean removed value)
    (hrefers : (ofValue value).RefersTo name) : ¬ removed name := by
  intro hremoved
  obtain ⟨⟨reference, after⟩, hpiece, rfl⟩ := refersTo_iff.1 hrefers
  obtain ⟨hform, hoccurs⟩ := exists_mem_tail_ofValue_iff.1 ⟨after, hpiece⟩
  exact h.free reference hform hremoved hoccurs

end Template

/-! ## The pass -/

namespace StyleSet

variable {store : ThemeStore} {styles half : StyleSet}

/-- The key is kept, or the value under a later key of this kind refers to it. -/
inductive Feeds (removed : Text → Prop) (styles : StyleSet) : Text → Prop
  | kept {key : Text} : key ∈ styles.keys → ¬ removed key → Feeds removed styles key
  | read {before after : List Text} {key value name : Text} : Feeds removed styles key →
      styles.keys = before ++ key :: after → styles.get? key = some value →
      (Template.ofValue value).RefersTo name → name ∈ before → Feeds removed styles name

/-- In values that get into those that are kept, the text between references is clean when
trimmed, and so is every value that is read as it was written: that of a name which is not a key
before the one whose value refers to it. -/
structure ReadsClean (store : ThemeStore) (removed : Text → Prop) (styles : StyleSet) : Prop where
  stretches : ∀ key, Feeds removed styles key → ∀ value, styles.get? key = some value →
    ∀ stretch ∈ (Template.ofValue value).stretches, Clean removed (Text.trim stretch)
  raw : ∀ before key after, styles.keys = before ++ key :: after → Feeds removed styles key →
    ∀ value, styles.get? key = some value →
      ∀ name, (Template.ofValue value).RefersTo name → name ∉ before →
        ∀ read, styles.lookup store name = some read → Clean removed (Text.trim read)

/-- A style set without the letter with which references begin, in the text between references and
in the values that are read as they were written. -/
theorem readsClean_of_not_mem
    (hstretches : ∀ entry ∈ styles.entries,
      ∀ stretch ∈ (Template.ofValue entry.2).stretches, 'v' ∉ stretch)
    (hraw : ∀ entry ∈ styles.entries.zipIdx,
      ∀ place ∈ (Template.ofValue entry.1.2).references,
        place.name ∈ styles.keys.take entry.2 ∨ 'v' ∉ (styles.lookup store place.name).getD []) :
    ReadsClean store removed styles where
  stretches := by
    intro key _ value hvalue stretch hstretch
    apply Reference.clean_of_not_mem
    intro hmem
    exact hstretches (key, value) (OrderedMap.get?_eq_some_iff_mem.1 hvalue) stretch hstretch
      (Text.mem_of_mem_trim hmem)
  raw := by
    rintro before key after hkeys - value hvalue name ⟨place, hplace, rfl⟩ hname read hread
    have hentry : ((key, value), before.length) ∈ styles.entries.zipIdx :=
      List.mk_mem_zipIdx_iff_getElem?.2 (OrderedMap.getElem?_of_keys_eq hkeys hvalue)
    apply Reference.clean_of_not_mem
    intro hmem
    rcases hraw _ hentry place hplace with hearlier | hplain
    · rw [hkeys, List.take_left] at hearlier
      exact hname hearlier
    · rw [hread, Option.getD_some] at hplain
      exact hplain (Text.mem_of_mem_trim hmem)

/-- A set on the way of the pass: the values under the keys passed are settled if they get into
values that are kept, and those under all other keys are as written. -/
structure Passed (removed : Text → Prop) (styles : StyleSet) (before : List Text)
    (half : StyleSet) : Prop where
  keys_eq : half.keys = styles.keys
  settled : ∀ name ∈ before, Feeds removed styles name →
    ∀ value, half.get? name = some value → Settled removed value
  untouched : ∀ name, name ∉ before → half.get? name = styles.get? name

theorem settled_substituteValue {lookup : Text → Option Text} {value : Text}
    (hstretches : ∀ stretch ∈ (Template.ofValue value).stretches,
      Clean removed (Text.trim stretch))
    (hnone : ∀ name, (Template.ofValue value).RefersTo name → lookup name = none →
      ¬ removed name)
    (hsome : ∀ name, (Template.ofValue value).RefersTo name → ∀ read, lookup name = some read →
      Clean removed (Text.trim read)) :
    Settled removed (substituteValue lookup value) := by
  rw [substituteValue]
  split
  · exact (Template.settled_expand hstretches hnone hsome).trim
  · rename_i hopening
    rw [Bool.not_eq_true] at hopening
    have hhead := Template.ofValue_of_not_contains hopening
    have hstretch : value ∈ (Template.ofValue value).stretches := by
      rw [Template.stretches, hhead]
      exact List.mem_cons_self
    exact Reference.settled_of_mem_stretches hstretch (hstretches value hstretch)

/-- What the pass reads for a value that gets into one that is kept is clean when trimmed. -/
theorem Passed.clean_read {before after : List Text} {key name value read : Text}
    (h : Passed removed styles before half) (hclean : ReadsClean store removed styles)
    (hkeys : styles.keys = before ++ key :: after) (hfeeds : Feeds removed styles key)
    (hvalue : styles.get? key = some value) (hrefers : (Template.ofValue value).RefersTo name)
    (hread : half.lookup store name = some read) : Clean removed (Text.trim read) := by
  by_cases hpassed : name ∈ before
  · -- The value has been passed: it is settled, whatever the store says.
    obtain ⟨found, hfound⟩ : ∃ found, half.get? name = some found :=
      OrderedMap.exists_get?_of_mem_keys (by rw [h.keys_eq, hkeys]; simp [hpassed])
    rw [lookup, hfound] at hread
    cases hread
    have hname : Feeds removed styles name := hfeeds.read hkeys hvalue hrefers hpassed
    exact (h.settled name hpassed hname read hfound).clean_trim
  · rw [lookup_congr (h.untouched name hpassed)] at hread
    exact hclean.raw before key after hkeys hfeeds value hvalue name hrefers hpassed read hread

/-- A name that cannot be looked up is not removed. -/
theorem Passed.not_removed_of_lookup {before : List Text} {name : Text}
    (h : Passed removed styles before half) (hremoved : ∀ name, removed name → name ∈ styles.keys)
    (hnone : half.lookup store name = none) : ¬ removed name := by
  intro hname
  rw [lookup] at hnone
  split at hnone
  · cases hnone
  · rename_i hget
    rw [OrderedMap.get?_eq_none_iff, h.keys_eq] at hget
    exact hget (hremoved name hname)

/-- One step of the pass keeps the invariant. -/
theorem Passed.substituteKey {before after : List Text} {key : Text}
    (h : Passed removed styles before half) (hclean : ReadsClean store removed styles)
    (hremoved : ∀ name, removed name → name ∈ styles.keys)
    (hkeys : styles.keys = before ++ key :: after) :
    Passed removed styles (before ++ [key]) (substituteKey store half key) where
  keys_eq := by rw [keys_substituteKey, h.keys_eq]
  settled := by
    have hkey : key ∉ before := by
      have hnodup : styles.keys.Nodup := styles.nodup
      rw [hkeys, List.nodup_middle, List.nodup_cons] at hnodup
      exact fun hmem => hnodup.1 (List.mem_append_left _ hmem)
    intro name hname hfeeds value hvalue
    -- The step changes the value under `key` only.
    by_cases heq : name = key
    · subst heq
      obtain ⟨written, hwritten⟩ : ∃ written, styles.get? name = some written :=
        OrderedMap.exists_get?_of_mem_keys (by rw [hkeys]; simp)
      rw [get?_substituteKey_self (by rw [h.untouched name hkey, hwritten])] at hvalue
      cases hvalue
      apply settled_substituteValue (hclean.stretches name hfeeds written hwritten)
      · intro other _ hnone
        exact h.not_removed_of_lookup hremoved hnone
      · intro other hrefers read hread
        exact h.clean_read hclean hkeys hfeeds hwritten hrefers hread
    · rw [get?_substituteKey_of_ne heq] at hvalue
      rcases List.mem_append.1 hname with hmem | hmem
      · exact h.settled name hmem hfeeds value hvalue
      · exact absurd (List.mem_singleton.1 hmem) heq
  untouched := by
    intro name hname
    rw [List.mem_append, List.mem_singleton, not_or] at hname
    rw [get?_substituteKey_of_ne hname.2, h.untouched name hname.1]

/-- The rest of the pass keeps the invariant. -/
theorem Passed.foldl_substituteKey {before after : List Text}
    (h : Passed removed styles before half) (hclean : ReadsClean store removed styles)
    (hremoved : ∀ name, removed name → name ∈ styles.keys)
    (hkeys : styles.keys = before ++ after) :
    Passed removed styles styles.keys (after.foldl (StyleSet.substituteKey store) half) := by
  induction after generalizing before half with
  | nil =>
      rw [List.append_nil] at hkeys
      rwa [hkeys]
  | cons key after ih =>
      rw [List.foldl_cons]
      apply ih (h.substituteKey hclean hremoved hkeys)
      rw [hkeys, List.append_assoc]
      rfl

/-- After the pass all values are settled that get into those that are kept. -/
theorem settled_substitute (hclean : ReadsClean store removed styles)
    (hremoved : ∀ name, removed name → name ∈ styles.keys) {key value : Text}
    (hfeeds : Feeds removed styles key)
    (hvalue : (substitute store styles).get? key = some value) : Settled removed value := by
  have hstart : Passed removed styles [] styles := ⟨rfl, by simp, fun _ _ => rfl⟩
  have hend := hstart.foldl_substituteKey hclean hremoved rfl
  have hkeys : (substitute store styles).keys = styles.keys := keys_substitute
  have hkey : key ∈ styles.keys := by
    rw [← hkeys]
    exact OrderedMap.mem_keys_of_get? hvalue
  exact hend.settled key hkey hfeeds value hvalue

end StyleSet

end UtilityCss
