import UtilityCss.Proofs.OrderedMap
import UtilityCss.Theme
import Mathlib.Tactic.Common

/-!
# What a registry remembers and shows

A registry is reached from the empty one, or from that of a style sheet, by theme definitions and
registrations in any order. It keeps two maps, and each of them only sees the writes of its own
kind (`ThemeRegistry.Reached.theme_eq`, `ThemeRegistry.Reached.registrations_eq`). So the registry
answers by the last write of each kind, however the two kinds are mixed
(`ThemeRegistry.answers_lastWrites`).

* `ThemeRegistry.Write` is a theme definition or a registration, `ThemeRegistry.write` carries it
  out.
* `ThemeRegistry.Reached` relates the registries to the histories of the writes that lead to them.
* `ThemeRegistry.definitions` and `ThemeRegistry.registered` are the writes of either kind in a
  history.

The keys of a namespace are the rests of the theme names that begin with its lead, the empty rest
apart, in the order of these names (`ThemeNamespace.map_lead_keys`). In the store of a registry
every key has a value, so that the entries of a namespace skip none (`ThemeNamespace.map_entries`).
Both together say what a namespace shows of a registry that was reached by any history
(`ThemeNamespace.view_exact`).
-/

set_option autoImplicit false

namespace UtilityCss.ThemeRegistry

/-! ## Histories -/

/-- A write to a registry. -/
inductive Write where
  /-- A theme value for a name. -/
  | define (name value : Text)
  | register (registration : Registration)

namespace Write

/-- The name and the value that a write defines. -/
def definition? : Write → Option (Text × Text)
  | define name value => some (name, value)
  | register _ => none

/-- What a write registers. -/
def registration? : Write → Option Registration
  | define _ _ => none
  | register registration => some registration

end Write

/-- The registry after a write. -/
def write (registry : ThemeRegistry) : Write → ThemeRegistry
  | .define name value => registry.setThemeValue name value
  | .register registration => registry.register registration

/-- The theme definitions of a history. -/
def definitions (history : List Write) : List (Text × Text) :=
  history.filterMap Write.definition?

/-- The registrations of a history. -/
def registered (history : List Write) : List Registration :=
  history.filterMap Write.registration?

/-- What a style sheet writes: the theme declarations of its custom properties, then its
registrations. -/
def sheetWrites (sheet : Stylesheet) : List Write :=
  (sheet.theme.filter fun declaration => PropertyName.isCustom declaration.name).map
      (fun declaration => .define declaration.name declaration.value) ++
    sheet.registrations.map .register

/-- The writes of the history, in order, lead to the registry. They begin with nothing or with those
of a style sheet. -/
inductive Reached : List Write → ThemeRegistry → Prop
  | empty : Reached [] empty
  | sheet (sheet : Stylesheet) : Reached (sheetWrites sheet) (ofSheet sheet)
  | step {history : List Write} {registry : ThemeRegistry} (write : Write) :
      Reached history registry → Reached (history ++ [write]) (registry.write write)

theorem Reached.foldl_write {history : List Write} {registry : ThemeRegistry}
    (h : Reached history registry) (writes : List Write) :
    Reached (history ++ writes) (writes.foldl ThemeRegistry.write registry) := by
  induction writes generalizing history registry with
  | nil => simpa using h
  | cons write rest ih => simpa using ih (h.step write)

/-! ## Each kind of write has its map -/

variable {history : List Write} {registry : ThemeRegistry}

/-- Registrations under their names. -/
def named (registrations : List Registration) : List (Text × Registration) :=
  registrations.map fun registration => (registration.name, registration)

/-- A write adds to the map of its kind and leaves the other one. -/
theorem write_eq (registry : ThemeRegistry) (write : Write) :
    registry.write write =
      ⟨registry.theme.insertAll write.definition?.toList,
        registry.registrations.insertAll (named write.registration?.toList)⟩ := by
  cases write <;> rfl

theorem definitions_cons (write : Write) (history : List Write) :
    definitions (write :: history) = write.definition?.toList ++ definitions history := by
  cases write <;> rfl

theorem named_registered_cons (write : Write) (history : List Write) :
    named (registered (write :: history)) =
      named write.registration?.toList ++ named (registered history) := by
  cases write <;> rfl

theorem foldl_write_eq (registry : ThemeRegistry) (writes : List Write) :
    writes.foldl write registry =
      ⟨registry.theme.insertAll (definitions writes),
        registry.registrations.insertAll (named (registered writes))⟩ := by
  induction writes generalizing registry with
  | nil => rfl
  | cons write rest ih =>
      rw [List.foldl_cons, ih, write_eq, definitions_cons, named_registered_cons,
        OrderedMap.insertAll_append, OrderedMap.insertAll_append]

theorem ofSheet_eq_foldl (sheet : Stylesheet) :
    ofSheet sheet = (sheetWrites sheet).foldl write empty := by
  rw [sheetWrites, List.foldl_append, List.foldl_map, List.foldl_map, List.foldl_filter]
  rfl

/-- A registry is what its history makes of the empty one. -/
theorem Reached.eq_foldl (h : Reached history registry) :
    registry = history.foldl ThemeRegistry.write ThemeRegistry.empty := by
  induction h with
  | empty => rfl
  | sheet sheet => exact ofSheet_eq_foldl sheet
  | step write _ ih => rw [List.foldl_append, ← ih, List.foldl_cons, List.foldl_nil]

theorem Reached.theme_eq (h : Reached history registry) :
    registry.theme = .ofList (definitions history) := by
  rw [h.eq_foldl, foldl_write_eq]
  rfl

theorem Reached.registrations_eq (h : Reached history registry) :
    registry.registrations = .ofList (named (registered history)) := by
  rw [h.eq_foldl, foldl_write_eq]
  rfl

/-! ## The last write of each kind -/

/-- The value that a history defined last for a name. -/
def lastValue? (history : List Write) (name : Text) : Option Text :=
  ((definitions history).filter fun definition => definition.1 == name).getLast?.map Prod.snd

/-- What a history registered last under a name. -/
def lastRegistration? (history : List Write) (name : Text) : Option Registration :=
  ((registered history).filter fun registration => registration.name == name).getLast?

theorem Reached.get?_theme (h : Reached history registry) (name : Text) :
    registry.theme.get? name = lastValue? history name := by
  rw [h.theme_eq, OrderedMap.get?_ofList, lastValue?]

theorem Reached.describe?_eq (h : Reached history registry) (name : Text) :
    registry.describe? name = lastRegistration? history name := by
  rw [describe?, h.registrations_eq, OrderedMap.get?_ofList, named, List.filter_map,
    List.getLast?_map, Option.map_map, lastRegistration?]
  exact Option.map_id_apply

theorem Reached.themeNames_eq (h : Reached history registry) :
    registry.themeNames = ((definitions history).map Prod.fst).eraseDups := by
  rw [themeNames, h.theme_eq, OrderedMap.keys_ofList]

theorem Reached.congr {history' : List Write} {registry' : ThemeRegistry}
    (h : Reached history registry) (h' : Reached history' registry')
    (hdefinitions : definitions history = definitions history')
    (hregistered : registered history = registered history') : registry = registry' := by
  rw [h.eq_foldl, h'.eq_foldl, foldl_write_eq, foldl_write_eq, hdefinitions, hregistered]

/-- However theme definitions and registrations are mixed, a name has the value of its last theme
definition or, failing that, the initial value of its last registration if that one does not
inherit; it is described by its last registration; and the names of the theme are listed once, in
the order of their first definitions. So a theme definition can be moved past a registration: all
that counts is the order of the writes of one kind. -/
theorem answers_lastWrites (h : Reached history registry) :
    (∀ name, registry.value? name =
      match lastValue? history name with
      | some value => some value
      | none =>
        match lastRegistration? history name with
        | some registration =>
          if registration.inherits then none else some (registration.initialValue.getD [])
        | none => none) ∧
    (∀ name, registry.describe? name = lastRegistration? history name) ∧
    registry.themeNames = ((definitions history).map Prod.fst).eraseDups ∧
    ∀ history' registry', Reached history' registry' →
      definitions history = definitions history' → registered history = registered history' →
        registry = registry' := by
  refine ⟨?_, h.describe?_eq, h.themeNames_eq, fun _ _ h' => h.congr h'⟩
  intro name
  rw [value?, h.get?_theme, initialValue?, h.describe?_eq]
  cases lastValue? history name with
  | some value => rfl
  | none =>
      cases lastRegistration? history name with
      | none => rfl
      | some registration => cases hinherits : registration.inherits <;> simp [hinherits]

/-- A style sheet that gives `--gap` a theme value. -/
def gapSheet : Stylesheet :=
  ⟨[.style ":root".toList "--gap: 1px; color: red".toList], []⟩

/-- A theme definition between two registrations, of which the second one inherits. -/
def gapWrites : List Write :=
  [.register ⟨"--ring".toList, none, false, some "0px".toList⟩, .define "--gap".toList "2px".toList,
    .register ⟨"--ring".toList, none, true, some "1px".toList⟩]

/-- The same writes with the theme definition in front. -/
def gapWritesMoved : List Write :=
  [.define "--gap".toList "2px".toList, .register ⟨"--ring".toList, none, false, some "0px".toList⟩,
    .register ⟨"--ring".toList, none, true, some "1px".toList⟩]

/-- The later theme value counts, the later registration hides the initial value, and the place of
the theme definition does not matter. -/
theorem answers_gapWrites :
    (gapWrites.foldl write (ofSheet gapSheet)).value? "--gap".toList = some "2px".toList ∧
      (gapWrites.foldl write (ofSheet gapSheet)).value? "--ring".toList = none ∧
      (gapWrites.foldl write (ofSheet gapSheet)).themeNames = ["--gap".toList] ∧
      gapWrites.foldl write (ofSheet gapSheet) = gapWritesMoved.foldl write (ofSheet gapSheet) := by
  have hwrites := (Reached.sheet gapSheet).foldl_write gapWrites
  have hmoved := (Reached.sheet gapSheet).foldl_write gapWritesMoved
  obtain ⟨hvalue, -, hnames, hcongr⟩ := answers_lastWrites hwrites
  refine ⟨?_, ?_, ?_, hcongr _ _ hmoved ?_ ?_⟩
  · rw [hvalue]
    decide +kernel
  · rw [hvalue]
    decide +kernel
  · rw [hnames]
    decide +kernel
  · decide +kernel
  · decide +kernel

end UtilityCss.ThemeRegistry

namespace UtilityCss.ThemeNamespace

/-! ## Keys -/

/-- Whether a name begins with the lead of a namespace and goes on behind it. -/
def isListed (lead name : Text) : Bool :=
  lead.isPrefixOf name && name != lead

/-- A name is listed if something stands behind the lead. -/
theorem isListed_iff {lead name : Text} :
    isListed lead name = true ↔ ∃ key, key ≠ [] ∧ name = lead ++ key := by
  rw [isListed, Bool.and_eq_true, List.isPrefixOf_iff_prefix, bne_iff_ne]
  constructor
  · rintro ⟨⟨key, rfl⟩, hne⟩
    exact ⟨key, by simpa using hne, rfl⟩
  · rintro ⟨key, hne, rfl⟩
    exact ⟨List.prefix_append lead key, by simpa using hne⟩

/-- With the lead in front, the keys are the listed names. -/
theorem map_append_after? (lead : Text) (names : List Text) :
    ((names.filterMap (Text.after? lead)).filter fun key => !key.isEmpty).map (lead ++ ·) =
      names.filter (isListed lead) := by
  induction names with
  | nil => rfl
  | cons name rest ih =>
      cases hafter : Text.after? lead name with
      | none =>
          have hnot : isListed lead name = false := by
            rw [Bool.eq_false_iff]
            intro hlisted
            obtain ⟨key, -, hname⟩ := isListed_iff.1 hlisted
            rw [Text.after?_eq_some_iff.2 hname] at hafter
            cases hafter
          rw [List.filterMap_cons_none hafter, ih, List.filter_cons_of_neg (by simp [hnot])]
      | some key =>
          obtain rfl := Text.after?_eq_some_iff.1 hafter
          rw [List.filterMap_cons_some hafter]
          cases key with
          | nil => simpa [isListed] using ih
          | cons c key =>
              have hlisted : isListed lead (lead ++ c :: key) = true :=
                isListed_iff.2 ⟨c :: key, List.cons_ne_nil c key, rfl⟩
              rw [List.filter_cons_of_pos rfl, List.filter_cons_of_pos hlisted, List.map_cons, ih]

variable (space : ThemeNamespace)

theorem map_lead_keys :
    space.keys.map (space.lead ++ ·) = space.store.names.filter (isListed space.lead) :=
  map_append_after? space.lead space.store.names

theorem mem_keys_iff (key : Text) :
    key ∈ space.keys ↔ key ≠ [] ∧ space.lead ++ key ∈ space.store.names := by
  have hmem : key ∈ space.keys ↔ space.lead ++ key ∈ space.keys.map (space.lead ++ ·) := by
    simp
  rw [hmem, map_lead_keys, List.mem_filter, isListed_iff, and_comm]
  simp

theorem nodup_keys (h : space.store.names.Nodup) : space.keys.Nodup := by
  apply List.Nodup.of_map (space.lead ++ ·)
  rw [map_lead_keys]
  exact h.filter _

/-! ## Entries -/

/-- If all keys have a value, each stands once beside its value. -/
theorem map_filterMap_pair {keys : List Text} {value? : Text → Option Text}
    (h : ∀ key ∈ keys, (value? key).isSome = true) :
    (keys.filterMap fun key => (value? key).map fun value => (key, value)).map
        (fun entry => (entry.1, some entry.2)) =
      keys.map fun key => (key, value? key) := by
  induction keys with
  | nil => rfl
  | cons key rest ih =>
      rw [List.forall_mem_cons] at h
      obtain ⟨value, hvalue⟩ := Option.isSome_iff_exists.1 h.1
      rw [List.filterMap_cons, hvalue, Option.map_some, List.map_cons, List.map_cons, ih h.2,
        hvalue]

theorem map_entries (h : ∀ key ∈ space.keys, space.contains key = true) :
    space.entries.map (fun entry => (entry.1, some entry.2)) =
      space.keys.map fun key => (key, space.get? key) :=
  map_filterMap_pair h

/-! ## Namespaces of a registry -/

variable {history : List ThemeRegistry.Write} {registry : ThemeRegistry} {space}

/-- Every key of a namespace of a registry has a value. -/
theorem contains_of_mem_keys (hstore : space.store = registry) {key : Text}
    (h : key ∈ space.keys) : space.contains key = true := by
  have hname : space.lead ++ key ∈ registry.theme.keys := by
    have hmem := ((mem_keys_iff space key).1 h).2
    rwa [hstore] at hmem
  obtain ⟨value, hvalue⟩ := OrderedMap.exists_get?_of_mem_keys hname
  have hget : registry.value? (space.lead ++ key) = some value := by
    rw [ThemeRegistry.value?, hvalue]
  rw [contains, get?, hstore]
  exact Option.isSome_of_eq_some hget

/-- Of a registry that is reached by any history, a namespace lists the theme values whose names
begin with its lead, each once, in the order of the first definitions, and gives each of them the
value that the registry gives. -/
theorem view_exact (h : ThemeRegistry.Reached history registry) (hstore : space.store = registry) :
    space.keys.Nodup ∧
    (∀ key, key ∈ space.keys ↔ key ≠ [] ∧
      "--".toList ++ space.name ++ ['-'] ++ key ∈
        (ThemeRegistry.definitions history).map Prod.fst) ∧
    space.keys.map ("--".toList ++ space.name ++ ['-'] ++ ·) =
      ((ThemeRegistry.definitions history).map Prod.fst).eraseDups.filter
        (isListed ("--".toList ++ space.name ++ ['-'])) ∧
    space.entries.map (fun entry => (entry.1, some entry.2)) =
      space.keys.map (fun key => (key, space.get? key)) ∧
    space.size = space.entries.length ∧
    (space.isEmpty = true ↔ space.entries = []) ∧
    ∀ key ∈ space.keys, space.contains key = true ∧
      space.get? key = registry.value? ("--".toList ++ space.name ++ ['-'] ++ key) := by
  have hnames : space.store.names =
      ((ThemeRegistry.definitions history).map Prod.fst).eraseDups := by
    rw [hstore]
    exact h.themeNames_eq
  have hnodup : space.store.names.Nodup := by
    rw [hstore]
    exact registry.theme.nodup
  have hcontains : ∀ key ∈ space.keys, space.contains key = true :=
    fun key hkey => contains_of_mem_keys hstore hkey
  have hentries := map_entries space hcontains
  have hlength : space.entries.length = space.keys.length := by
    have hboth := congrArg List.length hentries
    rwa [List.length_map, List.length_map] at hboth
  refine ⟨nodup_keys space hnodup, ?_, ?_, hentries, hlength.symm, ?_, ?_⟩
  · intro key
    rw [mem_keys_iff, hnames, List.mem_eraseDups]
    rfl
  · rw [← hnames]
    exact map_lead_keys space
  · rw [isEmpty, List.isEmpty_iff, ← List.length_eq_zero_iff, ← hlength, List.length_eq_zero_iff]
  · intro key hkey
    refine ⟨hcontains key hkey, ?_⟩
    rw [get?, hstore]
    rfl

/-- Writes to two namespaces, one of which has a name that the other one begins with. -/
def colorWrites : List ThemeRegistry.Write :=
  [.define "--color-red-500".toList "#ef4444".toList, .define "--colorful".toList "yes".toList,
    .register ⟨"--color-ink".toList, none, false, none⟩, .define "--color-".toList "none".toList,
    .define "--color-red".toList "#f00".toList, .define "--color-red-500".toList "red".toList]

/-- The namespace `color` after these writes. -/
def colorSpace : ThemeNamespace :=
  ⟨(colorWrites.foldl ThemeRegistry.write .empty : ThemeRegistry), "color".toList⟩

/-- Two of the names belong to the namespace, and the later value of the first one counts. -/
theorem view_colorWrites :
    colorSpace.keys.map ("--color-".toList ++ ·) =
        ["--color-red-500".toList, "--color-red".toList] ∧
      "red-500".toList ∈ colorSpace.keys ∧
      colorSpace.get? "red-500".toList = some "red".toList := by
  have hreached := ThemeRegistry.Reached.empty.foldl_write colorWrites
  have hstore : colorSpace.store = colorWrites.foldl ThemeRegistry.write .empty := rfl
  obtain ⟨-, hmem, horder, -, -, -, hvalue⟩ := view_exact hreached hstore
  have hkey : "red-500".toList ∈ colorSpace.keys := (hmem _).2 (by decide +kernel)
  refine ⟨?_, hkey, ?_⟩
  · refine horder.trans ?_
    decide +kernel
  · rw [(hvalue _ hkey).2]
    decide +kernel

end UtilityCss.ThemeNamespace
