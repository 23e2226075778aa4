import UtilityCss.Declaration
import UtilityCss.Proofs.Text.Cut
import UtilityCss.Proofs.Text.Basic
import Mathlib.Algebra.GroupWithZero.Nat

/-!
# Reading a written block back

A written block gives its declarations back exactly when each of them is legible in it
(`readBlock_writeBlock_iff`).

* `Declaration.IsLegible` says that the name and the value keep their text and that no semicolon
  of the declaration cuts it.
* `Declaration.ClosesUp` says that the next declaration can follow: every quote and bracket that
  the declaration opens is closed again.

The hard direction rests on a count. Reading keeps every character that is not blank, apart from
the semicolons between declarations, so nothing is left for items that declare nothing, and each
item ends where its declaration was written.
-/

set_option autoImplicit false

namespace UtilityCss.Declaration

/-- A declaration that can be read where it was written: the name is trimmed, not empty and
without a colon, the value is trimmed, and no semicolon cuts the two. -/
structure IsLegible (declaration : Declaration) : Prop where
  name_ne_nil : declaration.name ≠ []
  colon_not_mem_name : ':' ∉ declaration.name
  trim_name : Text.trim declaration.name = declaration.name
  trim_value : Text.trim declaration.value = declaration.value
  uncut : Text.splitTopLevel ';' declaration.write = [declaration.write]

/-- A declaration after which the next one is read from the top again. -/
def ClosesUp (declaration : Declaration) : Prop :=
  Nesting.scan.finish Nesting.top declaration.write = Nesting.top

instance (declaration : Declaration) : Decidable declaration.ClosesUp :=
  inferInstanceAs (Decidable (_ = _))

/-- A block in which every declaration is legible and all but the last close up. -/
def IsLegibleBlock (declarations : List Declaration) : Prop :=
  (∀ declaration ∈ declarations, declaration.IsLegible) ∧
    ∀ declaration ∈ declarations.dropLast, declaration.ClosesUp

/-- A declaration is in one piece when each of its semicolons stands inside a quote or bracket, or
after a backslash. -/
theorem uncut_iff {declaration : Declaration} :
    Text.splitTopLevel ';' declaration.write = [declaration.write] ↔
      ∀ before after, declaration.write = before ++ ';' :: after →
        Nesting.scan.finish Nesting.top before ≠ Nesting.top :=
  Scan.splitFrom_eq_self_iff Nesting.scan ';' rfl

/-! ## One item -/

theorem write_eq (declaration : Declaration) :
    declaration.write = declaration.name ++ ':' :: ' ' :: declaration.value := by
  simp [write]

theorem ofItem?_eq_some_iff {item : Text} {declaration : Declaration} :
    ofItem? item = some declaration ↔
      ∃ name value, item = name ++ ':' :: value ∧ ':' ∉ name ∧ Text.trim name ≠ [] ∧
        declaration = ⟨Text.trim name, Text.trim value⟩ := by
  have hparts := List.takeWhile_append_dropWhile (p := (· != ':')) (l := item)
  constructor
  · intro h
    rw [ofItem?] at h
    split at h
    · cases h
    · rename_i c value hvalue
      have hc : c = ':' := by
        have := List.head?_dropWhile_not (· != ':') item
        simpa [hvalue] using this
      subst hc
      simp only [Option.ite_none_left_eq_some, Option.some.injEq] at h
      obtain ⟨hname, rfl⟩ := h
      refine ⟨item.takeWhile (· != ':'), value, ?_, ?_, by simpa using hname, rfl⟩
      · rw [← hvalue, hparts]
      · intro hmem
        have := List.mem_takeWhile_imp hmem
        simp at this
  · rintro ⟨name, value, rfl, hcolon, hname, rfl⟩
    -- Since the name has no colon, the item is cut just behind it.
    have hall : ∀ c ∈ name, (c != ':') = true := by
      intro c hc
      rw [bne_iff_ne]
      rintro rfl
      exact hcolon hc
    simp [ofItem?, List.takeWhile_append_of_pos hall, List.dropWhile_append_of_pos hall, hname]

/-- Blanks in front of an item make no difference. -/
theorem ofItem?_append_of_blank {lead item : Text} (h : ∀ c ∈ lead, isBlank c = true) :
    ofItem? (lead ++ item) = ofItem? item := by
  have hlead : ∀ c ∈ lead, (c != ':') = true := by
    intro c hc
    rw [bne_iff_ne]
    rintro rfl
    exact absurd (h ':' hc) (by decide)
  simp [ofItem?, List.dropWhile_append_of_pos hlead, List.takeWhile_append_of_pos hlead,
    Text.trim_append_of_blank h]

/-- An item that was written for a declaration gives it back exactly when name and value keep
their text. -/
theorem ofItem?_write_iff {declaration : Declaration} :
    ofItem? declaration.write = some declaration ↔
      declaration.name ≠ [] ∧ ':' ∉ declaration.name ∧
        Text.trim declaration.name = declaration.name ∧
        Text.trim declaration.value = declaration.value := by
  have hspace := Text.trim_space_cons declaration.value
  rw [write_eq, ofItem?_eq_some_iff]
  constructor
  · rintro ⟨name, value, hitem, hcolon, hname, hdeclaration⟩
    have hn : declaration.name = Text.trim name := congrArg Declaration.name hdeclaration
    have hv : declaration.value = Text.trim value := congrArg Declaration.value hdeclaration
    have hcolon' : ':' ∉ declaration.name := fun h => hcolon (Text.mem_of_mem_trim (hn ▸ h))
    -- The first colon ends the name on both sides, so that the names are the same text.
    obtain ⟨rfl, rfl⟩ := Text.append_cons_inj_of_not_mem hitem hcolon' hcolon
    refine ⟨?_, hcolon', hn.symm, ?_⟩
    · intro hnil
      rw [hnil] at hname
      exact hname rfl
    · rw [← hspace, ← hv]
  · rintro ⟨hname, hcolon, htrim, hvalue⟩
    refine ⟨declaration.name, ' ' :: declaration.value, rfl, hcolon, by rwa [htrim], ?_⟩
    rw [htrim, hspace, hvalue]

/-! ## The count of characters -/

/-- What a declaration counts in a block: the characters of its name and value that are not
blank, the colon and the semicolon. -/
def weight (declaration : Declaration) : Nat :=
  Text.inkLength declaration.name + Text.inkLength declaration.value + 2

/-- What an item counts in a block. -/
def itemWeight (item : Text) : Nat :=
  Text.inkLength item + 1

theorem itemWeight_of_ofItem? {item : Text} {declaration : Declaration}
    (h : ofItem? item = some declaration) : itemWeight item = declaration.weight := by
  obtain ⟨name, value, rfl, -, -, rfl⟩ := ofItem?_eq_some_iff.1 h
  have hcolon : isBlank ':' = false := by decide
  simp only [itemWeight, weight, Text.inkLength_append, Text.inkLength_cons, hcolon,
    Text.inkLength_trim]
  simp only [Bool.false_eq_true, if_false]
  omega

/-- Items that declare nothing only add to the count. -/
theorem sum_weight_le (items : List Text) :
    ((items.filterMap ofItem?).map weight).sum ≤ (items.map itemWeight).sum := by
  induction items with
  | nil => simp
  | cons item items ih =>
      cases hitem : ofItem? item with
      | none =>
          rw [List.filterMap_cons_none hitem, List.map_cons, List.sum_cons]
          omega
      | some declaration =>
          rw [List.filterMap_cons_some hitem, List.map_cons, List.map_cons, List.sum_cons,
            List.sum_cons, itemWeight_of_ofItem? hitem]
          omega

/-- If the count is that of the declarations, every item declares something. -/
theorem map_ofItem?_of_sum_weight {items : List Text}
    (h : (items.map itemWeight).sum = ((items.filterMap ofItem?).map weight).sum) :
    items.map ofItem? = (items.filterMap ofItem?).map some := by
  induction items with
  | nil => rfl
  | cons item items ih =>
      have hle := sum_weight_le items
      cases hitem : ofItem? item with
      | none =>
          rw [List.filterMap_cons_none hitem, List.map_cons, List.sum_cons, itemWeight] at h
          omega
      | some declaration =>
          rw [List.filterMap_cons_some hitem, List.map_cons, List.map_cons, List.sum_cons,
            List.sum_cons, itemWeight_of_ofItem? hitem] at h
          rw [List.filterMap_cons_some hitem, List.map_cons, List.map_cons, hitem,
            ih (by omega)]

theorem sum_itemWeight (items : List Text) (h : items ≠ []) :
    (items.map itemWeight).sum = Text.inkLength ([';'].intercalate items) + 1 := by
  have hsemicolon : Text.inkLength [';'] = 1 := by decide
  induction items with
  | nil => exact absurd rfl h
  | cons item items ih =>
      cases items with
      | nil => simp [itemWeight]
      | cons second items =>
          rw [List.map_cons, List.sum_cons, ih (by simp),
            List.intercalate_cons_cons, Text.inkLength_append, Text.inkLength_append, hsemicolon,
            itemWeight]
          omega

/-! ## The written form of a block -/

@[simp] theorem writeBlock_nil : writeBlock [] = [] := rfl

@[simp] theorem writeBlock_singleton (declaration : Declaration) :
    writeBlock [declaration] = declaration.write := by
  simp [writeBlock]

theorem writeBlock_cons_cons (first second : Declaration) (others : List Declaration) :
    writeBlock (first :: second :: others) =
      first.write ++ ';' :: ' ' :: writeBlock (second :: others) := by
  simp [writeBlock, List.intercalate_cons_cons]

theorem inkLength_write (declaration : Declaration) :
    Text.inkLength declaration.write + 1 = declaration.weight := by
  have hcolon : isBlank ':' = false := by decide
  have hspace : isBlank ' ' = true := by decide
  rw [write_eq, Text.inkLength_append, Text.inkLength_cons, Text.inkLength_cons, hcolon, hspace,
    weight]
  simp only [Bool.false_eq_true, if_false, if_true]
  omega

theorem sum_weight (declarations : List Declaration) (h : declarations ≠ []) :
    (declarations.map weight).sum = Text.inkLength (writeBlock declarations) + 1 := by
  have hsemicolon : isBlank ';' = false := by decide
  have hspace : isBlank ' ' = true := by decide
  induction declarations with
  | nil => exact absurd rfl h
  | cons first others ih =>
      have hfirst := inkLength_write first
      cases others with
      | nil => simp [hfirst]
      | cons second others =>
          rw [List.map_cons, List.sum_cons, ih (by simp), writeBlock_cons_cons,
            Text.inkLength_append, Text.inkLength_cons, Text.inkLength_cons, hsemicolon, hspace]
          simp only [Bool.false_eq_true, if_false, if_true]
          omega

/-! ## Reading back -/

theorem splitTopLevel_spaces_append {lead text : Text} (hlead : ∀ c ∈ lead, c = ' ') :
    Text.splitTopLevel ';' (lead ++ text) =
      (Text.splitTopLevel ';' text).modifyHead (lead ++ ·) := by
  apply Nesting.splitTopLevel_append_of_not_special
  intro c hc
  rw [hlead c hc]
  decide

theorem finish_spaces_append {lead text : Text} (hlead : ∀ c ∈ lead, c = ' ') :
    Nesting.scan.finish Nesting.top (lead ++ text) = Nesting.scan.finish Nesting.top text := by
  apply Nesting.finish_top_append_of_not_special
  intro c hc
  rw [hlead c hc]
  decide

theorem isBlank_of_spaces {lead : Text} (hlead : ∀ c ∈ lead, c = ' ') :
    ∀ c ∈ lead, isBlank c = true := by
  intro c hc
  rw [hlead c hc]
  decide

theorem IsLegible.ofItem?_write {declaration : Declaration} {lead : Text}
    (h : declaration.IsLegible) (hlead : ∀ c ∈ lead, c = ' ') :
    ofItem? (lead ++ declaration.write) = some declaration := by
  rw [ofItem?_append_of_blank (isBlank_of_spaces hlead), ofItem?_write_iff]
  exact ⟨h.name_ne_nil, h.colon_not_mem_name, h.trim_name, h.trim_value⟩

theorem readBlock_of_spaces {lead : Text} (hlead : ∀ c ∈ lead, c = ' ') :
    readBlock lead = [] := by
  have hnone : ofItem? (lead ++ []) = none := ofItem?_append_of_blank (isBlank_of_spaces hlead)
  rw [← List.append_nil lead, readBlock, splitTopLevel_spaces_append hlead]
  simpa [Text.splitTopLevel, Scan.split, Scan.splitFrom] using hnone

/-- A legible declaration is read first if a semicolon follows and the scan is back at the top
there. -/
theorem IsLegible.readBlock_write_append {declaration : Declaration} {lead : Text}
    (h : declaration.IsLegible) (hclosed : declaration.ClosesUp) (hlead : ∀ c ∈ lead, c = ' ')
    (rest : Text) :
    readBlock (lead ++ (declaration.write ++ ';' :: rest)) = declaration :: readBlock rest := by
  have hpieces : Text.splitTopLevel ';' (declaration.write ++ ';' :: rest) =
      declaration.write :: Text.splitTopLevel ';' rest :=
    Scan.splitFrom_append_of_uncut Nesting.scan ';' rfl h.uncut hclosed
  rw [readBlock, splitTopLevel_spaces_append hlead, hpieces, List.modifyHead_cons,
    List.filterMap_cons_some (h.ofItem?_write hlead), readBlock]

/-- The items of a legible block are its declarations, each with the space in front of it. -/
theorem readBlock_of_isLegibleBlock {declarations : List Declaration} (lead : Text)
    (hlead : ∀ c ∈ lead, c = ' ') (h : IsLegibleBlock declarations) :
    readBlock (lead ++ writeBlock declarations) = declarations := by
  obtain ⟨hlegible, hcloses⟩ := h
  -- The separator leaves a space in front of the next item, hence the `lead`.
  induction declarations generalizing lead with
  | nil =>
      rw [writeBlock_nil, List.append_nil]
      exact readBlock_of_spaces hlead
  | cons first others ih =>
      have hfirst : first.IsLegible := hlegible first List.mem_cons_self
      cases others with
      | nil =>
          rw [readBlock, writeBlock_singleton, splitTopLevel_spaces_append hlead, hfirst.uncut]
          simp [hfirst.ofItem?_write hlead]
      | cons second others =>
          have hrest := ih [' '] (by simp)
            (fun declaration hd => hlegible declaration (List.mem_cons_of_mem first hd))
            (fun declaration hd => hcloses declaration (by
              rw [List.dropLast_cons_cons]
              exact List.mem_cons_of_mem first hd))
          rw [writeBlock_cons_cons,
            hfirst.readBlock_write_append (hcloses first (by simp)) hlead]
          exact congrArg (first :: ·) hrest

/-- A declaration that was written as one item and is declared by it is legible. -/
theorem isLegible_of_ofItem? {declaration : Declaration} {lead : Text}
    (hlead : ∀ c ∈ lead, c = ' ')
    (huncut : Text.splitTopLevel ';' (lead ++ declaration.write) = [lead ++ declaration.write])
    (hitem : ofItem? (lead ++ declaration.write) = some declaration) : declaration.IsLegible := by
  rw [ofItem?_append_of_blank (isBlank_of_spaces hlead), ofItem?_write_iff] at hitem
  obtain ⟨hname, hcolon, htrim, hvalue⟩ := hitem
  rw [splitTopLevel_spaces_append hlead] at huncut
  refine ⟨hname, hcolon, htrim, hvalue, ?_⟩
  cases hwrite : Text.splitTopLevel ';' declaration.write with
  | nil => exact absurd hwrite (Scan.splitFrom_ne_nil _ _ _ _)
  | cons piece pieces =>
      rw [hwrite, List.modifyHead_cons, List.cons.injEq, List.append_cancel_left_eq] at huncut
      rw [huncut.1, huncut.2]

/-- If every item declares what was written in its place, the block is legible. -/
theorem isLegibleBlock_of_map_ofItem? {declarations : List Declaration} (lead : Text)
    (hlead : ∀ c ∈ lead, c = ' ')
    (h : (Text.splitTopLevel ';' (lead ++ writeBlock declarations)).map ofItem? =
      declarations.map some) : IsLegibleBlock declarations := by
  -- Each step splits off the first item. That it is the first declaration has to be shown: a
  -- semicolon in a value could have cut the text elsewhere.
  induction declarations generalizing lead with
  | nil => exact ⟨by simp, by simp⟩
  | cons first others ih =>
      have hblank := isBlank_of_spaces hlead
      cases hsplit : Text.splitTopLevel ';' (lead ++ writeBlock (first :: others)) with
      | nil => exact absurd hsplit (Scan.splitFrom_ne_nil _ _ _ _)
      | cons item items =>
          rw [hsplit, List.map_cons, List.map_cons, List.cons.injEq] at h
          obtain ⟨hitem, hitems⟩ := h
          obtain ⟨huncut, hplace⟩ := Scan.splitFrom_eq_cons Nesting.scan ';' hsplit
          have hlegible : item = lead ++ first.write → first.IsLegible := by
            rintro rfl
            exact isLegible_of_ofItem? hlead huncut hitem
          cases others with
          | nil =>
              rw [List.map_nil, List.map_eq_nil_iff] at hitems
              subst hitems
              rw [writeBlock_singleton] at hplace
              rcases hplace with ⟨htext, -⟩ | ⟨rest, -, hrest, -⟩
              · exact ⟨by simpa using hlegible htext.symm, by simp⟩
              · -- A cut would leave a second item, but there is no second declaration.
                exact absurd hrest.symm (Scan.splitFrom_ne_nil _ _ _ _)
          | cons second others =>
              rcases hplace with ⟨-, rfl⟩ | ⟨rest, htext, rfl, hfinish⟩
              · simp at hitems
              · -- The item and the declaration count the same, so they end at the same place.
                have hink : Text.inkLength (lead ++ first.write) = Text.inkLength item := by
                  have hcount := itemWeight_of_ofItem? hitem
                  rw [itemWeight] at hcount
                  rw [Text.inkLength_append, Text.inkLength_of_blank hblank]
                  have := inkLength_write first
                  omega
                rw [writeBlock_cons_cons, ← List.append_assoc] at htext
                obtain ⟨hwhole, hrest⟩ := Text.append_cons_inj_of_inkLength htext
                  rfl rfl hink
                rw [List.cons.injEq] at hrest
                obtain ⟨-, rfl⟩ := hrest
                obtain ⟨hothers, hclosed⟩ := ih [' '] (by simp) hitems
                refine ⟨?_, ?_⟩
                · rw [List.forall_mem_cons]
                  exact ⟨hlegible hwhole.symm, hothers⟩
                · rw [List.dropLast_cons_cons, List.forall_mem_cons]
                  refine ⟨?_, hclosed⟩
                  rw [ClosesUp, ← finish_spaces_append hlead, hwhole]
                  exact hfinish

/-- A written block gives its declarations back exactly when it is legible. -/
theorem readBlock_writeBlock_iff (declarations : List Declaration) :
    readBlock (writeBlock declarations) = declarations ↔ IsLegibleBlock declarations := by
  constructor
  · intro h
    by_cases hnil : declarations = []
    · subst hnil
      exact ⟨by simp, by simp⟩
    · have hne : Text.splitTopLevel ';' (writeBlock declarations) ≠ [] :=
        Scan.splitFrom_ne_nil _ _ _ _
      -- What is read weighs as much as what is written, so that nothing is lost at any cut.
      have hjoin := Text.intercalate_splitTopLevel ';' (writeBlock declarations)
      have hsum := sum_itemWeight _ hne
      rw [hjoin, ← sum_weight declarations hnil] at hsum
      rw [readBlock] at h
      have hmap := map_ofItem?_of_sum_weight (by rw [hsum, h])
      rw [h] at hmap
      exact isLegibleBlock_of_map_ofItem? [] (by simp) hmap
  · intro h
    exact readBlock_of_isLegibleBlock [] (by simp) h

end UtilityCss.Declaration
