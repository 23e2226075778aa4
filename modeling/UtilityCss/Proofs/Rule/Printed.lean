import UtilityCss.Proofs.Component.Framed
import UtilityCss.Proofs.Stylesheet.Leaves
import UtilityCss.Proofs.Token.Headings

/-!
# Printed texts

A segment is a sequence of parts that begins an item in a known way and goes on to its last part.
A level that begins with a segment has the item of this segment in front, whatever follows the part
that ends it (`Item.all_segment_append`). A segment is made by the components of a selector, of an
at-rule or of a declaration (`segment_of_selectorStart`, `segment_of_atKeyword` and
`segment_of_ident`).

A printed text has the same contents wherever it is put. Such texts can be put one after the other
and, behind a heading, into curly brackets.

* `Item.OpenedBy` says that a text in front of a block begins one item, and what the item means.
* `Body.PrintedAs` says that a text has given contents wherever it is put.

A heading with a block makes a printed text (`Body.printedAs_block`), and a style sheet that is a
printed text has its contents (`Body.PrintedAs.parse_eq`).
-/

set_option autoImplicit false

namespace UtilityCss

/-! ## Items from segments -/

/-- Parts that begin an item in a known way and do not end it. -/
structure Segment (level : Level) (start : Start) (rest parts : List Part) : Prop where
  begins : ∃ head tail, parts = head :: tail ∧ Item.skips level head = false
  starts : ∀ more, Start.ofParts (parts ++ more) = (start, rest ++ more)
  subset : rest ⊆ parts
  goesOn : ∀ part ∈ parts, Item.ends level start part = false

namespace Item

variable {level : Level} {start : Start} {rest parts : List Part}

theorem all_nil (level : Level) : all level [] = [] := by
  rw [all]
  simp

/-- Parts between items are passed over. -/
theorem all_skip {part : Part} (h : skips level part = true) (more : List Part) :
    all level (part :: more) = all level more := by
  have hdrop : (part :: more).dropWhile (skips level) = more.dropWhile (skips level) :=
    List.dropWhile_cons_of_pos h
  rw [all, hdrop, all]

theorem dropWhile_segment (h : Segment level start rest parts) (more : List Part) :
    (parts ++ more).dropWhile (skips level) = parts ++ more := by
  obtain ⟨head, tail, rfl, hhead⟩ := h.begins
  exact List.dropWhile_cons_of_neg (by simp [hhead])

theorem ofParts_segment (h : Segment level start rest parts) {more : List Part}
    (hmore : ∀ part ∈ more.head?, ends level start part = true) (body : Option Body) :
    ofParts level (parts ++ more) body = ⟨start, parts, rest, body⟩ := by
  have hstop : ∀ before : List Part, before ⊆ parts →
      (before ++ more).takeWhile (fun part => !ends level start part) = before := by
    intro before hsubset
    have hbefore : ∀ part ∈ before, (!ends level start part) = true := by
      intro part hpart
      rw [h.goesOn part (hsubset hpart)]
      rfl
    rw [List.takeWhile_append_of_pos hbefore]
    cases more with
    | nil => simp
    | cons last after => simp [hmore last rfl]
  rw [ofParts]
  simp only [h.starts, hstop parts (List.Subset.refl parts), hstop rest h.subset]

theorem ending_segment (h : Segment level start rest parts) {more : List Part}
    (hmore : ∀ part ∈ more.head?, ends level start part = true) :
    ending level (parts ++ more) = more := by
  have hgoesOn : ∀ part ∈ parts, (!ends level start part) = true := by
    intro part hpart
    rw [h.goesOn part hpart]
    rfl
  rw [ending]
  simp only [h.starts]
  rw [List.dropWhile_append_of_pos hgoesOn]
  cases more with
  | nil => rfl
  | cons last after => simp [hmore last rfl]

/-- A segment in front makes an item, which ends with the part after the segment. -/
theorem all_segment_append (h : Segment level start rest parts) {last : Part} {after : List Part}
    (hlast : ends level start last = true) :
    all level (parts ++ last :: after) = ⟨start, parts, rest, last.body⟩ :: all level after := by
  -- The part that ends the segment is taken by no other.
  have hmore : ∀ part ∈ (last :: after).head?, ends level start part = true := by
    intro part hpart
    cases hpart
    exact hlast
  have hne : (parts ++ last :: after).isEmpty = false := by simp
  rw [all]
  simp only [dropWhile_segment h, hne, Bool.false_eq_true, if_false]
  split
  · rename_i hnone
    rw [dropWhile_segment h, ending_segment h hmore] at hnone
    cases hnone
  · rename_i found others hfound
    rw [dropWhile_segment h, ending_segment h hmore] at hfound
    cases hfound
    rw [ofParts_segment h hmore]

/-- A segment alone makes an item that nothing ends. -/
theorem all_segment (h : Segment level start rest parts) :
    all level parts = [⟨start, parts, rest, none⟩] := by
  have hmore : ∀ part ∈ ([] : List Part).head?, ends level start part = true := by simp
  have hdrop := dropWhile_segment h []
  have hending := ending_segment h hmore
  have hitem := ofParts_segment h hmore none
  rw [List.append_nil] at hdrop hending hitem
  have hne : parts.isEmpty = false := by
    obtain ⟨head, tail, rfl, -⟩ := h.begins
    rfl
  rw [all]
  simp only [hdrop, hne, Bool.false_eq_true, if_false]
  split
  · rw [hitem]
  · rename_i found others hfound
    rw [hdrop, hending] at hfound
    cases hfound

end Item

/-! ## Segments from components -/

open Component (IsInline)

/-- Nothing inline ends an item. -/
theorem ends_of_isInline {component : Component} (h : IsInline component) (level : Level)
    (start : Start) : Item.ends level start (Part.ofComponent component) = false := by
  rw [Item.ends, Part.body_ofComponent_eq_none h.2, Part.token_ofComponent]
  simp [h.1]

theorem goesOn_of_isInline {components : List Component}
    (h : ∀ component ∈ components, IsInline component) (level : Level) (start : Start) :
    ∀ part ∈ Part.ofComponents components, Item.ends level start part = false := by
  intro part hpart
  rw [Part.ofComponents_eq_map, List.mem_map] at hpart
  obtain ⟨component, hcomponent, rfl⟩ := hpart
  exact ends_of_isInline (h component hcomponent) level start

theorem skips_eq_false {level : Level} {part : Part} (hskipped : part.token.kind.isSkipped = false)
    (hopen : part.token.kind ≠ .documentOpen) (hclose : part.token.kind ≠ .documentClose)
    (hsemicolon : part.token.kind ≠ .semicolon) : Item.skips level part = false := by
  cases level <;> simp [Item.skips, Part.isSkipped, hskipped, hopen, hclose, hsemicolon]

/-- A selector begins an item in no particular way. -/
theorem segment_of_selectorStart {component : Component} {components : List Component}
    (hstart : component.firstToken.kind.IsSelectorStart)
    (hinline : ∀ inner ∈ component :: components, IsInline inner) (level : Level) :
    Segment level .plain (Part.ofComponents (component :: components))
      (Part.ofComponents (component :: components)) where
  begins := by
    refine ⟨Part.ofComponent component, Part.ofComponents components,
      by rw [Part.ofComponents], skips_eq_false ?_ ?_ ?_ ?_⟩
    all_goals rw [Part.token_ofComponent]
    all_goals
      rcases hstart with h | h | ⟨unit, h⟩ | ⟨c, h⟩ <;> rw [h] <;> simp [Token.Kind.isSkipped]
  starts := by
    intro more
    rw [Part.ofComponents, List.cons_append, Start.ofParts, Part.token_ofComponent]
    rcases hstart with h | h | ⟨unit, h⟩ | ⟨c, h⟩ <;> rw [h]
  subset := List.Subset.refl _
  goesOn := goesOn_of_isInline hinline level .plain

/-- An at-keyword begins an at-rule. -/
theorem segment_of_atKeyword {name source : Text} {components : List Component}
    (hinline : ∀ inner ∈ components, IsInline inner) (level : Level) :
    Segment level (.atRule name) (Part.ofComponents components)
      (Part.ofComponents (.single ⟨.atKeyword name, source⟩ :: components)) where
  begins := by
    refine ⟨_, _, by rw [Part.ofComponents], ?_⟩
    cases level <;> rfl
  starts := by
    intro more
    rw [Part.ofComponents, Part.ofComponent]
    rfl
  subset := by
    rw [Part.ofComponents]
    exact List.subset_cons_self _ _
  goesOn := by
    apply goesOn_of_isInline
    rw [List.forall_mem_cons]
    exact ⟨⟨by simp [Component.firstToken], by simp [Component.firstToken]⟩, hinline⟩

/-- An identifier with a colon after it begins a declaration. -/
theorem segment_of_ident {name source mark : Text} {components : List Component}
    (hinline : ∀ inner ∈ components, IsInline inner) (level : Level) :
    Segment level (.declaration name) (Part.ofComponents components)
      (Part.ofComponents
        (.single ⟨.ident name, source⟩ :: .single ⟨.colon, mark⟩ :: components)) where
  begins := by
    refine ⟨_, _, by rw [Part.ofComponents], ?_⟩
    cases level <;> rfl
  starts := by
    intro more
    rw [Part.ofComponents, Part.ofComponents, Part.ofComponent, Part.ofComponent]
    rfl
  subset := by
    rw [Part.ofComponents, Part.ofComponents]
    exact List.Subset.trans (List.subset_cons_self _ _) (List.subset_cons_self _ _)
  goesOn := by
    apply goesOn_of_isInline
    rw [List.forall_mem_cons, List.forall_mem_cons]
    exact ⟨⟨by simp [Component.firstToken], by simp [Component.firstToken]⟩,
      ⟨by simp [Component.firstToken], by simp [Component.firstToken]⟩, hinline⟩

/-! ## Printed texts -/

open Component (Written)
open Token (Stops Anything)

/-- The text in front of a block begins one item, which means what is made of the contents of the
block. -/
def Item.OpenedBy (heading : Text) (meaning : Body → Body) : Prop :=
  ∃ components start, Written Stops heading components ∧
    start.isCustomDeclaration = false ∧
    (∀ parts rest body, Item.isCharset ⟨start, parts, rest, body⟩ = false) ∧
    ∀ level, ∃ rest, Segment level start rest (Part.ofComponents components) ∧
      ∀ body, Item.meaning ⟨start, Part.ofComponents components, rest, some body⟩ = meaning body

namespace Body

/-- The text has these contents, one item after the other, wherever it is put. -/
def PrintedAs (text : Text) (bodies : List Body) : Prop :=
  ∃ components, Written Anything text components ∧
    ∀ level more, ∃ items,
      Item.all level (Part.ofComponents components ++ more) = items ++ Item.all level more ∧
      items.map Item.meaning = bodies ∧
      ∀ item ∈ items, item.isCharset = false ∧ item.start.isCustomDeclaration = false

theorem PrintedAs.nil : PrintedAs [] [] := by
  refine ⟨[], Written.nil, ?_⟩
  intro level more
  refine ⟨[], ?_, rfl, by simp⟩
  rw [Part.ofComponents]
  rfl

theorem PrintedAs.append {text text' : Text} {bodies bodies' : List Body}
    (h : PrintedAs text bodies) (h' : PrintedAs text' bodies') :
    PrintedAs (text ++ text') (bodies ++ bodies') := by
  obtain ⟨components, hwritten, hitems⟩ := h
  obtain ⟨components', hwritten', hitems'⟩ := h'
  refine ⟨components ++ components', hwritten.append hwritten' fun _ _ => trivial, ?_⟩
  intro level more
  obtain ⟨items, hall, hmeaning, hordinary⟩ := hitems level (Part.ofComponents components' ++ more)
  obtain ⟨items', hall', hmeaning', hordinary'⟩ := hitems' level more
  refine ⟨items ++ items', ?_, ?_, ?_⟩
  · rw [Part.ofComponents_eq_map, List.map_append, ← Part.ofComponents_eq_map,
      ← Part.ofComponents_eq_map, List.append_assoc, hall, hall', List.append_assoc]
  · rw [List.map_append, hmeaning, hmeaning']
  · intro item hitem
    rcases List.mem_append.1 hitem with hitem | hitem
    · exact hordinary item hitem
    · exact hordinary' item hitem

/-- A heading with a block after it is one item. -/
theorem printedAs_block {heading block : Text} {meaning : Body → Body}
    (h : Item.OpenedBy heading meaning) {components : List Component}
    (hblock : Written Stops block components) :
    PrintedAs (heading ++ '{' :: (block ++ ['}']))
      [meaning (Body.ofParts (Part.ofComponents components))] := by
  obtain ⟨front, start, hheading, hcustom, hcharset, hsegment⟩ := h
  have hstops : ∀ rest, Anything rest → Stops (('{' :: (block ++ ['}'])) ++ rest) := by
    intro rest _ c hc
    cases hc
    exact Or.inl rfl
  refine ⟨_, hheading.append (Written.block hblock) hstops, ?_⟩
  intro level more
  -- The heading begins an item, which the block ends.
  obtain ⟨rest, hbegun, hmeaning⟩ := hsegment level
  have hpart : Part.ofComponent
      (.block Written.curlyOpener components (some Written.curlyCloser)) =
        ⟨.block Written.curlyOpener components (some Written.curlyCloser),
          some (Body.ofParts (Part.ofComponents components))⟩ := by
    have hkind : Written.curlyOpener.kind = .opening .curly := rfl
    rw [Part.ofComponent, if_pos hkind]
  generalize Body.ofParts (Part.ofComponents components) = body at hpart ⊢
  have hends : Item.ends level start
      ⟨.block Written.curlyOpener components (some Written.curlyCloser), some body⟩ = true := by
    simp [Item.ends, hcustom]
  refine ⟨[⟨start, Part.ofComponents front, rest, some body⟩], ?_, ?_, ?_⟩
  · have hparts : Part.ofComponents (front ++
          [.block Written.curlyOpener components (some Written.curlyCloser)]) ++ more =
        Part.ofComponents front ++
          ⟨.block Written.curlyOpener components (some Written.curlyCloser), some body⟩ ::
            more := by
      rw [Part.ofComponents_eq_map, List.map_append, List.map_singleton, hpart,
        ← Part.ofComponents_eq_map, List.append_assoc]
      rfl
    rw [hparts, Item.all_segment_append hbegun hends]
    rfl
  · rw [List.map_singleton, hmeaning]
  · intro item hitem
    rw [List.mem_singleton] at hitem
    subst hitem
    exact ⟨hcharset _ _ _, hcustom⟩

variable {text : Text} {bodies : List Body}

/-- A block that holds a printed text has its contents and nothing else. -/
theorem PrintedAs.exists_block (h : PrintedAs text bodies) :
    ∃ components, Written Stops text components ∧
      Body.ofParts (Part.ofComponents components) = concat bodies := by
  obtain ⟨components, hwritten, hitems⟩ := h
  refine ⟨components, hwritten.mono fun _ _ => trivial, ?_⟩
  obtain ⟨items, hall, hmeaning, -⟩ := hitems .block []
  rw [List.append_nil, Item.all_nil, List.append_nil] at hall
  rw [Body.ofParts, hall, hmeaning]

/-- A style sheet that is a printed text has its contents. -/
theorem PrintedAs.parse_eq (h : PrintedAs text bodies) :
    Stylesheet.parse text = ⟨(concat bodies).rules, (concat bodies).registrations⟩ := by
  obtain ⟨components, hwritten, hitems⟩ := h
  obtain ⟨items, hall, hmeaning, hordinary⟩ := hitems .top []
  rw [List.append_nil, Item.all_nil, List.append_nil] at hall
  -- At the top of a sheet two kinds of items are dropped, and printed texts are of neither.
  have hcharset : Item.dropCharset items = items := by
    cases items with
    | nil => rfl
    | cons item rest =>
        rw [Item.dropCharset, (hordinary item List.mem_cons_self).1]
        rfl
  have hfilter : items.filter (fun item => !item.start.isCustomDeclaration) = items := by
    rw [List.filter_eq_self]
    intro item hitem
    rw [(hordinary item hitem).2]
    rfl
  rw [Stylesheet.parse, hwritten.ofText_eq trivial, Body.ofSheet, hall]
  simp only [hcharset, hfilter, hmeaning]

end Body

end UtilityCss
