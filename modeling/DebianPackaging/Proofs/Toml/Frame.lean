import DebianPackaging.Proofs.Toml.Below

/-!
This module contains the proof that a key that is set in a table changes that key only: whatever was said
about the other keys of the table is still said, and nothing else is. Setting the key once more to the
value that it has changes nothing at all.
-/

namespace DebianPackaging.Toml

namespace Document

theorem facts_eq (d : Document)
    : d.facts = d.items.flatMap (Item.facts []) ++ d.sections.flatMap (sectionFacts d.elements) := by
  rw [← itemFacts_eq]
  rfl

theorem lookUp_eq_of_below {d d' : Document} {path : List Text}
    (h : below path d'.facts = below path d.facts) : d'.lookUp path = d.lookUp path := by
  have hany : ∀ fs : List (List Text × Fact), (fs.any fun f => path.isPrefixOf f.1) =
      !(below path fs).isEmpty := by
    intro fs
    rw [Bool.eq_iff_iff, Bool.not_eq_true', List.isEmpty_eq_false_iff_exists_mem, List.any_eq_true]
    unfold below
    simp only [List.mem_filter]
  rw [lookUp_eq, lookUp_eq, ← foundIn_below d'.facts, ← foundIn_below d.facts, hany, hany, h]

theorem below_eq_nil_of_lookUp {d : Document} {path : List Text} (h : d.lookUp path = .nothing)
    : below path d.facts = [] := by
  rw [lookUp_eq] at h
  cases hfound : foundIn path d.facts with
  | some x =>
    rw [hfound, Option.getD_some] at h
    exact absurd h (ne_nothing_of_foundIn hfound)
  | none =>
    rw [hfound, Option.getD_none] at h
    split at h
    . cases h
    . next hany =>
      rw [List.eq_nil_iff_forall_not_mem]
      intro f hf
      apply hany
      obtain ⟨hmem, hpath⟩ := mem_below.mp hf
      exact List.any_eq_true.mpr ⟨f, hmem, List.isPrefixOf_iff_prefix.mpr hpath⟩

theorem flatMap_filter_of_nil {p : α → Bool} {f : α → List β} {as : List α}
    (h : ∀ a ∈ as, p a = false → f a = []) : (as.filter p).flatMap f = as.flatMap f := by
  induction as with
  | nil => rfl
  | cons a as ih =>
    rw [List.forall_mem_cons] at h
    rw [List.flatMap_cons, ← ih h.2]
    cases hp : p a with
    | true => rw [List.filter_cons_of_pos hp, List.flatMap_cons]
    | false => rw [List.filter_cons_of_neg (by simp [hp]), h.1 hp, List.nil_append]

section Sections

variable {elements : List (List Text)} {other : List Text}

theorem below_sectionFacts_congr {s s' : Section} (helement : s'.isElement = s.isElement)
    (hkey : s'.key = s.key)
    (hitems : s.isElement = false → below other (s'.items.flatMap (Item.facts s.key.path)) =
      below other (s.items.flatMap (Item.facts s.key.path)))
    : below other (sectionFacts elements s') = below other (sectionFacts elements s) := by
  unfold sectionFacts
  dsimp
  rw [helement, hkey, itemFacts_eq, itemFacts_eq]
  split
  . rfl
  . next h =>
    split
    . rfl
    . unfold below at hitems ⊢
      rw [List.filter_cons, List.filter_cons, hitems (by simpa using h)]

theorem below_sectionFacts_of_apart {s : Section} (h : Apart other s.key.path)
    : below other (sectionFacts elements s) = [] := by
  unfold sectionFacts
  dsimp
  split
  . rw [below_cons_of_not_isPrefix h.left, below_nil]
  . split
    . rfl
    . rw [below_cons_of_not_isPrefix h.left, itemFacts_eq, below_flatMap, List.flatMap_eq_nil_iff]
      intro i _
      unfold Item.facts
      split
      . next p v _ => exact below_facts_of_apart (h.of_isPrefix (List.prefix_append _ p)) v
      . rfl

theorem below_sectionFacts_of_empty {table : Text} {s : Section} (hother : ¬ other <+: [table])
    (hpath : s.key.path = [table]) (helement : s.isElement = false) (hitems : s.items = [])
    : below other (sectionFacts elements s) = [] := by
  unfold sectionFacts
  dsimp
  rw [helement, hitems, hpath, if_neg (by simp)]
  split
  . rfl
  . rw [below_cons_of_not_isPrefix hother]
    rfl

theorem sectionFacts_setApart (s : Section) : sectionFacts elements s.setApart = sectionFacts elements s := by
  unfold Section.setApart
  split <;> rfl

theorem inserts_add_section {table : Text} (key : Text) {s : Section} (hs : s.isOf table = true)
    (hopen : elements.any (·.isPrefixOf [table]) = false) (hother : ¬ other <+: [table]) (v : Value)
    : Inserts (below other (v.facts [table, key])) (below other (sectionFacts elements s))
        (below other (sectionFacts elements (s.add key v))) := by
  unfold Section.isOf at hs
  rw [Bool.and_eq_true, beq_iff_eq, Bool.not_eq_true'] at hs
  obtain ⟨hpath, helement⟩ := hs
  unfold sectionFacts Section.add
  dsimp
  rw [helement, hpath, hopen, itemFacts_eq, itemFacts_eq]
  dsimp
  rw [below_cons_of_not_isPrefix hother, below_cons_of_not_isPrefix hother]
  exact Item.inserts_append other [table] (Item.ofBinding s.keyIndent (Key.ofWord key) v) s.items

end Sections

theorem below_facts_assign {path other : List Text} (h : Apart other path) (d : Document) (new : Value)
    : below other (d.assign path new).facts = below other d.facts := by
  rw [facts_eq, facts_eq, elements_assign, below_append, below_append, below_flatMap, below_flatMap,
    below_flatMap, below_flatMap]
  unfold assign
  dsimp
  rw [List.flatMap_map, List.flatMap_map]
  congr 1
  . apply List.flatMap_congr
    intro i _
    exact Item.below_facts_assign h new i
  . apply List.flatMap_congr
    intro s _
    cases helement : s.isElement with
    | true => rw [if_pos rfl]
    | false =>
      rw [if_neg (by simp)]
      apply below_sectionFacts_congr
      . exact helement.symm
      . rfl
      . intro _
        dsimp
        rw [List.flatMap_map, below_flatMap, below_flatMap]
        apply List.flatMap_congr
        intro i _
        exact Item.below_facts_assign h new i

theorem assign_assign (d : Document) (path : List Text) (new : Value)
    : (d.assign path new).assign path new = d.assign path new := by
  unfold assign
  dsimp
  rw [List.map_map, List.map_map]
  congr 1
  . apply List.map_congr_left
    intro i _
    exact Item.assign_assign path [] new i
  . apply List.map_congr_left
    intro s _
    cases helement : s.isElement with
    | true => simp [helement]
    | false =>
      simp only [Function.comp_apply, helement, Bool.false_eq_true, if_false, List.map_map]
      congr 1
      apply List.map_congr_left
      intro i _
      exact Item.assign_assign path s.key.path new i

theorem elements_remove_subset (d : Document) (path : List Text) : (d.remove path).elements ⊆ d.elements := by
  intro e he
  obtain ⟨s', hs', rfl⟩ := List.mem_map.mp he
  obtain ⟨hs', helement⟩ := List.mem_filter.mp hs'
  obtain ⟨s, hs, rfl⟩ := List.mem_map.mp hs'
  have hmem : s ∈ d.sections.filter (·.isElement) :=
    List.mem_filter.mpr ⟨(List.mem_filter.mp hs).1, helement⟩
  exact List.mem_map.mpr ⟨s, hmem, rfl⟩

theorem any_elements_remove {path base : List Text} (h : ¬ path <+: base) (d : Document)
    : (d.remove path).elements.any (·.isPrefixOf base) = d.elements.any (·.isPrefixOf base) := by
  rw [Bool.eq_iff_iff, List.any_eq_true, List.any_eq_true]
  constructor
  . rintro ⟨e, he, hstarts⟩
    exact ⟨e, elements_remove_subset d path he, hstarts⟩
  . rintro ⟨e, he, hstarts⟩
    obtain ⟨s, hs, rfl⟩ := List.mem_map.mp he
    obtain ⟨hs, helement⟩ := List.mem_filter.mp hs
    have hkept : (!path.isPrefixOf s.key.path) = true := by
      rw [Bool.not_eq_true', ← Bool.not_eq_true, List.isPrefixOf_iff_prefix]
      intro hremoved
      exact h (hremoved.trans (List.isPrefixOf_iff_prefix.mp hstarts))
    have hmem : { s with items := s.items.filter fun i => !i.isWithin path s.key.path } ∈
        (d.remove path).sections := List.mem_map_of_mem (List.mem_filter.mpr ⟨hs, hkept⟩)
    exact ⟨_, List.mem_map_of_mem (List.mem_filter.mpr ⟨hmem, helement⟩), hstarts⟩

theorem sectionFacts_congr_elements {elements elements' : List (List Text)} {s : Section}
    (h : elements'.any (·.isPrefixOf s.key.path) = elements.any (·.isPrefixOf s.key.path))
    : sectionFacts elements' s = sectionFacts elements s := by
  unfold sectionFacts
  dsimp
  rw [h]

theorem below_facts_remove {path other : List Text} (h : Apart other path) (d : Document)
    : below other (d.remove path).facts = below other d.facts := by
  have hitems : ∀ (base : List Text) (items : List Item),
      below other ((items.filter fun i => !i.isWithin path base).flatMap (Item.facts base)) =
        below other (items.flatMap (Item.facts base)) := by
    intro base items
    rw [below_flatMap, below_flatMap]
    apply flatMap_filter_of_nil
    intro i _ hi
    exact Item.below_facts_of_isWithin h (by simpa using hi)
  have hsections : below other ((d.remove path).sections.flatMap (sectionFacts (d.remove path).elements)) =
      below other (d.sections.flatMap (sectionFacts d.elements)) := by
    have hremoved : ∀ s ∈ d.sections, (!path.isPrefixOf s.key.path) = false →
        below other (sectionFacts d.elements s) = [] := by
      intro s _ hs
      rw [Bool.not_eq_false', List.isPrefixOf_iff_prefix] at hs
      exact below_sectionFacts_of_apart (h.of_isPrefix hs)
    rw [below_flatMap, below_flatMap, ← flatMap_filter_of_nil hremoved]
    generalize helements : (d.remove path).elements = elements
    unfold remove
    dsimp
    rw [List.flatMap_map]
    apply List.flatMap_congr
    intro s hs
    have hpath := (List.mem_filter.mp hs).2
    rw [Bool.not_eq_true', ← Bool.not_eq_true, List.isPrefixOf_iff_prefix] at hpath
    rw [← sectionFacts_congr_elements (any_elements_remove hpath d), helements]
    exact below_sectionFacts_congr rfl rfl fun _ => hitems s.key.path s.items
  rw [facts_eq, facts_eq, below_append, below_append, hsections]
  congr 1
  exact hitems [] d.items

section Add

variable {d : Document} {table key : Text} {other : List Text} (hother : ¬ other <+: [table]) (v : Value)

include hother

theorem inserts_addInline? {items : List Item} (h : addInline? table key v d.items = some items)
    : Inserts (below other (v.facts [table, key])) (below other (d.items.flatMap (Item.facts [])))
        (below other (items.flatMap (Item.facts []))) := by
  obtain ⟨before, indent, k, separator, entries, trail, ⟨lead, k', separator', v⟩, tail, behind, hitems,
    hk, hkey, rfl, rfl⟩ := addInline?_eq_some h
  dsimp at hkey ⊢
  have hentry : Value.entriesFacts [table] [⟨lead, k', separator', v⟩] = v.facts [table, key] := by
    unfold Value.entriesFacts Value.entriesFacts
    rw [List.append_nil, hkey]
    rfl
  rw [hitems]
  simp only [List.flatMap_append, List.flatMap_cons, below_append]
  apply Inserts.append_left
  apply Inserts.append_right
  simp only [Item.facts, Item.binding?, List.nil_append, hk, Value.facts,
    below_cons_of_not_isPrefix hother, Value.entriesFacts_append, below_append, hentry]
  exact ⟨below other (Value.entriesFacts [table] entries), [], by simp, by simp⟩

omit hother in
theorem inserts_addDotted? {items : List Item} (h : addDotted? table key v d.items = some items)
    : Inserts (below other (v.facts [table, key])) (below other (d.items.flatMap (Item.facts [])))
        (below other (items.flatMap (Item.facts []))) := by
  obtain ⟨before, i, behind, hitems, rfl⟩ := addDotted?_eq_some h
  rw [hitems]
  simp only [List.flatMap_append, List.flatMap_cons, below_append, Item.facts_terminate]
  exact ⟨below other (before.flatMap (Item.facts [])) ++ below other (i.facts []),
    below other (behind.flatMap (Item.facts [])), by simp, by simp [Item.facts_ofBinding]; rfl⟩

theorem inserts_addToSection? {elements : List (List Text)}
    (hopen : elements.any (·.isPrefixOf [table]) = false) {ss ss' : List Section}
    (h : addToSection? table key v ss = some ss')
    : Inserts (below other (v.facts [table, key])) (below other (ss.flatMap (sectionFacts elements)))
        (below other (ss'.flatMap (sectionFacts elements))) := by
  induction ss generalizing ss' with
  | nil => cases h
  | cons s ss ih =>
    unfold addToSection? at h
    split at h
    . next hs =>
      cases h
      have hinserts := inserts_add_section key hs hopen hother v
      cases ss with
      | nil => simpa using hinserts
      | cons next ss =>
        have hapart : ∀ b : Bool,
            (if b = true then next.setApart :: ss else next :: ss).flatMap (sectionFacts elements) =
              (next :: ss).flatMap (sectionFacts elements) := by
          intro b
          split
          . rw [List.flatMap_cons, List.flatMap_cons, sectionFacts_setApart]
          . rfl
        dsimp
        rw [List.flatMap_cons, List.flatMap_cons (x := s.add key v), hapart, below_append, below_append]
        exact hinserts.append_right _
    . obtain ⟨ss'', hss, rfl⟩ := Option.map_eq_some_iff.mp h
      rw [List.flatMap_cons, List.flatMap_cons, below_append, below_append]
      exact (ih hss).append_left _

theorem inserts_addAbove? {elements : List (List Text)}
    (hopen : elements.any (·.isPrefixOf [table]) = false) {ss ss' : List Section}
    (h : addAbove? table key v ss = some ss')
    : Inserts (below other (v.facts [table, key])) (below other (ss.flatMap (sectionFacts elements)))
        (below other (ss'.flatMap (sectionFacts elements))) := by
  obtain ⟨before, s, behind, rfl, rfl⟩ := addAbove?_eq_some h
  -- the key is added to a section that says nothing but that there is a table
  have hof : (⟨[], Key.ofWord table, false, s.tail, []⟩ : Section).isOf table = true := by
    simp [Section.isOf, Key.ofWord, Key.path]
  have hhead := inserts_add_section key hof hopen hother v
  rw [below_sectionFacts_of_empty hother rfl rfl rfl] at hhead
  simp only [List.flatMap_append, List.flatMap_cons, below_append, sectionFacts_setApart,
    hhead.eq_of_before_nil]
  exact ⟨_, _, rfl, rfl⟩

omit hother in
theorem elements_addToSection? {sections : List Section}
    (h : addToSection? table key v d.sections = some sections)
    : ({ d with sections } : Document).elements = d.elements := by
  obtain ⟨before, s, behind, behind', hsections, _, rfl, hheaders⟩ := addToSection?_eq_some h
  apply elements_eq_of_headers
  rw [hsections, List.map_append, List.map_append, List.map_cons, List.map_cons, hheaders]
  rfl

omit hother in
theorem elements_addAbove? {sections : List Section}
    (h : addAbove? table key v d.sections = some sections)
    : ({ d with sections } : Document).elements = d.elements := by
  obtain ⟨before, s, behind, hsections, rfl⟩ := addAbove?_eq_some h
  have hapart : s.setApart.isElement = s.isElement ∧ s.setApart.key = s.key := by
    unfold Section.setApart
    split <;> exact ⟨rfl, rfl⟩
  unfold elements
  rw [hsections]
  simp only [List.filter_append, List.filter_cons, hapart.1, Section.add, List.map_append]
  cases s.isElement <;> simp [hapart.2]

omit hother in
theorem elements_addSection (d : Document) (table : Text)
    : (d.addSection table).elements = d.elements := by
  unfold elements addSection
  dsimp
  rw [List.filter_append, List.map_append]
  simp

theorem below_facts_addSection (d : Document)
    : below other (d.addSection table).facts = below other d.facts := by
  rw [facts_eq, facts_eq, elements_addSection]
  unfold addSection
  dsimp
  rw [List.flatMap_append, List.flatMap_singleton, below_append, below_append, below_append,
    below_sectionFacts_of_empty hother rfl rfl rfl, List.append_nil]

omit hother in
theorem exists_isOf_addSection (d : Document) (table : Text)
    : ∃ s ∈ (d.addSection table).sections, s.isOf table = true := by
  unfold addSection
  dsimp
  refine ⟨_, List.mem_append_right _ (List.mem_singleton_self _), ?_⟩
  unfold Section.isOf
  rw [Bool.and_eq_true, beq_iff_eq]
  exact ⟨rfl, rfl⟩

theorem inserts_add (hopen : d.IsOpen table)
    : Inserts (below other (v.facts [table, key])) (below other d.facts)
        (below other (d.add table key v).facts) := by
  unfold add
  split
  . next items h =>
    have hitems : Inserts (below other (v.facts [table, key])) (below other (d.items.flatMap (Item.facts [])))
        (below other (items.flatMap (Item.facts []))) := by
      rcases Option.or_eq_some_iff.mp h with h | ⟨_, h⟩
      . exact inserts_addInline? hother v h
      . exact inserts_addDotted? v h
    rw [facts_eq, facts_eq, below_append, below_append]
    exact hitems.append_right _
  . next h =>
    have hinline := isLeaf_of_addInline?_eq_none (Option.or_eq_none_iff.mp h).1
    have hitems : d.items.findSome? (Item.foundAt [table] []) = none := by
      cases hx : d.items.findSome? (Item.foundAt [table] []) with
      | none => rfl
      | some x =>
        have := hopen.items x hx
        rw [hinline x hx] at this
        cases this
    have hhidden := not_hidden (hopen.sections hitems)
    split
    . next sections h =>
      have hsections : ({ d with sections } : Document).elements = d.elements ∧
          Inserts (below other (v.facts [table, key]))
            (below other (d.sections.flatMap (sectionFacts d.elements)))
            (below other (sections.flatMap (sectionFacts d.elements))) := by
        rcases Option.or_eq_some_iff.mp h with h | ⟨_, h⟩
        . exact ⟨elements_addToSection? v h, inserts_addToSection? hother v hhidden h⟩
        . exact ⟨elements_addAbove? v h, inserts_addAbove? hother v hhidden h⟩
      rw [facts_eq, facts_eq, below_append, below_append, hsections.1]
      exact hsections.2.append_left _
    . obtain ⟨s, hs, hof⟩ := exists_isOf_addSection d table
      obtain ⟨sections, hsections⟩ := @exists_addToSection? _ key v _ s hs hof
      rw [← elements_addSection d table] at hhidden
      have hinserts := inserts_addToSection? hother v hhidden hsections
      dsimp only
      rw [hsections, Option.getD_some, ← below_facts_addSection hother d, facts_eq, facts_eq,
        elements_addToSection? v hsections, below_append, below_append]
      exact hinserts.append_left _

end Add

/-- Nothing but a table has the name, and that table can be looked into. -/
structure HasTable (d : Document) (table : Text) : Prop where
  isOpen : d.IsOpen table
  not_mem : [table] ∉ d.elements

section Set

variable {d d' : Document} {table key : Text} {v : Value}

theorem below_facts_set (h : d.set table key v = .ok d') {other : Text} (hother : other ≠ key)
    : below [table, other] d'.facts = below [table, other] d.facts := by
  have hapart := apart_pair table hother
  have hadd : ∀ d : Document, d.IsOpen table →
      below [table, other] (d.add table key v).facts = below [table, other] d.facts := by
    intro d hopen
    have hinserts : Inserts (below [table, other] (v.facts [table, key])) (below [table, other] d.facts)
        (below [table, other] (d.add table key v).facts) :=
      inserts_add (hapart.not_isPrefix_of_isPrefix ⟨[key], rfl⟩) v hopen
    rw [below_facts_of_apart hapart] at hinserts
    exact hinserts.eq_of_nil
  unfold set at h
  split at h
  . cases h
  . next hleaf =>
    rw [Bool.not_eq_true, ← isOpen_iff] at hleaf
    split at h
    . cases h
      exact below_facts_assign hapart d v
    . cases h
      exact hadd d hleaf
    . cases h
      rw [hadd _ (isOpen_remove hleaf), below_facts_remove hapart]

theorem isOpen_of_set (h : d.set table key v = .ok d') : d.IsOpen table := by
  unfold set at h
  split at h
  . cases h
  . next hleaf => rwa [Bool.not_eq_true, ← isOpen_iff] at hleaf

theorem get_set_of_ne (h : d.set table key v = .ok d') {other : Text} (hother : other ≠ key)
    : d'.get [table, other] = d.get [table, other] := by
  have hopen' := (get_eq_ok.mp (get_set h)).1
  rw [get_eq_ok.mpr ⟨hopen', rfl⟩, get_eq_ok.mpr ⟨isOpen_of_set h, rfl⟩,
    lookUp_eq_of_below (below_facts_set h hother)]

theorem elements_add (d : Document) (table key : Text) (v : Value)
    : (d.add table key v).elements = d.elements := by
  unfold add
  split
  . rfl
  . split
    . next sections h =>
      rcases Option.or_eq_some_iff.mp h with h | ⟨_, h⟩
      . exact elements_addToSection? v h
      . exact elements_addAbove? v h
    . obtain ⟨s, hs, hof⟩ := exists_isOf_addSection d table
      obtain ⟨sections, hsections⟩ := @exists_addToSection? _ key v _ s hs hof
      dsimp only
      rw [hsections, Option.getD_some, elements_addToSection? v hsections, elements_addSection]

theorem elements_set_subset (h : d.set table key v = .ok d') : d'.elements ⊆ d.elements := by
  unfold set at h
  split at h
  . cases h
  . split at h
    . cases h
      rw [elements_assign]
      exact List.Subset.refl _
    . cases h
      rw [elements_add]
      exact List.Subset.refl _
    . cases h
      rw [elements_add]
      exact elements_remove_subset d [table, key]

theorem HasTable.set (hd : d.HasTable table) (h : d.set table key v = .ok d') : d'.HasTable table := by
  constructor
  . exact (get_eq_ok.mp (get_set h)).1
  . intro helement
    exact hd.not_mem (elements_set_subset h helement)

theorem assign_eq_self (hd : d.HasTable table)
    (h : ∀ w, ([table, key], Fact.value w) ∈ d.facts → w = v) : d.assign [table, key] v = d := by
  have hitem : ∀ i ∈ d.items, i.assign [table, key] [] v = i := by
    intro i hi
    apply Item.assign_eq_self
    intro w hw
    apply h w
    rw [facts_eq]
    exact List.mem_append_left _ (List.mem_flatMap.mpr ⟨i, hi, hw⟩)
  have hsection : ∀ s ∈ d.sections, s.isElement = false →
      ∀ i ∈ s.items, i.assign [table, key] s.key.path v = i := by
    intro s hs helement i hi
    apply Item.assign_eq_self
    intro w hw
    apply h w
    -- an item of the section can be at the key only if the section is that of the table
    obtain ⟨p, hp, hstarts⟩ := Item.prefix_of_mem_facts hw
    have hpath : s.key.path = [table] := by
      obtain ⟨name, p, rfl⟩ := List.exists_cons_of_ne_nil hp
      have hle := hstarts.length_le
      rw [List.length_append, List.length_cons] at hle
      have hbase := (List.prefix_append _ _).trans hstarts
      rcases (prefix_pair s.key.path_ne_nil).mp hbase with hbase | hbase
      . exact hbase
      . rw [hbase, List.length_cons, List.length_cons] at hle
        omega
    have hhidden : d.elements.any (·.isPrefixOf s.key.path) = false := by
      rw [List.any_eq_false, hpath]
      intro e he hstarts
      obtain ⟨s', _, rfl⟩ := List.mem_map.mp he
      rw [List.isPrefixOf_iff_prefix, prefix_singleton s'.key.path_ne_nil] at hstarts
      rw [hstarts] at he
      exact hd.not_mem he
    rw [facts_eq]
    refine List.mem_append_right _ (List.mem_flatMap.mpr ⟨s, hs, ?_⟩)
    unfold sectionFacts
    dsimp
    rw [helement, hhidden, itemFacts_eq]
    exact List.mem_cons_of_mem _ (List.mem_flatMap.mpr ⟨i, hi, hw⟩)
  unfold assign
  rw [List.map_congr_left (g := id) hitem, List.map_id, List.map_congr_left (g := id), List.map_id]
  intro s hs
  cases helement : s.isElement with
  | true => rfl
  | false =>
    rw [if_neg (by simp), List.map_congr_left (g := id) (hsection s hs helement), List.map_id, ← helement]
    rfl

theorem set_set (hd : d.HasTable table)
    (hx : d.lookUp [table, key] = .nothing ∨ ∃ w, d.lookUp [table, key] = .value w)
    (h : d.set table key v = .ok d') : d'.set table key v = .ok d' := by
  have hopen := (isOpen_iff d' table).mp (get_eq_ok.mp (get_set h)).1
  have hassign : d'.set table key v = .ok (d'.assign [table, key] v) := by
    unfold set
    rw [hopen, (get_eq_ok.mp (get_set h)).2]
    rfl
  have hd' := hd.set h
  rw [hassign]
  unfold set at h
  rw [(isOpen_iff d table).mp hd.isOpen, if_neg (by simp)] at h
  rcases hx with hx | ⟨w, hx⟩
  . rw [hx] at h
    cases h
    have hinserts : Inserts (below [table, key] (v.facts [table, key])) (below [table, key] d.facts)
        (below [table, key] (d.add table key v).facts) := inserts_add (by simp) v hd.isOpen
    rw [below_eq_nil_of_lookUp hx] at hinserts
    have heq := hinserts.eq_of_before_nil
    congr 1
    apply assign_eq_self hd'
    intro w hw
    have hmem := mem_below.mpr ⟨hw, List.prefix_refl [table, key]⟩
    rw [heq, mem_below] at hmem
    exact Value.eq_of_mem_facts hmem.1
  . rw [hx] at h
    cases h
    rw [assign_assign]

end Set

end Document

end DebianPackaging.Toml
