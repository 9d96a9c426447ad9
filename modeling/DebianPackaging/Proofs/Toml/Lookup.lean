import DebianPackaging.Toml.Edit

/-!
This module contains the proof that a key that is given a value has that value afterwards, wherever in a
document the value is put.
-/

namespace DebianPackaging.Toml

def Fact.found? (path : List Text) : List Text × Fact → Option Found
  | (p, fact) =>
    if p == path then
      match fact with
      | .value v => some (.value v)
      | .tables => some .tables
      | .table => none
    else none

def foundIn (path : List Text) (facts : List (List Text × Fact)) : Option Found :=
  facts.findSome? (Fact.found? path)

def Found.isLeaf : Found → Bool
  | .value (.table _ _) => false
  | .value _ => true
  | .tables => true
  | _ => false

section Facts

variable {path : List Text}

@[simp]
theorem foundIn_nil : foundIn path [] = none := rfl

@[simp]
theorem foundIn_append (as bs : List (List Text × Fact))
    : foundIn path (as ++ bs) = (foundIn path as).or (foundIn path bs) := by
  unfold foundIn
  rw [List.findSome?_append]

theorem foundIn_cons (a : List Text × Fact) (as : List (List Text × Fact))
    : foundIn path (a :: as) = (Fact.found? path a).or (foundIn path as) := by
  unfold foundIn
  rw [List.findSome?_cons]
  cases Fact.found? path a <;> rfl

theorem foundIn_flatMap {f : α → List (List Text × Fact)} (as : List α)
    : foundIn path (as.flatMap f) = as.findSome? fun a => foundIn path (f a) := by
  induction as with
  | nil => rfl
  | cons a as ih =>
    rw [List.flatMap_cons, foundIn_append, ih, List.findSome?_cons]
    cases foundIn path (f a) <;> rfl

theorem found?_of_ne {p : List Text} {fact : Fact} (h : p ≠ path) : Fact.found? path (p, fact) = none := by
  unfold Fact.found?
  dsimp
  rw [if_neg (by simpa using h)]

theorem exists_of_found? {p : List Text} {v : Value} {x : Found}
    (h : Fact.found? path (p, .value v) = some x) : ∃ w, x = .value w := by
  unfold Fact.found? at h
  dsimp at h
  split at h
  . cases h
    exact ⟨v, rfl⟩
  . cases h

theorem found?_value (v : Value) : Fact.found? path (path, .value v) = some (.value v) := by
  simp [Fact.found?]

mutual

theorem foundIn_facts_of_outside {base : List Text} (h : ¬ base <+: path)
    : (v : Value) → foundIn path (v.facts base) = none
  | .table entries trail => by
    have hne : base ≠ path := by
      intro heq
      exact h (heq ▸ List.prefix_refl base)
    unfold Value.facts
    rw [foundIn_cons, found?_of_ne hne, foundIn_entriesFacts_of_outside h entries]
    rfl
  | .string _ _ | .number _ _ | .boolean _ | .moment _ _ | .array _ => by
    have hne : base ≠ path := by
      intro heq
      exact h (heq ▸ List.prefix_refl base)
    unfold Value.facts
    rw [foundIn_cons, found?_of_ne hne]
    rfl

theorem foundIn_entriesFacts_of_outside {base : List Text} (h : ¬ base <+: path)
    : (entries : List (InlineEntry Value)) → foundIn path (Value.entriesFacts base entries) = none
  | [] => rfl
  | ⟨_, key, _, v⟩ :: entries => by
    have hkey : ¬ base ++ key.path <+: path := by
      intro hprefix
      exact h ((List.prefix_append base key.path).trans hprefix)
    unfold Value.entriesFacts
    rw [foundIn_append, foundIn_facts_of_outside hkey v, foundIn_entriesFacts_of_outside h entries]
    rfl

end

theorem foundIn_facts_self (v : Value) : foundIn path (v.facts path) = some (.value v) := by
  cases v <;>
  . unfold Value.facts
    rw [foundIn_cons, found?_value]
    rfl

theorem ne_nothing_of_foundIn {facts : List (List Text × Fact)} {x : Found}
    (h : foundIn path facts = some x) : x ≠ .nothing := by
  obtain ⟨⟨p, fact⟩, _, hfound⟩ := List.exists_of_findSome?_eq_some h
  unfold Fact.found? at hfound
  dsimp at hfound
  split at hfound
  . intro hx
    rw [hx] at hfound
    cases fact <;> cases hfound
  . cases hfound

end Facts

namespace Value

mutual

theorem exists_of_foundIn_facts {path : List Text} {x : Found} (base : List Text) : (v : Value) →
    foundIn path (v.facts base) = some x → ∃ w, x = .value w
  | .table entries trail => by
    intro h
    unfold facts at h
    rw [foundIn_cons] at h
    rcases Option.or_eq_some_iff.mp h with h | ⟨_, h⟩
    . exact exists_of_found? h
    . exact exists_of_foundIn_entriesFacts base entries h
  | .string _ _ | .number _ _ | .boolean _ | .moment _ _ | .array _ => by
    intro h
    unfold facts at h
    rw [foundIn_cons, foundIn_nil, Option.or_none] at h
    exact exists_of_found? h

theorem exists_of_foundIn_entriesFacts {path : List Text} {x : Found} (base : List Text)
    : (entries : List (InlineEntry Value)) →
      foundIn path (entriesFacts base entries) = some x → ∃ w, x = .value w
  | [] => by
    intro h
    cases h
  | ⟨_, key, _, v⟩ :: entries => by
    intro h
    unfold entriesFacts at h
    rw [foundIn_append] at h
    rcases Option.or_eq_some_iff.mp h with h | ⟨_, h⟩
    . exact exists_of_foundIn_facts (base ++ key.path) v h
    . exact exists_of_foundIn_entriesFacts base entries h

end

theorem entriesFacts_append (base : List Text) (entries entries' : List (InlineEntry Value))
    : entriesFacts base (entries ++ entries') = entriesFacts base entries ++ entriesFacts base entries' := by
  induction entries with
  | nil => rfl
  | cons entry entries ih =>
    obtain ⟨lead, key, separator, v⟩ := entry
    simp only [List.cons_append, entriesFacts, ih, List.append_assoc]

variable {new : Value}

theorem assign_nil (v : Value) : assign [] new v = new := by
  cases v <;> simp [assign]

mutual

theorem foundIn_facts_assign (base rel : List Text) : (v : Value) →
    foundIn (base ++ rel) ((assign rel new v).facts base) =
      (foundIn (base ++ rel) (v.facts base)).map fun _ => .value new
  | .table entries trail => by
    cases rel with
    | nil => rw [List.append_nil, assign_nil, foundIn_facts_self, foundIn_facts_self]; rfl
    | cons key rel =>
      have hne : base ≠ base ++ key :: rel := by simp
      unfold assign facts
      dsimp
      rw [foundIn_cons, foundIn_cons, found?_of_ne hne, found?_of_ne hne,
        foundIn_entriesFacts_assign base (key :: rel) entries]
      rfl
  | .string _ _ | .number _ _ | .boolean _ | .moment _ _ | .array _ => by
    cases rel with
    | nil => rw [List.append_nil, assign_nil, foundIn_facts_self, foundIn_facts_self]; rfl
    | cons key rel =>
      have hne : base ≠ base ++ key :: rel := by simp
      unfold assign facts
      dsimp
      rw [foundIn_cons, found?_of_ne hne]
      rfl

theorem foundIn_entriesFacts_assign (base rel : List Text) : (entries : List (InlineEntry Value)) →
    foundIn (base ++ rel) (entriesFacts base (assignEntries rel new entries)) =
      (foundIn (base ++ rel) (entriesFacts base entries)).map fun _ => .value new
  | [] => rfl
  | ⟨_, key, _, v⟩ :: entries => by
    -- an entry is assigned to only if its key starts the path, and else nothing at the path is in it
    unfold assignEntries entriesFacts
    rw [foundIn_append, foundIn_append, foundIn_entriesFacts_assign base rel entries, Option.map_or]
    split
    . next hprefix =>
      obtain ⟨rest, rfl⟩ := List.isPrefixOf_iff_prefix.mp hprefix
      rw [List.drop_left, ← List.append_assoc, foundIn_facts_assign (base ++ key.path) rest v]
    . next hprefix =>
      have hnot : ¬ base ++ key.path <+: base ++ rel := by
        rw [List.prefix_append_right_inj, ← List.isPrefixOf_iff_prefix]
        exact hprefix
      rw [foundIn_facts_of_outside hnot]
      rfl

end

end Value

def Item.foundAt (path base : List Text) (i : Item) : Option Found :=
  i.binding?.bind fun (p, v) => foundIn path (v.facts (base ++ p))

def Section.foundAt (elements : List (List Text)) (path : List Text) (s : Section) : Option Found :=
  foundIn path (Document.sectionFacts elements s)

def Document.elements (d : Document) : List (List Text) :=
  (d.sections.filter (·.isElement)).map (·.key.path)

theorem foundIn_itemFacts (path base : List Text) (items : List Item)
    : foundIn path (Document.itemFacts base items) = items.findSome? (Item.foundAt path base) := by
  unfold Document.itemFacts
  rw [foundIn_flatMap]
  induction items with
  | nil => rfl
  | cons i items ih =>
    rw [List.findSome?_cons]
    cases h : i.binding? with
    | none =>
      rw [List.filterMap_cons_none h, ih]
      simp [Item.foundAt, h]
    | some b =>
      rw [List.filterMap_cons_some h, List.findSome?_cons, ih]
      simp [Item.foundAt, h]

theorem findSome?_eq_of_first {g g' : α → Option β} {b b' : β} {as : List α}
    (hnone : ∀ a ∈ as, g a = none → g' a = none) (hsome : ∀ a ∈ as, g a = some b → g' a = some b')
    (h : as.findSome? g = some b) : as.findSome? g' = some b' := by
  induction as with
  | nil => cases h
  | cons a as ih =>
    rw [List.forall_mem_cons] at hnone hsome
    rw [List.findSome?_cons] at h ⊢
    cases hg : g a with
    | none =>
      rw [hg] at h
      rw [hnone.1 hg]
      exact ih hnone.2 hsome.2 h
    | some c =>
      rw [hg] at h
      cases h
      rw [hsome.1 hg]

theorem findSome?_eq_none_of_imp {g g' : α → Option β} {as : List α}
    (hnone : ∀ a ∈ as, g a = none → g' a = none) (h : as.findSome? g = none)
    : as.findSome? g' = none := by
  rw [List.findSome?_eq_none_iff] at h ⊢
  intro a ha
  exact hnone a ha (h a ha)

theorem map_findSome?_congr {g g' : α → Option β} {f : β → γ} {as : List α}
    (h : ∀ a ∈ as, (g' a).map f = (g a).map f)
    : (as.findSome? g').map f = (as.findSome? g).map f := by
  induction as with
  | nil => rfl
  | cons a as ih =>
    rw [List.forall_mem_cons] at h
    have hhead := h.1
    rw [List.findSome?_cons, List.findSome?_cons]
    cases hg : g a <;> cases hg' : g' a <;> rw [hg, hg'] at hhead
    . exact ih h.2
    . cases hhead
    . cases hhead
    . exact hhead

namespace Item

theorem foundAt_assign (path base : List Text) (new : Value) (i : Item)
    : (i.assign path base new).foundAt path base =
        (i.foundAt path base).map fun _ => .value new := by
  cases i with
  | blank t => rfl
  | comment t => rfl
  | binding indent key separator v tail =>
    unfold assign foundAt binding?
    dsimp
    split
    . next hprefix =>
      obtain ⟨rel, rfl⟩ := List.isPrefixOf_iff_prefix.mp hprefix
      rw [List.drop_left]
      exact Value.foundIn_facts_assign (base ++ key.path) rel v
    . next hprefix =>
      rw [List.isPrefixOf_iff_prefix] at hprefix
      rw [foundIn_facts_of_outside hprefix]
      rfl

@[simp]
theorem foundAt_terminate (path base : List Text) (i : Item)
    : i.terminate.foundAt path base = i.foundAt path base := by
  cases i <;> rfl

end Item

namespace Section

theorem foundAt_element {s : Section} (h : s.isElement = true) (elements : List (List Text))
    (path : List Text)
    : s.foundAt elements path = if s.key.path = path then some .tables else none := by
  unfold foundAt Document.sectionFacts
  dsimp
  rw [if_pos h, foundIn_cons]
  unfold Fact.found?
  simp

theorem foundAt_hidden {s : Section} (h : s.isElement = false) {elements : List (List Text)}
    (hidden : elements.any (·.isPrefixOf s.key.path) = true) (path : List Text)
    : s.foundAt elements path = none := by
  unfold foundAt Document.sectionFacts
  dsimp
  rw [if_neg (by simp [h]), if_pos hidden]
  rfl

theorem foundAt_open {s : Section} (h : s.isElement = false) {elements : List (List Text)}
    (hopen : elements.any (·.isPrefixOf s.key.path) = false) (path : List Text)
    : s.foundAt elements path = s.items.findSome? (Item.foundAt path s.key.path) := by
  unfold foundAt Document.sectionFacts
  dsimp
  rw [if_neg (by simp [h]), if_neg (by simp [hopen]), foundIn_cons, foundIn_itemFacts]
  unfold Fact.found?
  simp

end Section

namespace Document

theorem foundIn_facts (d : Document) (path : List Text)
    : foundIn path d.facts = (d.items.findSome? (Item.foundAt path [])).or
        (d.sections.findSome? (Section.foundAt d.elements path)) := by
  unfold facts
  dsimp
  rw [foundIn_append, foundIn_itemFacts, foundIn_flatMap]
  rfl

theorem lookUp_eq (d : Document) (path : List Text)
    : d.lookUp path = (foundIn path d.facts).getD
        (if d.facts.any fun f => path.isPrefixOf f.1 then .table else .nothing) := rfl

theorem lookUp_of_foundIn {d : Document} {path : List Text} {x : Found}
    (h : foundIn path d.facts = some x) : d.lookUp path = x := by
  rw [lookUp_eq, h]
  rfl

theorem foundIn_of_lookUp_value {d : Document} {path : List Text} {v : Value}
    (h : d.lookUp path = .value v) : foundIn path d.facts = some (.value v) := by
  rw [lookUp_eq] at h
  cases hfound : foundIn path d.facts with
  | some x =>
    rw [hfound] at h
    exact congrArg some h
  | none =>
    rw [hfound, Option.getD_none] at h
    split at h <;> cases h

theorem isLeaf_eq (d : Document) (path : List Text)
    : d.isLeaf path = (foundIn path d.facts).any Found.isLeaf := by
  unfold isLeaf
  rw [lookUp_eq]
  cases foundIn path d.facts with
  | some x =>
    cases x with
    | value v => cases v <;> rfl
    | _ => rfl
  | none =>
    rw [Option.getD_none]
    generalize (d.facts.any fun f => path.isPrefixOf f.1) = below
    cases below <;> rfl

theorem foundAt_section_assign {path : List Text} {new w : Value} {elements : List (List Text)}
    (s : Section) {t : Section}
    (ht : t = if s.isElement then s else { s with items := s.items.map (·.assign path s.key.path new) })
    : (s.foundAt elements path = none → t.foundAt elements path = none) ∧
      (s.foundAt elements path = some (.value w) → t.foundAt elements path = some (.value new)) := by
  cases helement : s.isElement with
  | true =>
    rw [if_pos helement] at ht
    subst ht
    rw [Section.foundAt_element helement]
    constructor
    . exact id
    . intro h
      split at h <;> cases h
  | false =>
    rw [if_neg (by simp [helement])] at ht
    have helement' : t.isElement = false := by rw [ht, helement]
    have hkey : t.key = s.key := by rw [ht]
    have hitems : t.items = s.items.map (·.assign path s.key.path new) := by rw [ht]
    cases hhidden : elements.any (·.isPrefixOf s.key.path) with
    | true =>
      rw [Section.foundAt_hidden helement hhidden,
        Section.foundAt_hidden helement' (by rw [hkey, hhidden])]
      simp
    | false =>
      rw [Section.foundAt_open helement hhidden,
        Section.foundAt_open helement' (by rw [hkey, hhidden]), hkey, hitems, List.findSome?_map]
      constructor
      . apply findSome?_eq_none_of_imp
        intro i _ hi
        rw [Function.comp_apply, Item.foundAt_assign, hi]
        rfl
      . apply findSome?_eq_of_first
        . intro i _ hi
          rw [Function.comp_apply, Item.foundAt_assign, hi]
          rfl
        . intro i _ hi
          rw [Function.comp_apply, Item.foundAt_assign, hi]
          rfl

theorem elements_assign (d : Document) (path : List Text) (new : Value)
    : (d.assign path new).elements = d.elements := by
  unfold elements assign
  dsimp
  induction d.sections with
  | nil => rfl
  | cons s ss ih =>
    rw [List.map_cons, List.filter_cons, List.filter_cons]
    cases h : s.isElement <;> simp [h, ih]

theorem foundIn_assign {d : Document} {path : List Text} {w : Value}
    (h : foundIn path d.facts = some (.value w)) (new : Value)
    : foundIn path (d.assign path new).facts = some (.value new) := by
  rw [foundIn_facts, elements_assign]
  rw [foundIn_facts] at h
  unfold assign
  dsimp
  rw [List.findSome?_map, List.findSome?_map]
  rcases Option.or_eq_some_iff.mp h with hitems | ⟨hitems, hsections⟩
  . rw [Option.or_eq_some_iff]
    left
    refine findSome?_eq_of_first ?_ ?_ hitems
    . intro i _ hi
      rw [Function.comp_apply, Item.foundAt_assign, hi]
      rfl
    . intro i _ hi
      rw [Function.comp_apply, Item.foundAt_assign, hi]
      rfl
  . rw [Option.or_eq_some_iff]
    right
    constructor
    . refine findSome?_eq_none_of_imp ?_ hitems
      intro i _ hi
      rw [Function.comp_apply, Item.foundAt_assign, hi]
      rfl
    . refine findSome?_eq_of_first ?_ ?_ hsections
      . intro s _
        exact (@foundAt_section_assign _ new w _ s _ rfl).1
      . intro s _
        exact (@foundAt_section_assign _ new w _ s _ rfl).2

end Document

end DebianPackaging.Toml
