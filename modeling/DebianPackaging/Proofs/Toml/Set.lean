import DebianPackaging.Proofs.Toml.Lookup

/-!
This module contains the proof that a key that is set in a table has its value afterwards, whether the
key is there already and whatever is there in place of a value.
-/

namespace DebianPackaging.Toml

theorem isLeaf_assign (key : Text) (path : List Text) (new v : Value)
    : (Found.value (Value.assign (key :: path) new v)).isLeaf = (Found.value v).isLeaf := by
  cases v <;> simp [Value.assign, Found.isLeaf]

theorem Key.path_ne_nil (k : Key) : k.path ≠ [] := by
  unfold Key.path
  simp

theorem prefix_singleton {p : List Text} {t : Text} (hp : p ≠ []) : p <+: [t] ↔ p = [t] := by
  constructor
  . intro h
    obtain ⟨a, p, rfl⟩ := List.exists_cons_of_ne_nil hp
    rw [List.cons_prefix_cons, List.prefix_nil] at h
    rw [h.1, h.2]
  . rintro rfl
    exact List.prefix_refl [t]

theorem prefix_pair {p : List Text} {table key : Text} (hp : p ≠ [])
    : p <+: [table, key] ↔ p = [table] ∨ p = [table, key] := by
  obtain ⟨a, p, rfl⟩ := List.exists_cons_of_ne_nil hp
  cases p with
  | nil => simp [List.cons_prefix_cons]
  | cons b p => simp [List.cons_prefix_cons, List.prefix_nil]

namespace Item

theorem foundAt_table (table : Text) (i : Item)
    : i.foundAt [table] [] =
        i.binding?.bind fun (p, v) => if p = [table] then some (.value v) else none := by
  cases i with
  | blank t => rfl
  | comment t => rfl
  | binding indent key separator v tail =>
    unfold foundAt binding?
    dsimp
    split
    . next h => rw [h, foundIn_facts_self]
    . next h =>
      apply foundIn_facts_of_outside
      rw [prefix_singleton key.path_ne_nil]
      exact h

theorem foundAt_table_below (table : Text) {base : List Text} (hbase : base ≠ []) (i : Item)
    : i.foundAt [table] base = none := by
  cases i with
  | blank t => rfl
  | comment t => rfl
  | binding indent key separator v tail =>
    unfold foundAt binding?
    dsimp
    apply foundIn_facts_of_outside
    rw [prefix_singleton (by simp [hbase])]
    intro h
    obtain ⟨a, base, rfl⟩ := List.exists_cons_of_ne_nil hbase
    have := congrArg List.length h
    simp [Key.path] at this

theorem foundAt_nil (i : Item) : i.foundAt [] [] = none := by
  cases i with
  | blank t => rfl
  | comment t => rfl
  | binding indent key separator v tail =>
    apply foundIn_facts_of_outside
    intro h
    exact key.path_ne_nil (List.prefix_nil.mp h)

theorem foundAt_eq_value {path base : List Text} {i : Item} {x : Found}
    (h : i.foundAt path base = some x) : ∃ v, x = .value v := by
  obtain ⟨⟨p, v⟩, _, hfound⟩ := Option.bind_eq_some_iff.mp h
  exact v.exists_of_foundIn_facts (base ++ p) hfound

theorem foundAt_of_not_within {base : List Text} {table key : Text} {i : Item} (hbase : base ≠ [])
    (h : i.isWithin [table, key] base = false) : i.foundAt [table, key] base = none := by
  cases i with
  | blank t => rfl
  | comment t => rfl
  | binding indent k separator v tail =>
    unfold isWithin binding? at h
    rw [Option.any_some, ← Bool.not_eq_true, List.isPrefixOf_iff_prefix] at h
    apply foundIn_facts_of_outside
    intro hprefix
    rcases (prefix_pair (by simp [hbase])).mp hprefix with heq | heq
    . obtain ⟨a, base, rfl⟩ := List.exists_cons_of_ne_nil hbase
      have := congrArg List.length heq
      simp [Key.path] at this
    . rw [heq] at h
      exact h (List.prefix_refl _)

theorem foundAt_ofBinding (indent : Text) (k : Key) (v : Value) (base : List Text)
    : (ofBinding indent k v).foundAt (base ++ k.path) base = some (.value v) :=
  foundIn_facts_self v

theorem findSome?_append_item (path base : List Text) (new : Item) (items : List Item)
    (h : items.findSome? (foundAt path base) = none)
    : (Item.append new items).findSome? (foundAt path base) = new.foundAt path base := by
  rw [List.findSome?_eq_none_iff] at h
  have hothers : ∀ i ∈ items.reverse.dropWhile (·.isBlank), i.foundAt path base = none := by
    intro i hi
    exact h i (List.mem_reverse.mp ((List.dropWhile_sublist _).subset hi))
  have hblanks : ∀ i ∈ items.reverse.takeWhile (·.isBlank), i.foundAt path base = none := by
    intro i hi
    exact h i (List.mem_reverse.mp ((List.takeWhile_sublist _).subset hi))
  unfold Item.append
  dsimp
  generalize (items.reverse.dropWhile (·.isBlank)) = others at hothers
  generalize (items.reverse.takeWhile (·.isBlank)) = blanks at hblanks
  have hfront : (others.reverse.modify (others.reverse.length - 1) terminate).findSome?
      (foundAt path base) = none := by
    rw [List.findSome?_eq_none_iff]
    intro i hi
    obtain ⟨n, hn, rfl⟩ := List.mem_iff_getElem.mp hi
    rw [List.getElem_modify]
    split
    . rw [foundAt_terminate]
      apply hothers
      exact List.mem_reverse.mp (List.getElem_mem _)
    . apply hothers
      exact List.mem_reverse.mp (List.getElem_mem _)
  have hback : blanks.reverse.findSome? (foundAt path base) = none := by
    rw [List.findSome?_eq_none_iff]
    intro i hi
    exact hblanks i (List.mem_reverse.mp hi)
  rw [List.findSome?_append, hfront, List.findSome?_cons, hback]
  cases new.foundAt path base <;> rfl

end Item

namespace Section

theorem foundAt_table (table : Text) (elements : List (List Text)) (s : Section)
    : s.foundAt elements [table] =
        if s.isElement = true ∧ s.key.path = [table] then some .tables else none := by
  cases helement : s.isElement with
  | true =>
    rw [foundAt_element helement]
    simp
  | false =>
    cases hhidden : elements.any (·.isPrefixOf s.key.path) with
    | true =>
      rw [foundAt_hidden helement hhidden]
      simp
    | false =>
      rw [foundAt_open helement hhidden]
      simp [Item.foundAt_table_below table s.key.path_ne_nil]

theorem foundAt_nil (elements : List (List Text)) (s : Section) : s.foundAt elements [] = none := by
  have hitem : ∀ i : Item, i.foundAt [] s.key.path = none := by
    intro i
    cases i with
    | blank t => rfl
    | comment t => rfl
    | binding indent key separator v tail =>
      apply foundIn_facts_of_outside
      intro h
      have := List.prefix_nil.mp h
      exact key.path_ne_nil (List.append_eq_nil_iff.mp this).2
  cases helement : s.isElement with
  | true =>
    rw [foundAt_element helement, if_neg s.key.path_ne_nil]
  | false =>
    cases hhidden : elements.any (·.isPrefixOf s.key.path) with
    | true => rw [foundAt_hidden helement hhidden]
    | false =>
      rw [foundAt_open helement hhidden]
      simp [hitem]

end Section

namespace Document

structure IsOpen (d : Document) (table : Text) : Prop where
  items : ∀ x ∈ d.items.findSome? (Item.foundAt [table] []), x.isLeaf = false
  sections : d.items.findSome? (Item.foundAt [table] []) = none →
    ∀ s ∈ d.sections, s.isElement = true → s.key.path ≠ [table]

theorem isLeaf_nil (d : Document) : d.isLeaf [] = false := by
  rw [isLeaf_eq, foundIn_facts]
  have hitems : d.items.findSome? (Item.foundAt [] []) = none := by
    simp [Item.foundAt_nil]
  have hsections : d.sections.findSome? (Section.foundAt d.elements []) = none := by
    simp [Section.foundAt_nil]
  rw [hitems, hsections]
  rfl

theorem isOpen_iff (d : Document) (table : Text) : d.IsOpen table ↔ d.isLeaf [table] = false := by
  rw [isLeaf_eq, foundIn_facts]
  constructor
  . intro ⟨hitems, hsections⟩
    cases hfound : d.items.findSome? (Item.foundAt [table] []) with
    | some x => exact hitems x hfound
    | none =>
      have hnone : d.sections.findSome? (Section.foundAt d.elements [table]) = none := by
        rw [List.findSome?_eq_none_iff]
        intro s hs
        rw [Section.foundAt_table, if_neg]
        intro h
        exact hsections hfound s hs h.1 h.2
      rw [hnone]
      rfl
  . intro h
    constructor
    . intro x hx
      rw [Option.mem_def.mp hx] at h
      exact h
    . intro hfound s hs helement hpath
      rw [hfound, Option.none_or] at h
      cases hsome : d.sections.findSome? (Section.foundAt d.elements [table]) with
      | none =>
        rw [List.findSome?_eq_none_iff] at hsome
        have := hsome s hs
        rw [Section.foundAt_table, if_pos ⟨helement, hpath⟩] at this
        cases this
      | some x =>
        obtain ⟨s', _, hs'⟩ := List.exists_of_findSome?_eq_some hsome
        rw [Section.foundAt_table] at hs'
        split at hs'
        . cases hs'
          rw [hsome] at h
          cases h
        . cases hs'

theorem get_eq_ok {d : Document} {table key : Text} {x : Found}
    : d.get [table, key] = .ok x ↔ d.IsOpen table ∧ d.lookUp [table, key] = x := by
  rw [isOpen_iff]
  unfold get isOpenTo isOpenTo
  rw [isLeaf_nil]
  cases h : d.isLeaf [table] <;> simp [h]

theorem IsOpen.of_same {d d' : Document} {table : Text} (h : d.IsOpen table)
    (hitems : (d'.items.findSome? (Item.foundAt [table] [])).map Found.isLeaf =
      (d.items.findSome? (Item.foundAt [table] [])).map Found.isLeaf)
    (hsections : ∀ s' ∈ d'.sections, s'.isElement = true → s'.key.path = [table] →
      ∃ s ∈ d.sections, s.isElement = true ∧ s.key.path = [table]) : d'.IsOpen table := by
  constructor
  . intro x hx
    rw [Option.mem_def.mp hx] at hitems
    obtain ⟨y, hy, hleaf⟩ := Option.map_eq_some_iff.mp hitems.symm
    rw [← hleaf]
    exact h.items y hy
  . intro hnone s' hs' helement hpath
    rw [hnone] at hitems
    obtain ⟨s, hs, helement', hpath'⟩ := hsections s' hs' helement hpath
    exact h.sections (Option.map_eq_none_iff.mp hitems.symm) s hs helement' hpath'

theorem isOpen_assign {d : Document} {table : Text} (h : d.IsOpen table) (key : Text) (new : Value)
    : (d.assign [table, key] new).IsOpen table := by
  apply h.of_same
  . unfold assign
    dsimp
    rw [List.findSome?_map]
    apply map_findSome?_congr
    intro i _
    rw [Function.comp_apply, Item.foundAt_table, Item.foundAt_table]
    cases i with
    | blank t => rfl
    | comment t => rfl
    | binding indent k separator v tail =>
      unfold Item.assign Item.binding?
      dsimp
      by_cases hpath : k.path = [table]
      . simp [hpath, isLeaf_assign]
      . rw [if_neg hpath, if_neg hpath]
  . intro s' hs' helement hpath
    obtain ⟨s, hs, rfl⟩ := List.mem_map.mp hs'
    refine ⟨s, hs, ?_⟩
    cases he : s.isElement with
    | true =>
      rw [if_pos he] at hpath
      exact ⟨rfl, hpath⟩
    | false =>
      rw [if_neg (by simp [he]), he] at helement
      cases helement

theorem addInline?_eq_some {table key : Text} {v : Value} {items items' : List Item}
    (h : addInline? table key v items = some items')
    : ∃ before indent k separator entries trail entry tail behind,
        items = before ++ .binding indent k separator (.table entries trail) tail :: behind ∧
        k.path = [table] ∧ entry.key.path = [key] ∧ entry.value = v ∧
        items' = before ++ .binding indent k separator (.table (entries ++ [entry]) []) tail ::
          behind := by
  induction items generalizing items' with
  | nil => cases h
  | cons i items ih =>
    have hcons : ∀ items', addInline? table key v items = some items' →
        ∃ before indent k separator entries trail entry tail behind,
          i :: items = before ++ .binding indent k separator (.table entries trail) tail :: behind ∧
          k.path = [table] ∧ entry.key.path = [key] ∧ entry.value = v ∧
          i :: items' = before ++ .binding indent k separator (.table (entries ++ [entry]) []) tail ::
            behind := by
      intro items' h
      obtain ⟨before, indent, k, separator, entries, trail, entry, tail, behind, rfl, hk, hkey, hvalue,
        rfl⟩ := ih h
      exact ⟨i :: before, indent, k, separator, entries, trail, entry, tail, behind, rfl, hk, hkey,
        hvalue, rfl⟩
    unfold addInline? at h
    split at h
    . cases h
    . next heq =>
      cases heq
      split at h
      . next hk =>
        cases h
        exact ⟨[], _, _, _, _, _, _, _, _, rfl, hk, rfl, rfl, rfl⟩
      . obtain ⟨items'', hitems, rfl⟩ := Option.map_eq_some_iff.mp h
        exact hcons items'' hitems
    . next heq =>
      cases heq
      obtain ⟨items'', hitems, rfl⟩ := Option.map_eq_some_iff.mp h
      exact hcons items'' hitems

theorem isLeaf_of_addInline?_eq_none {table key : Text} {v : Value} {items : List Item}
    (h : addInline? table key v items = none)
    : ∀ x, items.findSome? (Item.foundAt [table] []) = some x → x.isLeaf = true := by
  induction items with
  | nil =>
    intro x hx
    cases hx
  | cons i items ih =>
    intro x hx
    rw [List.findSome?_cons, Item.foundAt_table] at hx
    unfold addInline? at h
    split at h
    . next heq => cases heq
    . next heq =>
      cases heq
      split at h
      . cases h
      . next hk =>
        simp only [Item.binding?, Option.bind_some, if_neg hk] at hx
        exact ih (Option.map_eq_none_iff.mp h) x hx
    . next hnot heq =>
      cases heq
      specialize ih (Option.map_eq_none_iff.mp h) x
      cases i with
      | blank t => exact ih hx
      | comment t => exact ih hx
      | binding indent k separator w tail =>
        by_cases hk : k.path = [table]
        . simp only [Item.binding?, Option.bind_some, if_pos hk] at hx
          cases hx
          cases w with
          | table entries trail => exact absurd rfl (hnot indent k separator entries trail tail)
          | _ => rfl
        . simp only [Item.binding?, Option.bind_some, if_neg hk] at hx
          exact ih hx

theorem addDotted?_eq_some {table key : Text} {v : Value} {items items' : List Item}
    (h : addDotted? table key v items = some items')
    : ∃ before i behind, items = before ++ i :: behind ∧
        items' = before ++ i.terminate :: Item.ofBinding [] (Key.dotted table key) v :: behind := by
  induction items generalizing items' with
  | nil => cases h
  | cons i items ih =>
    unfold addDotted? at h
    split at h
    . cases h
      exact ⟨[], i, items, rfl, rfl⟩
    . obtain ⟨items'', hitems, rfl⟩ := Option.map_eq_some_iff.mp h
      obtain ⟨before, j, behind, rfl, rfl⟩ := ih hitems
      exact ⟨i :: before, j, behind, rfl, rfl⟩

theorem addToSection?_eq_some {table key : Text} {v : Value} {ss ss' : List Section}
    (h : addToSection? table key v ss = some ss')
    : ∃ before s behind behind', ss = before ++ s :: behind ∧ s.isOf table = true ∧
        ss' = before ++ s.add key v :: behind' ∧
        behind'.map (fun s => (s.isElement, s.key)) = behind.map fun s => (s.isElement, s.key) := by
  induction ss generalizing ss' with
  | nil => cases h
  | cons s ss ih =>
    unfold addToSection? at h
    split at h
    . next hs =>
      cases h
      refine ⟨[], s, ss, _, rfl, hs, rfl, ?_⟩
      cases ss with
      | nil => rfl
      | cons next ss =>
        dsimp
        split
        . unfold Section.setApart
          split <;> rfl
        . rfl
    . obtain ⟨ss'', hss, rfl⟩ := Option.map_eq_some_iff.mp h
      obtain ⟨before, s', behind, behind', rfl, hs, rfl, heq⟩ := ih hss
      exact ⟨s :: before, s', behind, behind', rfl, hs, rfl, heq⟩

theorem addAbove?_eq_some {table key : Text} {v : Value} {ss ss' : List Section}
    (h : addAbove? table key v ss = some ss')
    : ∃ before s behind, ss = before ++ s :: behind ∧
        ss' = before ++ Section.add ⟨[], Key.ofWord table, false, s.tail, []⟩ key v ::
          s.setApart :: behind := by
  induction ss generalizing ss' with
  | nil => cases h
  | cons s ss ih =>
    unfold addAbove? at h
    split at h
    . cases h
      exact ⟨[], s, ss, rfl, rfl⟩
    . obtain ⟨ss'', hss, rfl⟩ := Option.map_eq_some_iff.mp h
      obtain ⟨before, s', behind, rfl, rfl⟩ := ih hss
      exact ⟨s :: before, s', behind, rfl, rfl⟩

theorem elements_eq_of_headers {d d' : Document}
    (h : d'.sections.map (fun s => (s.isElement, s.key)) = d.sections.map fun s => (s.isElement, s.key))
    : d'.elements = d.elements := by
  have helements : ∀ d : Document, d.elements =
      ((d.sections.map fun s => (s.isElement, s.key)).filter (·.1)).map (·.2.path) := by
    intro d
    unfold elements
    rw [List.filter_map, List.map_map]
    rfl
  rw [helements, helements, h]

theorem exists_element_of_headers {ss ss' : List Section}
    (h : ss'.map (fun s => (s.isElement, s.key)) = ss.map fun s => (s.isElement, s.key)) {path : List Text}
    : ∀ s' ∈ ss', s'.isElement = true → s'.key.path = path →
        ∃ s ∈ ss, s.isElement = true ∧ s.key.path = path := by
  intro s' hs' helement hpath
  have hmem := List.mem_map_of_mem (f := fun s : Section => (s.isElement, s.key)) hs'
  rw [h] at hmem
  obtain ⟨s, hs, heq⟩ := List.mem_map.mp hmem
  rw [Prod.mk.injEq] at heq
  exact ⟨s, hs, by rw [heq.1, helement], by rw [heq.2, hpath]⟩

theorem foundIn_eq_none_iff {d : Document} {path : List Text}
    : foundIn path d.facts = none ↔ d.items.findSome? (Item.foundAt path []) = none ∧
        d.sections.findSome? (Section.foundAt d.elements path) = none := by
  rw [foundIn_facts, Option.or_eq_none_iff]

theorem not_hidden {d : Document} {table : Text}
    (h : ∀ s ∈ d.sections, s.isElement = true → s.key.path ≠ [table])
    : d.elements.any (·.isPrefixOf [table]) = false := by
  rw [List.any_eq_false]
  intro e he
  obtain ⟨s, hs, rfl⟩ := List.mem_map.mp he
  obtain ⟨hs, helement⟩ := List.mem_filter.mp hs
  rw [List.isPrefixOf_iff_prefix, prefix_singleton s.key.path_ne_nil]
  exact h s hs helement

theorem foundIn_insertSection {d : Document} {before behind : List Section} {s : Section}
    (hitems : s.items = []) (helement : s.isElement = false) (hsections : d.sections = before ++ behind)
    {path : List Text}
    : foundIn path ({ d with sections := before ++ s :: behind } : Document).facts =
        foundIn path d.facts := by
  have helements : ({ d with sections := before ++ s :: behind } : Document).elements = d.elements := by
    unfold elements
    rw [hsections, List.filter_append, List.filter_append, List.filter_cons, helement]
    rfl
  have hnone : s.foundAt d.elements path = none := by
    cases hhidden : d.elements.any (·.isPrefixOf s.key.path) with
    | true => exact Section.foundAt_hidden helement hhidden path
    | false =>
      rw [Section.foundAt_open helement hhidden, hitems]
      rfl
  rw [foundIn_facts, foundIn_facts, helements, hsections, List.findSome?_append,
    List.findSome?_append, List.findSome?_cons, hnone]

section Add

variable {d : Document} {table key : Text} {v : Value} (hopen : d.IsOpen table)
  (hnone : foundIn [table, key] d.facts = none)

include hopen hnone

theorem foundIn_addInline? {items : List Item} (h : addInline? table key v d.items = some items)
    : foundIn [table, key] ({ d with items } : Document).facts = some (.value v) ∧
      ({ d with items } : Document).IsOpen table := by
  obtain ⟨before, indent, k, separator, entries, trail, entry, tail, behind, hitems, hk, hkey, rfl,
    rfl⟩ := addInline?_eq_some h
  have hfound := (foundIn_eq_none_iff.mp hnone).1
  rw [hitems, List.findSome?_append, Option.or_eq_none_iff, List.findSome?_cons] at hfound
  obtain ⟨hbefore, hrest⟩ := hfound
  have hold : Item.foundAt [table, key] [] (.binding indent k separator (.table entries trail) tail) =
      none := by
    cases hx : Item.foundAt [table, key] [] (.binding indent k separator (.table entries trail) tail)
      with
    | none => rfl
    | some x =>
      rw [hx] at hrest
      cases hrest
  have hnew : Item.foundAt [table, key] []
      (.binding indent k separator (.table (entries ++ [entry]) []) tail) =
        some (.value entry.value) := by
    have hne : [table] ≠ [table, key] := by simp
    simp only [Item.foundAt, Item.binding?, Option.bind_some, List.nil_append, hk, Value.facts,
      foundIn_cons, found?_of_ne hne, Option.none_or] at hold ⊢
    rw [Value.entriesFacts_append, foundIn_append, hold, Option.none_or]
    obtain ⟨lead, k', separator', v⟩ := entry
    dsimp at hkey
    unfold Value.entriesFacts Value.entriesFacts
    rw [List.append_nil, hkey]
    exact foundIn_facts_self v
  constructor
  . rw [foundIn_facts]
    dsimp
    rw [List.findSome?_append, hbefore, Option.none_or, List.findSome?_cons, hnew]
    rfl
  . apply hopen.of_same
    . rw [hitems]
      dsimp
      rw [List.findSome?_append, List.findSome?_append, List.findSome?_cons, List.findSome?_cons,
        Item.foundAt_table, Item.foundAt_table]
      simp only [Item.binding?, Option.bind_some, if_pos hk]
      cases before.findSome? (Item.foundAt [table] []) <;> rfl
    . intro s hs helement hpath
      exact ⟨s, hs, helement, hpath⟩

theorem foundIn_addDotted? {items : List Item} (h : addDotted? table key v d.items = some items)
    : foundIn [table, key] ({ d with items } : Document).facts = some (.value v) ∧
      ({ d with items } : Document).IsOpen table := by
  obtain ⟨before, i, behind, hitems, rfl⟩ := addDotted?_eq_some h
  have hfound := (foundIn_eq_none_iff.mp hnone).1
  rw [hitems, List.findSome?_append, Option.or_eq_none_iff, List.findSome?_cons] at hfound
  obtain ⟨hbefore, hrest⟩ := hfound
  have hold : i.foundAt [table, key] [] = none := by
    cases hx : i.foundAt [table, key] [] with
    | none => rfl
    | some x =>
      rw [hx] at hrest
      cases hrest
  have hnew : (Item.ofBinding [] (Key.dotted table key) v).foundAt [table, key] [] =
      some (.value v) := foundIn_facts_self v
  have hnew' : (Item.ofBinding [] (Key.dotted table key) v).foundAt [table] [] = none := by
    rw [Item.foundAt_table]
    simp [Item.ofBinding, Item.binding?, Key.path, Key.dotted]
  constructor
  . rw [foundIn_facts, List.findSome?_append, hbefore, Option.none_or, List.findSome?_cons,
      Item.foundAt_terminate, hold, List.findSome?_cons, hnew]
    rfl
  . apply hopen.of_same
    . rw [hitems, List.findSome?_append, List.findSome?_append, List.findSome?_cons,
        List.findSome?_cons, Item.foundAt_terminate, List.findSome?_cons, hnew']
    . intro s hs helement hpath
      exact ⟨s, hs, helement, hpath⟩

variable (hno : ∀ s ∈ d.sections, s.isElement = true → s.key.path ≠ [table])

include hno

omit hopen in
theorem foundAt_add {before behind behind' : List Section} {s : Section}
    (hsections : d.sections = before ++ s :: behind) (hs : s.isOf table = true)
    (hheaders : behind'.map (fun s => (s.isElement, s.key)) =
      behind.map fun s => (s.isElement, s.key))
    : foundIn [table, key] ({ d with sections := before ++ s.add key v :: behind' } : Document).facts =
        some (.value v) := by
  unfold Section.isOf at hs
  rw [Bool.and_eq_true, beq_iff_eq, Bool.not_eq_true'] at hs
  obtain ⟨hpath, helement⟩ := hs
  have helements : ({ d with sections := before ++ s.add key v :: behind' } : Document).elements =
      d.elements := by
    apply elements_eq_of_headers
    rw [hsections, List.map_append, List.map_append, List.map_cons, List.map_cons, hheaders]
    rfl
  have hhidden : d.elements.any (·.isPrefixOf s.key.path) = false := by
    rw [hpath]
    exact not_hidden hno
  obtain ⟨hitems, hfound⟩ := foundIn_eq_none_iff.mp hnone
  rw [hsections, List.findSome?_append, Option.or_eq_none_iff, List.findSome?_cons] at hfound
  obtain ⟨hbefore, hrest⟩ := hfound
  have hold : s.items.findSome? (Item.foundAt [table, key] s.key.path) = none := by
    rw [← Section.foundAt_open helement hhidden]
    cases hx : s.foundAt d.elements [table, key] with
    | none => rfl
    | some x =>
      rw [hx] at hrest
      cases hrest
  have hnew : (s.add key v).foundAt d.elements [table, key] = some (.value v) := by
    rw [Section.foundAt_open (s := s.add key v) helement hhidden]
    unfold Section.add
    dsimp
    rw [Item.findSome?_append_item _ _ _ _ hold, hpath]
    exact Item.foundAt_ofBinding s.keyIndent (Key.ofWord key) v [table]
  rw [foundIn_facts, hitems, Option.none_or, helements, List.findSome?_append, hbefore,
    Option.none_or, List.findSome?_cons, hnew]

theorem foundIn_addToSection? {sections : List Section}
    (h : addToSection? table key v d.sections = some sections)
    : foundIn [table, key] ({ d with sections } : Document).facts = some (.value v) ∧
      ({ d with sections } : Document).IsOpen table := by
  obtain ⟨before, s, behind, behind', hsections, hs, rfl, hheaders⟩ := addToSection?_eq_some h
  refine ⟨foundAt_add hnone hno hsections hs hheaders, ?_⟩
  apply hopen.of_same
  . rfl
  . apply exists_element_of_headers
    rw [hsections, List.map_append, List.map_append, List.map_cons, List.map_cons, hheaders]
    rfl

theorem foundIn_addAbove? {sections : List Section}
    (h : addAbove? table key v d.sections = some sections)
    : foundIn [table, key] ({ d with sections } : Document).facts = some (.value v) ∧
      ({ d with sections } : Document).IsOpen table := by
  obtain ⟨before, s, behind, hsections, rfl⟩ := addAbove?_eq_some h
  -- The key is added as if the new section had been there before, without any key.
  let head : Section := ⟨[], Key.ofWord table, false, s.tail, []⟩
  have hhead : head.isOf table = true := by
    unfold Section.isOf
    rw [Bool.and_eq_true, beq_iff_eq]
    exact ⟨rfl, rfl⟩
  have hnone' := hnone
  rw [← foundIn_insertSection (s := head) rfl rfl hsections] at hnone'
  have hno' : ∀ s' ∈ before ++ head :: s :: behind, s'.isElement = true → s'.key.path ≠ [table] := by
    intro s' hs' helement
    simp only [List.mem_append, List.mem_cons] at hs'
    rcases hs' with hs' | rfl | hs'
    . exact hno s' (by simp [hsections, hs']) helement
    . cases helement
    . exact hno s' (by simp [hsections, hs']) helement
  have hheaders : (s.setApart :: behind).map (fun s => (s.isElement, s.key)) =
      (s :: behind).map fun s => (s.isElement, s.key) := by
    unfold Section.setApart
    split <;> rfl
  refine ⟨foundAt_add hnone' hno' rfl hhead hheaders, ?_⟩
  apply hopen.of_same
  . rfl
  . intro s' hs' helement hpath
    rw [hsections]
    rw [List.mem_append, List.mem_cons] at hs'
    rcases hs' with hs' | rfl | hs'
    . exact ⟨s', by simp [hs'], helement, hpath⟩
    . cases helement
    . obtain ⟨s'', hs'', h⟩ := exists_element_of_headers hheaders s' hs' helement hpath
      exact ⟨s'', List.mem_append_right before hs'', h⟩

omit hno in
theorem isOpen_addSection
    : (d.addSection table).IsOpen table ∧ foundIn [table, key] (d.addSection table).facts = none ∧
        ∃ s ∈ (d.addSection table).sections, s.isOf table = true := by
  have heq : ∃ indent, d.addSection table =
      { d with sections := d.sections ++ [⟨indent, Key.ofWord table, false, "\n", []⟩] } := ⟨_, rfl⟩
  obtain ⟨indent, heq⟩ := heq
  rw [heq]
  have hof : Section.isOf table ⟨indent, Key.ofWord table, false, "\n", []⟩ = true := by
    unfold Section.isOf
    rw [Bool.and_eq_true, beq_iff_eq]
    exact ⟨rfl, rfl⟩
  refine ⟨?_, ?_, ⟨indent, Key.ofWord table, false, "\n", []⟩, List.mem_append_right _ (by simp), hof⟩
  . apply hopen.of_same
    . rfl
    . intro s hs helement hpath
      rw [List.mem_append, List.mem_singleton] at hs
      rcases hs with hs | rfl
      . exact ⟨s, hs, helement, hpath⟩
      . cases helement
  . rw [← hnone]
    exact foundIn_insertSection rfl rfl (List.append_nil _).symm

omit hopen hnone hno in
theorem exists_addToSection? {ss : List Section} {s : Section} (hs : s ∈ ss) (hof : s.isOf table = true)
    : ∃ ss', addToSection? table key v ss = some ss' := by
  induction ss with
  | nil => cases hs
  | cons s' ss ih =>
    unfold addToSection?
    split
    . exact ⟨_, rfl⟩
    . next hnot =>
      cases hs with
      | head => exact absurd hof hnot
      | tail _ hs =>
        obtain ⟨ss', hss'⟩ := ih hs
        exact ⟨s' :: ss', by rw [hss']; rfl⟩

omit hno in
theorem foundIn_add : foundIn [table, key] (d.add table key v).facts = some (.value v) ∧
    (d.add table key v).IsOpen table := by
  unfold add
  split
  . next items h =>
    rcases Option.or_eq_some_iff.mp h with h | ⟨_, h⟩
    . exact foundIn_addInline? hopen hnone h
    . exact foundIn_addDotted? hopen hnone h
  . next h =>
    have hinline := isLeaf_of_addInline?_eq_none (Option.or_eq_none_iff.mp h).1
    have hitems : d.items.findSome? (Item.foundAt [table] []) = none := by
      cases hx : d.items.findSome? (Item.foundAt [table] []) with
      | none => rfl
      | some x =>
        have := hopen.items x hx
        rw [hinline x hx] at this
        cases this
    have hno := hopen.sections hitems
    split
    . next sections h =>
      rcases Option.or_eq_some_iff.mp h with h | ⟨_, h⟩
      . exact foundIn_addToSection? hopen hnone hno h
      . exact foundIn_addAbove? hopen hnone hno h
    . obtain ⟨hopen', hnone', s, hs, hof⟩ := isOpen_addSection hopen hnone
      obtain ⟨sections, hsections⟩ := @exists_addToSection? _ key v _ s hs hof
      have hno' := hopen'.sections hitems
      dsimp only
      rw [hsections]
      exact foundIn_addToSection? hopen' hnone' hno' hsections

end Add

theorem findSome?_filter {p : α → Bool} {f : α → Option β} {as : List α}
    (h : ∀ a ∈ as, p a = false → f a = none) : (as.filter p).findSome? f = as.findSome? f := by
  induction as with
  | nil => rfl
  | cons a as ih =>
    rw [List.forall_mem_cons] at h
    rw [List.findSome?_cons, List.filter_cons]
    cases hp : p a with
    | true =>
      rw [if_pos rfl, List.findSome?_cons, ih h.2]
    | false =>
      rw [if_neg (by simp), h.1 hp, ih h.2]

section Remove

variable {d : Document} {table key : Text}

theorem foundIn_remove (h : ∀ v, d.lookUp [table, key] ≠ .value v)
    : foundIn [table, key] (d.remove [table, key]).facts = none := by
  have hvalue : ∀ v, foundIn [table, key] d.facts ≠ some (.value v) := by
    intro v hv
    exact h v (lookUp_of_foundIn hv)
  rw [foundIn_eq_none_iff]
  constructor
  . -- An item of the table has no value at the key, as that would be found before all sections.
    have hitems : d.items.findSome? (Item.foundAt [table, key] []) = none := by
      cases hx : d.items.findSome? (Item.foundAt [table, key] []) with
      | none => rfl
      | some x =>
        obtain ⟨i, _, hi⟩ := List.exists_of_findSome?_eq_some hx
        obtain ⟨v, rfl⟩ := Item.foundAt_eq_value hi
        apply absurd _ (hvalue v)
        rw [foundIn_facts, hx]
        rfl
    rw [List.findSome?_eq_none_iff] at hitems ⊢
    intro i hi
    exact hitems i (List.mem_filter.mp hi).1
  . rw [List.findSome?_eq_none_iff]
    intro s' hs'
    obtain ⟨s, hs, heq⟩ := List.mem_map.mp hs'
    have hkey : s'.key = s.key := by rw [← heq]
    have hitems : s'.items = s.items.filter fun i => !i.isWithin [table, key] s.key.path := by
      rw [← heq]
    obtain ⟨_, hpath⟩ := List.mem_filter.mp hs
    rw [Bool.not_eq_true', ← Bool.not_eq_true, List.isPrefixOf_iff_prefix, ← hkey] at hpath
    generalize (d.remove [table, key]).elements = elements
    cases helement : s'.isElement with
    | true =>
      rw [Section.foundAt_element helement, if_neg]
      intro h
      rw [h] at hpath
      exact hpath (List.prefix_refl _)
    | false =>
      cases hhidden : elements.any (·.isPrefixOf s'.key.path) with
      | true => exact Section.foundAt_hidden helement hhidden _
      | false =>
        rw [Section.foundAt_open helement hhidden, List.findSome?_eq_none_iff, hitems, hkey]
        intro i hi
        obtain ⟨_, hwithin⟩ := List.mem_filter.mp hi
        exact Item.foundAt_of_not_within s.key.path_ne_nil (by simpa using hwithin)

theorem isOpen_remove (h : d.IsOpen table) : (d.remove [table, key]).IsOpen table := by
  apply h.of_same
  . apply congrArg
    apply findSome?_filter
    intro i _ hi
    rw [Item.foundAt_table]
    cases i with
    | blank t => rfl
    | comment t => rfl
    | binding indent k separator v tail =>
      unfold Item.isWithin Item.binding? at hi
      rw [Option.any_some, Bool.not_eq_false', List.isPrefixOf_iff_prefix] at hi
      unfold Item.binding?
      rw [Option.bind_some]
      dsimp
      rw [if_neg]
      intro heq
      rw [heq] at hi
      simp [List.cons_prefix_cons] at hi
  . intro s' hs' helement hpath
    obtain ⟨s, hs, rfl⟩ := List.mem_map.mp hs'
    exact ⟨s, (List.mem_filter.mp hs).1, helement, hpath⟩

end Remove

theorem exists_set_of_get {d : Document} {table key : Text} {x : Found}
    (h : d.get [table, key] = .ok x) (v : Value) : ∃ d', d.set table key v = .ok d' := by
  have hleaf := (isOpen_iff d table).mp (get_eq_ok.mp h).1
  unfold set
  rw [hleaf, if_neg (by simp)]
  split <;> exact ⟨_, rfl⟩

theorem get_set {d d' : Document} {table key : Text} {v : Value} (h : d.set table key v = .ok d')
    : d'.get [table, key] = .ok (.value v) := by
  unfold set at h
  split at h
  . cases h
  . next hleaf =>
    rw [Bool.not_eq_true, ← isOpen_iff] at hleaf
    rw [get_eq_ok]
    split at h
    . next w hw =>
      cases h
      have hfound := foundIn_assign (foundIn_of_lookUp_value hw) v
      exact ⟨isOpen_assign hleaf key v, lookUp_of_foundIn hfound⟩
    . next hw =>
      cases h
      have hnone : foundIn [table, key] d.facts = none := by
        cases hfound : foundIn [table, key] d.facts with
        | none => rfl
        | some x =>
          rw [lookUp_of_foundIn hfound] at hw
          exact absurd hw (ne_nothing_of_foundIn hfound)
      obtain ⟨hfound, hopen⟩ := foundIn_add (v := v) hleaf hnone
      exact ⟨hopen, lookUp_of_foundIn hfound⟩
    . next hvalue _ =>
      cases h
      have hnone := foundIn_remove hvalue
      obtain ⟨hfound, hopen⟩ := foundIn_add (v := v) (isOpen_remove hleaf) hnone
      exact ⟨hopen, lookUp_of_foundIn hfound⟩

end Document

end DebianPackaging.Toml
