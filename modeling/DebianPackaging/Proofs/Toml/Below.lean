import Mathlib.Data.List.Basic
import DebianPackaging.Proofs.Toml.Set

/-!
This module contains what values and items say about a path and what is below it, and that an assignment
changes nothing of what is said about paths that are apart from its own.
-/

namespace DebianPackaging.Toml

structure Apart (p q : List Text) : Prop where
  left : ¬ p <+: q
  right : ¬ q <+: p

theorem apart_pair (table : Text) {key other : Text} (h : other ≠ key) : Apart [table, other] [table, key] := by
  constructor
  . simpa [List.cons_prefix_cons] using h
  . simpa [List.cons_prefix_cons] using Ne.symm h

theorem Apart.of_isPrefix {p q r : List Text} (h : Apart p q) (hr : q <+: r) : Apart p r := by
  constructor
  . intro hstarts
    rcases List.prefix_or_prefix_of_prefix hstarts hr with hstarts | hstarts
    . exact h.left hstarts
    . exact h.right hstarts
  . intro hstarts
    exact h.right (hr.trans hstarts)

theorem Apart.not_isPrefix_of_isPrefix {p q r : List Text} (h : Apart p q) (hr : r <+: q) : ¬ p <+: r := by
  intro hstarts
  exact h.left (hstarts.trans hr)

def below (path : List Text) (facts : List (List Text × Fact)) : List (List Text × Fact) :=
  facts.filter fun (p, _) => path.isPrefixOf p

def Inserts (new : List (List Text × Fact)) (before after : List (List Text × Fact)) : Prop :=
  ∃ front back, before = front ++ back ∧ after = front ++ (new ++ back)

namespace Inserts

variable {new before after : List (List Text × Fact)}

theorem append_right (h : Inserts new before after) (fs : List (List Text × Fact))
    : Inserts new (before ++ fs) (after ++ fs) := by
  obtain ⟨front, back, rfl, rfl⟩ := h
  exact ⟨front, back ++ fs, by simp, by simp⟩

theorem append_left (h : Inserts new before after) (fs : List (List Text × Fact))
    : Inserts new (fs ++ before) (fs ++ after) := by
  obtain ⟨front, back, rfl, rfl⟩ := h
  exact ⟨fs ++ front, back, by simp, by simp⟩

theorem eq_of_nil (h : Inserts [] before after) : after = before := by
  obtain ⟨front, back, rfl, rfl⟩ := h
  rfl

theorem eq_of_before_nil (h : Inserts new [] after) : after = new := by
  obtain ⟨front, back, hnil, rfl⟩ := h
  obtain ⟨rfl, rfl⟩ := List.append_eq_nil_iff.mp hnil.symm
  simp

end Inserts

section Below

variable {path : List Text}

@[simp]
theorem below_nil : below path [] = [] := rfl

@[simp]
theorem below_append (fs gs : List (List Text × Fact))
    : below path (fs ++ gs) = below path fs ++ below path gs := by
  unfold below
  rw [List.filter_append]

theorem below_flatMap {f : α → List (List Text × Fact)} (as : List α)
    : below path (as.flatMap f) = as.flatMap fun a => below path (f a) := by
  unfold below
  rw [List.filter_flatMap]

theorem below_cons_of_not_isPrefix {p : List Text} {fact : Fact} (h : ¬ path <+: p)
    (fs : List (List Text × Fact)) : below path ((p, fact) :: fs) = below path fs := by
  unfold below
  rw [List.filter_cons_of_neg]
  rwa [List.isPrefixOf_iff_prefix]

theorem mem_below {f : List Text × Fact} {fs : List (List Text × Fact)}
    : f ∈ below path fs ↔ f ∈ fs ∧ path <+: f.1 := by
  unfold below
  rw [List.mem_filter, List.isPrefixOf_iff_prefix]

theorem foundIn_below (fs : List (List Text × Fact)) : foundIn path (below path fs) = foundIn path fs := by
  unfold foundIn below
  apply Document.findSome?_filter
  intro f _ hf
  apply found?_of_ne
  rintro rfl
  rw [← Bool.not_eq_true, List.isPrefixOf_iff_prefix] at hf
  exact hf (List.prefix_refl _)

mutual

theorem Value.prefix_of_mem_facts {base : List Text} {f : List Text × Fact}
    : (v : Value) → f ∈ v.facts base → base <+: f.1
  | .table entries trail => by
    intro h
    unfold Value.facts at h
    rcases List.mem_cons.mp h with rfl | h
    . exact List.prefix_refl base
    . obtain ⟨p, _, hstarts⟩ := Value.prefix_of_mem_entriesFacts entries h
      exact (List.prefix_append base p).trans hstarts
  | .string _ _ | .number _ _ | .boolean _ | .moment _ _ | .array _ => by
    intro h
    unfold Value.facts at h
    obtain rfl := List.mem_singleton.mp h
    exact List.prefix_refl base

theorem Value.prefix_of_mem_entriesFacts {base : List Text} {f : List Text × Fact}
    : (entries : List (InlineEntry Value)) → f ∈ Value.entriesFacts base entries →
      ∃ p, p ≠ [] ∧ base ++ p <+: f.1
  | [] => by
    intro h
    cases h
  | ⟨_, key, _, v⟩ :: entries => by
    intro h
    unfold Value.entriesFacts at h
    rcases List.mem_append.mp h with h | h
    . exact ⟨key.path, key.path_ne_nil, Value.prefix_of_mem_facts v h⟩
    . exact Value.prefix_of_mem_entriesFacts entries h

end

theorem Value.eq_of_mem_facts {base : List Text} {v w : Value} (h : (base, Fact.value w) ∈ v.facts base)
    : w = v := by
  cases v with
  | table entries trail =>
    unfold Value.facts at h
    rcases List.mem_cons.mp h with h | h
    . cases h
      rfl
    . obtain ⟨p, hp, hstarts⟩ := Value.prefix_of_mem_entriesFacts entries h
      have hle : (base ++ p).length ≤ base.length := hstarts.length_le
      rw [List.length_append] at hle
      have := List.length_pos_of_ne_nil hp
      omega
  | _ =>
    unfold Value.facts at h
    cases List.mem_singleton.mp h
    rfl

theorem below_facts_of_apart {base : List Text} (h : Apart path base) (v : Value)
    : below path (v.facts base) = [] := by
  rw [List.eq_nil_iff_forall_not_mem]
  intro f hf
  obtain ⟨hmem, hpath⟩ := mem_below.mp hf
  rcases List.prefix_or_prefix_of_prefix hpath (v.prefix_of_mem_facts hmem) with hstarts | hstarts
  . exact h.left hstarts
  . exact h.right hstarts

namespace Value

variable {new : Value}

mutual

theorem below_facts_assign {base rel : List Text} (h : Apart path (base ++ rel)) : (v : Value) →
    below path ((assign rel new v).facts base) = below path (v.facts base)
  | .table entries trail => by
    cases rel with
    | nil =>
      rw [List.append_nil] at h
      rw [assign_nil, below_facts_of_apart h, below_facts_of_apart h]
    | cons key rel =>
      have hbase := h.not_isPrefix_of_isPrefix (List.prefix_append base (key :: rel))
      unfold assign facts
      dsimp
      rw [below_cons_of_not_isPrefix hbase, below_cons_of_not_isPrefix hbase,
        below_entriesFacts_assign h entries]
  | .string _ _ | .number _ _ | .boolean _ | .moment _ _ | .array _ => by
    cases rel with
    | nil =>
      rw [List.append_nil] at h
      rw [assign_nil, below_facts_of_apart h, below_facts_of_apart h]
    | cons key rel => rfl

theorem below_entriesFacts_assign {base rel : List Text} (h : Apart path (base ++ rel))
    : (entries : List (InlineEntry Value)) →
      below path (entriesFacts base (assignEntries rel new entries)) =
        below path (entriesFacts base entries)
  | [] => rfl
  | ⟨_, key, _, v⟩ :: entries => by
    unfold assignEntries entriesFacts
    rw [below_append, below_append, below_entriesFacts_assign h entries]
    split
    . next hstarts =>
      obtain ⟨rest, rfl⟩ := List.isPrefixOf_iff_prefix.mp hstarts
      rw [← List.append_assoc] at h
      rw [List.drop_left, below_facts_assign h v]
    . rfl

end

mutual

theorem assign_assign (rel : List Text) : (v : Value) → assign rel new (assign rel new v) = assign rel new v
  | .table entries trail => by
    cases rel with
    | nil => rw [assign_nil, assign_nil]
    | cons key rel =>
      unfold assign
      dsimp
      unfold assign
      dsimp
      rw [assignEntries_assignEntries (key :: rel) entries]
  | .string _ _ | .number _ _ | .boolean _ | .moment _ _ | .array _ => by
    cases rel with
    | nil => rw [assign_nil, assign_nil]
    | cons key rel => rfl

theorem assignEntries_assignEntries (rel : List Text) : (entries : List (InlineEntry Value)) →
    assignEntries rel new (assignEntries rel new entries) = assignEntries rel new entries
  | [] => rfl
  | ⟨lead, key, separator, v⟩ :: entries => by
    rw [assignEntries, assignEntries, assignEntries_assignEntries rel entries]
    split
    . rw [assign_assign _ v]
    . rfl

end

mutual

theorem assign_eq_self {base rel : List Text} : (v : Value) →
    (∀ w, (base ++ rel, Fact.value w) ∈ v.facts base → w = new) → assign rel new v = v
  | .table entries trail => by
    intro h
    unfold facts at h
    cases rel with
    | nil =>
      rw [assign_nil]
      exact (h _ (by simp)).symm
    | cons key rel =>
      unfold assign
      dsimp
      rw [assignEntries_eq_self entries fun w hw => h w (List.mem_cons_of_mem _ hw)]
  | .string _ _ | .number _ _ | .boolean _ | .moment _ _ | .array _ => by
    intro h
    cases rel with
    | nil =>
      rw [assign_nil]
      exact (h _ (by simp [facts])).symm
    | cons key rel => rfl

theorem assignEntries_eq_self {base rel : List Text} : (entries : List (InlineEntry Value)) →
    (∀ w, (base ++ rel, Fact.value w) ∈ entriesFacts base entries → w = new) →
      assignEntries rel new entries = entries
  | [] => fun _ => rfl
  | ⟨lead, key, separator, v⟩ :: entries => by
    intro h
    unfold entriesFacts at h
    rw [assignEntries, assignEntries_eq_self entries fun w hw => h w (List.mem_append_right _ hw)]
    split
    . next hstarts =>
      obtain ⟨rest, rfl⟩ := List.isPrefixOf_iff_prefix.mp hstarts
      rw [← List.append_assoc] at h
      rw [List.drop_left, assign_eq_self v fun w hw => h w (List.mem_append_left _ hw)]
    . rfl

end

end Value

end Below

def Item.facts (base : List Text) (i : Item) : List (List Text × Fact) :=
  match i.binding? with
  | some (p, v) => v.facts (base ++ p)
  | none => []

theorem itemFacts_eq (base : List Text) (items : List Item)
    : Document.itemFacts base items = items.flatMap (Item.facts base) := by
  unfold Document.itemFacts
  induction items with
  | nil => rfl
  | cons i items ih =>
    rw [List.flatMap_cons, ← ih]
    unfold Item.facts
    cases h : i.binding? with
    | none => rw [List.filterMap_cons_none h]; rfl
    | some b => rw [List.filterMap_cons_some h, List.flatMap_cons]

namespace Item

@[simp]
theorem facts_terminate (base : List Text) (i : Item) : i.terminate.facts base = i.facts base := by
  cases i <;> rfl

theorem facts_of_isBlank {i : Item} (h : i.isBlank = true) (base : List Text) : i.facts base = [] := by
  cases i with
  | blank t => rfl
  | comment t => cases h
  | binding indent key separator v tail => cases h

theorem facts_ofBinding (indent : Text) (k : Key) (v : Value) (base : List Text)
    : (ofBinding indent k v).facts base = v.facts (base ++ k.path) := rfl

theorem below_facts_assign {path base other : List Text} (h : Apart other path) (new : Value) (i : Item)
    : below other ((i.assign path base new).facts base) = below other (i.facts base) := by
  cases i with
  | blank t => rfl
  | comment t => rfl
  | binding indent key separator v tail =>
    unfold assign facts binding?
    dsimp
    split
    . next hstarts =>
      obtain ⟨rel, rfl⟩ := List.isPrefixOf_iff_prefix.mp hstarts
      rw [List.drop_left]
      exact Value.below_facts_assign h v
    . rfl

theorem assign_assign (path base : List Text) (new : Value) (i : Item)
    : (i.assign path base new).assign path base new = i.assign path base new := by
  cases i with
  | blank t => rfl
  | comment t => rfl
  | binding indent key separator v tail =>
    unfold assign
    dsimp
    split
    . rw [Value.assign_assign]
    . rfl

theorem prefix_of_mem_facts {base : List Text} {i : Item} {f : List Text × Fact} (h : f ∈ i.facts base)
    : ∃ p, p ≠ [] ∧ base ++ p <+: f.1 := by
  unfold facts at h
  cases i with
  | blank t => cases h
  | comment t => cases h
  | binding indent key separator v tail => exact ⟨key.path, key.path_ne_nil, v.prefix_of_mem_facts h⟩

theorem assign_eq_self {path base : List Text} {new : Value} {i : Item}
    (h : ∀ w, (path, Fact.value w) ∈ i.facts base → w = new) : i.assign path base new = i := by
  cases i with
  | blank t => rfl
  | comment t => rfl
  | binding indent key separator v tail =>
    unfold facts binding? at h
    unfold assign
    dsimp at h ⊢
    split
    . next hstarts =>
      obtain ⟨rel, rfl⟩ := List.isPrefixOf_iff_prefix.mp hstarts
      rw [List.drop_left, Value.assign_eq_self v h]
    . rfl

theorem below_facts_of_isWithin {path base other : List Text} (h : Apart other path) {i : Item}
    (hi : i.isWithin path base = true) : below other (i.facts base) = [] := by
  cases i with
  | blank t => rfl
  | comment t => rfl
  | binding indent key separator v tail =>
    unfold isWithin binding? at hi
    rw [Option.any_some, List.isPrefixOf_iff_prefix] at hi
    exact below_facts_of_apart (h.of_isPrefix hi) v

theorem flatMap_facts_of_isBlank {items : List Item} (h : ∀ i ∈ items, i.isBlank = true)
    (base : List Text) : items.flatMap (facts base) = [] := by
  rw [List.flatMap_eq_nil_iff]
  intro i hi
  exact facts_of_isBlank (h i hi) base

theorem flatMap_facts_terminate (items : List Item) (n : Nat) (base : List Text)
    : (items.modify n terminate).flatMap (facts base) = items.flatMap (facts base) := by
  induction items generalizing n with
  | nil => rw [List.modify_nil]
  | cons i items ih =>
    cases n with
    | zero => rw [List.modify_zero_cons, List.flatMap_cons, List.flatMap_cons, facts_terminate]
    | succ n => rw [List.modify_succ_cons, List.flatMap_cons, List.flatMap_cons, ih]

theorem inserts_append (path base : List Text) (new : Item) (items : List Item)
    : Inserts (below path (new.facts base)) (below path (items.flatMap (facts base)))
        (below path ((Item.append new items).flatMap (facts base))) := by
  have hitems := List.takeWhile_append_dropWhile (p := isBlank) (l := items.reverse)
  have hblank : ∀ i ∈ (items.reverse.takeWhile (·.isBlank)).reverse, i.isBlank = true := by
    intro i hi
    have := List.all_takeWhile (l := items.reverse) (p := isBlank)
    exact List.all_eq_true.mp this i (List.mem_reverse.mp hi)
  unfold Item.append
  dsimp
  generalize items.reverse.takeWhile (·.isBlank) = blanks at hitems hblank
  generalize items.reverse.dropWhile (·.isBlank) = others at hitems
  rw [List.reverse_eq_iff.mp hitems.symm, List.reverse_append, List.flatMap_append, List.flatMap_append,
    List.flatMap_cons, flatMap_facts_terminate, flatMap_facts_of_isBlank hblank]
  exact ⟨below path (others.reverse.flatMap (facts base)), [], by simp, by simp⟩

end Item

end DebianPackaging.Toml
