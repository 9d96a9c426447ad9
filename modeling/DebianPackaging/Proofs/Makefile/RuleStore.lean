import Mathlib.Logic.Function.Basic
import DebianPackaging.Proofs.Makefile.HeldRule

/-!
This module contains makefiles as an editor holds them: the elements are slots, and the slot of a rule only
has the number under which the rule is held. A rule is changed where it is held, and one that is dropped loses
its slot while it can still be looked at. Dropping a rule that has no slot fails, and so does whatever fails
for a rule that is held.
-/

namespace DebianPackaging

open Text MakeElement

inductive Slot where
  | line (text : Text)
  | rule (number : Nat)
  deriving DecidableEq

namespace Slot

def number? : Slot → Option Nat
  | line _ => none
  | rule n => some n

def isBlankLine : Slot → Bool
  | line t => t.all isBlank
  | rule _ => false

def numbers (slots : List Slot) : List Nat := slots.filterMap number?

@[simp]
theorem numbers_nil : numbers [] = [] := rfl

@[simp]
theorem numbers_cons_line (t : Text) (slots : List Slot) : numbers (line t :: slots) = numbers slots := rfl

@[simp]
theorem numbers_cons_rule (n : Nat) (slots : List Slot) : numbers (rule n :: slots) = n :: numbers slots := rfl

@[simp]
theorem numbers_append (slots slots' : List Slot)
    : numbers (slots ++ slots') = numbers slots ++ numbers slots' := List.filterMap_append

theorem mem_numbers_iff {n : Nat} {slots : List Slot} : n ∈ numbers slots ↔ rule n ∈ slots := by
  unfold numbers
  rw [List.mem_filterMap]
  constructor
  . rintro ⟨e, he, hn⟩
    cases e with
    | line t => cases hn
    | rule k =>
      cases hn
      exact he
  . intro h
    exact ⟨rule n, h, rfl⟩

theorem findIdx?_eq_none {n : Nat} {slots : List Slot} (h : n ∉ numbers slots)
    : slots.findIdx? (· == rule n) = none := by
  rw [List.findIdx?_eq_none_iff]
  intro e he
  rw [beq_eq_false_iff_ne]
  rintro rfl
  exact h (mem_numbers_iff.mpr he)

theorem numbers_of_isBlankLine {e : Slot} (h : e.isBlankLine = true) : numbers [e] = [] := by
  cases e with
  | line t => rfl
  | rule n => cases h

theorem exists_split {p : Nat → Bool} {slots : List Slot} {n : Nat} {ns : List Nat}
    (h : (numbers slots).filter p = n :: ns)
    : ∃ done after, slots = done ++ rule n :: after ∧ (∀ k ∈ numbers done, p k = false) ∧ p n = true ∧
        (numbers after).filter p = ns := by
  induction slots with
  | nil => cases h
  | cons e slots ih =>
    cases e with
    | line t =>
      obtain ⟨done, after, rfl, hdone, hn, hafter⟩ := ih h
      exact ⟨line t :: done, after, rfl, hdone, hn, hafter⟩
    | rule k =>
      rw [numbers_cons_rule, List.filter_cons] at h
      split at h
      . next hk =>
        cases h
        exact ⟨[], slots, rfl, nofun, hk, rfl⟩
      . next hk =>
        obtain ⟨done, after, rfl, hdone, hn, hafter⟩ := ih h
        refine ⟨rule k :: done, after, rfl, ?_, hn, hafter⟩
        rw [numbers_cons_rule, List.forall_mem_cons]
        exact ⟨by simpa using hk, hdone⟩

end Slot

structure RuleStore where
  slots : List Slot
  held : Nat → HeldRule
  next : Nat

namespace RuleStore

def numbers (s : RuleStore) : List Nat := Slot.numbers s.slots

def change (s : RuleStore) (n : Nat) (h : HeldRule) : RuleStore :=
  { s with held := Function.update s.held n h }

/-- The slots hold different rules, each of which is sound, and no number is given twice. -/
structure IsSound (s : RuleStore) : Prop where
  nodup : s.numbers.Nodup
  lt_next : ∀ n ∈ s.numbers, n < s.next
  held : ∀ n ∈ s.numbers, (s.held n).IsSound

/-- Drop the slot of a rule. A blank line in front of it goes with it if another blank line or the end of the
slots follows. -/
def dropRule? (s : RuleStore) (n : Nat) : Option RuleStore := do
  let i ← s.slots.findIdx? (· == .rule n)
  let slots := s.slots.eraseIdx i
  let closed := { s with slots := slots.eraseIdx (i - 1) }
  if i = 0 then return { s with slots }
  else do
    if (← slots[i - 1]?).isBlankLine then
      if i = slots.length then return closed
      else do
        if (← slots[i]?).isBlankLine then return closed else return { s with slots }
    else return { s with slots }

def numbersFor? (s : RuleStore) (target : Text) : (numbers : List Nat) → Option (List Nat)
  | [] => some []
  | n :: ns => do
    let targets ← (s.held n).targets?
    let ns ← numbersFor? s target ns
    return if targets.contains target then n :: ns else ns

def prerequisitesOf? (s : RuleStore) : (numbers : List Nat) → Option (List Text)
  | [] => some []
  | n :: ns => do return (← (s.held n).prerequisites?) ++ (← prerequisitesOf? s ns)

def phonyTargets? (s : RuleStore) : Option (List Text) := do
  s.prerequisitesOf? (← s.numbersFor? phonyTarget s.numbers)

def dropPrerequisite? (target : Text) (s : RuleStore) (n : Nat) : Option RuleStore := do
  let names ← (s.held n).prerequisites?
  if names.contains target then
    if names.all (· == target) then s.dropRule? n
    else return s.change n (← (s.held n).removeAllPrerequisites? target)
  else return s

/-- Make a target no longer phony. The rules to look at are found at first, and each of them is looked at as it
is by then. -/
def dropPhony? (s : RuleStore) (target : Text) : Option RuleStore := do
  (← s.numbersFor? phonyTarget s.numbers).foldlM (dropPrerequisite? target) s

def terminate? (s : RuleStore) : Option RuleStore :=
  match s.slots.getLast? with
  | none => some s
  | some (.line t) => some { s with slots := s.slots.dropLast ++ (Makefile.terminateLines [t]).map .line }
  | some (.rule n) => do return s.change n (← (s.held n).terminate?)

def addRule (s : RuleStore) (h : HeldRule) : RuleStore where
  slots := s.slots ++ [.rule s.next]
  held := Function.update s.held s.next h
  next := s.next + 1

def addPhony? (s : RuleStore) (target : Text) : Option RuleStore := do
  if (← s.phonyTargets?).contains target then return s
  else do
    match ← s.numbersFor? phonyTarget s.numbers with
    | n :: _ => return s.change n (← (s.held n).appendPrerequisite? target)
    | [] => return (← s.terminate?).addRule ⟨[phonyTarget ++ ": " ++ target ++ "\n"], 1⟩

def changeEach (f : HeldRule → HeldRule) (s : RuleStore) (numbers : List Nat) : RuleStore :=
  numbers.foldl (fun s n => s.change n (f (s.held n))) s

def updateDhInvocations (s : RuleStore) (f : Text → Text) : RuleStore :=
  let mapRecipe (line : Text) := if DhCommand.isInvocation line then f line else line
  s.changeEach (HeldRule.mapRecipes mapRecipe) s.numbers

def discardOverride? (s : RuleStore) (n : Nat) : Option RuleStore := do
  if ← (s.held n).isPointlessOverride? then
    let s ← s.dropRule? n
    (← (s.held n).targets?).foldlM dropPhony? s
  else return s

/-- Remove all pointless overrides. The rules to look at are those that are there at first, and some of them may
have been dropped when it is their turn. -/
def discardOverrides? (s : RuleStore) : Option RuleStore := s.numbers.foldlM discardOverride? s

def perform? (s : RuleStore) : Makefile.Edit → Option RuleStore
  | .addPhony target => s.addPhony? target
  | .dropPhony target => s.dropPhony? target
  | .updateDhInvocations f => some (s.updateDhInvocations f)
  | .discardOverrides => s.discardOverrides?

def run? (s : RuleStore) (edits : List Makefile.Edit) : Option RuleStore := edits.foldlM perform? s

def element (s : RuleStore) : Slot → MakeElement
  | .line t => .line t
  | .rule n => .rule (s.held n).rule

@[simp]
theorem element_line (s : RuleStore) (t : Text) : s.element (.line t) = .line t := rfl

@[simp]
theorem element_rule (s : RuleStore) (n : Nat) : s.element (.rule n) = .rule (s.held n).rule := rfl

@[simp]
theorem isBlankLine_element (s : RuleStore) (e : Slot) : (s.element e).isBlankLine = e.isBlankLine := by
  cases e <;> rfl

def makefile (s : RuleStore) : Makefile := { elements := s.slots.map s.element }

def slotOf : MakeElement × Nat → Slot
  | (.line t, _) => .line t
  | (.rule _, i) => .rule i

/-- Hold a makefile. The number of a rule is its position among the elements. -/
def ofMakefile (m : Makefile) : RuleStore where
  slots := m.elements.zipIdx.map slotOf
  held n :=
    match m.elements[n]? with
    | some (.rule r) => .ofRule r
    | _ => ⟨[], 0⟩
  next := m.elements.length

def isPhony (s : RuleStore) (n : Nat) : Bool := (s.held n).rule.isPhony

def isPointlessOverride (s : RuleStore) (n : Nat) : Bool := (s.held n).rule.isPointlessOverride

section Change

variable {s : RuleStore} {n : Nat} {h : HeldRule}

@[simp]
theorem slots_change : (s.change n h).slots = s.slots := rfl

@[simp]
theorem held_change_self : (s.change n h).held n = h := by
  simp [change]

@[simp]
theorem held_change_of_ne {k : Nat} (hk : k ≠ n) : (s.change n h).held k = s.held k := by
  simp [change, hk]

theorem map_element_change {slots : List Slot} (hn : n ∉ Slot.numbers slots)
    : slots.map (s.change n h).element = slots.map s.element := by
  apply List.map_congr_left
  intro e he
  cases e with
  | line t => rfl
  | rule k =>
    have hk : k ≠ n := by
      rintro rfl
      exact hn (Slot.mem_numbers_iff.mpr he)
    unfold element
    dsimp
    rw [held_change_of_ne hk]

theorem isSound_held_change (hh : h.IsSound) {k : Nat} (hk : (s.held k).IsSound)
    : ((s.change n h).held k).IsSound := by
  by_cases hkn : k = n
  . rw [hkn, held_change_self]
    exact hh
  . rw [held_change_of_ne hkn]
    exact hk

theorem IsSound.change (hs : s.IsSound) (hh : h.IsSound) : (s.change n h).IsSound :=
  ⟨hs.nodup, hs.lt_next, fun k hk => isSound_held_change hh (hs.held k hk)⟩

end Change

theorem rules_makefile (s : RuleStore) : s.makefile.rules = s.numbers.map fun n => (s.held n).rule := by
  unfold makefile Makefile.rules numbers
  dsimp only
  induction s.slots with
  | nil => rfl
  | cons e slots ih => cases e <;> simpa [element, rule?] using ih

section Look

variable {s : RuleStore} {target : Text} {ns : List Nat} (hns : ∀ n ∈ ns, (s.held n).IsSound)

include hns

theorem numbersFor?_eq
    : s.numbersFor? target ns = some (ns.filter fun n => (s.held n).rule.targets.contains target) := by
  induction ns with
  | nil => rfl
  | cons n ns ih =>
    rw [List.forall_mem_cons] at hns
    obtain ⟨r, hr, hcolon⟩ := hns.1.exists_ofRule
    unfold numbersFor?
    rw [ih hns.2, List.filter_cons, hr, HeldRule.targets?_ofRule hcolon, HeldRule.rule_ofRule]
    rfl

theorem prerequisitesOf?_eq
    : s.prerequisitesOf? ns = some (ns.flatMap fun n => (s.held n).rule.prerequisites) := by
  induction ns with
  | nil => rfl
  | cons n ns ih =>
    rw [List.forall_mem_cons] at hns
    obtain ⟨r, hr, hcolon⟩ := hns.1.exists_ofRule
    unfold prerequisitesOf?
    rw [ih hns.2, List.flatMap_cons, hr, HeldRule.prerequisites?_ofRule hcolon, HeldRule.rule_ofRule]
    rfl

end Look

theorem IsSound.phonyNumbers?_eq {s : RuleStore} (hs : s.IsSound)
    : s.numbersFor? phonyTarget s.numbers = some (s.numbers.filter s.isPhony) := numbersFor?_eq hs.held

theorem IsSound.phonyTargets?_eq {s : RuleStore} (hs : s.IsSound)
    : s.phonyTargets? = some s.makefile.phonyTargets := by
  unfold phonyTargets?
  rw [hs.phonyNumbers?_eq]
  refine (prerequisitesOf?_eq ?_).trans ?_
  . intro n hn
    exact hs.held n (List.mem_filter.mp hn).1
  . unfold Makefile.phonyTargets Makefile.rulesFor
    rw [rules_makefile, List.filter_map, List.flatMap_map]
    rfl

end RuleStore

end DebianPackaging
