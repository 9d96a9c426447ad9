import DebianPackaging.Proofs.Makefile.Discard

/-!
This module contains what is run for a command of `dh`, which is up to all rules that override it, and the
proof that the removal of pointless overrides changes that where an override is not the only rule for its
target.
-/

namespace DebianPackaging

open Text MakeElement

namespace Rule

def steps (r : Rule) : List Text := r.prerequisites ++ (r.recipes.map trim).filter (!·.isEmpty)

theorem steps_of_isPointlessOverride {r : Rule} (h : r.isPointlessOverride = true) {command : Text}
    (htarget : overrideStart ++ command ∈ r.targets) : r.steps = [command] := by
  unfold isPointlessOverride at h
  split at h
  . next target htargets =>
    rw [htargets, List.mem_singleton] at htarget
    split at h
    . contradiction
    . next command' hafter =>
      rw [← htarget, after?_eq_some_iff, List.append_cancel_left_eq] at hafter
      rw [Bool.and_eq_true, List.isEmpty_iff] at h
      unfold steps
      rw [h.1, hafter]
      split at h
      . next recipe hrecipe =>
        rw [hrecipe, List.nil_append, beq_iff_eq.mp h.2]
      . cases h.2
  . contradiction

/-- What is run for a command that the rules override: all that they do, or the command itself if there
are none. -/
def stepsOf (command : Text) : List Rule → List Text
  | [] => [command]
  | r :: rs => (r :: rs).flatMap steps

theorem stepsOf_of_ne_nil (command : Text) {rs : List Rule} (h : rs ≠ [])
    : stepsOf command rs = rs.flatMap steps := by
  unfold stepsOf
  split
  . contradiction
  . rfl

section

variable {command : Text} {rs : List Rule} (htargets : ∀ r ∈ rs, overrideStart ++ command ∈ r.targets)

include htargets

theorem length_flatMap_steps
    : (rs.flatMap steps).length
        =
      ((rs.filter (!·.isPointlessOverride)).flatMap steps).length +
        rs.countP (·.isPointlessOverride) := by
  induction rs with
  | nil => rfl
  | cons r rs ih =>
    rw [List.forall_mem_cons] at htargets
    specialize ih htargets.2
    by_cases hr : r.isPointlessOverride = true
    . have hstep := steps_of_isPointlessOverride hr htargets.1
      rw [List.flatMap_cons, List.length_append, ih, hstep]
      simp [hr]
      omega
    . rw [List.flatMap_cons, List.length_append, ih]
      simp [hr]
      omega

theorem stepsOf_filter_iff_of_pointless {r : Rule} (hr : r ∈ rs) (hpointless : r.isPointlessOverride = true)
    : stepsOf command (rs.filter (!·.isPointlessOverride)) = stepsOf command rs ↔ rs.length = 1 := by
  have hlength := length_flatMap_steps htargets
  have hpos : 0 < rs.countP (·.isPointlessOverride) := List.countP_pos_iff.mpr ⟨r, hr, hpointless⟩
  have hall : rs.length
      = (rs.filter (!·.isPointlessOverride)).length + rs.countP (·.isPointlessOverride) := by
    rw [List.countP_eq_length_filter, Nat.add_comm]
    exact List.length_eq_length_filter_add _
  rw [stepsOf_of_ne_nil command (List.ne_nil_of_mem hr)]
  cases hrs : rs.filter (!·.isPointlessOverride) with
  | nil =>
    -- Each of the rules ran the command, which is run once now.
    rw [hrs] at hlength hall
    simp only [List.flatMap_nil, List.length_nil, Nat.zero_add] at hlength hall
    constructor
    . intro h
      rw [hall, ← hlength, ← h]
      rfl
    . intro h
      obtain ⟨r', rfl⟩ := List.length_eq_one_iff.mp h
      rw [List.mem_singleton] at hr
      rw [List.flatMap_singleton, ← hr, steps_of_isPointlessOverride hpointless]
      . rfl
      . rw [hr]
        apply htargets
        simp
  | cons r' rs' =>
    -- Another rule is left, and the command of the pointless one is no longer run.
    rw [hrs] at hlength hall
    rw [List.length_cons] at hall
    rw [stepsOf_of_ne_nil command (by simp)]
    apply iff_of_false
    . intro h
      rw [h] at hlength
      omega
    . omega

theorem stepsOf_filter_iff
    : stepsOf command (rs.filter (!·.isPointlessOverride)) = stepsOf command rs ↔
        (∀ r ∈ rs, r.isPointlessOverride = false) ∨ rs.length = 1 := by
  by_cases hnone : ∀ r ∈ rs, r.isPointlessOverride = false
  . have hsame : rs.filter (!·.isPointlessOverride) = rs := by
      rw [List.filter_eq_self]
      intro r hr
      simp [hnone r hr]
    rw [hsame]
    exact iff_of_true rfl (.inl hnone)
  . rw [or_iff_right hnone]
    simp only [not_forall, Bool.not_eq_false] at hnone
    obtain ⟨r, hr, hpointless⟩ := hnone
    exact stepsOf_filter_iff_of_pointless htargets hr hpointless

end

end Rule

namespace Makefile

def steps (m : Makefile) (command : Text) : List Text :=
  Rule.stepsOf command (m.rulesFor (overrideStart ++ command))

instance (m : Makefile) (name : Text) : Decidable (IsPointlessTarget m.elements name) :=
  decidable_of_iff (∃ r ∈ m.rules, r.isPointlessOverride = true ∧ name ∈ r.targets) <| by
    simp only [mem_rules_iff]
    rfl

theorem mem_rulesFor_iff {m : Makefile} {target : Text} {r : Rule}
    : r ∈ m.rulesFor target ↔ .rule r ∈ m.elements ∧ target ∈ r.targets := by
  unfold rulesFor
  rw [List.mem_filter, mem_rules_iff, List.contains_iff_mem]

def isNeeded (target : Text) : MakeElement → Bool
  | .line _ => false
  | .rule r => r.targets.contains target && !r.isPointlessOverride

theorem filter_rulesFor (m : Makefile) (target : Text)
    : (m.rulesFor target).filter (!·.isPointlessOverride)
        =
      (m.elements.filter (isNeeded target)).filterMap (·.rule?) := by
  unfold rulesFor rules
  generalize m.elements = es
  induction es with
  | nil => rfl
  | cons e es ih =>
    cases e with
    | line t => simpa [isNeeded, rule?] using ih
    | rule r =>
      by_cases htarget : target ∈ r.targets
      . by_cases hr : r.isPointlessOverride = true
        all_goals simpa [isNeeded, rule?, htarget, hr] using ih
      . simpa [isNeeded, rule?, htarget] using ih

theorem rulesFor_discardOverrides {m : Makefile} (hm : HasColons m.elements) {target : Text}
    (hphony : ∀ r ∈ m.rulesFor target, r.isPhony = true → ∀ name ∈ r.prerequisites,
      ¬ IsPointlessTarget m.elements name)
    : m.discardOverrides.1.rulesFor target
        =
      (m.rulesFor target).filter (!·.isPointlessOverride) := by
  obtain ⟨hrun, hnone⟩ := prunes_discardOverrides hm
  have hkept : IsKept (IsPointlessTarget m.elements) m.elements (isNeeded target) := by
    constructor
    . intro t _
      rfl
    . intro r hr
      simp [isNeeded, hr]
    . intro r r' hr htargets hneeded
      have := Rule.isPointlessOverride_of_isPhony hr
      simp_all [isNeeded]
    . intro r hr hr' hname
      obtain ⟨name, hmem, hname⟩ := hname
      have htarget : target ∉ r.targets := by
        intro htarget
        exact hphony r (mem_rulesFor_iff.mpr ⟨hr, htarget⟩) hr' name hmem hname
      simp [isNeeded, htarget]
  have hall : (m.discardOverrides.1.rulesFor target).filter (!·.isPointlessOverride)
      = m.discardOverrides.1.rulesFor target := by
    rw [List.filter_eq_self]
    intro r hr
    have := (discardOverrides_isLeftOf_self hm).none r (List.mem_of_mem_filter hr)
    simp [this]
  rw [← hall, filter_rulesFor, filter_rulesFor, hrun.filter_eq hm hkept]

/-- What is run for a command stays the same if and only if none of its overrides is pointless or there
is a single one. Overrides that are phony targets along with the target of a pointless override are left
out: they lose that prerequisite. -/
theorem steps_discardOverrides_iff (m : Makefile) (hm : HasColons m.elements) (command : Text)
    (hphony : ∀ r ∈ m.rulesFor (overrideStart ++ command), r.isPhony = true →
      ∀ name ∈ r.prerequisites, ¬ IsPointlessTarget m.elements name)
    : m.discardOverrides.1.steps command = m.steps command ↔
        (∀ r ∈ m.rulesFor (overrideStart ++ command), r.isPointlessOverride = false) ∨
          (m.rulesFor (overrideStart ++ command)).length = 1 := by
  unfold steps
  rw [rulesFor_discardOverrides hm hphony]
  apply Rule.stepsOf_filter_iff
  intro r hr
  exact (mem_rulesFor_iff.mp hr).2

theorem steps_discardOverrides_single
    : ∃ m, read ".PHONY override_b: x\noverride_a:\n\ta\n" = m ∧ m.discardOverrides.2 = 1 ∧
        m.discardOverrides.1.steps "a" = m.steps "a" ∧ m.discardOverrides.1.steps "b" = m.steps "b" := by
  have hm := hasColons_read ".PHONY override_b: x\noverride_a:\n\ta\n"
  refine ⟨_, rfl, by decide +kernel, ?_, ?_⟩
  . rw [steps_discardOverrides_iff _ hm]
    . exact .inr (by decide +kernel)
    . decide +kernel
  . rw [steps_discardOverrides_iff _ hm]
    . exact .inl (by decide +kernel)
    . decide +kernel

/-- Prerequisites alone are what is left for a target when a pointless override of it is gone, and a
phony rule loses the target of a pointless override. -/
theorem steps_discardOverrides_ne
    : (∃ m, read "override_a: foo\n\noverride_a:\n\ta\n" = m ∧
          m.discardOverrides.1.steps "a" ≠ m.steps "a") ∧
        ∃ m, read ".PHONY override_b: override_a foo\noverride_a:\n\ta\n" = m ∧
          m.discardOverrides.1.steps "b" ≠ m.steps "b" := by
  constructor
  . exact ⟨_, rfl, by decide +kernel⟩
  . exact ⟨_, rfl, by decide +kernel⟩

end Makefile

end DebianPackaging
