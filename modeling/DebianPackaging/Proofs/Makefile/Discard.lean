import DebianPackaging.Proofs.Makefile.ReadBack

/-!
This module contains the proof that removing the pointless overrides of a makefile removes them all and
nothing else but blank lines and phony targets, and that the text which is left is read as the makefile it
was written from unless a header has lost its hold on its lines.
-/

namespace DebianPackaging

open Text MakeLine MakeElement

def MakeElement.isSolid : MakeElement → Bool
  | .line t => !t.all isBlank
  | .rule r => !r.isPhony

namespace Makefile

/-- A text ends in a line end, and the headers of its rules for phony targets have no backslash but for
those that continue their lines. -/
structure HasPlainHeaders (t : Text) : Prop where
  isEnded : IsEnded t
  plain : ∀ r ∈ (read t).rules, r.isPhony = true → '\\' ∉ Rule.joinContinued r.headerLines.flatten

theorem mem_rules_iff {m : Makefile} {r : Rule} : r ∈ m.rules ↔ .rule r ∈ m.elements := by
  unfold rules
  rw [List.mem_filterMap]
  constructor
  . rintro ⟨e, he, hr⟩
    cases e with
    | line t => cases hr
    | rule r' =>
      cases hr
      exact he
  . intro h
    exact ⟨.rule r, h, rfl⟩

theorem hasColons_read (t : Text) : HasColons (read t).elements := by
  intro r hr
  obtain ⟨before, after, heq⟩ := List.append_of_mem hr
  have hread := isLaidOut_of_suffix (isLaidOut_read t) ⟨before, heq.symm⟩
  exact colon_mem_of_isHeader hread.isHeader

theorem filter_isSolid_discardOverrides {m : Makefile} (hm : HasColons m.elements)
    : m.discardOverrides.1.elements.filter isSolid
        =
      m.elements.filter (fun e => isSolid e && !isPointless e) := by
  obtain ⟨hrun, hnone⟩ := prunes_discardOverrides hm
  have hkept : IsKept (IsPointlessTarget m.elements) m.elements
      (fun e => isSolid e && !isPointless e) := by
    constructor
    . intro t ht
      simp [isSolid, ht]
    . intro r hr
      simp [isPointless, hr]
    . intro r r' hphony htargets _
      have hphony' : r'.isPhony = true := by
        unfold Rule.isPhony
        rw [htargets]
        exact hphony
      simp [isSolid, hphony']
    . intro r _ hphony _
      simp [isSolid, hphony]
  rw [← hrun.filter_eq hm hkept]
  apply List.filter_congr
  intro e he
  have := List.filter_eq_nil_iff.mp hnone e he
  simp [this]

theorem discardOverrides_of_none {m : Makefile} (h : m.elements.filter isPointless = [])
    : m.discardOverrides = (m, 0) := by
  have hnone : m.rules.filter (·.isPointlessOverride) = [] := by
    rw [← List.length_eq_zero_iff, ← filter_isPointless, h]
    rfl
  unfold discardOverrides
  rw [hnone]
  rfl

/-- A makefile is left over when the pointless overrides of another one are removed. -/
structure IsLeftOf (m' m : Makefile) (n : Nat) : Prop where
  count : n = m.rules.countP (·.isPointlessOverride)
  solid : m'.elements.filter isSolid = m.elements.filter (fun e => isSolid e && !isPointless e)
  none : ∀ r ∈ m'.rules, r.isPointlessOverride = false
  again : m'.discardOverrides = (m', 0)

theorem discardOverrides_isLeftOf_self {m : Makefile} (hm : HasColons m.elements)
    : IsLeftOf m.discardOverrides.1 m m.discardOverrides.2 := by
  obtain ⟨_, hnone⟩ := prunes_discardOverrides hm
  constructor
  . exact List.countP_eq_length_filter.symm
  . exact filter_isSolid_discardOverrides hm
  . intro r hr
    have := List.filter_eq_nil_iff.mp hnone _ (mem_rules_iff.mp hr)
    simpa [isPointless] using this
  . exact discardOverrides_of_none hnone

theorem isReadPlain_read {t : Text} (h : '\r' ∉ t) (hplain : HasPlainHeaders t) {r : Rule}
    {after : List MakeElement} (hr : .rule r :: after <:+ (read t).elements)
    : r.IsReadPlain (allLines after) := by
  have hmem : .rule r ∈ (read t).elements := hr.subset (by simp)
  constructor
  . exact isReadUnlessPhony_read hr
  . exact hasWholeHeader_read hr
  . intro hphony l hl
    have hjoined := hplain.plain r (mem_rules_iff.mpr hmem) hphony
    have hline : l ∈ t.lines := by
      apply mem_lines_of_mem_read hmem
      simp [Rule.lines, hl]
    obtain ⟨before, after', heq⟩ := List.append_of_mem hl
    rw [heq] at hjoined
    apply Rule.isPlain_of_not_mem _ _ _ hjoined
    . exact (areLines_lines h).isLine l hline
    . exact isEnded_of_mem_lines h hplain.isEnded hline
    . exact not_mem_of_mem_lines h l hline

/-- All pointless overrides are removed and told the number of, and what is left but for blank lines and
phony targets is what there was. The makefile is read again from its text if and only if the lines of its
headers are still held together, which they are if no backslash was there for anything else. -/
theorem discardOverrides_isLeftOf (t : Text) (h : '\r' ∉ t)
    : IsLeftOf (read t).discardOverrides.1 (read t) (read t).discardOverrides.2 ∧
        (read (read t).discardOverrides.1.text = (read t).discardOverrides.1 ↔
          (read t).discardOverrides.1.HasWholeHeaders) ∧
        (HasPlainHeaders t → (read t).discardOverrides.1.HasWholeHeaders) := by
  have hcolons := hasColons_read t
  obtain ⟨hrun, _⟩ := prunes_discardOverrides hcolons
  refine ⟨discardOverrides_isLeftOf_self hcolons, ?_, ?_⟩
  . apply read_text_iff
    apply (isStable_isReadUnlessPhony _).isIntact_run hrun
    apply isIntact_read h
    intro r after hr
    exact isReadUnlessPhony_read hr
  . intro hplain r after hr _
    have hread : IsIntact Rule.IsReadPlain (read t).elements := by
      apply isIntact_read h
      intro r after hr
      exact isReadPlain_read h hplain hr
    have hleft := (isStable_isReadPlain _).isIntact_run hrun hread
    exact (isLaidOut_of_suffix hleft.isLaidOut hr).header

/-- A header that two overrides leave still is on two lines. A backslash that another one leaves at the
end of a header takes in the rule behind it. -/
theorem not_hasWholeHeaders_backslash
    : (∃ m, read ".PHONY: a override_b \\\n override_c\n%:\n\tdh $@\n\noverride_b:\n\tb\n\noverride_c: ; c\n" = m ∧
          m.discardOverrides.2 = 2 ∧ read m.discardOverrides.1.text = m.discardOverrides.1) ∧
        ∃ m, read ".PHONY: a\\ override_b\n%:\n\tdh $@\n\noverride_b:\n\tb\n" = m ∧
          m.discardOverrides.2 = 1 ∧ ¬ m.discardOverrides.1.HasWholeHeaders := by
  constructor
  . refine ⟨_, rfl, by decide +kernel, ?_⟩
    obtain ⟨_, hread, hplain⟩ := discardOverrides_isLeftOf
      ".PHONY: a override_b \\\n override_c\n%:\n\tdh $@\n\noverride_b:\n\tb\n\noverride_c: ; c\n" (by decide)
    apply hread.mpr
    apply hplain
    constructor
    . exact ⟨'\n', rfl, rfl⟩
    . decide +kernel
  . refine ⟨_, rfl, by decide +kernel, ?_⟩
    obtain ⟨_, hread, _⟩ := discardOverrides_isLeftOf
      ".PHONY: a\\ override_b\n%:\n\tdh $@\n\noverride_b:\n\tb\n" (by decide)
    rw [← hread]
    decide +kernel

end Makefile

end DebianPackaging
