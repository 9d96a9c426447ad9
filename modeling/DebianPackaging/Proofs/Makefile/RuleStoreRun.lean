import DebianPackaging.Proofs.Makefile.RuleStorePrune

/-!
This module contains the proof that runs of edits of a makefile that was read do not fail, however it is held:
what an edit looks at is there, and what is left is held as the makefile that the edits lead to.
-/

namespace DebianPackaging

open Text MakeLine MakeElement

namespace RuleStore

section AddPhony

variable {s : RuleStore}

theorem exists_terminate? (hs : s.IsSound)
    : ∃ s', s.terminate? = some s' ∧ s'.IsSound ∧
        s'.makefile.elements = Makefile.terminate s.makefile.elements := by
  unfold terminate?
  rcases List.eq_nil_or_concat s.slots with hnil | ⟨done, e, hslots⟩
  . rw [hnil]
    refine ⟨s, rfl, hs, ?_⟩
    unfold makefile
    rw [hnil]
    rfl
  . rw [List.concat_eq_append] at hslots
    rw [hslots, List.getLast?_concat]
    have helements : Makefile.terminate s.makefile.elements
        = done.map s.element ++ Makefile.terminate [s.element e] := by
      unfold makefile
      rw [hslots, List.map_append]
      exact Makefile.terminate_append _ (List.cons_ne_nil _ _)
    rw [helements]
    cases e with
    | line t =>
      refine ⟨_, rfl, ?_, ?_⟩
      . apply hs.of_slots
        simp [numbers, hslots, Makefile.terminateLines]
      . unfold makefile
        dsimp
        rw [List.dropLast_concat, List.map_append]
        rfl
    | rule n =>
      obtain ⟨hdone, _⟩ := hs.not_mem hslots
      obtain ⟨r, hr, hcolon⟩ := (hs.held_of_slots hslots).exists_ofRule
      refine ⟨s.change n (.ofRule (Makefile.terminateRule r)), ?_, ?_, ?_⟩
      . dsimp
        rw [hr, HeldRule.terminate?_ofRule]
        rfl
      . exact hs.change (HeldRule.isSound_ofRule (Makefile.colon_mem_terminateRule hcolon))
      . unfold makefile
        rw [slots_change, hslots, List.map_append, map_element_change hdone]
        simp [hr, Makefile.terminate]

theorem isSound_addRule (hs : s.IsSound) {h : HeldRule} (hh : h.IsSound) : (s.addRule h).IsSound := by
  have hnumbers : (s.addRule h).numbers = s.numbers ++ [s.next] := by
    simp [numbers, addRule]
  constructor
  . rw [hnumbers, List.nodup_append]
    refine ⟨hs.nodup, List.nodup_singleton _, ?_⟩
    intro n hn k hk
    rw [List.mem_singleton] at hk
    have := hs.lt_next n hn
    omega
  . intro n hn
    rw [hnumbers, List.mem_append, List.mem_singleton] at hn
    change n < s.next + 1
    rcases hn with hn | hn
    . have := hs.lt_next n hn
      omega
    . omega
  . intro n hn
    rw [hnumbers, List.mem_append, List.mem_singleton] at hn
    rcases hn with hn | rfl
    . have hne := Nat.ne_of_lt (hs.lt_next n hn)
      simpa [addRule, hne] using hs.held n hn
    . simpa [addRule] using hh

theorem makefile_addRule (hs : s.IsSound) (h : HeldRule)
    : (s.addRule h).makefile = { elements := s.makefile.elements ++ [.rule h.rule] } := by
  have hfresh : s.next ∉ Slot.numbers s.slots := fun hmem => Nat.lt_irrefl _ (hs.lt_next _ hmem)
  have hmap : s.slots.map (s.addRule h).element = s.slots.map s.element := map_element_change hfresh
  change Makefile.mk ((s.slots ++ [Slot.rule s.next]).map (s.addRule h).element) = _
  rw [List.map_append, hmap]
  simp [addRule, makefile]

theorem exists_addPhony? (target : Text) (hs : s.IsSound)
    : ∃ s', s.addPhony? target = some s' ∧ s'.IsSound ∧ s'.makefile = (s.makefile.addPhony target).1 := by
  unfold addPhony? Makefile.addPhony
  rw [hs.phonyTargets?_eq, hs.phonyNumbers?_eq]
  dsimp
  split
  . exact ⟨s, rfl, hs, rfl⟩
  . cases hphony : s.numbers.filter s.isPhony with
    | nil =>
      have hcut : Makefile.cutRule? Rule.isPhony s.makefile.elements = none := by
        apply Makefile.cutRule?_eq_none
        intro r hr
        rw [← Makefile.mem_rules_iff, rules_makefile, List.mem_map] at hr
        obtain ⟨n, hn, rfl⟩ := hr
        have hnot := List.filter_eq_nil_iff.mp hphony n hn
        rwa [Bool.not_eq_true] at hnot
      obtain ⟨s₁, hstep, hs₁, helements⟩ := exists_terminate? hs
      rw [hcut, hstep]
      have hcolon := colon_mem_of_isHeader (Makefile.isHeader_phonyRule target)
      refine ⟨_, rfl, isSound_addRule hs₁ (HeldRule.isSound_ofRule hcolon), ?_⟩
      rw [makefile_addRule hs₁, helements]
      rfl
    | cons n ns =>
      obtain ⟨done, after, hslots, hdone, hn, _⟩ := Slot.exists_split hphony
      obtain ⟨hdone', hafter⟩ := hs.not_mem hslots
      obtain ⟨r, hr, hcolon⟩ := (hs.held_of_slots hslots).exists_ofRule
      rw [cutRule?_makefile hslots hdone hn]
      refine ⟨s.change n (.ofRule (Makefile.appendPrerequisite r target)), ?_, ?_, ?_⟩
      . dsimp
        rw [hr, HeldRule.appendPrerequisite?_ofRule]
        rfl
      . exact hs.change (HeldRule.isSound_ofRule (Makefile.colon_mem_appendPrerequisite hcolon target))
      . unfold makefile
        rw [slots_change, hslots, List.map_append, List.map_cons, map_element_change hdone',
          map_element_change hafter]
        simp [hr]

end AddPhony

section ChangeEach

variable (f : HeldRule → HeldRule)

theorem slots_changeEach (s : RuleStore) (ns : List Nat) : (s.changeEach f ns).slots = s.slots := by
  induction ns generalizing s with
  | nil => rfl
  | cons n ns ih => exact ih _

theorem next_changeEach (s : RuleStore) (ns : List Nat) : (s.changeEach f ns).next = s.next := by
  induction ns generalizing s with
  | nil => rfl
  | cons n ns ih => exact ih _

theorem held_changeEach (s : RuleStore) {ns : List Nat} (hns : ns.Nodup) (n : Nat)
    : (s.changeEach f ns).held n = if n ∈ ns then f (s.held n) else s.held n := by
  induction ns generalizing s with
  | nil => simp [changeEach]
  | cons k ns ih =>
    rw [List.nodup_cons] at hns
    have hrest := ih (s.change k (f (s.held k))) hns.2
    refine hrest.trans ?_
    by_cases hnk : n = k
    . subst hnk
      simp [hns.1]
    . simp [hnk]

theorem isSound_changeEach {s : RuleStore} (hs : s.IsSound)
    (hf : ∀ h : HeldRule, h.IsSound → (f h).IsSound) : (s.changeEach f s.numbers).IsSound := by
  have hnumbers : (s.changeEach f s.numbers).numbers = s.numbers :=
    congrArg Slot.numbers (slots_changeEach f s s.numbers)
  constructor
  . rw [hnumbers]
    exact hs.nodup
  . rw [hnumbers, next_changeEach]
    exact hs.lt_next
  . intro n hn
    rw [hnumbers] at hn
    rw [held_changeEach f s hs.nodup, if_pos hn]
    exact hf _ (hs.held n hn)

end ChangeEach

section Update

variable (f : Text → Text) {s : RuleStore} (hs : s.IsSound)

include hs

theorem isSound_updateDhInvocations : (s.updateDhInvocations f).IsSound := by
  apply isSound_changeEach _ hs
  intro h hh
  obtain ⟨r, rfl, hcolon⟩ := hh.exists_ofRule
  rw [HeldRule.mapRecipes_ofRule]
  exact HeldRule.isSound_ofRule hcolon

theorem makefile_updateDhInvocations
    : (s.updateDhInvocations f).makefile = (s.makefile.updateDhInvocations f).1 := by
  unfold updateDhInvocations Makefile.updateDhInvocations makefile Makefile.mapRecipes
  dsimp
  rw [slots_changeEach, List.map_map]
  apply congrArg Makefile.mk
  apply List.map_congr_left
  intro e he
  cases e with
  | line t => rfl
  | rule n =>
    have hn : n ∈ s.numbers := Slot.mem_numbers_iff.mpr he
    obtain ⟨r, hr, _⟩ := (hs.held n hn).exists_ofRule
    dsimp
    rw [held_changeEach _ s hs.nodup, if_pos hn, hr, HeldRule.mapRecipes_ofRule, HeldRule.rule_ofRule,
      HeldRule.rule_ofRule]

end Update

section Hold

theorem held_ofMakefile {m : Makefile} {n : Nat} {r : Rule} (h : m.elements[n]? = some (.rule r))
    : (ofMakefile m).held n = .ofRule r := by
  unfold ofMakefile
  dsimp
  rw [h]

theorem makefile_ofMakefile (m : Makefile) : (ofMakefile m).makefile = m := by
  apply congrArg Makefile.mk
  calc
    _ = m.elements.zipIdx.map ((ofMakefile m).element ∘ slotOf) := List.map_map
    _ = m.elements.zipIdx.map Prod.fst := by
      apply List.map_congr_left
      rintro ⟨e, i⟩ he
      rw [List.mk_mem_zipIdx_iff_getElem?] at he
      cases e with
      | line t => rfl
      | rule r => simp [slotOf, held_ofMakefile he]
    _ = m.elements := List.zipIdx_map_fst 0 m.elements

theorem numbers_map_slotOf (es : List MakeElement) (k : Nat)
    : (Slot.numbers ((es.zipIdx k).map slotOf)).Sublist (List.range' k es.length) := by
  induction es generalizing k with
  | nil => exact List.Sublist.refl _
  | cons e es ih =>
    rw [List.zipIdx_cons, List.length_cons, List.range'_succ]
    cases e with
    | line t => exact (ih (k + 1)).cons k
    | rule r => exact (ih (k + 1)).cons_cons k

theorem isSound_ofMakefile {m : Makefile} (hm : Makefile.HasColons m.elements) : (ofMakefile m).IsSound := by
  have hsublist : (ofMakefile m).numbers.Sublist (List.range' 0 m.elements.length) :=
    numbers_map_slotOf m.elements 0
  constructor
  . exact List.Nodup.sublist hsublist List.nodup_range'
  . intro n hn
    have := List.mem_range'_1.mp (hsublist.subset hn)
    change n < m.elements.length
    omega
  . intro n hn
    obtain ⟨⟨e, i⟩, he, heq⟩ := List.mem_map.mp (Slot.mem_numbers_iff.mp hn)
    rw [List.mk_mem_zipIdx_iff_getElem?] at he
    cases e with
    | line t => cases heq
    | rule r =>
      cases heq
      rw [held_ofMakefile he]
      exact HeldRule.isSound_ofRule (hm r (List.mem_of_getElem? he))

end Hold

theorem exists_perform? (edit : Makefile.Edit) {s : RuleStore} (hs : s.IsSound)
    : ∃ s', s.perform? edit = some s' ∧ s'.IsSound ∧ s'.makefile = (edit.apply s.makefile).1 := by
  cases edit with
  | addPhony target => exact exists_addPhony? target hs
  | dropPhony target =>
    obtain ⟨s', hrun, hpruned, heq⟩ := exists_dropPhony? target hs
    exact ⟨s', hrun, hpruned.isSound_store hs, heq⟩
  | updateDhInvocations f =>
    exact ⟨_, rfl, isSound_updateDhInvocations f hs, makefile_updateDhInvocations f hs⟩
  | discardOverrides => exact exists_discardOverrides? hs

theorem exists_run?_of_isSound (edits : List Makefile.Edit) {s : RuleStore} (hs : s.IsSound)
    : ∃ s', s.run? edits = some s' ∧ s'.IsSound ∧ s'.makefile = s.makefile.run edits := by
  induction edits generalizing s with
  | nil => exact ⟨s, rfl, hs, rfl⟩
  | cons edit edits ih =>
    obtain ⟨s₁, hstep, hs₁, heq⟩ := exists_perform? edit hs
    obtain ⟨s', hrun, hs', heq'⟩ := ih hs₁
    refine ⟨s', ?_, hs', ?_⟩
    . unfold run?
      rw [List.foldlM_cons, hstep]
      exact hrun
    . rw [heq', heq]
      rfl

/-- A run of edits of a makefile that was read does not fail: what it drops has a slot, each removal of a
prerequisite ends within as many rounds as the header has characters, and every rule that is left has a header
with a colon on its first line. What is left is what the edits lead to. -/
theorem exists_run? (t : Text) (edits : List Makefile.Edit)
    : ∃ s, (ofMakefile (Makefile.read t)).run? edits = some s ∧
        (∀ n ∈ s.numbers, (s.held n).IsSound) ∧ s.makefile = (Makefile.read t).run edits := by
  obtain ⟨s, hrun, hs, heq⟩ := exists_run?_of_isSound edits (isSound_ofMakefile (Makefile.hasColons_read t))
  rw [makefile_ofMakefile] at heq
  exact ⟨s, hrun, hs.held, heq⟩

end RuleStore

end DebianPackaging
