import Mathlib.Data.List.Nodup
import DebianPackaging.Proofs.Makefile.DropPhony
import DebianPackaging.Proofs.Makefile.RuleStore

/-!
This module contains what the removal of rules and of phony targets does to a makefile that is held. It does not
fail, even where rules to look at were found before others of them were dropped, and what is left is held as the
makefile that the removal leads to.
-/

namespace DebianPackaging

open Text MakeElement

namespace RuleStore

namespace IsSound

variable {s : RuleStore} (hs : s.IsSound)

include hs

theorem of_slots {slots : List Slot} (h : (Slot.numbers slots).Sublist s.numbers)
    : RuleStore.IsSound { s with slots } := by
  constructor
  . exact hs.nodup.sublist h
  . exact fun n hn => hs.lt_next n (h.subset hn)
  . exact fun n hn => hs.held n (h.subset hn)

variable {done after : List Slot} {n : Nat} (hslots : s.slots = done ++ .rule n :: after)

include hslots

theorem not_mem : n ∉ Slot.numbers done ∧ n ∉ Slot.numbers after := by
  have hnodup := hs.nodup
  unfold numbers at hnodup
  rw [hslots, Slot.numbers_append, Slot.numbers_cons_rule, List.nodup_middle, List.nodup_cons,
    List.mem_append, not_or] at hnodup
  exact hnodup.1

theorem held_of_slots : (s.held n).IsSound :=
  hs.held n (Slot.mem_numbers_iff.mpr (by simp [hslots]))

end IsSound

section DropRule

variable {s : RuleStore} {done after : List Slot} {n : Nat}

theorem exists_dropRule? (hslots : s.slots = done ++ .rule n :: after) (hn : n ∉ Slot.numbers done)
    : ∃ done', s.dropRule? n = some { s with slots := done' ++ after } ∧
        Slot.numbers done' = Slot.numbers done ∧
        done'.map s.element = Makefile.closeGap (done.map s.element) (after.map s.element) := by
  have hfind : s.slots.findIdx? (· == .rule n) = some done.length := by
    rw [hslots, List.findIdx?_append, Slot.findIdx?_eq_none hn]
    simp [List.findIdx?_cons]
  have herase (before behind : List Slot) (e : Slot)
      : (before ++ e :: behind).eraseIdx before.length = before ++ behind := by
    rw [List.eraseIdx_append_of_length_le (Nat.le_refl _), Nat.sub_self]
    rfl
  unfold dropRule?
  rw [hfind]
  dsimp
  rw [hslots, herase]
  rcases List.eq_nil_or_concat done with rfl | ⟨before, e, rfl⟩
  . exact ⟨[], rfl, rfl, rfl⟩
  . rw [List.concat_eq_append]
    have hlast : (before ++ [e] ++ after)[before.length]? = some e := by simp
    have hclosed : (before ++ [e] ++ after).eraseIdx before.length = before ++ after := by
      rw [List.append_assoc]
      exact herase before after e
    have hpos : ¬ (before ++ [e]).length = 0 := by simp
    rw [if_neg hpos, List.length_append, List.length_singleton, Nat.add_sub_cancel, hlast, hclosed,
      List.map_append, List.map_singleton, Makefile.closeGap_concat, isBlankLine_element]
    cases hblank : e.isBlankLine with
    | false => exact ⟨before ++ [e], by simp [hblank], rfl, by simp⟩
    | true =>
      have hnumbers : Slot.numbers before = Slot.numbers (before ++ [e]) := by
        rw [Slot.numbers_append, Slot.numbers_of_isBlankLine hblank, List.append_nil]
      cases after with
      | nil => exact ⟨before, by simp [hblank], hnumbers, by simp⟩
      | cons a after =>
        cases hblank' : a.isBlankLine with
        | false => exact ⟨before ++ [e], by simp [hblank'], rfl, by simp [hblank']⟩
        | true => exact ⟨before, by simp [hblank, hblank'], hnumbers, by simp [hblank']⟩

theorem isSome_dropRule?_iff : (s.dropRule? n).isSome = true ↔ n ∈ s.numbers := by
  constructor
  . intro h
    by_contra hn
    unfold dropRule? at h
    rw [Slot.findIdx?_eq_none hn] at h
    cases h
  . intro hn
    have hmem : n ∈ s.numbers.filter (· == n) := List.mem_filter.mpr ⟨hn, beq_self_eq_true n⟩
    obtain ⟨k, ns, hfirst⟩ := List.exists_cons_of_ne_nil (List.ne_nil_of_mem hmem)
    obtain ⟨done, after, hslots, hdone, hk, _⟩ := Slot.exists_split hfirst
    rw [eq_of_beq hk] at hslots
    have hnot : n ∉ Slot.numbers done := by
      intro hmem
      cases (hdone n hmem).symm.trans (beq_self_eq_true n)
    obtain ⟨done', hdrop, _⟩ := exists_dropRule? hslots hnot
    rw [hdrop]
    rfl

end DropRule

/-- What making targets no longer phony does to the rules that are held. None gets a slot, and only rules for
phony targets lose theirs or are changed. A rule that has lost its slot can still be looked at. -/
structure IsPrunedTo (s s' : RuleStore) : Prop where
  next : s'.next = s.next
  sublist : s'.numbers.Sublist s.numbers
  others : s'.numbers.filter (!s.isPhony ·) = s.numbers.filter (!s.isPhony ·)
  held : ∀ n, s.isPhony n = false → s'.held n = s.held n
  isPhony : s'.isPhony = s.isPhony
  isSound : ∀ n, (s.held n).IsSound → (s'.held n).IsSound

namespace IsPrunedTo

theorem refl (s : RuleStore) : s.IsPrunedTo s :=
  ⟨rfl, List.Sublist.refl _, rfl, fun _ _ => rfl, rfl, fun _ h => h⟩

variable {s s' s'' : RuleStore}

theorem trans (h : s.IsPrunedTo s') (h' : s'.IsPrunedTo s'') : s.IsPrunedTo s'' := by
  constructor
  . rw [h'.next, h.next]
  . exact h'.sublist.trans h.sublist
  . rw [← h.others, ← h.isPhony]
    exact h'.others
  . intro n hn
    rw [h'.held n (by rw [h.isPhony, hn]), h.held n hn]
  . rw [h'.isPhony, h.isPhony]
  . intro n hn
    exact h'.isSound n (h.isSound n hn)

theorem isSound_store (h : s.IsPrunedTo s') (hs : s.IsSound) : s'.IsSound := by
  constructor
  . exact hs.nodup.sublist h.sublist
  . intro n hn
    rw [h.next]
    exact hs.lt_next n (h.sublist.subset hn)
  . intro n hn
    exact h.isSound n (hs.held n (h.sublist.subset hn))

theorem isPointlessOverride (h : s.IsPrunedTo s') : s'.isPointlessOverride = s.isPointlessOverride := by
  funext n
  cases hphony : s.isPhony n with
  | false =>
    unfold RuleStore.isPointlessOverride
    rw [h.held n hphony]
  | true =>
    have hphony' : s'.isPhony n = true := by rw [h.isPhony, hphony]
    exact (Rule.isPointlessOverride_of_isPhony hphony').trans (Rule.isPointlessOverride_of_isPhony hphony).symm

theorem pointless (h : s.IsPrunedTo s')
    : s'.numbers.filter s'.isPointlessOverride = s.numbers.filter s.isPointlessOverride := by
  -- no pointless override is a rule for phony targets
  have hothers (ns : List Nat)
      : (ns.filter (!s.isPhony ·)).filter s.isPointlessOverride = ns.filter s.isPointlessOverride := by
    rw [List.filter_filter]
    apply List.filter_congr
    intro n _
    cases hphony : s.isPhony n with
    | false => simp
    | true =>
      have hnot : s.isPointlessOverride n = false := Rule.isPointlessOverride_of_isPhony hphony
      simp [hnot]
  rw [h.isPointlessOverride, ← hothers, h.others, hothers]

theorem dropSlot {done done' after : List Slot} {n : Nat} (hslots : s.slots = done ++ .rule n :: after)
    (hn : s.isPhony n = true) (hdone' : Slot.numbers done' = Slot.numbers done)
    : s.IsPrunedTo { s with slots := done' ++ after } := by
  refine ⟨rfl, ?_, ?_, fun _ _ => rfl, rfl, fun _ h => h⟩
  . simp [numbers, hslots, hdone']
  . simp [numbers, hslots, hdone', hn]

theorem change {n : Nat} (hn : s.isPhony n = true) {h : HeldRule} (hh : h.IsSound)
    (hphony : h.rule.isPhony = true) : s.IsPrunedTo (s.change n h) := by
  refine ⟨rfl, List.Sublist.refl _, rfl, ?_, ?_, ?_⟩
  . intro k hk
    apply held_change_of_ne
    rintro rfl
    rw [hn] at hk
    cases hk
  . funext k
    by_cases hkn : k = n
    . rw [hkn, hn]
      unfold RuleStore.isPhony
      rw [held_change_self, hphony]
    . unfold RuleStore.isPhony
      rw [held_change_of_ne hkn]
  . intro k hk
    exact isSound_held_change hh hk

end IsPrunedTo

section DropPhony

variable {s : RuleStore}

theorem exists_dropPrerequisite? (target : Text) (hs : s.IsSound) {done after : List Slot} {n : Nat}
    (hslots : s.slots = done ++ .rule n :: after) (hn : s.isPhony n = true)
    : ∃ s' done', dropPrerequisite? target s n = some s' ∧ s.IsPrunedTo s' ∧ s'.slots = done' ++ after ∧
        (Makefile.dropPhonyFrom target (done.map s.element) ((.rule n :: after).map s.element)).1
            =
          (Makefile.dropPhonyFrom target (done'.map s'.element) (after.map s'.element)).1 := by
  obtain ⟨hdone, hafter⟩ := hs.not_mem hslots
  obtain ⟨r, hr, hcolon⟩ := (hs.held_of_slots hslots).exists_ofRule
  have hphony : r.isPhony = true := by
    unfold isPhony at hn
    rwa [hr, HeldRule.rule_ofRule] at hn
  unfold dropPrerequisite?
  rw [hr, HeldRule.prerequisites?_ofRule hcolon, List.map_cons, element_rule, hr, HeldRule.rule_ofRule,
    Makefile.dropPhonyFrom, hphony, Bool.true_and, Option.bind_eq_bind, Option.bind_some]
  split
  . split
    . obtain ⟨done', hdrop, hnumbers, hgap⟩ := exists_dropRule? hslots hdone
      refine ⟨_, done', hdrop, .dropSlot hslots hn hnumbers, rfl, ?_⟩
      rw [← hgap]
      rfl
    . have hcolon' := Rule.colon_mem_removeAllPrerequisites target hcolon
      have hphony' := (Rule.isPhony_removeAllPrerequisites target hcolon).trans hphony
      rw [HeldRule.removeAllPrerequisites?_ofRule hcolon]
      refine ⟨_, done ++ [.rule n], rfl, .change hn (HeldRule.isSound_ofRule hcolon') ?_, by simp [hslots], ?_⟩
      . rw [HeldRule.rule_ofRule]
        exact hphony'
      . rw [List.map_append, map_element_change hdone, map_element_change hafter]
        simp
  . refine ⟨s, done ++ [.rule n], rfl, .refl s, by simp [hslots], ?_⟩
    rw [List.map_append, List.map_singleton, element_rule, hr, HeldRule.rule_ofRule]

/-- The rules for phony targets are found before any of them is looked at. None loses its slot before it is its
turn, and those behind it are still as they were. -/
theorem exists_dropPrerequisites? (target : Text) (hs : s.IsSound) {done after : List Slot}
    (hslots : s.slots = done ++ after)
    : ∃ s', ((Slot.numbers after).filter s.isPhony).foldlM (dropPrerequisite? target) s = some s' ∧
        s.IsPrunedTo s' ∧
        s'.makefile.elements = (Makefile.dropPhonyFrom target (done.map s.element) (after.map s.element)).1 := by
  induction after generalizing done s with
  | nil =>
    rw [List.append_nil] at hslots
    refine ⟨s, rfl, .refl s, ?_⟩
    unfold makefile
    rw [hslots]
    rfl
  | cons e after ih =>
    cases e with
    | line t =>
      obtain ⟨s', hrun, hpruned, helements⟩ := @ih s hs (done ++ [.line t]) (by simp [hslots])
      rw [List.map_append] at helements
      exact ⟨s', hrun, hpruned, helements⟩
    | rule n =>
      cases hn : s.isPhony n with
      | false =>
        obtain ⟨s', hrun, hpruned, helements⟩ := @ih s hs (done ++ [.rule n]) (by simp [hslots])
        unfold isPhony at hn
        rw [List.map_append] at helements
        refine ⟨s', ?_, hpruned, ?_⟩
        . rw [Slot.numbers_cons_rule, List.filter_cons_of_neg (by simp [isPhony, hn])]
          exact hrun
        . rw [List.map_cons, element, Makefile.dropPhonyFrom, hn]
          exact helements
      | true =>
        obtain ⟨s₁, done', hstep, hpruned, hslots', heq⟩ := exists_dropPrerequisite? target hs hslots hn
        obtain ⟨s', hrun, hpruned', helements⟩ := ih (hpruned.isSound_store hs) hslots'
        rw [hpruned.isPhony] at hrun
        refine ⟨s', ?_, hpruned.trans hpruned', helements.trans heq.symm⟩
        rw [Slot.numbers_cons_rule, List.filter_cons_of_pos hn, List.foldlM_cons, hstep]
        exact hrun

theorem exists_dropPhony? (target : Text) (hs : s.IsSound)
    : ∃ s', s.dropPhony? target = some s' ∧ s.IsPrunedTo s' ∧
        s'.makefile = (s.makefile.dropPhony target).1 := by
  obtain ⟨s', hrun, hpruned, helements⟩ := exists_dropPrerequisites? target hs (List.nil_append s.slots).symm
  refine ⟨s', ?_, hpruned, congrArg Makefile.mk helements⟩
  unfold dropPhony?
  rw [hs.phonyNumbers?_eq]
  exact hrun

theorem exists_dropPhonies? (targets : List Text) (hs : s.IsSound)
    : ∃ s', targets.foldlM dropPhony? s = some s' ∧ s.IsPrunedTo s' ∧
        s'.makefile = targets.foldl (fun m target => (m.dropPhony target).1) s.makefile := by
  induction targets generalizing s with
  | nil => exact ⟨s, rfl, .refl s, rfl⟩
  | cons target targets ih =>
    obtain ⟨s₁, hstep, hpruned, heq⟩ := exists_dropPhony? target hs
    obtain ⟨s', hrun, hpruned', heq'⟩ := ih (hpruned.isSound_store hs)
    refine ⟨s', ?_, hpruned.trans hpruned', ?_⟩
    . rw [List.foldlM_cons, hstep]
      exact hrun
    . rw [heq', heq, List.foldl_cons]

end DropPhony

section Discard

variable {s : RuleStore}

theorem cutRule?_makefile {p : Rule → Bool} {done after : List Slot} {n : Nat}
    (hslots : s.slots = done ++ .rule n :: after) (hdone : ∀ k ∈ Slot.numbers done, p (s.held k).rule = false)
    (hn : p (s.held n).rule = true)
    : Makefile.cutRule? p s.makefile.elements
        =
      some (done.map s.element, (s.held n).rule, after.map s.element) := by
  unfold makefile
  rw [hslots, List.map_append, List.map_cons]
  apply Makefile.cutRule?_append _ hn
  intro r hr
  obtain ⟨e, he, heq⟩ := List.mem_map.mp hr
  cases e with
  | line t => cases heq
  | rule k =>
    cases heq
    exact hdone k (Slot.mem_numbers_iff.mpr he)

theorem exists_discardOverride? (hs : s.IsSound) {n : Nat} {ns : List Nat}
    (hpointless : s.numbers.filter s.isPointlessOverride = n :: ns)
    : ∃ s', s.discardOverride? n = some s' ∧ s'.IsSound ∧
        (∀ k, (s.held k).IsSound → (s'.held k).IsSound) ∧ s'.isPointlessOverride = s.isPointlessOverride ∧
        s'.numbers.filter s.isPointlessOverride = ns ∧ s'.makefile = s.makefile.discardFirstOverride := by
  obtain ⟨done, after, hslots, hdone, hn, hns⟩ := Slot.exists_split hpointless
  obtain ⟨r, hr, hcolon⟩ := (hs.held_of_slots hslots).exists_ofRule
  obtain ⟨done', hdrop, hnumbers, hgap⟩ := exists_dropRule? hslots (hs.not_mem hslots).1
  have hs₁ : RuleStore.IsSound { s with slots := done' ++ after } := by
    apply hs.of_slots
    simp [numbers, hslots, hnumbers]
  obtain ⟨s', hrun, hpruned, heq⟩ := exists_dropPhonies? r.targets hs₁
  have hrest := hpruned.pointless
  rw [hpruned.isPointlessOverride] at hrest
  have hr' : r.isPointlessOverride = true := by
    unfold isPointlessOverride at hn
    rwa [hr, HeldRule.rule_ofRule] at hn
  refine ⟨s', ?_, hpruned.isSound_store hs₁, hpruned.isSound,
    hpruned.isPointlessOverride, hrest.trans ?_, heq.trans ?_⟩
  . unfold discardOverride?
    rw [hr, HeldRule.isPointlessOverride?_ofRule hcolon, hr', hdrop]
    dsimp
    rw [hr, HeldRule.targets?_ofRule hcolon]
    exact hrun
  . have hnone : (Slot.numbers done).filter s.isPointlessOverride = [] := by simpa using hdone
    unfold numbers
    rw [Slot.numbers_append, hnumbers, List.filter_append]
    change (Slot.numbers done).filter s.isPointlessOverride ++
      (Slot.numbers after).filter s.isPointlessOverride = ns
    rw [hnone, hns, List.nil_append]
  . unfold Makefile.discardFirstOverride Makefile.discardCut
    rw [cutRule?_makefile hslots hdone hn, hr, HeldRule.rule_ofRule]
    dsimp
    rw [← hgap, ← List.map_append]
    rfl

theorem exists_discardEach? (ns : List Nat) (hs : s.IsSound) (hns : ∀ n ∈ ns, (s.held n).IsSound)
    (hpointless : s.numbers.filter s.isPointlessOverride = ns.filter s.isPointlessOverride)
    : ∃ s', ns.foldlM discardOverride? s = some s' ∧ s'.IsSound ∧
        s'.makefile
            =
          (ns.filter s.isPointlessOverride).foldl (fun m _ => m.discardFirstOverride) s.makefile := by
  induction ns generalizing s with
  | nil => exact ⟨s, rfl, hs, rfl⟩
  | cons n ns ih =>
    rw [List.forall_mem_cons] at hns
    cases hn : s.isPointlessOverride n with
    | false =>
      rw [List.filter_cons_of_neg (by simp [hn])] at hpointless ⊢
      obtain ⟨s', hrun, hs', heq⟩ := ih hs hns.2 hpointless
      obtain ⟨r, hr, hcolon⟩ := hns.1.exists_ofRule
      refine ⟨s', ?_, hs', heq⟩
      have hstep : s.discardOverride? n = some s := by
        unfold isPointlessOverride at hn
        unfold discardOverride?
        rw [hr, HeldRule.rule_ofRule] at hn
        rw [hr, HeldRule.isPointlessOverride?_ofRule hcolon, hn]
        rfl
      rw [List.foldlM_cons, hstep]
      exact hrun
    | true =>
      rw [List.filter_cons_of_pos hn] at hpointless ⊢
      obtain ⟨s₁, hstep, hs₁, hheld, hsame, hrest, heq⟩ := exists_discardOverride? hs hpointless
      have hns₁ : ∀ k ∈ ns, (s₁.held k).IsSound := fun k hk => hheld k (hns.2 k hk)
      rw [← hsame] at hrest
      obtain ⟨s', hrun, hs', heq'⟩ := ih hs₁ hns₁ (by rw [hrest, hsame])
      refine ⟨s', ?_, hs', ?_⟩
      . rw [List.foldlM_cons, hstep]
        exact hrun
      . rw [heq', heq, hsame, List.foldl_cons]

theorem exists_discardOverrides? (hs : s.IsSound)
    : ∃ s', s.discardOverrides? = some s' ∧ s'.IsSound ∧ s'.makefile = s.makefile.discardOverrides.1 := by
  obtain ⟨s', hrun, hs', heq⟩ := exists_discardEach? s.numbers hs hs.held rfl
  refine ⟨s', hrun, hs', heq.trans ?_⟩
  unfold Makefile.discardOverrides
  dsimp
  rw [rules_makefile, List.filter_map, List.foldl_map]
  rfl

end Discard

end RuleStore

end DebianPackaging
