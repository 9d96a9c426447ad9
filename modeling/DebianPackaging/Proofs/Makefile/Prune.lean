import Mathlib.Logic.Relation
import DebianPackaging.Makefile.Override
import DebianPackaging.Proofs.Makefile.Prerequisite

/-!
This module contains the removal of pointless overrides as a run of small steps: a rule is removed, or the
header of a rule for phony targets loses a word. What each step keeps is kept by the whole run.
-/

namespace DebianPackaging

namespace Rule

theorem isPointlessOverride_of_isPhony {r : Rule} (h : r.isPhony = true)
    : r.isPointlessOverride = false := by
  unfold isPhony at h
  rw [List.contains_iff_mem] at h
  unfold isPointlessOverride
  split
  . next target htargets =>
    rw [htargets, List.mem_singleton] at h
    rw [← h]
    rfl
  . rfl

end Rule

namespace Makefile

/-- A rule is taken out, or the header of a rule for phony targets loses a prerequisite. What is taken out
is a pointless override, or a rule for phony targets with one of `names` among them. -/
inductive PruneStep (names : Text → Prop) : (es es' : List MakeElement) → Prop where
  | drop {before after : List MakeElement} {r : Rule}
      (h : r.isPointlessOverride = true ∨ r.isPhony = true ∧ ∃ name ∈ r.prerequisites, names name)
      : PruneStep names (before ++ .rule r :: after) (closeGap before after ++ after)
  | edit {before after : List MakeElement} {r r' : Rule} {name : Text} (hphony : r.isPhony = true)
      (hname : names name) (hmem : name ∈ r.prerequisites) (h : Rule.LosesPrerequisite name r r')
      : PruneStep names (before ++ .rule r :: after) (before ++ .rule r' :: after)

abbrev Prunes (names : Text → Prop) : (es es' : List MakeElement) → Prop :=
  Relation.ReflTransGen (PruneStep names)

theorem closeGap_cases (before after : List MakeElement)
    : closeGap before after = before ∨
        ∃ before' t, before = before' ++ [.line t] ∧ t.all isBlank = true ∧
          closeGap before after = before' ∧ ∀ e ∈ after.head?, e.isBlankLine = true := by
  unfold closeGap
  split
  . next e he =>
    split
    . next hblank =>
      right
      rw [Bool.and_eq_true] at hblank
      obtain ⟨before', rfl⟩ := List.getLast?_eq_some_iff.mp he
      cases e with
      | rule r => cases hblank.1
      | line t =>
        refine ⟨before', t, rfl, hblank.1, by simp, ?_⟩
        simpa [Option.all_eq_true] using hblank.2
    . left
      rfl
  . left
    rfl

theorem closeGap_concat (before : List MakeElement) (e : MakeElement) (after : List MakeElement)
    : closeGap (before ++ [e]) after =
        if e.isBlankLine && after.head?.all (·.isBlankLine) then before else before ++ [e] := by
  unfold closeGap
  rw [List.getLast?_concat, List.dropLast_concat]

theorem filter_closeGap {q : MakeElement → Bool} (hq : ∀ t, t.all isBlank = true → q (.line t) = false)
    (before after : List MakeElement) : (closeGap before after).filter q = before.filter q := by
  rcases closeGap_cases before after with heq | ⟨before', t, rfl, ht, heq, _⟩
  . rw [heq]
  . rw [heq]
    simp [hq t ht]

theorem closeGap_sublist (before after : List MakeElement)
    : (closeGap before after).Sublist before := by
  rcases closeGap_cases before after with heq | ⟨before', t, rfl, _, heq, _⟩
  . simp [heq]
  . simp [heq]

def HasColons (es : List MakeElement) : Prop := ∀ r, .rule r ∈ es → ':' ∈ r.first

def isPointless : MakeElement → Bool
  | .line _ => false
  | .rule r => r.isPointlessOverride

structure IsKept (names : Text → Prop) (es : List MakeElement) (q : MakeElement → Bool) : Prop where
  blank : ∀ t, t.all isBlank = true → q (.line t) = false
  pointless : ∀ r, r.isPointlessOverride = true → q (.rule r) = false
  targets : ∀ r r', r.isPhony = true → r'.targets = r.targets → q (.rule r) = false →
    q (.rule r') = false
  phony : ∀ r, .rule r ∈ es → r.isPhony = true → (∃ name ∈ r.prerequisites, names name) →
    q (.rule r) = false

namespace PruneStep

variable {names : Text → Prop} {es es' : List MakeElement}

theorem hasColons (h : PruneStep names es es') (hes : HasColons es) : HasColons es' := by
  intro r hr
  cases h with
  | drop _ =>
    apply hes
    cases List.mem_append.mp hr with
    | inl hr => simp [(closeGap_sublist _ _).subset hr]
    | inr hr => simp [hr]
  | @edit before after r₁ r₂ name _ _ _ h =>
    rw [List.mem_append, List.mem_cons] at hr
    rcases hr with hr | heq | hr
    . apply hes
      simp [hr]
    . cases heq
      apply h.colon_mem
      apply hes
      simp
    . apply hes
      simp [hr]

theorem filter_eq {q : MakeElement → Bool} (h : PruneStep names es es') (hes : HasColons es)
    (hq : IsKept names es q) : es'.filter q = es.filter q := by
  cases h with
  | @drop before after r h =>
    have hr : q (.rule r) = false := by
      cases h with
      | inl h => exact hq.pointless r h
      | inr h => exact hq.phony r (by simp) h.1 h.2
    simp [filter_closeGap hq.blank, hr]
  | @edit before after r r' name hphony hname hmem h =>
    have hr := hq.phony r (by simp) hphony ⟨name, hmem, hname⟩
    have hr' := hq.targets r r' hphony (h.targets_eq (hes r (by simp))) hr
    simp [hr, hr']

theorem sublist_pointless (h : PruneStep names es es') (hes : HasColons es)
    : (es'.filter isPointless).Sublist (es.filter isPointless) := by
  cases h with
  | @drop before after r _ =>
    rw [List.filter_append, filter_closeGap (fun _ _ => rfl), List.filter_append]
    apply List.Sublist.append_left
    apply List.Sublist.filter
    simp
  | @edit before after r r' name hphony _ _ h =>
    have hphony' : r'.isPhony = true := by
      rw [h.isPhony_eq (hes r (by simp))]
      exact hphony
    simp [isPointless, Rule.isPointlessOverride_of_isPhony hphony,
      Rule.isPointlessOverride_of_isPhony hphony']

end PruneStep

section Run

variable {names : Text → Prop}

theorem Prunes.hasColons {es es' : List MakeElement} (h : Prunes names es es') (hes : HasColons es)
    : HasColons es' := by
  induction h with
  | refl => exact hes
  | tail _ hstep ih => exact hstep.hasColons ih

theorem Prunes.filter_eq {q : MakeElement → Bool} {es es' : List MakeElement} (h : Prunes names es es')
    (hes : HasColons es) (hq : IsKept names es q) : es'.filter q = es.filter q := by
  induction h with
  | refl => rfl
  | @tail es₁ es₂ hrun hstep ih =>
    rw [← ih]
    apply hstep.filter_eq (Prunes.hasColons hrun hes)
    refine ⟨hq.blank, hq.pointless, hq.targets, ?_⟩
    -- a rule that is still to be kept was there from the start
    intro r hr hphony hname
    rw [← Bool.not_eq_true]
    intro hkept
    have hmem : .rule r ∈ es.filter q := by
      rw [← ih]
      exact List.mem_filter.mpr ⟨hr, hkept⟩
    rw [hq.phony r (List.mem_filter.mp hmem).1 hphony hname] at hkept
    contradiction

theorem Prunes.sublist_pointless {es es' : List MakeElement} (h : Prunes names es es')
    (hes : HasColons es) : (es'.filter isPointless).Sublist (es.filter isPointless) := by
  induction h with
  | refl => exact List.Sublist.refl _
  | tail hrun hstep ih => exact (hstep.sublist_pointless (Prunes.hasColons hrun hes)).trans ih

theorem prunes_removeRounds {name : Text} (hname : names name) (before after : List MakeElement)
    (n : Nat) {r : Rule} (hcolon : ':' ∈ r.first) (hphony : r.isPhony = true)
    : Prunes names (before ++ .rule r :: after) (before ++ .rule (r.removeRounds name n) :: after) := by
  refine (Rule.removeRounds_of_losesPrerequisite (fun r' => ':' ∈ r'.first ∧ r'.isPhony = true ∧
    Prunes names (before ++ .rule r :: after) (before ++ .rule r' :: after)) ?_ n ⟨hcolon, hphony, .refl⟩).2.2
  -- the rule that is left is still one for phony targets, so the next round edits it again
  rintro r₁ r₂ hmem h ⟨hcolon₁, hphony₁, hrun⟩
  exact ⟨h.colon_mem hcolon₁, (h.isPhony_eq hcolon₁).trans hphony₁, hrun.tail (.edit hphony₁ hname hmem h)⟩

theorem prunes_dropPhonyFrom {target : Text} (htarget : names target)
    (es done : List MakeElement) (hes : HasColons es)
    : Prunes names (done ++ es) (dropPhonyFrom target done es).1 := by
  induction es generalizing done with
  | nil =>
    rw [List.append_nil]
    exact .refl
  | cons e es ih =>
    have htail : HasColons es := by
      intro r hr
      apply hes
      simp [hr]
    cases e with
    | line t =>
      specialize ih (done ++ [.line t]) htail
      rw [List.append_assoc] at ih
      exact ih
    | rule r =>
      unfold dropPhonyFrom
      split
      . next h =>
        rw [Bool.and_eq_true, List.contains_iff_mem] at h
        dsimp
        split
        . apply Relation.ReflTransGen.head (.drop (.inr ⟨h.1, target, h.2, htarget⟩))
          exact ih _ htail
        . have hrun := prunes_removeRounds htarget done es r.headerLines.flatten.length
            (hes r (by simp)) h.1
          specialize ih (done ++ [.rule (r.removeAllPrerequisites target)]) htail
          rw [List.append_assoc] at ih
          exact hrun.trans ih
      . specialize ih (done ++ [.rule r]) htail
        rw [List.append_assoc] at ih
        exact ih

theorem prunes_dropPhony {target : Text} (htarget : names target) (m : Makefile)
    (hm : HasColons m.elements) : Prunes names m.elements (m.dropPhony target).1.elements :=
  prunes_dropPhonyFrom htarget m.elements [] hm

theorem prunes_dropPhonies {targets : List Text} (htargets : ∀ target ∈ targets, names target)
    (m : Makefile) (hm : HasColons m.elements)
    : Prunes names m.elements
        (targets.foldl (fun m target => (m.dropPhony target).1) m).elements := by
  induction targets generalizing m with
  | nil => exact .refl
  | cons target targets ih =>
    rw [List.forall_mem_cons] at htargets
    have hrun := prunes_dropPhony htargets.1 m hm
    exact hrun.trans (ih htargets.2 _ (hrun.hasColons hm))

theorem cutRule?_eq_some {p : Rule → Bool} {es before after : List MakeElement} {r : Rule}
    (h : cutRule? p es = some (before, r, after)) : es = before ++ .rule r :: after ∧ p r = true := by
  induction es generalizing before with
  | nil => cases h
  | cons e es ih =>
    cases e with
    | line t =>
      obtain ⟨⟨a, q, b⟩, hcut, heq⟩ := Option.map_eq_some_iff.mp h
      cases heq
      obtain ⟨rfl, hr⟩ := ih hcut
      exact ⟨rfl, hr⟩
    | rule q =>
      unfold cutRule? at h
      split at h
      . next hq =>
        cases h
        exact ⟨rfl, hq⟩
      . obtain ⟨⟨a, q', b⟩, hcut, heq⟩ := Option.map_eq_some_iff.mp h
        cases heq
        obtain ⟨rfl, hr⟩ := ih hcut
        exact ⟨rfl, hr⟩

theorem cutRule?_append {p : Rule → Bool} {before : List MakeElement}
    (hbefore : ∀ q, .rule q ∈ before → p q = false) {r : Rule} (hr : p r = true) (after : List MakeElement)
    : cutRule? p (before ++ .rule r :: after) = some (before, r, after) := by
  induction before with
  | nil => exact if_pos hr
  | cons e before ih =>
    specialize ih fun q hq => hbefore q (List.mem_cons_of_mem e hq)
    cases e with
    | line t =>
      rw [List.cons_append, cutRule?, ih]
      rfl
    | rule q =>
      rw [List.cons_append, cutRule?, ih, hbefore q (by simp)]
      rfl

theorem cutRule?_eq_none {p : Rule → Bool} {es : List MakeElement} (h : ∀ r, .rule r ∈ es → p r = false)
    : cutRule? p es = none := by
  induction es with
  | nil => rfl
  | cons e es ih =>
    specialize ih fun r hr => h r (List.mem_cons_of_mem e hr)
    cases e with
    | line t =>
      rw [cutRule?, ih]
      rfl
    | rule r =>
      rw [cutRule?, ih, h r (by simp)]
      rfl

theorem not_of_cutRule?_eq_some {p : Rule → Bool} {es before after : List MakeElement} {r : Rule}
    (h : cutRule? p es = some (before, r, after)) : ∀ q, .rule q ∈ before → p q = false := by
  induction es generalizing before with
  | nil => cases h
  | cons e es ih =>
    cases e with
    | line t =>
      obtain ⟨⟨a, q, b⟩, hcut, heq⟩ := Option.map_eq_some_iff.mp h
      cases heq
      simpa using ih hcut
    | rule q =>
      unfold cutRule? at h
      split at h
      . cases h
        simp
      . next hq =>
        obtain ⟨⟨a, q', b⟩, hcut, heq⟩ := Option.map_eq_some_iff.mp h
        cases heq
        simpa using ⟨by simpa using hq, ih hcut⟩

theorem not_of_cutRule?_eq_none {p : Rule → Bool} {es : List MakeElement} (h : cutRule? p es = none)
    : ∀ r, .rule r ∈ es → p r = false := by
  induction es with
  | nil =>
    intro r hr
    cases hr
  | cons e es ih =>
    intro r hr
    cases e with
    | line t =>
      have hnone := Option.map_eq_none_iff.mp h
      simp only [List.mem_cons, reduceCtorEq, false_or] at hr
      exact ih hnone r hr
    | rule q =>
      unfold cutRule? at h
      split at h
      . cases h
      . next hq =>
        have hnone := Option.map_eq_none_iff.mp h
        cases List.mem_cons.mp hr with
        | inl heq =>
          cases heq
          simpa using hq
        | inr hr => exact ih hnone r hr

end Run

def IsPointlessTarget (es : List MakeElement) (name : Text) : Prop :=
  ∃ r, .rule r ∈ es ∧ r.isPointlessOverride = true ∧ name ∈ r.targets

theorem Prunes.isPointlessTarget {names : Text → Prop} {es es' : List MakeElement}
    (h : Prunes names es es') (hes : HasColons es) {name : Text} (hname : IsPointlessTarget es' name)
    : IsPointlessTarget es name := by
  obtain ⟨r, hr, hpointless, htarget⟩ := hname
  have hmem : .rule r ∈ es'.filter isPointless := List.mem_filter.mpr ⟨hr, hpointless⟩
  have := (h.sublist_pointless hes).subset hmem
  exact ⟨r, (List.mem_filter.mp this).1, hpointless, htarget⟩

section Discard

variable {names : Text → Prop} {m : Makefile} (hm : HasColons m.elements)
  (hnames : ∀ name, IsPointlessTarget m.elements name → names name)

include hm hnames

theorem prunes_discardCut {before after : List MakeElement} {r : Rule}
    (h : m.elements = before ++ .rule r :: after) (hr : r.isPointlessOverride = true)
    : Prunes names (closeGap before after ++ after) (discardCut before r after).elements := by
  have hstep : PruneStep names m.elements (closeGap before after ++ after) := by
    rw [h]
    exact .drop (.inl hr)
  apply prunes_dropPhonies _ _ (hstep.hasColons hm)
  intro target htarget
  apply hnames
  refine ⟨r, ?_, hr, htarget⟩
  simp [h]

theorem prunes_discardFirstOverride : Prunes names m.elements m.discardFirstOverride.elements := by
  unfold discardFirstOverride
  split
  . next before r after hcut =>
    obtain ⟨heq, hr⟩ := cutRule?_eq_some hcut
    have hrun := prunes_discardCut hm hnames heq hr
    rw [heq]
    exact hrun.head (.drop (.inl hr))
  . exact .refl

theorem length_pointless_discardFirstOverride
    : (m.discardFirstOverride.elements.filter isPointless).length
        ≤
      (m.elements.filter isPointless).length - 1 := by
  unfold discardFirstOverride
  split
  . next before r after hcut =>
    obtain ⟨heq, hr⟩ := cutRule?_eq_some hcut
    have hrun := prunes_discardCut hm hnames heq hr
    have hstep : PruneStep names m.elements (closeGap before after ++ after) := by
      rw [heq]
      exact .drop (.inl hr)
    apply Nat.le_trans (Prunes.sublist_pointless hrun (hstep.hasColons hm)).length_le
    rw [heq, List.filter_append, filter_closeGap (fun _ _ => rfl)]
    simp [isPointless, hr]
  . next hcut =>
    have hnone : m.elements.filter isPointless = [] := by
      rw [List.filter_eq_nil_iff]
      intro e he
      cases e with
      | line t => simp [isPointless]
      | rule r => simp [isPointless, not_of_cutRule?_eq_none hcut r he]
    simp [hnone]

end Discard

theorem prunes_discardRounds {names : Text → Prop} (rounds : List Rule) {m : Makefile}
    (hm : HasColons m.elements) (hnames : ∀ name, IsPointlessTarget m.elements name → names name)
    (hrounds : (m.elements.filter isPointless).length ≤ rounds.length)
    : Prunes names m.elements (rounds.foldl (fun m _ => m.discardFirstOverride) m).elements ∧
        (rounds.foldl (fun m _ => m.discardFirstOverride) m).elements.filter isPointless = [] := by
  induction rounds generalizing m with
  | nil =>
    refine ⟨.refl, ?_⟩
    simpa using hrounds
  | cons r rounds ih =>
    have hrun := prunes_discardFirstOverride hm hnames
    have hlength := length_pointless_discardFirstOverride hm hnames
    have hnames' : ∀ name, IsPointlessTarget m.discardFirstOverride.elements name → names name := by
      intro name hname
      apply hnames
      exact hrun.isPointlessTarget hm hname
    rw [List.length_cons] at hrounds
    -- a round takes one override at least, and may take none only when none is left
    obtain ⟨hrest, hnone⟩ := ih (hrun.hasColons hm) hnames' (by omega)
    exact ⟨hrun.trans hrest, hnone⟩

theorem filter_isPointless (m : Makefile)
    : (m.elements.filter isPointless).length = (m.rules.filter (·.isPointlessOverride)).length := by
  unfold rules
  generalize m.elements = es
  induction es with
  | nil => rfl
  | cons e es ih =>
    cases e with
    | line t => simpa [isPointless, MakeElement.rule?] using ih
    | rule r =>
      by_cases hr : r.isPointlessOverride = true
      all_goals simpa [isPointless, MakeElement.rule?, hr] using ih

theorem prunes_discardOverrides {m : Makefile} (hm : HasColons m.elements)
    : Prunes (IsPointlessTarget m.elements) m.elements m.discardOverrides.1.elements ∧
        m.discardOverrides.1.elements.filter isPointless = [] := by
  apply prunes_discardRounds _ hm
  . intro name h
    exact h
  . exact Nat.le_of_eq (filter_isPointless m)

end Makefile

end DebianPackaging
