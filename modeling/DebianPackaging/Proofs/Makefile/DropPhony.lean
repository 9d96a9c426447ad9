import DebianPackaging.Proofs.Makefile.Discard
import DebianPackaging.Proofs.Makefile.Header
import DebianPackaging.Proofs.Makefile.ListRemoval

/-!
This module contains the proof that making a target no longer phony keeps everything but phony targets and
blank lines, and takes the target and nothing else out of the phony targets unless it stands where it is
not found.
-/

namespace DebianPackaging

open Text MakeLine MakeElement

namespace Rule

/-- A rule lists a name and others. -/
def ListsAmongOthers (name : Text) (r : Rule) : Prop :=
  name ∈ r.prerequisites ∧ ∃ other ∈ r.prerequisites, other ≠ name

instance (name : Text) (r : Rule) : Decidable (r.ListsAmongOthers name) :=
  inferInstanceAs (Decidable (_ ∧ _))

end Rule

namespace MakeElement

/-- What is left of an element, but for blank lines, when a target is made no longer phony. -/
def withoutPhony (target : Text) : MakeElement → List MakeElement
  | .line t => [.line t]
  | .rule r =>
    if r.isPhony && r.prerequisites.contains target then
      if r.prerequisites.all (· == target) then [] else [.rule (r.removeAllPrerequisites target)]
    else [.rule r]

theorem filter_isSolid_withoutPhony (target : Text) {e : MakeElement}
    (hcolon : ∀ r, e = .rule r → ':' ∈ r.first)
    : (withoutPhony target e).filter isSolid = [e].filter isSolid := by
  cases e with
  | line t => rfl
  | rule r =>
    rw [withoutPhony]
    split
    . next h =>
      rw [Bool.and_eq_true] at h
      split
      . simp [isSolid, h.1]
      . simp [isSolid, h.1, Rule.isPhony_removeAllPrerequisites target (hcolon r rfl)]
    . rfl

end MakeElement

namespace Makefile

theorem dropPhonyFrom_changed_iff (target : Text) (done es : List MakeElement)
    : (dropPhonyFrom target done es).2 = true ↔ target ∈ es.flatMap (·.phonyTargets) := by
  induction es generalizing done with
  | nil => simp [dropPhonyFrom]
  | cons e es ih =>
    cases e with
    | line t => simpa [dropPhonyFrom, MakeElement.phonyTargets] using ih _
    | rule r =>
      unfold dropPhonyFrom
      split
      . next h =>
        rw [Bool.and_eq_true, List.contains_iff_mem] at h
        simp [MakeElement.phonyTargets, h]
      . next h =>
        rw [ih, List.flatMap_cons, List.mem_append, or_iff_right]
        rw [MakeElement.phonyTargets]
        split
        . next hr => simpa [hr] using h
        . simp

theorem filter_dropPhonyFrom {q : MakeElement → Bool} (hq : ∀ t, t.all isBlank = true → q (.line t) = false)
    (target : Text) (done es : List MakeElement)
    : (dropPhonyFrom target done es).1.filter q
        =
      done.filter q ++ es.flatMap (fun e => (withoutPhony target e).filter q) := by
  induction es generalizing done with
  | nil => simp [dropPhonyFrom]
  | cons e es ih =>
    cases e with
    | line t =>
      unfold dropPhonyFrom
      rw [ih]
      simp [withoutPhony]
    | rule r =>
      unfold dropPhonyFrom
      split
      . next h =>
        dsimp only
        rw [ih, List.flatMap_cons, withoutPhony, if_pos h]
        split
        . rw [filter_closeGap hq]
          rfl
        . rw [List.filter_append, List.append_assoc]
      . next h =>
        rw [ih, List.flatMap_cons, withoutPhony, if_neg h, List.filter_append, List.append_assoc]

theorem filter_isSolid_dropPhony {m : Makefile} (hm : HasColons m.elements) (target : Text)
    : (m.dropPhony target).1.elements.filter isSolid = m.elements.filter isSolid := by
  have hblank : ∀ t, t.all isBlank = true → isSolid (.line t) = false := by
    intro t ht
    simp [isSolid, ht]
  have hfilter := filter_dropPhonyFrom hblank target [] m.elements
  have hkept : m.elements.flatMap (fun e => (withoutPhony target e).filter isSolid)
      = m.elements.flatMap (fun e => [e].filter isSolid) := by
    apply List.flatMap_congr
    intro e he
    apply filter_isSolid_withoutPhony
    rintro r rfl
    exact hm r he
  rw [hkept, ← List.filter_flatMap, List.flatMap_singleton'] at hfilter
  exact hfilter

theorem flatMap_phonyTargets_filter (es : List MakeElement)
    : (es.filter fun e => e.rule?.isSome).flatMap (·.phonyTargets) = es.flatMap (·.phonyTargets) := by
  induction es with
  | nil => rfl
  | cons e es ih => cases e <;> simpa [rule?, MakeElement.phonyTargets] using ih

theorem phonyTargets_dropPhony (m : Makefile) (target : Text)
    : (m.dropPhony target).1.phonyTargets
        =
      m.elements.flatMap (fun e => (withoutPhony target e).flatMap (·.phonyTargets)) := by
  have hfilter := @filter_dropPhonyFrom (fun e => e.rule?.isSome) (fun _ _ => rfl) target [] m.elements
  have heq := congrArg (List.flatMap (·.phonyTargets)) hfilter
  rw [List.filter_nil, List.nil_append, ← List.filter_flatMap, flatMap_phonyTargets_filter,
    flatMap_phonyTargets_filter, List.flatMap_assoc] at heq
  rw [phonyTargets_eq_flatMap]
  exact heq

theorem phonyTargets_withoutPhony {target : Text} {r : Rule} (hphony : r.isPhony = true)
    (hcolon : ':' ∈ r.first) {us : List Text} (hlists : r.ListsAmongOthers target → r.HasLists target us)
    : ((withoutPhony target (.rule r)).flatMap (·.phonyTargets)).filter (· != target)
            =
          r.prerequisites.filter (· != target) ∧
        (target ∈ (withoutPhony target (.rule r)).flatMap (·.phonyTargets) ↔
          r.ListsAmongOthers target ∧ ∃ u ∈ us.tail, startWord u = target) := by
  rw [withoutPhony]
  split
  . next h =>
    rw [hphony, Bool.true_and, List.contains_iff_mem] at h
    split
    . next hall =>
      have hothers : ¬ r.ListsAmongOthers target := by
        rintro ⟨_, other, hother, hne⟩
        have := List.all_eq_true.mp hall other hother
        exact hne (by simpa using this)
      have hnone : r.prerequisites.filter (· != target) = [] := by
        rw [List.filter_eq_nil_iff]
        intro other hother
        simpa using List.all_eq_true.mp hall other hother
      simp [hothers, hnone]
    . next hall =>
      have hothers : r.ListsAmongOthers target := by
        refine ⟨h, ?_⟩
        simpa using hall
      have hphony' : (r.removeAllPrerequisites target).isPhony = true := by
        rw [Rule.isPhony_removeAllPrerequisites target hcolon, hphony]
      have hleft := (hlists hothers).removeAllPrerequisites h
      simp only [List.flatMap_singleton, MakeElement.phonyTargets, hphony', if_true]
      exact ⟨hleft.1, hleft.2.trans (and_iff_right hothers).symm⟩
  . next h =>
    rw [hphony, Bool.true_and, List.contains_iff_mem] at h
    have hothers : ¬ r.ListsAmongOthers target := fun hothers => h hothers.1
    simp [MakeElement.phonyTargets, hphony, h, hothers]

theorem phonyTargets_withoutPhony_of_not {target : Text} {e : MakeElement}
    (he : ∀ r, e = .rule r → r.isPhony = false)
    : (withoutPhony target e).flatMap (·.phonyTargets) = [] ∧ e.phonyTargets = [] := by
  cases e with
  | line t => simp [withoutPhony, MakeElement.phonyTargets]
  | rule r => simp [withoutPhony, MakeElement.phonyTargets, he r rfl]

theorem flatMap_eq_filter_iff {es : List MakeElement} {f g : MakeElement → List Text} {target : Text}
    (h : ∀ e ∈ es, (f e).filter (· != target) = (g e).filter (· != target))
    : es.flatMap f = (es.flatMap g).filter (· != target) ↔ ∀ e ∈ es, target ∉ f e := by
  have hfilter : (es.flatMap f).filter (· != target) = (es.flatMap g).filter (· != target) := by
    rw [List.filter_flatMap, List.filter_flatMap]
    exact List.flatMap_congr h
  rw [← hfilter]
  constructor
  . intro heq e he hmem
    have : target ∈ es.flatMap f := List.mem_flatMap.mpr ⟨e, he, hmem⟩
    rw [heq] at this
    simp at this
  . intro hnot
    symm
    rw [List.filter_eq_self]
    intro name hname
    obtain ⟨e, he, hmem⟩ := List.mem_flatMap.mp hname
    rw [bne_iff_ne]
    rintro rfl
    exact hnot e he hmem

theorem mem_rulesFor_phonyTarget_iff {m : Makefile} {r : Rule}
    : r ∈ m.rulesFor phonyTarget ↔ .rule r ∈ m.elements ∧ r.isPhony = true := by
  rw [rulesFor, List.mem_filter, mem_rules_iff]
  rfl

theorem phonyTargets_withoutPhony_of_mem {t target : Text}
    (hplain : ∀ r ∈ (read t).rulesFor phonyTarget, r.ListsAmongOthers target →
      ∀ u ∈ r.lists, Rule.IsPlainList target u)
    {e : MakeElement} (he : e ∈ (read t).elements)
    : ((withoutPhony target e).flatMap (·.phonyTargets)).filter (· != target)
            =
          e.phonyTargets.filter (· != target) ∧
        (target ∈ (withoutPhony target e).flatMap (·.phonyTargets) ↔
          ∃ r, e = .rule r ∧ r.isPhony = true ∧ r.ListsAmongOthers target ∧
            ∃ u ∈ r.lists.tail, startWord u = target) := by
  by_cases hrule : ∃ r, e = .rule r ∧ r.isPhony = true
  . obtain ⟨r, rfl, hphony⟩ := hrule
    have hcolon := hasColons_read t r he
    obtain ⟨before, after, heq⟩ := List.append_of_mem he
    have hread := isLaidOut_of_suffix (isLaidOut_read t) ⟨before, heq.symm⟩
    have hlists : r.ListsAmongOthers target → r.HasLists target r.lists := by
      intro hothers
      apply Rule.hasLists_lists hcolon hread.continued
      exact hplain r (mem_rulesFor_phonyTarget_iff.mpr ⟨he, hphony⟩) hothers
    obtain ⟨hfilter, hmem⟩ := phonyTargets_withoutPhony hphony hcolon hlists
    rw [hfilter, hmem, MakeElement.phonyTargets, if_pos hphony]
    simp [hphony]
  . obtain ⟨hnone, hnone'⟩ := @phonyTargets_withoutPhony_of_not target e (by simpa using hrule)
    rw [hnone, hnone']
    refine ⟨rfl, iff_of_false List.not_mem_nil ?_⟩
    rintro ⟨r, heq, hphony, _⟩
    exact hrule ⟨r, heq, hphony⟩

/-- Making a target no longer phony tells whether it was phony, and keeps all rules but those for phony
targets and all lines outside of rules but blank ones. Where nothing but names and bars stands in the lists of
prerequisites, the phony targets are the old ones without the target if and only if no rule lists it among
others at the start of a line that continues the header. -/
theorem dropPhony_iff (t target : Text)
    : (((read t).dropPhony target).2 = true ↔ target ∈ (read t).phonyTargets) ∧
        ((read t).dropPhony target).1.elements.filter isSolid = (read t).elements.filter isSolid ∧
        ((∀ r ∈ (read t).rulesFor phonyTarget, r.ListsAmongOthers target →
            ∀ u ∈ r.lists, Rule.IsPlainList target u) →
          (((read t).dropPhony target).1.phonyTargets = (read t).phonyTargets.filter (· != target) ↔
            ∀ r ∈ (read t).rulesFor phonyTarget, r.ListsAmongOthers target →
              ∀ u ∈ r.lists.tail, startWord u ≠ target)) := by
  refine ⟨?_, filter_isSolid_dropPhony (hasColons_read t) target, ?_⟩
  . rw [phonyTargets_eq_flatMap]
    exact dropPhonyFrom_changed_iff target [] (read t).elements
  . intro hplain
    have hleft := fun e he => @phonyTargets_withoutPhony_of_mem t target hplain e he
    rw [phonyTargets_dropPhony, phonyTargets_eq_flatMap, flatMap_eq_filter_iff fun e he => (hleft e he).1]
    constructor
    . intro h r hr hothers u hu hstart
      obtain ⟨hmem, hphony⟩ := mem_rulesFor_phonyTarget_iff.mp hr
      exact h _ hmem ((hleft _ hmem).2.mpr ⟨r, rfl, hphony, hothers, u, hu, hstart⟩)
    . intro h e he hmem
      obtain ⟨r, rfl, hphony, hothers, u, hu, hstart⟩ := (hleft e he).2.mp hmem
      exact h r (mem_rulesFor_phonyTarget_iff.mpr ⟨he, hphony⟩) hothers u hu hstart

/-- The same target is taken from a line that has a blank in front of it, and not from one that has none. -/
theorem dropPhony_iff_continued
    : ((read ".PHONY: a | \\\n b c # b\n").dropPhony "b").1.phonyTargets = ["a", "c"] ∧
        ((read ".PHONY: a | \\\nb c # b\n").dropPhony "b").2 = true ∧
        ((read ".PHONY: a | \\\nb c # b\n").dropPhony "b").1.phonyTargets ≠ ["a", "c"] := by
  obtain ⟨_, _, hfound⟩ := dropPhony_iff ".PHONY: a | \\\n b c # b\n" "b"
  obtain ⟨hchanged, _, hkept⟩ := dropPhony_iff ".PHONY: a | \\\nb c # b\n" "b"
  refine ⟨?_, hchanged.mpr (by decide +kernel), ?_⟩
  . exact ((hfound (by decide +kernel)).mpr (by decide +kernel)).trans (by decide +kernel)
  . intro h
    have hnone := (hkept (by decide +kernel)).mp (h.trans (by decide +kernel))
    revert hnone
    decide +kernel

end Makefile

end DebianPackaging
