import DebianPackaging.Proofs.Makefile.NewRule

/-!
This module contains the proof that making a target phony makes it so, now and when the makefile is read
again, unless the line that takes it goes on behind it: with a recipe, with a comment, or on the next line.
-/

namespace DebianPackaging

open Text MakeLine MakeElement

theorem Rule.IsRead.replace {r : Rule} {ls ls' : List Text} (hls : Replaces ls ls') (h : r.IsRead ls)
    : r.IsRead ls' := by
  constructor
  . exact h.isHeader
  . apply h.continued.replace
    apply (hls.append _).nil
  . exact h.body.replace hls

namespace Makefile

/-- A makefile has a target among its phony ones and keeps those of another one. Adding the target again
changes nothing. -/
structure HasAdded (target : Text) (m m' : Makefile) : Prop where
  mem : target ∈ m'.phonyTargets
  kept : ∀ name ∈ m.phonyTargets, name ∈ m'.phonyTargets
  again : m'.addPhony target = (m', false)

theorem addPhony_of_mem {target : Text} {m : Makefile} (h : target ∈ m.phonyTargets)
    : m.addPhony target = (m, false) := by
  unfold addPhony
  rw [if_pos (List.contains_iff_mem.mpr h)]

theorem hasAdded_iff {target : Text} {m m' : Makefile}
    : HasAdded target m m' ↔ target ∈ m'.phonyTargets ∧ ∀ name ∈ m.phonyTargets, name ∈ m'.phonyTargets :=
  ⟨fun h => ⟨h.mem, h.kept⟩, fun h => ⟨h.1, h.2, addPhony_of_mem h.1⟩⟩

theorem addPhony_changed_iff (m : Makefile) (target : Text)
    : (m.addPhony target).2 = true ↔ target ∉ m.phonyTargets := by
  unfold addPhony
  split
  . next h => simpa using h
  . next h =>
    rw [List.contains_iff_mem] at h
    split <;> simp [h]

/-- The elements of a makefile that was read from a text, cut at the first rule for phony targets. The first
line of the rule ends in line feeds or carriage returns, if at all. -/
structure IsCut (t : Text) (before : List MakeElement) (r : Rule) (after : List MakeElement) : Prop where
  cutRule?_eq : cutRule? Rule.isPhony (read t).elements = some (before, r, after)
  first : ∀ c ∈ dropNewline r.first, isLineEnd c = false

namespace IsCut

variable {t target : Text} {before after : List MakeElement} {r : Rule} (h : IsCut t before r after)

include h

theorem elements_eq : (read t).elements = before ++ .rule r :: after :=
  (cutRule?_eq_some h.cutRule?_eq).1

theorem isPhony : r.isPhony = true := (cutRule?_eq_some h.cutRule?_eq).2

theorem isRead : r.IsRead (allLines after) := by
  apply isLaidOut_of_suffix (isLaidOut_read t)
  exact ⟨before, h.elements_eq.symm⟩

theorem isLaidOut_after : IsLaidOut Rule.IsRead true after := by
  have hlaid := isLaidOut_read t
  rw [h.elements_eq] at hlaid
  obtain ⟨_, _, _, hafter⟩ := hlaid.exists_of_append
  exact hafter

theorem colon_mem : ':' ∈ r.first := colon_mem_of_isHeader h.isRead.isHeader

theorem lines_eq
    : t.lines = allLines before ++ r.first :: (r.continued ++ (r.body ++ allLines after)) := by
  rw [← allLines_elements_read, h.elements_eq, allLines_append, allLines_cons]
  simp [MakeElement.lines, Rule.lines, Rule.headerLines]

theorem not_isNewline : ∀ c ∈ dropNewline r.first, isNewline c = false := by
  apply not_isNewline_of_mem_lines (t := t)
  simp [h.lines_eq]

theorem continued_eq_nil (hnewline : newline r.first = []) : r.continued = [] := by
  cases hcontinued : r.continued with
  | nil => rfl
  | cons l ls =>
    exfalso
    have hchain := isChain_lines t
    rw [h.lines_eq, hcontinued, List.cons_append, List.isChain_append, List.isChain_cons] at hchain
    exact newline_ne_nil h.first (hchain.2.1.1 l rfl).isEnded hnewline

theorem lines_text (hname : IsWord target)
    : (Makefile.mk (before ++ .rule (appendPrerequisite r target) :: after)).text.lines
        =
      allLines before ++
        (appendPrerequisite r target).first :: (r.continued ++ (r.body ++ allLines after)) := by
  have htext : (Makefile.mk (before ++ .rule (appendPrerequisite r target) :: after)).text
      = (allLines before ++
          (appendPrerequisite r target).first :: (r.continued ++ (r.body ++ allLines after))).flatten := by
    unfold Makefile.text
    rw [← flatten_allLines, allLines_append, allLines_cons]
    simp [MakeElement.lines, Rule.lines, Rule.headerLines, appendPrerequisite]
  have hends : ∀ c ∈ dropNewline r.first ++ " " ++ target, isLineEnd c = false := by
    intro c hc
    rw [List.mem_append, List.mem_append] at hc
    rcases hc with (hc | hc) | hc
    . exact h.first c hc
    . cases hc with
      | head => rfl
      | tail _ hc => cases hc
    . exact not_isLineEnd_of_not_isBlank (hname.notBlank c hc)
  have hne : dropNewline r.first ≠ [] := by
    obtain ⟨front, rest, heq, _⟩ := List.eq_append_cons_of_mem h.colon_mem
    rw [heq, dropNewline_append_cons (by decide)]
    simp
  rw [htext]
  apply lines_flatten_exchange h.lines_eq
  . apply lines_exchange h.first _ hends
    . simp
    . apply lines_of_mem_lines (t := t)
      simp [h.lines_eq]
  . obtain ⟨c, d, hd⟩ := List.exists_cons_of_ne_nil hne
    have hhead : r.first.head? = some c := by
      rw [← dropNewline_append_newline r.first, hd]
      rfl
    simp [appendPrerequisite, hd, hhead]
  . intro k
    exact precedes_exchange h.first

theorem phonyTargets_eq : (read t).phonyTargets = r.prerequisites ++ after.flatMap (·.phonyTargets) := by
  rw [phonyTargets_eq_flatMap, h.elements_eq, List.flatMap_append,
    flatMap_phonyTargets_of_not (not_of_cutRule?_eq_some h.cutRule?_eq)]
  simp [MakeElement.phonyTargets, h.isPhony]

theorem elements_read_text (hname : Rule.IsListName target)
    : (read (Makefile.mk (before ++ .rule (appendPrerequisite r target) :: after)).text).elements
        =
      before ++
        readElements ((appendPrerequisite r target).first :: (r.continued ++ (r.body ++ allLines after))) := by
  have hlaid := isLaidOut_read t
  rw [h.elements_eq] at hlaid
  have hheader := Rule.isHeader_append h.isRead.isHeader target
  unfold read
  rw [h.lines_text hname.isWord]
  generalize (appendPrerequisite r target).first = first, r.continued ++ (r.body ++ allLines after) = rest
    at hheader
  have hexchange : IsLaidOut Rule.IsRead true (before ++ readElements (first :: rest)) := by
    apply IsLaidOut.exchange _ _ _ hlaid
    . intro r ls ls' hls hread
      exact hread.replace hls
    . rw [allLines_readElements]
      constructor
      . intro hnil
        cases hnil
      . intro _
        exact startsRecipe_of_isHeader hheader rest
    . intro ended hended
      rw [hended.1]
      apply isLaidOut_readElements
  rw [← readElements_of_isLaidOut hexchange, allLines_append, allLines_readElements]

theorem phonyTargets_read_text (hname : Rule.IsListName target)
    : (read (Makefile.mk (before ++ .rule (appendPrerequisite r target) :: after)).text).phonyTargets
        =
      (appendPrerequisite r target).firstLine.prerequisites ++
        (readElements (r.continued ++ (r.body ++ allLines after))).flatMap (·.phonyTargets) := by
  have hheader := Rule.isHeader_append h.isRead.isHeader target
  have hended := Rule.isContinued_append (r := r) hname
  have hphony : (appendPrerequisite r target).firstLine.isPhony = true := by
    unfold Rule.firstLine
    rw [← isPhony_of_first (colon_mem_of_isHeader hheader) r.continued r.body]
    exact (Rule.isPhony_append h.colon_mem target).trans h.isPhony
  have htake := @takeContinued_of_continue (r.continued ++ (r.body ++ allLines after))
    (appendPrerequisite r target).first [] (.inl hended)
  rw [List.nil_append] at htake
  rw [phonyTargets_eq_flatMap, h.elements_read_text hname, List.flatMap_append,
    flatMap_phonyTargets_of_not (not_of_cutRule?_eq_some h.cutRule?_eq), List.nil_append,
    flatMap_phonyTargets (isLaidOut_readElements _), flatMap_phonyTargets (isLaidOut_readElements _),
    allLines_readElements, allLines_readElements, headers, hheader, hended, htake]
  unfold Rule.firstLine at hphony ⊢
  simp [listedBy, MakeElement.phonyTargets, hphony]

theorem phonyTargets_subset
    : after.flatMap (·.phonyTargets) ⊆
        (readElements (r.continued ++ (r.body ++ allLines after))).flatMap (·.phonyTargets) := by
  have hsuffix : ∀ ended ls, headers ended ls <:+ headers true ls := by
    intro ended ls
    cases ended with
    | true => exact List.suffix_rfl
    | false => exact headers_false_suffix ls
  rw [flatMap_phonyTargets h.isLaidOut_after, flatMap_phonyTargets (isLaidOut_readElements _),
    allLines_readElements, ← headers_rule h.isRead]
  intro name hmem
  rw [List.mem_flatMap] at hmem ⊢
  obtain ⟨header, hheader, hmem⟩ := hmem
  exact ⟨header, (hsuffix _ _).subset hheader, hmem⟩

end IsCut

/-- What a rule lists whose first line is continued is still listed when the backslash there no longer
continues it: the words of the first line are listed as they stand, and other ones have to be listed by the
rules that are left, and by those that are read from the lines behind the first one. -/
def KeepsListed (r : Rule) (after : List MakeElement) : Prop :=
  ∀ listed ∈ r.prerequisites, listed ∈ r.firstWords ∨
    (listed ∈ r.moreWords ∨ listed ∈ after.flatMap (·.phonyTargets)) ∧
      listed ∈ (readElements (r.continued ++ (r.body ++ allLines after))).flatMap (·.phonyTargets)

/-- A makefile takes new phony targets: the first rule for phony targets has no recipe or comment on its
first line and loses nothing where that line is continued, or there is no such rule and the last line of the
makefile is not continued. -/
def TakesPhony (m : Makefile) : Prop :=
  match cutRule? Rule.isPhony m.elements with
  | some (_, r, after) =>
    (∀ c ∈ Rule.behindColons r.first, Rule.isListEnd c = false) ∧
      (isContinued r.first = true → KeepsListed r after)
  | none => ∀ l ∈ (allLines m.elements).getLast?, isContinued l = false

instance (r : Rule) (after : List MakeElement) : Decidable (KeepsListed r after) :=
  inferInstanceAs (Decidable (∀ listed ∈ r.prerequisites, _ ∨ _ ∧ _))

instance (m : Makefile) : Decidable (TakesPhony m) :=
  match h : cutRule? Rule.isPhony m.elements with
  | some (before, r, after) =>
    decidable_of_iff ((Rule.behindColons r.first).any Rule.isListEnd = false ∧
      (isContinued r.first = true → KeepsListed r after)) (by simp [TakesPhony, h])
  | none =>
    decidable_of_iff (∀ l ∈ (allLines m.elements).getLast?, isContinued l = false) (by rw [TakesPhony, h])

namespace IsCut

variable {t target : Text} {before after : List MakeElement} {r : Rule} (h : IsCut t before r after)

include h

theorem phonyTargets_append
    : (Makefile.mk (before ++ .rule (appendPrerequisite r target) :: after)).phonyTargets
        =
      (appendPrerequisite r target).prerequisites ++ after.flatMap (·.phonyTargets) := by
  have hphony : (appendPrerequisite r target).isPhony = true :=
    (Rule.isPhony_append h.colon_mem target).trans h.isPhony
  rw [phonyTargets_eq_flatMap, List.flatMap_append,
    flatMap_phonyTargets_of_not (not_of_cutRule?_eq_some h.cutRule?_eq)]
  simp [MakeElement.phonyTargets, hphony]

theorem keepsListed_of_not_isContinued (hplain : ∀ c ∈ Rule.behindColons r.first, Rule.isListEnd c = false)
    (hended : isContinued r.first = false) : KeepsListed r after := by
  have hcontinued : r.continued = [] := by
    have hmore := h.isRead.continued
    cases hcontinued : r.continued with
    | nil => rfl
    | cons l ls =>
      rw [hcontinued, Continue, hended] at hmore
      cases hmore.1
  have hlisted := Rule.prerequisites_of_not_isContinued h.colon_mem h.not_isNewline hplain hended hcontinued
  intro listed hmem
  rw [hlisted] at hmem
  exact .inl (List.mem_filter.mp hmem).1

section Plain

variable (hname : Rule.IsListName target) (hplain : ∀ c ∈ Rule.behindColons r.first, Rule.isListEnd c = false)

include hname hplain

theorem mem_prerequisites_iff (listed : Text)
    : (listed ∈ (appendPrerequisite r target).prerequisites ↔
          (listed ∈ r.firstWords ∨ listed = target ∨ listed ∈ r.moreWords) ∧ listed ≠ ['|']) ∧
        (listed ∈ (appendPrerequisite r target).firstLine.prerequisites ↔
          (listed ∈ r.firstWords ∨ listed = target) ∧ listed ≠ ['|']) := by
  have hfirst : (appendPrerequisite r target).firstLine = appendPrerequisite r.firstLine target := rfl
  constructor
  . exact Rule.mem_prerequisites_append_iff h.colon_mem h.not_isNewline hplain hname h.continued_eq_nil listed
  . rw [hfirst, Rule.mem_prerequisites_append_iff (r := r.firstLine) h.colon_mem h.not_isNewline hplain hname
      (fun _ => rfl)]
    simp

theorem keepsListed_iff (hnot : target ∉ r.prerequisites)
    : KeepsListed r after ↔
        ∀ listed ∈ r.prerequisites,
          (listed ∈ (appendPrerequisite r target).prerequisites ∨ listed ∈ after.flatMap (·.phonyTargets)) ∧
            (listed ∈ (appendPrerequisite r target).firstLine.prerequisites ∨
              listed ∈
                (readElements (r.continued ++ (r.body ++ allLines after))).flatMap (·.phonyTargets)) := by
  apply forall₂_congr
  intro listed hlisted
  have hne : listed ≠ target := by
    rintro rfl
    exact hnot hlisted
  have hbar : listed ≠ ['|'] := by
    rintro rfl
    exact r.bar_not_mem_prerequisites hlisted
  obtain ⟨hmem, hmem'⟩ := h.mem_prerequisites_iff hname hplain listed
  simp only [hmem, hmem', hne, hbar, ne_eq, not_false_eq_true, and_true, false_or, or_false]
  rw [or_and_left, or_assoc]

end Plain

theorem hasAdded_iff (hname : Rule.IsListName target) (hbar : target ≠ ['|'])
    (hnot : target ∉ (read t).phonyTargets)
    : HasAdded target (read t) ((read t).addPhony target).1 ∧
          HasAdded target (read t) (read ((read t).addPhony target).1.text) ↔
        TakesPhony (read t) := by
  have hadd : ((read t).addPhony target).1
      = Makefile.mk (before ++ .rule (appendPrerequisite r target) :: after) := by
    unfold addPhony
    rw [if_neg (by simpa using hnot), h.cutRule?_eq]
  rw [h.phonyTargets_eq, List.mem_append, not_or] at hnot
  unfold TakesPhony
  rw [hadd, h.cutRule?_eq, Makefile.hasAdded_iff, Makefile.hasAdded_iff, h.phonyTargets_append,
    h.phonyTargets_read_text hname, h.phonyTargets_eq]
  simp only [List.mem_append]
  by_cases hplain : ∀ c ∈ Rule.behindColons r.first, Rule.isListEnd c = false
  . have hkeeps := h.keepsListed_iff hname hplain hnot.1
    constructor
    . rintro ⟨⟨_, hkept⟩, _, hkept'⟩
      refine ⟨hplain, fun _ => hkeeps.mpr ?_⟩
      intro listed hlisted
      exact ⟨hkept listed (.inl hlisted), hkept' listed (.inl hlisted)⟩
    . rintro ⟨_, hkept⟩
      have hkept : KeepsListed r after := by
        cases hended : isContinued r.first with
        | true => exact hkept hended
        | false => exact h.keepsListed_of_not_isContinued hplain hended
      rw [hkeeps] at hkept
      obtain ⟨hmem, hmem'⟩ := h.mem_prerequisites_iff hname hplain target
      refine ⟨⟨.inl (hmem.mpr ⟨.inr (.inl rfl), hbar⟩), ?_⟩, .inl (hmem'.mpr ⟨.inr rfl, hbar⟩), ?_⟩
      . rintro listed (hlisted | hafter)
        . exact (hkept listed hlisted).1
        . exact .inr hafter
      . rintro listed (hlisted | hafter)
        . exact (hkept listed hlisted).2
        . exact .inr (h.phonyTargets_subset hafter)
  . have hlisted := Rule.prerequisites_append_of_isListEnd h.colon_mem h.not_isNewline
      (by simpa using hplain) target
    rw [hlisted]
    constructor
    . rintro ⟨⟨hmem, _⟩, _⟩
      exact absurd hmem (not_or.mpr hnot)
    . rintro ⟨hplain', _⟩
      exact absurd hplain' hplain

end IsCut

section NoRule

variable {t target : Text} (hcut : cutRule? Rule.isPhony (read t).elements = none)

include hcut

theorem phonyTargets_of_cutRule?_eq_none : (read t).phonyTargets = [] := by
  rw [phonyTargets_eq_flatMap]
  exact flatMap_phonyTargets_of_not (not_of_cutRule?_eq_none hcut)

theorem hasAdded_of_cutRule?_eq_none (hname : Rule.IsListName target) (hbar : target ≠ ['|'])
    : HasAdded target (read t) ((read t).addPhony target).1 ∧
          HasAdded target (read t) (read ((read t).addPhony target).1.text) ↔
        TakesPhony (read t) := by
  have hnone := phonyTargets_of_cutRule?_eq_none hcut
  have hadd : ((read t).addPhony target).1
      = Makefile.mk (terminate (read t).elements ++ [.rule (phonyRule target)]) := by
    unfold addPhony
    rw [hnone, hcut]
    rfl
  have hmem : target ∈ ((read t).addPhony target).1.phonyTargets := by
    have hlisted : listedBy (phonyRule target).headerLines = [target] := listedBy_phonyRule hname hbar
    rw [hadd, phonyTargets_eq_flatMap, List.flatMap_append, List.flatMap_singleton, ← listedBy_headerLines,
      hlisted]
    simp
  have hread := mem_phonyTargets_read_append (not_of_cutRule?_eq_none hcut) hname hbar
  unfold TakesPhony
  rw [hcut, allLines_elements_read, ← hread, Makefile.hasAdded_iff, Makefile.hasAdded_iff, hnone, ← hadd]
  simp [hmem]

end NoRule

/-- Making a target phony tells whether it was not. Where no line end but line feeds and carriage returns
stands on the first line of the first rule for phony targets, the target is added, now and when the makefile
is read again, if and only if it was phony or the makefile takes it. -/
theorem addPhony_iff (t : Text) {target : Text} (hname : Rule.IsListName target) (hbar : target ≠ ['|'])
    (hfirst : ∀ cut ∈ cutRule? Rule.isPhony (read t).elements,
      (dropNewline cut.2.1.first).any isLineEnd = false)
    : (((read t).addPhony target).2 = true ↔ target ∉ (read t).phonyTargets) ∧
        (HasAdded target (read t) ((read t).addPhony target).1 ∧
            HasAdded target (read t) (read ((read t).addPhony target).1.text) ↔
          target ∈ (read t).phonyTargets ∨ TakesPhony (read t)) := by
  refine ⟨addPhony_changed_iff (read t) target, ?_⟩
  by_cases hmem : target ∈ (read t).phonyTargets
  . rw [addPhony_of_mem hmem, text_read, Makefile.hasAdded_iff]
    simp [hmem]
  . rw [or_iff_right hmem]
    cases hcut : cutRule? Rule.isPhony (read t).elements with
    | none => exact hasAdded_of_cutRule?_eq_none hcut hname hbar
    | some cut => exact IsCut.hasAdded_iff ⟨hcut, by simpa using hfirst cut hcut⟩ hname hbar hmem

/-- The same target is taken by a rule, and not by one that has a comment on its first line. -/
theorem addPhony_iff_comment
    : HasAdded "b" (read ".PHONY: a\n") (read ((read ".PHONY: a\n").addPhony "b").1.text) ∧
        ((read ".PHONY: a # all\n").addPhony "b").2 = true ∧
        ¬ (HasAdded "b" (read ".PHONY: a # all\n") ((read ".PHONY: a # all\n").addPhony "b").1 ∧
          HasAdded "b" (read ".PHONY: a # all\n")
            (read ((read ".PHONY: a # all\n").addPhony "b").1.text)) := by
  have hname : Rule.IsListName "b" :=
    ⟨⟨by decide, List.all_iff_forall_prop.mp (by decide)⟩, List.all_iff_forall_prop.mp (by decide)⟩
  obtain ⟨_, htaken⟩ := addPhony_iff ".PHONY: a\n" hname (by decide) (by decide +kernel)
  obtain ⟨hchanged, hkept⟩ := addPhony_iff ".PHONY: a # all\n" hname (by decide) (by decide +kernel)
  refine ⟨?_, hchanged.mpr (by decide +kernel), ?_⟩
  . exact (htaken.mpr (by decide +kernel)).2
  . rw [hkept]
    decide +kernel

end Makefile

end DebianPackaging
