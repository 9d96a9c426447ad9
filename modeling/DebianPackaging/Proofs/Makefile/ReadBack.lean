import Mathlib.Data.List.Flatten
import DebianPackaging.Proofs.Makefile.Backslash
import DebianPackaging.Proofs.Makefile.Layout
import DebianPackaging.Proofs.Makefile.Prune

/-!
This module contains what becomes of the text of a makefile whose pointless overrides are removed. Taking
out a rule leaves a makefile that is read as what it is. Taking a word out of a header does so as long as
the lines of the header still continue each other.
-/

namespace DebianPackaging

open Text MakeLine MakeElement

namespace MakeElement

variable {p : Rule → List Text → Prop}

theorem IsLaidOut.exists_of_append {ended : Bool} {before es : List MakeElement}
    (h : IsLaidOut p ended (before ++ es)) : ∃ ended', IsLaidOut p ended' es := by
  induction before generalizing ended with
  | nil => exact ⟨ended, h⟩
  | cons e before ih =>
    cases e with
    | line t => exact ih h.2
    | rule r => exact ih h.2.2

theorem IsLaidOut.exchange (hp : ∀ r ls ls', Replaces ls ls' → p r ls → p r ls')
    {es es' : List MakeElement} (hlines : Replaces (allLines es) (allLines es'))
    (hes : ∀ ended, IsLaidOut p ended es → IsLaidOut p ended es') {ended : Bool}
    {before : List MakeElement} (h : IsLaidOut p ended (before ++ es))
    : IsLaidOut p ended (before ++ es') := by
  induction before generalizing ended with
  | nil => exact hes ended h
  | cons e before ih =>
    cases e with
    | line t => exact ⟨h.1, ih h.2⟩
    | rule r =>
      have hbefore : Replaces (allLines (before ++ es)) (allLines (before ++ es')) := by
        rw [allLines_append, allLines_append]
        apply hlines.append
      exact ⟨h.1, hp r _ _ hbefore h.2.1, ih h.2.2⟩

theorem isContinued_of_blank {t : Text} (h : t.all isBlank = true) : isContinued t = false := by
  apply isContinued_of_not_mem
  intro hmem
  have := List.all_eq_true.mp h _ hmem
  contradiction

theorem isFiller_of_blank {t : Text} (h : t.all isBlank = true) (hne : t ≠ []) : isFiller t = true := by
  simp [isFiller, isBlankRun, h, hne]

theorem isLaidOut_of_blank {t : Text} (ht : t.all isBlank = true) {after : List MakeElement}
    (hafter : ∀ e ∈ after.head?, e.isBlankLine = true) {ended : Bool}
    (h : IsLaidOut p ended (.line t :: after)) : IsLaidOut p ended after := by
  have hrest := h.2
  rw [isContinued_of_blank ht] at hrest
  cases ended with
  | true => exact hrest
  | false =>
    cases after with
    | nil => trivial
    | cons e after =>
      cases e with
      | line t' => exact ⟨by simp, hrest.2⟩
      | rule r =>
        have := hafter (.rule r) rfl
        contradiction

end MakeElement

namespace Makefile

/-- What is said of a rule in front of other lines stays true while a makefile is pruned. -/
structure IsStable (names : Text → Prop) (p : Rule → List Text → Prop) : Prop where
  isHeader : ∀ r ls, p r ls → isHeader r.first = true
  isBody : ∀ r ls, p r ls → IsBody ls r.body
  replace : ∀ r ls ls', Replaces ls ls' → p r ls → p r ls'
  loses : ∀ r r' ls name, names name → name ∈ r.prerequisites → r.isPhony = true →
    Rule.LosesPrerequisite name r r' → p r ls → p r' ls

structure IsIntact (p : Rule → List Text → Prop) (es : List MakeElement) : Prop where
  isLaidOut : IsLaidOut p true es
  areLines : AreLines (allLines es)
  notReturn : ∀ l ∈ allLines es, '\r' ∉ l
  ne_nil : ∀ t, .line t ∈ es → t ≠ []

namespace IsStable

variable {names : Text → Prop} {p : Rule → List Text → Prop} (hp : IsStable names p)

include hp

theorem isLaidOut_drop {before after : List MakeElement} {r : Rule} {ended : Bool}
    (h : IsLaidOut p ended (before ++ .rule r :: after)) : IsLaidOut p ended (before ++ after) := by
  obtain ⟨_, _, hr, _⟩ := h.exists_of_append
  apply IsLaidOut.exchange hp.replace _ _ h
  . constructor
    . intro hnil
      cases hnil
    . intro _
      exact (hp.isBody r _ hr).startsRecipe_behind
  . intro ended' h'
    rw [h'.1]
    exact h'.2.2

theorem isLaidOut_closeGap {before after : List MakeElement} (hne : ∀ t, .line t ∈ before → t ≠ [])
    {ended : Bool} (h : IsLaidOut p ended (before ++ after))
    : IsLaidOut p ended (closeGap before after ++ after) := by
  rcases closeGap_cases before after with heq | ⟨before', t, rfl, ht, heq, hafter⟩
  . rw [heq]
    exact h
  . rw [heq]
    rw [List.append_assoc, List.singleton_append] at h
    apply IsLaidOut.exchange hp.replace _ _ h
    . constructor
      . intro hnil
        cases hnil
      . intro hstop
        change startsRecipe (t :: allLines after) = false at hstop
        rw [startsRecipe_cons, if_pos (isFiller_of_blank ht (hne t (by simp)))] at hstop
        exact hstop
    . intro ended'
      exact isLaidOut_of_blank ht hafter

theorem isLaidOut_edit {before after : List MakeElement} {r r' : Rule} {name : Text}
    (hname : names name) (hmem : name ∈ r.prerequisites) (hphony : r.isPhony = true)
    (hloses : Rule.LosesPrerequisite name r r') {ended : Bool}
    (h : IsLaidOut p ended (before ++ .rule r :: after))
    : IsLaidOut p ended (before ++ .rule r' :: after) := by
  obtain ⟨_, _, hr, _⟩ := h.exists_of_append
  apply IsLaidOut.exchange hp.replace _ _ h
  . constructor
    . intro hnil
      cases hnil
    . intro _
      apply startsRecipe_of_isHeader
      exact hloses.isHeader (hp.isHeader r _ hr)
  . intro ended' h'
    exact ⟨h'.1, hp.loses r r' _ name hname hmem hphony hloses h'.2.1, h'.2.2⟩

theorem isIntact_step {es es' : List MakeElement} (h : PruneStep names es es')
    (hes : IsIntact p es) : IsIntact p es' := by
  obtain ⟨hlaidOut, hlines, hreturn, hne⟩ := hes
  cases h with
  | @drop before after r _ =>
    have hsublist : (closeGap before after ++ after).Sublist (before ++ .rule r :: after) :=
      (closeGap_sublist before after).append (List.sublist_cons_self _ _)
    have hall : (allLines (closeGap before after ++ after)).Sublist (allLines (before ++ .rule r :: after)) :=
      hsublist.flatMap _
    constructor
    . apply hp.isLaidOut_closeGap
      . intro t ht
        apply hne
        simp [ht]
      . exact hp.isLaidOut_drop hlaidOut
    . exact hlines.sublist hall
    . intro l hl
      exact hreturn l (hall.subset hl)
    . intro t ht
      exact hne t (hsublist.subset ht)
  | @edit before after r r' name hphony hname hmem h =>
    -- one line changes, and it is still a single line that ends where it did
    obtain ⟨front, l, l', back, hfront, hfront', hloses⟩ := h.exists_headerLines
    have hword := Rule.isWord_of_mem_prerequisites hmem
    have hall : allLines (before ++ .rule r :: after)
        = (allLines before ++ front) ++ l :: (back ++ r.body ++ allLines after) := by
      simp [MakeElement.lines, Rule.lines, hfront]
    have hall' : allLines (before ++ .rule r' :: after)
        = (allLines before ++ front) ++ l' :: (back ++ r.body ++ allLines after) := by
      simp [MakeElement.lines, Rule.lines, hfront', h.body_eq]
    rw [hall] at hlines hreturn
    constructor
    . exact hp.isLaidOut_edit hname hmem hphony h hlaidOut
    . rw [hall']
      apply hlines.exchange
      . exact hloses.isLine
      . exact hloses.isEnded hword
    . rw [hall']
      rw [List.forall_mem_append, List.forall_mem_cons] at hreturn ⊢
      exact ⟨hreturn.1, hloses.not_mem hreturn.2.1, hreturn.2.2⟩
    . intro t ht
      apply hne
      simpa using ht

theorem isIntact_run {es es' : List MakeElement} (h : Prunes names es es') (hes : IsIntact p es)
    : IsIntact p es' := by
  induction h with
  | refl => exact hes
  | tail _ hstep ih => exact hp.isIntact_step hstep ih

end IsStable

theorem isLaidOut_of_suffix {p : Rule → List Text → Prop} {ended : Bool} {es after : List MakeElement}
    {r : Rule} (h : IsLaidOut p ended es) (hr : .rule r :: after <:+ es) : p r (allLines after) := by
  obtain ⟨before, rfl⟩ := hr
  obtain ⟨_, _, hr, _⟩ := h.exists_of_append
  exact hr

theorem isLaidOut_imp {p q : Rule → List Text → Prop} {ended : Bool} {es : List MakeElement}
    (hpq : ∀ r after, .rule r :: after <:+ es → p r (allLines after) → q r (allLines after))
    (h : IsLaidOut p ended es) : IsLaidOut q ended es := by
  induction es generalizing ended with
  | nil => trivial
  | cons e es ih =>
    have htail : ∀ r after, .rule r :: after <:+ es → p r (allLines after) → q r (allLines after) := by
      intro r after hr
      exact hpq r after (hr.trans (List.suffix_cons e es))
    cases e with
    | line t => exact ⟨h.1, ih htail h.2⟩
    | rule r => exact ⟨h.1, hpq r es (List.suffix_refl _) h.2.1, ih htail h.2.2⟩

end Makefile

namespace Rule

/-- The lines of a header, none of which is empty, continue one another. -/
structure HasWholeHeader (r : Rule) (behind : List Text) : Prop where
  ne_nil : [] ∉ r.continued
  continued : Continue (r.body ++ behind) r.first r.continued

structure IsReadUnlessPhony (r : Rule) (behind : List Text) : Prop where
  isHeader : isHeader r.first = true
  body : IsBody behind r.body
  ne_nil : [] ∉ r.body
  header : r.isPhony = false → r.HasWholeHeader behind

structure IsReadPlain (r : Rule) (behind : List Text) : Prop where
  isRead : r.IsReadUnlessPhony behind
  header : r.HasWholeHeader behind
  plain : r.isPhony = true → ∀ l ∈ r.headerLines, IsPlain l

theorem HasWholeHeader.replace {r : Rule} {ls ls' : List Text} (hls : Replaces ls ls')
    (h : r.HasWholeHeader ls) : r.HasWholeHeader ls' := by
  constructor
  . exact h.ne_nil
  . apply h.continued.replace
    apply (hls.append _).nil

theorem IsReadUnlessPhony.replace {r : Rule} {ls ls' : List Text} (hls : Replaces ls ls')
    (h : r.IsReadUnlessPhony ls) : r.IsReadUnlessPhony ls' := by
  constructor
  . exact h.isHeader
  . exact h.body.replace hls
  . exact h.ne_nil
  . intro hphony
    exact (h.header hphony).replace hls

theorem IsReadUnlessPhony.loses {r r' : Rule} {ls : List Text} {name : Text}
    (hphony : r.isPhony = true) (hloses : LosesPrerequisite name r r') (h : r.IsReadUnlessPhony ls)
    : r'.IsReadUnlessPhony ls := by
  constructor
  . exact hloses.isHeader h.isHeader
  . rw [hloses.body_eq]
    exact h.body
  . rw [hloses.body_eq]
    exact h.ne_nil
  . rw [hloses.isPhony_eq (colon_mem_of_isHeader h.isHeader), hphony]
    intro hphony'
    contradiction

theorem IsReadPlain.replace {r : Rule} {ls ls' : List Text} (hls : Replaces ls ls')
    (h : r.IsReadPlain ls) : r.IsReadPlain ls' := by
  constructor
  . exact h.isRead.replace hls
  . exact h.header.replace hls
  . exact h.plain

theorem IsReadPlain.loses {r r' : Rule} {ls : List Text} {name : Text}
    (hmem : name ∈ r.prerequisites) (hphony : r.isPhony = true) (hloses : LosesPrerequisite name r r')
    (h : r.IsReadPlain ls) : r'.IsReadPlain ls := by
  obtain ⟨before, l, l', after, hlines, hlines', hword⟩ := hloses.exists_headerLines
  have hplain := h.plain hphony
  -- a name with a backslash could reach into the end of a line that is continued
  have hbackslash : '\\' ∉ name := by
    intro hmem'
    apply not_mem_joinContinued_of_plain hplain
    exact mem_joinContinued_of_mem_prerequisites hmem hmem'
  rw [hlines, List.forall_mem_append, List.forall_mem_cons] at hplain
  obtain ⟨hl', hcontinued⟩ :=
    hword.isPlain (isWord_of_mem_prerequisites hmem) hbackslash hplain.2.1
  have hplain' : ∀ l ∈ r'.headerLines, IsPlain l := by
    rw [hlines', List.forall_mem_append, List.forall_mem_cons]
    exact ⟨hplain.1, hl', hplain.2.2⟩
  constructor
  . exact h.isRead.loses hphony hloses
  . constructor
    . intro hnil
      exact (hplain' [] (List.mem_cons_of_mem _ hnil)).ne_nil rfl
    . rw [hloses.body_eq]
      apply h.header.continued.of_map_eq
      change r'.headerLines.map isContinued = r.headerLines.map isContinued
      rw [hlines, hlines']
      simp [hcontinued]
  . intro _
    exact hplain'

end Rule

namespace Makefile

theorem isStable_isReadUnlessPhony (names : Text → Prop)
    : IsStable names Rule.IsReadUnlessPhony where
  isHeader _ _ h := h.isHeader
  isBody _ _ h := h.body
  replace _ _ _ hls h := h.replace hls
  loses _ _ _ _ _ _ hphony hloses h := h.loses hphony hloses

theorem isStable_isReadPlain (names : Text → Prop) : IsStable names Rule.IsReadPlain where
  isHeader _ _ h := h.isRead.isHeader
  isBody _ _ h := h.isRead.body
  replace _ _ _ hls h := h.replace hls
  loses _ _ _ _ _ hmem hphony hloses h := h.loses hmem hphony hloses

theorem allLines_elements_read (t : Text) : allLines (read t).elements = t.lines :=
  allLines_readElements t.lines

theorem text_read (t : Text) : (read t).text = t := by
  unfold Makefile.text
  rw [← flatten_allLines, allLines_elements_read, flatten_lines]

theorem isLaidOut_read (t : Text) : IsLaidOut Rule.IsRead true (read t).elements :=
  isLaidOut_readElements t.lines

theorem mem_lines_of_mem_read {t : Text} {r : Rule} (hr : .rule r ∈ (read t).elements) {l : Text}
    (hl : l ∈ r.lines) : l ∈ t.lines := by
  rw [← allLines_elements_read t]
  exact List.mem_flatMap.mpr ⟨.rule r, hr, hl⟩

theorem not_nil_mem_lines_read {t : Text} {r : Rule} (hr : .rule r ∈ (read t).elements)
    : [] ∉ r.lines := by
  intro hnil
  exact ne_nil_of_mem_lines (mem_lines_of_mem_read hr hnil) rfl

theorem hasWholeHeader_read {t : Text} {r : Rule} {after : List MakeElement}
    (hr : .rule r :: after <:+ (read t).elements) : r.HasWholeHeader (allLines after) := by
  constructor
  . intro hnil
    apply not_nil_mem_lines_read (r := r) (hr.subset (by simp))
    simp [Rule.lines, Rule.headerLines, hnil]
  . exact (isLaidOut_of_suffix (isLaidOut_read t) hr).continued

theorem isReadUnlessPhony_read {t : Text} {r : Rule} {after : List MakeElement}
    (hr : .rule r :: after <:+ (read t).elements) : r.IsReadUnlessPhony (allLines after) := by
  have hread := isLaidOut_of_suffix (isLaidOut_read t) hr
  constructor
  . exact hread.isHeader
  . exact hread.body
  . intro hnil
    apply not_nil_mem_lines_read (r := r) (hr.subset (by simp))
    simp [Rule.lines, hnil]
  . intro _
    exact hasWholeHeader_read hr

theorem isIntact_read {t : Text} (h : '\r' ∉ t) {p : Rule → List Text → Prop}
    (hp : ∀ r after, .rule r :: after <:+ (read t).elements → p r (allLines after))
    : IsIntact p (read t).elements := by
  constructor
  . apply isLaidOut_imp _ (isLaidOut_read t)
    intro r after hr _
    exact hp r after hr
  . rw [allLines_elements_read]
    exact areLines_lines h
  . rw [allLines_elements_read]
    exact not_mem_of_mem_lines h
  . intro t' ht'
    have hmem : t' ∈ t.lines := by
      rw [← allLines_elements_read t]
      exact List.mem_flatMap.mpr ⟨.line t', ht', by simp [MakeElement.lines]⟩
    exact ne_nil_of_mem_lines hmem

def HasWholeHeaders (m : Makefile) : Prop :=
  ∀ r after, .rule r :: after <:+ m.elements → r.isPhony = true → r.HasWholeHeader (allLines after)

theorem ne_nil_of_mem_allLines {es : List MakeElement} (hline : ∀ t, .line t ∈ es → t ≠ [])
    (hrule : ∀ r, .rule r ∈ es → [] ∉ r.lines) : ∀ l ∈ allLines es, l ≠ [] := by
  intro l hl hnil
  rw [hnil] at hl
  obtain ⟨e, he, hmem⟩ := List.mem_flatMap.mp hl
  cases e with
  | line t =>
    apply hline t he
    simpa [MakeElement.lines, eq_comm] using hmem
  | rule r => exact hrule r he hmem

theorem read_text_iff {m : Makefile} (h : IsIntact Rule.IsReadUnlessPhony m.elements)
    : read m.text = m ↔ m.HasWholeHeaders := by
  constructor
  . intro hread r after hr _
    rw [← hread] at hr
    exact hasWholeHeader_read hr
  . intro hwhole
    have hheader : ∀ r after, .rule r :: after <:+ m.elements → r.HasWholeHeader (allLines after) := by
      intro r after hr
      cases hphony : r.isPhony with
      | true => exact hwhole r after hr hphony
      | false => exact (isLaidOut_of_suffix h.isLaidOut hr).header hphony
    have hlaidOut : IsLaidOut Rule.IsRead true m.elements := by
      apply isLaidOut_imp _ h.isLaidOut
      intro r after hr hread
      exact ⟨hread.isHeader, (hheader r after hr).continued, hread.body⟩
    -- an empty line would get lost in the text
    have hne : ∀ l ∈ allLines m.elements, l ≠ [] := by
      apply ne_nil_of_mem_allLines h.ne_nil
      intro r hr hnil
      obtain ⟨before, after, heq⟩ := List.append_of_mem hr
      have hsuffix : .rule r :: after <:+ m.elements := ⟨before, heq.symm⟩
      have hread := isLaidOut_of_suffix h.isLaidOut hsuffix
      simp only [Rule.lines, Rule.headerLines, List.mem_append, List.mem_cons] at hnil
      rcases hnil with (hnil | hnil) | hnil
      . have := colon_mem_of_isHeader hread.isHeader
        rw [← hnil] at this
        cases this
      . exact (hheader r after hsuffix).ne_nil hnil
      . exact hread.ne_nil hnil
    have hlines : m.text.lines = allLines m.elements := by
      unfold Makefile.text
      rw [← flatten_allLines]
      exact lines_flatten h.areLines hne h.notReturn
    unfold read
    rw [hlines, readElements_of_isLaidOut hlaidOut]

end Makefile

end DebianPackaging
