import DebianPackaging.Proofs.Relation.Floor
import DebianPackaging.Proofs.Relation.Order
import DebianPackaging.Proofs.Relation.ReadBack
import DebianPackaging.Proofs.Version.Basic

/-!
This module contains runs of edits of a field that was read. Every edit keeps the spellings of a field
honest, so what decides whether the text of the field is read back is whether the edits bring in
something that cannot be written into a field.
-/

namespace DebianPackaging

open Text

inductive FieldEdit where
  | entry (text : Text)
  | minimum (name version : Text)

namespace FieldEdit

def apply (f : RelationField) : FieldEdit → RelationField × Except Error Bool
  | entry t =>
    match Entry.read t with
    | .error err => (f, .error err)
    | .ok e => ((f.ensure e).1, .ok (f.ensure e).2)
  | minimum name version => f.ensureMinimum name version

/-- What an edit brings in can be written into a field: an entry without commas, or a name without
separators and a version, both as relations are read. -/
def IsClean : FieldEdit → Prop
  | entry t => ',' ∉ t
  | minimum name version =>
    Relation.IsName name ∧ ',' ∉ name ∧ '|' ∉ name ∧ Relation.IsConstraintVersion version

end FieldEdit

def RelationField.edit (f : RelationField) (es : List FieldEdit) : RelationField :=
  es.foldl (fun f e => (e.apply f).1) f

namespace Entry

theorem isHonest_raise {e : Entry} (he : e.IsHonest) (minimum : Version)
    : (e.raise minimum).IsHonest := by
  obtain ⟨hfirst, hothers⟩ := List.forall_mem_cons.mp he
  unfold Entry.IsHonest Entry.alternatives
  rw [List.forall_mem_cons]
  refine ⟨⟨hfirst.lead, ?_, hfirst.trail⟩, hothers⟩
  intro t ht
  cases ht

theorem isHonest_ofFloor (name : Text) (minimum : Version) : (ofFloor name minimum).IsHonest := by
  intro a ha
  rw [List.mem_singleton.mp ha]
  refine ⟨isBlankText_nil, ?_, isBlankText_nil⟩
  intro t ht
  cases ht

end Entry

theorem Segment.Displaces.isHonest {sep : Text} {e : Entry} {back back' : List Segment}
    (h : Displaces sep e back back') (hsep : IsBlankText sep) (he : e.IsHonest)
    (hback : ∀ s ∈ back, s.IsHonest) : ∀ s ∈ back', s.IsHonest := by
  cases h with
  | last _ => exact List.forall_mem_cons.mpr ⟨.entry hsep he isBlankText_nil, hback⟩
  | before lead trail o back =>
    obtain ⟨ho, hback⟩ := List.forall_mem_cons.mp hback
    rw [List.forall_mem_cons, List.forall_mem_cons]
    cases ho with
    | entry hlead ho htrail =>
      exact ⟨.entry hlead he isBlankText_nil, .entry hsep ho htrail, hback⟩

namespace RelationField

theorem isBlankText_leads {ss : List Segment} (h : ∀ s ∈ ss, s.IsHonest)
    : ∀ lead ∈ leads ss, IsBlankText lead := by
  intro lead hlead
  obtain ⟨s, hs, heq⟩ := List.mem_filterMap.mp hlead
  cases h s hs with
  | blank => cases heq
  | entry hl _ _ =>
    cases heq
    exact hl

theorem separator_eq_or_mem (ss : List Segment) : separator ss = " ".toList ∨ separator ss ∈ leads ss := by
  unfold separator
  generalize leads ss = ls
  split
  . split
    . exact .inr (by simp)
    . exact .inl rfl
  . rw [List.getLastD_eq_getLast?]
    cases hlast : ls.getLast? with
    | none => exact .inl rfl
    | some lead => exact .inr (List.mem_of_getLast? hlast)

theorem isBlankText_separator {ss : List Segment} (h : ∀ s ∈ ss, s.IsHonest)
    : IsBlankText (separator ss) := by
  rcases separator_eq_or_mem ss with heq | hmem
  . rw [heq]
    exact isBlankText_space
  . exact isBlankText_leads h _ hmem

theorem isHonest_add {f : RelationField} {e : Entry} (hf : f.IsHonest) (he : e.IsHonest)
    : (f.add e).1.IsHonest := by
  by_cases hne : f.entries = []
  . rw [add_of_no_entries hne]
    intro s hs
    rw [List.mem_singleton.mp hs]
    exact .entry isBlankText_nil he isBlankText_nil
  . obtain ⟨front, back, back', hss, hadd, hdisplaces, _⟩ := exists_add hne e
    have hsep := isBlankText_separator hf
    unfold RelationField.IsHonest at hf ⊢
    rw [hss, List.forall_mem_append] at hf
    rw [hadd, List.forall_mem_append]
    exact ⟨hf.1, hdisplaces.isHonest hsep he hf.2⟩

theorem isHonest_ensure {f : RelationField} {e : Entry} (hf : f.IsHonest) (he : e.IsHonest)
    : (f.ensure e).1.IsHonest := by
  unfold RelationField.ensure
  split
  . exact hf
  . exact isHonest_add hf he

theorem isHonest_raise {name : Text} {minimum : Version} {ss : List Segment}
    (h : ∀ s ∈ ss, s.IsHonest) : ∀ s ∈ (raise name minimum ss).1, s.IsHonest := by
  induction ss with
  | nil => exact h
  | cons s ss ih =>
    obtain ⟨hs, hss⟩ := List.forall_mem_cons.mp h
    cases s with
    | blank t => exact List.forall_mem_cons.mpr ⟨hs, ih hss⟩
    | entry lead e trail =>
      unfold raise
      split
      . split
        . exact h
        . exact List.forall_mem_cons.mpr ⟨hs, ih hss⟩
        . rw [List.forall_mem_cons]
          refine ⟨?_, ih hss⟩
          cases hs with
          | entry hlead he htrail => exact .entry hlead (Entry.isHonest_raise he minimum) htrail
      . exact List.forall_mem_cons.mpr ⟨hs, ih hss⟩

theorem isHonest_ensureVersion {f : RelationField} (hf : f.IsHonest) (name : Text)
    (minimum : Version) : (f.ensureVersion name minimum).1.IsHonest := by
  -- a bound that is no version ends the raising half way, and what is left is honest all the same
  have hraise := @isHonest_raise name minimum f.segments hf
  unfold RelationField.ensureVersion
  rcases h : raise name minimum f.segments with ⟨ss, result⟩
  rw [h] at hraise
  cases result with
  | error err => exact hraise
  | ok r =>
    dsimp
    split
    . exact hraise
    . exact isHonest_add hraise (Entry.isHonest_ofFloor name minimum)

end RelationField

theorem Relation.ge_mem_operators : (">=" : Text) ∈ operators := by decide

section Writable

variable {name : Text} {minimum : Version} (hversion : Relation.IsConstraintVersion minimum.text)
  (hsep : ∀ c, Relation.isSeparator c = true → c ∉ minimum.text)

include hversion hsep

theorem Relation.isWritable_raised {r : Relation} (hr : r.IsWritable)
    : ({ r with constraint := some (r.raisedConstraint minimum) } : Relation).IsWritable := by
  have hop := keptOperators_subset_operators (op_raisedConstraint r minimum)
  have htext := version_raisedConstraint r minimum
  obtain ⟨hgrammatical, hno⟩ := hr
  constructor
  . refine ⟨hgrammatical.name, hgrammatical.archqual, ?_, hgrammatical.archs, hgrammatical.profiles⟩
    intro c hc
    cases hc
    rw [htext]
    exact ⟨hop, hversion⟩
  . intro c hc hmention
    rcases hmention with h | h | h | h
    . exact hno c hc (.inl h)
    . exact hno c hc (.inr (.inl h))
    . obtain ⟨k, hk, h⟩ := h
      cases hk
      rw [htext] at h
      exact hsep c hc h
    . exact hno c hc (.inr (.inr (.inr h)))

theorem Clause.isWritable_raised {c : Clause} (hc : ∀ r ∈ c, r.IsWritable)
    : ∀ r ∈ Clause.raised name minimum c, r.IsWritable := by
  unfold Clause.raised
  split
  . cases c with
    | nil => exact hc
    | cons r rs =>
      rw [List.forall_mem_cons] at hc
      unfold Clause.raiseFirst
      rw [List.forall_mem_cons]
      exact ⟨Relation.isWritable_raised hversion hsep hc.1, hc.2⟩
  . exact hc

theorem Clause.isWritable_ofFloor (hname : Relation.IsName name)
    (hno : ∀ c, Relation.isSeparator c = true → c ∉ name)
    : ∀ r ∈ Clause.ofFloor name minimum, r.IsWritable := by
  intro r hr
  rw [List.mem_singleton.mp hr]
  constructor
  . refine ⟨hname, by simp, ?_, by simp, by simp⟩
    intro c hc
    cases hc
    exact ⟨Relation.ge_mem_operators, hversion⟩
  . intro c hc hmention
    simp only [Relation.Mentions, Option.mem_def, reduceCtorEq, false_and, exists_false,
      Option.some.injEq, exists_eq_left', List.not_mem_nil, or_false, false_or] at hmention
    cases hmention with
    | inl h => exact hno c hc h
    | inr h => exact hsep c hc h

end Writable

namespace RelationField

theorem isWritable_ensure {f : RelationField} (hf : f.IsWritable) {e : Entry} (he : e.IsWritable)
    : (f.ensure e).1.IsWritable := by
  rw [isWritable_iff] at hf ⊢
  rw [(clauses_ensure f e).1]
  split
  . exact hf
  . intro c hc
    cases Clause.mem_add.mp hc with
    | inl hc =>
      rw [hc]
      exact he
    | inr hc => exact hf c hc

theorem isWritable_ensureVersion {f : RelationField} (hf : f.IsWritable) {name t : Text}
    {minimum : Version} (hname : Relation.IsName name)
    (hno : ∀ c, Relation.isSeparator c = true → c ∉ name) (hread : Version.read t = .ok minimum)
    (hversion : Relation.IsConstraintVersion t) : (f.ensureVersion name minimum).1.IsWritable := by
  obtain ⟨htext, hsep⟩ := Version.text_of_read hread
  rw [← htext] at hversion hsep
  rw [isWritable_iff] at hf ⊢
  rw [(clauses_ensureVersion f name minimum).1]
  intro d hd
  rcases Clause.mem_ensureVersion hd with hd | ⟨c, hc, rfl⟩ | ⟨rfl, _⟩
  . exact hf d hd
  . exact Clause.isWritable_raised hversion hsep (hf c hc)
  . exact Clause.isWritable_ofFloor hversion hsep hname hno

end RelationField

namespace FieldEdit

theorem isHonest_apply {f : RelationField} (hf : f.IsHonest) (e : FieldEdit)
    : (e.apply f).1.IsHonest := by
  cases e with
  | entry t =>
    unfold apply
    dsimp
    split
    . exact hf
    . next e he => exact RelationField.isHonest_ensure hf (Entry.isHonest_of_read he)
  | minimum name version =>
    unfold apply RelationField.ensureMinimum
    dsimp
    split
    . exact hf
    . exact RelationField.isHonest_ensureVersion hf name _

theorem isWritable_apply {f : RelationField} (hf : f.IsWritable) {e : FieldEdit} (he : e.IsClean)
    : (e.apply f).1.IsWritable := by
  cases e with
  | entry t =>
    unfold apply
    dsimp
    split
    . exact hf
    . next e hread =>
      exact RelationField.isWritable_ensure hf ((Entry.isWritable_iff_of_read hread).mpr he)
  | minimum name version =>
    unfold apply RelationField.ensureMinimum
    dsimp
    split
    . exact hf
    . next v hread =>
      obtain ⟨hname, hcomma, hbar, hversion⟩ := he
      apply RelationField.isWritable_ensureVersion hf hname _ hread hversion
      intro c hc
      rcases Relation.separator_cases hc with rfl | rfl
      . exact hcomma
      . exact hbar

theorem isClean_of_changed {f : RelationField} {e : FieldEdit} (h : (e.apply f).2 = .ok true)
    (hw : (e.apply f).1.IsWritable) : e.IsClean := by
  cases e with
  | entry t =>
    unfold apply at h hw
    dsimp at h hw
    split at h
    . cases h
    . next e hread =>
      rw [hread] at hw
      dsimp at hw
      rw [RelationField.isWritable_iff, (RelationField.clauses_ensure f e).1] at hw
      rw [(RelationField.clauses_ensure f e).2] at h
      have hnew : e.relations ∉ f.clauses := by simpa using h
      rw [if_neg hnew] at hw
      exact (Entry.isWritable_iff_of_read hread).mp (hw _ (Clause.mem_add.mpr (.inl rfl)))
  | minimum name version =>
    unfold apply RelationField.ensureMinimum at h hw
    dsimp at h hw
    split at h
    . cases h
    . next v hread =>
      rw [hread] at hw
      dsimp at hw
      rw [(RelationField.clauses_ensureVersion f name v).2] at h
      rw [RelationField.isWritable_iff, (RelationField.clauses_ensureVersion f name v).1] at hw
      obtain ⟨r, c, hr, rfl, hc, hversion⟩ := Clause.exists_of_changed h
      obtain ⟨hgrammatical, hno⟩ := hw _ hr r (by simp)
      refine ⟨hgrammatical.name, ?_, ?_, ?_⟩
      . intro hmem
        exact hno ',' (by decide) (.inl hmem)
      . intro hmem
        exact hno '|' (by decide) (.inl hmem)
      . have := (hgrammatical.constraint c hc).2
        rwa [hversion, (Version.text_of_read hread).1] at this

end FieldEdit

namespace RelationField

theorem isHonest_edit {f : RelationField} (hf : f.IsHonest) (es : List FieldEdit)
    : (f.edit es).IsHonest := by
  induction es generalizing f with
  | nil => exact hf
  | cons e es ih => exact ih (FieldEdit.isHonest_apply hf e)

theorem isWritable_edit {f : RelationField} (hf : f.IsWritable) {es : List FieldEdit}
    (hes : ∀ e ∈ es, e.IsClean) : (f.edit es).IsWritable := by
  induction es generalizing f with
  | nil => exact hf
  | cons e es ih =>
    rw [List.forall_mem_cons] at hes
    exact ih (FieldEdit.isWritable_apply hf hes.1) hes.2

theorem ensure_after_reload {f g : RelationField} {e : Entry} (hg : g.clauses = (f.ensure e).1.clauses)
    : g.ensure e = (g, false) := by
  have hmem : e.relations ∈ g.clauses := by
    rw [hg, (clauses_ensure f e).1]
    split
    . assumption
    . exact Clause.mem_add.mpr (.inl rfl)
  have hany : g.entries.any (·.same e) = true := by
    obtain ⟨o, ho, heq⟩ := List.mem_map.mp hmem
    exact List.any_eq_true.mpr ⟨o, ho, by simp [Entry.same, heq]⟩
  unfold RelationField.ensure
  rw [if_pos hany]

/-- After any run of edits a field is read back as the entries that it has if and only if all of those
can be written. This is so after clean edits, and a change that follows them has to be clean as well. -/
theorem readsBack_edit (t : Text) (f : RelationField) (h : RelationField.read t = .ok f)
    (es : List FieldEdit)
    : ((f.edit es).ReadsBack ↔ (f.edit es).IsWritable) ∧
      ((∀ e ∈ es, e.IsClean) →
        (f.edit es).ReadsBack ∧
        (∀ e : FieldEdit, (e.apply (f.edit es)).2 = .ok true →
          ((e.apply (f.edit es)).1.ReadsBack ↔ e.IsClean)) ∧
        ∀ u e, Entry.read u = .ok e → ',' ∉ u →
          ∃ g, RelationField.read ((f.edit es).ensure e).1.text = .ok g ∧
            g.clauses = ((f.edit es).ensure e).1.clauses ∧ g.ensure e = (g, false)) := by
  have hhonest := isHonest_edit (isHonest_of_read h) es
  refine ⟨readsBack_iff hhonest, ?_⟩
  intro hes
  have hw := isWritable_edit (isWritable_of_read h) hes
  refine ⟨(readsBack_iff hhonest).mpr hw, ?_, ?_⟩
  . intro e he
    rw [readsBack_iff (FieldEdit.isHonest_apply hhonest e)]
    constructor
    . intro hw'
      exact FieldEdit.isClean_of_changed he hw'
    . intro hclean
      exact FieldEdit.isWritable_apply hw hclean
  . intro u e hread hu
    have happly : (FieldEdit.entry u).apply (f.edit es) =
        (((f.edit es).ensure e).1, .ok ((f.edit es).ensure e).2) := by
      simp only [FieldEdit.apply, hread]
    have hw' := FieldEdit.isWritable_apply hw (e := .entry u) hu
    rw [happly] at hw'
    have hhonest' := isHonest_ensure hhonest (Entry.isHonest_of_read hread)
    obtain ⟨g, hg, hclauses⟩ := (readsBack_iff hhonest').mpr hw'
    exact ⟨g, hg, hclauses, ensure_after_reload hclauses⟩

theorem not_readsBack_comma
    : RelationField.read [] = .ok {} ∧
      ((FieldEdit.entry "foo [a,b]").apply {}).2 = .ok true ∧
      ¬ ((FieldEdit.entry "foo [a,b]").apply {}).1.ReadsBack := by
  have hread : RelationField.read [] = .ok {} := rfl
  have hchanged : ((FieldEdit.entry "foo [a,b]").apply {}).2 = .ok true := by decide +kernel
  refine ⟨hread, hchanged, ?_⟩
  intro h
  have hedit := (readsBack_edit [] {} hread []).2 (by simp)
  have hclean := (hedit.2.1 (.entry "foo [a,b]") hchanged).mp h
  exact hclean (by decide)

end RelationField

end DebianPackaging
