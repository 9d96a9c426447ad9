import DebianPackaging.Proofs.Relation.Meaning

/-!
This module contains the reading of fields that were put together and not read. A spelling is honest if
it spells the relation that it stands for; a field with honest spellings is read back as the relations
that it was made of if and only if each of them is writable.
-/

namespace DebianPackaging

open Text

def SpelledRelation.IsHonest (s : SpelledRelation) : Prop :=
  ∀ t ∈ s.spelling, Relation.Spells s.relation t ∧ IsTrimmed t

structure Alternative.IsHonest (a : Alternative) : Prop where
  lead : IsBlankText a.lead
  spelled : a.spelled.IsHonest
  trail : IsBlankText a.trail

def Entry.IsHonest (e : Entry) : Prop := ∀ a ∈ e.alternatives, a.IsHonest

def Entry.IsWritable (e : Entry) : Prop := ∀ r ∈ e.relations, r.IsWritable

inductive Segment.IsHonest : Segment → Prop where
  | blank {t : Text} (ht : IsBlankText t) : IsHonest (.blank t)
  | entry {lead trail : Text} {e : Entry} (hlead : IsBlankText lead) (he : e.IsHonest)
    (htrail : IsBlankText trail) : IsHonest (.entry lead e trail)

def RelationField.IsHonest (f : RelationField) : Prop := ∀ s ∈ f.segments, s.IsHonest

def RelationField.IsWritable (f : RelationField) : Prop := ∀ e ∈ f.entries, e.IsWritable

def RelationField.ReadsBack (f : RelationField) : Prop :=
  ∃ g, RelationField.read f.text = .ok g ∧ g.clauses = f.clauses

namespace SpelledRelation

theorem spells_text {s : SpelledRelation} (hs : s.IsHonest) (hr : s.relation.IsGrammatical)
    : Relation.Spells s.relation s.text ∧ IsTrimmed s.text := by
  unfold SpelledRelation.text
  cases h : s.spelling with
  | none => exact ⟨Relation.spells_render hr, Relation.isTrimmed_render hr⟩
  | some t => exact hs t h

theorem isHonest_of_read {t : Text} {s : SpelledRelation} (h : SpelledRelation.read t = .ok s)
    (ht : IsTrimmed t) : s.IsHonest := by
  unfold SpelledRelation.read at h
  split at h
  . next r hr =>
    cases h
    intro u hu
    cases hu
    exact ⟨Relation.spells_of_read? hr, ht⟩
  . cases h

end SpelledRelation

namespace Alternative

theorem spells_trim_text {a : Alternative} (ha : a.IsHonest) (hr : a.spelled.relation.IsGrammatical)
    : Relation.Spells a.spelled.relation (trim a.text) := by
  obtain ⟨hspells, htrim⟩ := SpelledRelation.spells_text ha.spelled hr
  unfold Alternative.text
  rw [List.append_assoc, trim_blank_append_blank ha.lead ha.trail, htrim.trim_eq]
  exact hspells

theorem separator_not_mem_text {a : Alternative} (ha : a.IsHonest) (hr : a.spelled.relation.IsWritable)
    {c : Char} (hc : Relation.isSeparator c = true) : c ∉ a.text := by
  obtain ⟨hspells, _⟩ := SpelledRelation.spells_text ha.spelled hr.grammatical
  unfold Alternative.text
  simp only [List.mem_append, not_or]
  refine ⟨⟨Relation.separator_not_mem_blank hc ha.lead, ?_⟩,
    Relation.separator_not_mem_blank hc ha.trail⟩
  rw [Relation.separator_mem_iff hc hspells]
  exact hr.noSeparator c hc

theorem isHonest_of_read {whole part : Text} {a : Alternative}
    (h : Entry.readAlternative whole part = .ok a) : a.IsHonest := by
  unfold Entry.readAlternative at h
  split at h
  . cases h
  . next htrim =>
    obtain ⟨s, hs, h⟩ := bind_eq_ok.mp h
    cases h
    exact ⟨isBlankText_lead part, SpelledRelation.isHonest_of_read hs (isTrimmed_trim part),
      isBlankText_trail _⟩

end Alternative

namespace Entry

theorem relation_mem {e : Entry} {a : Alternative} (ha : a ∈ e.alternatives)
    : a.spelled.relation ∈ e.relations := by
  unfold Entry.relations
  exact List.mem_map_of_mem ha

theorem splitOn_text {e : Entry} (he : e.IsHonest) (hw : e.IsWritable)
    : e.text.splitOn '|' = e.alternatives.map (·.text) := by
  unfold Entry.text Text.join
  apply List.splitOn_intercalate
  . intro t ht
    obtain ⟨a, ha, rfl⟩ := List.mem_map.mp ht
    exact Alternative.separator_not_mem_text (he a ha) (hw _ (relation_mem ha)) (by decide)
  . unfold Entry.alternatives
    simp

theorem means_text {e : Entry} (he : e.IsHonest) (hw : e.IsWritable) : Means e.text e.relations := by
  unfold Means Entry.relations
  rw [splitOn_text he hw, List.forall₂_map_left_iff, List.forall₂_map_right_iff, List.forall₂_same]
  intro a ha
  exact Alternative.spells_trim_text (he a ha) (hw _ (relation_mem ha)).grammatical

theorem trim_text_ne_nil {e : Entry} (he : e.IsHonest) (hw : e.IsWritable) : trim e.text ≠ [] := by
  intro h
  have hmeans := means_trim_iff.mpr (means_text he hw)
  rw [h] at hmeans
  obtain ⟨r, _, hr, _⟩ := List.forall₂_cons_left_iff.mp hmeans
  exact Relation.not_spells_nil r hr

theorem comma_not_mem_text {e : Entry} (he : e.IsHonest) (hw : e.IsWritable) : ',' ∉ e.text := by
  intro h
  cases mem_join h with
  | inl h => simp at h
  | inr h =>
    obtain ⟨t, ht, h⟩ := h
    obtain ⟨a, ha, rfl⟩ := List.mem_map.mp ht
    exact Alternative.separator_not_mem_text (he a ha) (hw _ (relation_mem ha)) (by decide) h

theorem isHonest_of_read {t : Text} {e : Entry} (h : Entry.read t = .ok e) : e.IsHonest := by
  intro a ha
  obtain ⟨part, _, hread⟩ := exists_of_mem_forall₂ (alternatives_of_read h) ha
  exact Alternative.isHonest_of_read hread

theorem isWritable_iff_of_read {t : Text} {e : Entry} (h : Entry.read t = .ok e)
    : e.IsWritable ↔ ',' ∉ t :=
  isWritable_iff_of_means (means_of_read h)

end Entry

namespace Segment

theorem comma_not_mem_text {s : Segment} (hs : s.IsHonest) (hw : ∀ e ∈ s.content?, e.IsWritable)
    : ',' ∉ s.text := by
  cases hs with
  | blank ht => exact Relation.separator_not_mem_blank (by decide) ht
  | entry hlead he htrail =>
    unfold Segment.text
    simp only [List.mem_append, not_or]
    refine ⟨⟨Relation.separator_not_mem_blank (by decide) hlead, ?_⟩,
      Relation.separator_not_mem_blank (by decide) htrail⟩
    exact Entry.comma_not_mem_text he (hw _ rfl)

theorem trim_text {s : Segment} (hs : s.IsHonest)
    : trim s.text = (s.content?.map fun e => trim e.text).getD [] := by
  cases hs with
  | blank ht => exact trim_eq_nil_iff.mpr ht
  | entry hlead he htrail =>
    unfold Segment.text
    dsimp
    rw [List.append_assoc]
    exact trim_blank_append_blank hlead htrail

theorem IsHonest.of_content {s : Segment} {e : Entry} (hs : s.IsHonest) (h : s.content? = some e)
    : e.IsHonest := by
  cases hs with
  | blank => cases h
  | entry _ he _ =>
    cases h
    exact he

theorem isHonest_of_read {t : Text} {s : Segment} (h : Segment.read t = .ok s) : s.IsHonest := by
  unfold Segment.read at h
  split at h
  . next ht =>
    cases h
    exact .blank (trim_eq_nil_iff.mp ht)
  . obtain ⟨e, he, h⟩ := bind_eq_ok.mp h
    cases h
    exact .entry (isBlankText_lead t) (Entry.isHonest_of_read he) (isBlankText_trail _)

end Segment

namespace RelationField

theorem mem_entries {f : RelationField} {e : Entry}
    : e ∈ f.entries ↔ ∃ s ∈ f.segments, s.content? = some e := by
  unfold RelationField.entries
  exact List.mem_filterMap

theorem isHonest_of_mem_entries {f : RelationField} (hf : f.IsHonest) {e : Entry} (he : e ∈ f.entries)
    : e.IsHonest := by
  obtain ⟨s, hs, hcontent⟩ := mem_entries.mp he
  exact (hf s hs).of_content hcontent

theorem isWritable_segments {f : RelationField} (h : f.IsWritable)
    : ∀ s ∈ f.segments, ∀ e ∈ s.content?, e.IsWritable := by
  intro s hs e he
  exact h e (mem_entries.mpr ⟨s, hs, he⟩)

theorem means_texts {ss : List Segment} (hs : ∀ s ∈ ss, s.IsHonest)
    (hw : ∀ s ∈ ss, ∀ e ∈ s.content?, e.IsWritable)
    : List.Forall₂ Entry.Means ((ss.map (·.text)).filter fun part => trim part ≠ [])
        ((ss.filterMap (·.content?)).map (·.relations)) := by
  induction ss with
  | nil => exact .nil
  | cons s ss ih =>
    specialize ih (fun s hs' => hs s (by simp [hs'])) (fun s hs' => hw s (by simp [hs']))
    have htrim := Segment.trim_text (hs s (by simp))
    rw [List.map_cons]
    cases hcontent : s.content? with
    | none =>
      rw [hcontent] at htrim
      rw [List.filter_cons_of_neg (by simpa using htrim), List.filterMap_cons_none hcontent]
      exact ih
    | some e =>
      rw [hcontent] at htrim
      have hwe := hw s (by simp) e hcontent
      have he := (hs s (by simp)).of_content hcontent
      have hne := Entry.trim_text_ne_nil he hwe
      rw [List.filter_cons_of_pos (by simpa [htrim] using hne), List.filterMap_cons_some hcontent,
        List.map_cons]
      refine .cons ?_ ih
      rw [← Entry.means_trim_iff, htrim]
      exact Entry.means_trim_iff.mpr (Entry.means_text he hwe)

theorem means_text {f : RelationField} (hf : f.IsHonest) (hw : f.IsWritable)
    : Means f.text f.clauses := by
  have hw' := isWritable_segments hw
  have hmeans := means_texts hf hw'
  unfold Means parts RelationField.text Text.join
  by_cases hnil : f.segments = []
  . unfold clauses RelationField.entries
    rw [hnil]
    exact .nil
  . have hsplit : ((",":Text).intercalate (f.segments.map (·.text))).splitOn ',' =
        f.segments.map (·.text) := by
      apply List.splitOn_intercalate
      . intro t ht
        obtain ⟨s, hs, rfl⟩ := List.mem_map.mp ht
        exact Segment.comma_not_mem_text (hf s hs) (hw' s hs)
      . simpa using hnil
    rw [hsplit]
    exact hmeans

theorem not_mem_text_of_no_entries {f : RelationField} (hf : f.IsHonest) (h : f.entries = []) {c : Char}
    (hblank : isBlank c = false) (hcomma : c ≠ ',') : c ∉ f.text := by
  intro hmem
  cases mem_join hmem with
  | inl hmem => exact hcomma (by simpa using hmem)
  | inr hmem =>
    obtain ⟨t, ht, hmem⟩ := hmem
    obtain ⟨s, hs, rfl⟩ := List.mem_map.mp ht
    cases hf s hs with
    | blank hblank' => exact not_mem_of_isBlankText hblank' hblank hmem
    | @entry lead trail e =>
      have he : e ∈ f.entries := mem_entries.mpr ⟨_, hs, rfl⟩
      rw [h] at he
      cases he

theorem text_ne {f g : RelationField} (hf : f.IsHonest) (hfw : f.IsWritable) (hg : g.IsHonest)
    (hgw : g.IsWritable) (h : f.clauses ≠ g.clauses) : f.text ≠ g.text := by
  intro htext
  have hmeans := means_text hf hfw
  rw [htext] at hmeans
  exact h (means_unique hmeans (means_text hg hgw))

theorem isHonest_of_read {t : Text} {f : RelationField} (h : RelationField.read t = .ok f)
    : f.IsHonest := by
  intro s hs
  obtain ⟨_, rfl⟩ | ⟨_, hss⟩ := segments_of_read h
  . cases hs
  . obtain ⟨part, _, hread⟩ := exists_of_mem_forall₂ hss hs
    exact Segment.isHonest_of_read hread

theorem isWritable_iff {f : RelationField} : f.IsWritable ↔ ∀ c ∈ f.clauses, ∀ r ∈ c, r.IsWritable := by
  unfold RelationField.IsWritable Entry.IsWritable clauses
  simp

theorem isWritable_of_read {t : Text} {f : RelationField} (h : RelationField.read t = .ok f)
    : f.IsWritable :=
  isWritable_iff.mpr (isWritable_of_means (means_of_read h))

theorem readsBack_iff {f : RelationField} (hf : f.IsHonest) : f.ReadsBack ↔ f.IsWritable := by
  unfold ReadsBack
  constructor
  . rintro ⟨g, hg, hclauses⟩
    rw [isWritable_iff, ← hclauses, ← isWritable_iff]
    exact isWritable_of_read hg
  . intro hw
    exact exists_read_of_means (means_text hf hw)

end RelationField

end DebianPackaging
