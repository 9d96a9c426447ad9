import DebianPackaging.Proofs.Relation.Meaning

/-!
This module contains the texts that are accepted: as relations those without blanks around them that the
grammar spells, each of them for one relation only, and as fields those in which such texts stand between
the bars of every segment that is not blank.
-/

namespace DebianPackaging

open Text

namespace Relation

/-- How a relation is spelled by a text without blanks around it: the name, then the qualifier, the
constraint and the architectures if there are some, then the groups of build profiles. -/
inductive SpellsTrimmed : Relation → Text → Prop where
  | mk {r : Relation} {q c a p : Text} (hname : IsName r.name) (hq : SpellsArchqual r.archqual q)
    (hc : SpellsConstraint r.constraint c) (ha : SpellsArchs r.archs a)
    (hp : SpellsProfiles r.profiles p) : SpellsTrimmed r (r.name ++ (q ++ (c ++ (a ++ p))))

theorem spellsTrimmed_iff {r : Relation} {t : Text} (ht : IsTrimmed t)
    : SpellsTrimmed r t ↔ Spells r t := by
  constructor
  . intro h
    cases h with
    | mk hname hq hc ha hp =>
      have := Spells.mk hname hq hc ha hp (e := []) rfl
      rwa [List.append_nil] at this
  . intro h
    cases h with
    | @mk q c a p e hname hq hc ha hp he =>
      unfold isEnd at he
      rw [Bool.or_eq_true, beq_iff_eq, beq_iff_eq] at he
      rcases he with rfl | rfl
      . rw [List.append_nil]
        exact .mk hname hq hc ha hp
      . have hfinish := ht.finish '\n' (by simp)
        contradiction

theorem SpellsTrimmed.read {r : Relation} {t : Text} (h : SpellsTrimmed r t) (ht : IsTrimmed t)
    : SpelledRelation.read t = .ok ⟨r, some t⟩ :=
  SpelledRelation.read_of_spells ((spellsTrimmed_iff ht).mp h)

theorem SpellsTrimmed.unique {r r' : Relation} {t : Text} (h : SpellsTrimmed r t)
    (h' : SpellsTrimmed r' t) (ht : IsTrimmed t) : r = r' := by
  have hread := h.read ht
  rw [h'.read ht] at hread
  cases hread
  rfl

theorem exists_read_iff {t : Text} (ht : IsTrimmed t)
    : (∃ s, SpelledRelation.read t = .ok s) ↔ ∃ r, SpellsTrimmed r t := by
  constructor
  . rintro ⟨s, hs⟩
    exact ⟨s.relation, (spellsTrimmed_iff ht).mpr (SpelledRelation.spells_of_read hs)⟩
  . rintro ⟨r, hr⟩
    exact ⟨_, hr.read ht⟩

end Relation

theorem Entry.exists_means_iff {t : Text}
    : (∃ c, Means t c) ↔
        ∀ part ∈ t.splitOn '|', ¬ IsBlankText part ∧ ∃ r, Relation.SpellsTrimmed r (trim part) := by
  unfold Means
  rw [exists_forall₂_iff]
  apply forall₂_congr
  intro part _
  simp only [← Relation.spellsTrimmed_iff (isTrimmed_trim part)]
  constructor
  . rintro ⟨r, hr⟩
    refine ⟨?_, r, hr⟩
    intro hblank
    rw [Relation.spellsTrimmed_iff (isTrimmed_trim part), trim_eq_nil_iff.mpr hblank] at hr
    exact Relation.not_spells_nil r hr
  . rintro ⟨_, hr⟩
    exact hr

namespace RelationField

theorem exists_read_iff {t : Text}
    : (∃ f, RelationField.read t = .ok f) ↔
        ∀ part ∈ t.splitOn ',', ¬ IsBlankText part → ∃ c, Entry.Means part c := by
  have hread : (∃ f, RelationField.read t = .ok f) ↔ ∃ cs, Means t cs := by
    constructor
    . rintro ⟨f, hf⟩
      exact ⟨_, means_of_read hf⟩
    . rintro ⟨cs, hcs⟩
      obtain ⟨f, hf, _⟩ := exists_read_of_means hcs
      exact ⟨f, hf⟩
  rw [hread]
  unfold Means parts
  rw [exists_forall₂_iff]
  apply forall_congr'
  intro part
  rw [List.mem_filter, ← trim_eq_nil_iff, and_imp]
  simp

/-- A text is accepted as a relation if and only if it spells one, which is the only one that it spells and
the one that it is read as. A text is accepted as a field if and only if each of its segments but the blank
ones has texts that spell relations, and nothing else, between its bars. -/
theorem accepted_iff_spelled (t field : Text) (ht : IsTrimmed t)
    : ((∃ s, SpelledRelation.read t = .ok s) ↔ ∃ r, Relation.SpellsTrimmed r t) ∧
        (∀ r, Relation.SpellsTrimmed r t → SpelledRelation.read t = .ok ⟨r, some t⟩) ∧
        (∀ r r', Relation.SpellsTrimmed r t → Relation.SpellsTrimmed r' t → r = r') ∧
        ((∃ f, RelationField.read field = .ok f) ↔
          ∀ part ∈ field.splitOn ',', ¬ IsBlankText part →
            ∀ alternative ∈ part.splitOn '|', ¬ IsBlankText alternative ∧
              ∃ r, Relation.SpellsTrimmed r (trim alternative)) := by
  refine ⟨Relation.exists_read_iff ht, ?_, ?_, ?_⟩
  . intro r hr
    exact hr.read ht
  . intro r r' hr hr'
    exact hr.unique hr' ht
  . rw [exists_read_iff]
    simp only [Entry.exists_means_iff]

theorem accepted_iff_spelled_parts
    : ∃ t field : Text, t = "b:any (>= 1) [x !y] <p q> <r>" ∧ field = "a, b | , c" ∧ IsTrimmed t ∧
        (∃ r, Relation.SpellsTrimmed r t) ∧ ¬ ∃ f, RelationField.read field = .ok f := by
  have ht : IsTrimmed "b:any (>= 1) [x !y] <p q> <r>" := by
    constructor
    . exact (stopsAt_cons ..).mpr (by decide)
    . exact (stopsAt_cons ..).mpr (by decide)
  obtain ⟨hrelation, _, _, hfield⟩ := accepted_iff_spelled _ "a, b | , c" ht
  refine ⟨_, _, rfl, rfl, ht, ?_, ?_⟩
  . apply hrelation.mp
    let r : Relation := {
      name := "b", archqual := some "any", constraint := some ⟨">=", "1"⟩, archs := ["x", "!y"]
      profiles := [["p", "q"], ["r"]] }
    exact ⟨⟨r, some "b:any (>= 1) [x !y] <p q> <r>"⟩, by decide +kernel⟩
  . rw [hfield]
    intro h
    have hpart : ¬ IsBlankText " b | " := by
      intro hblank
      exact absurd (hblank 'b' (by decide)) (by decide)
    obtain ⟨hblank, _⟩ := h " b | " (by decide) hpart " " (by decide)
    exact hblank isBlankText_space

end RelationField

end DebianPackaging
