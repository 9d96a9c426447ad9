import DebianPackaging.Control.Relations
import DebianPackaging.Proofs.Outcome
import DebianPackaging.Proofs.Relation.ReadBack

/-!
This module contains what storing a relationship field does to a paragraph and to the control file that
the paragraph is part of: the field is read back if the paragraph returns what was stored, and no other
field changes.
-/

namespace DebianPackaging

open Text

theorem sameName_iff {a b : Text} : sameName a b = true ↔ a.lower = b.lower := by
  unfold sameName
  rw [beq_iff_eq]

namespace Paragraph

/-- A paragraph takes a value and returns it up to the blanks around it. -/
def Keeps (p : Paragraph) (name value : Text) : Prop :=
  ∃ q, p.setKeepingComments name value = .ok q ∧ (q.get? name).map trim = some (trim value)

instance (p : Paragraph) (name value : Text) : Decidable (p.Keeps name value) :=
  match h : p.setKeepingComments name value with
  | .ok q =>
    if hget : (q.get? name).map trim = some (trim value) then .isTrue ⟨q, h, hget⟩
    else .isFalse fun ⟨q', hq', hget'⟩ => by
      rw [h] at hq'
      cases hq'
      exact hget hget'
  | .error err => .isFalse fun ⟨q, hq, _⟩ => by
    rw [h] at hq
    cases hq

theorem find?_put_of_other {p : Paragraph} {new : ControlField} {other : Text}
    (h : sameName new.name other = false) : (p.put new).find? other = p.find? other := by
  have hsame : ∀ f : ControlField, sameName f.name new.name = true → sameName f.name other = false := by
    intro f hf
    rw [← Bool.not_eq_true, sameName_iff] at h ⊢
    rw [sameName_iff.mp hf]
    exact h
  unfold put find?
  split
  . dsimp
    induction p.fields with
    | nil => rfl
    | cons f fs ih =>
      rw [List.map_cons, List.find?_cons, List.find?_cons, ih]
      by_cases hf : sameName f.name new.name = true
      . rw [if_pos hf, hsame f hf]
        dsimp
        rw [h]
      . rw [if_neg hf]
  . dsimp
    rw [List.find?_append, List.find?_singleton]
    dsimp
    rw [h]
    simp

theorem sameName_of_find? {p : Paragraph} {name : Text} {f : ControlField} (h : p.find? name = some f)
    : sameName f.name name = true := by
  have := List.find?_some h
  exact this

theorem eq_put_of_setRaw {p q : Paragraph} {name raw : Text} (h : p.setRaw name raw = .ok q)
    : ∃ f, sameName f.name name = true ∧ q = p.put f := by
  -- a field that is there already keeps its own spelling of the name
  have hname : sameName (((p.find? name).map (·.name)).getD name) name = true := by
    cases hfind : p.find? name with
    | none => exact sameName_iff.mpr rfl
    | some f => exact sameName_of_find? hfind
  unfold setRaw at h
  dsimp at h
  generalize ((p.find? name).map (·.name)).getD name = name' at h hname
  split at h
  . cases h
  . split at h
    . cases h
    . split at h
      . cases h
      . split at h
        . cases h
        . next f hf =>
          cases h
          refine ⟨f, ?_, rfl⟩
          rw [sameName_iff] at hname ⊢
          rw [← hname]
          exact sameName_iff.mp (sameName_of_find? hf)

theorem eq_put_of_setKeepingComments {p q : Paragraph} {name value : Text}
    (h : p.setKeepingComments name value = .ok q) : ∃ f, sameName f.name name = true ∧ q = p.put f := by
  unfold setKeepingComments at h
  split at h
  . exact eq_put_of_setRaw h
  . unfold setValue at h
    split at h
    . exact eq_put_of_setRaw h
    . exact eq_put_of_setRaw h

theorem find?_setKeepingComments_of_other {p q : Paragraph} {name value other : Text}
    (h : p.setKeepingComments name value = .ok q) (hother : sameName name other = false)
    : q.find? other = p.find? other := by
  obtain ⟨f, hf, rfl⟩ := eq_put_of_setKeepingComments h
  apply find?_put_of_other
  rw [← Bool.not_eq_true, sameName_iff] at hother ⊢
  rw [sameName_iff.mp hf]
  exact hother

theorem isHonest_of_relations {p : Paragraph} {name : Text} {f : RelationField}
    (h : p.relations name = .ok f) : f.IsHonest ∧ f.IsWritable :=
  ⟨RelationField.isHonest_of_read h, RelationField.isWritable_of_read h⟩

theorem exists_setRelations {p : Paragraph} {name : Text} {f₀ f : RelationField}
    (h : p.relations name = .ok f₀) (hf : f.IsHonest) (hw : f.IsWritable)
    (hchanged : f.clauses ≠ f₀.clauses) (hne : f.clauses ≠ []) (hkeeps : p.Keeps name f.text)
    : ∃ q g, p.setRelations name f = .ok (q, true) ∧ q.relations name = .ok g ∧
        g.clauses = f.clauses ∧
        ∀ other, sameName name other = false → q.find? other = p.find? other := by
  obtain ⟨q, hq, hget⟩ := hkeeps
  have hmeans := RelationField.means_text hf hw
  have hentries : f.entries.isEmpty = false := by
    rw [List.isEmpty_eq_false_iff]
    intro hnil
    unfold RelationField.clauses at hne
    rw [hnil] at hne
    exact hne rfl
  -- the paragraph is not left alone: its text would mean both fields
  have hold : p.get? name ≠ some f.text := by
    intro hget
    unfold relations at h
    rw [hget] at h
    exact hchanged (RelationField.means_unique hmeans (RelationField.means_of_read h))
  obtain ⟨value, hvalue, htrim⟩ := Option.map_eq_some_iff.mp hget
  rw [← RelationField.means_trim_iff, ← htrim, RelationField.means_trim_iff] at hmeans
  obtain ⟨g, hg, hclauses⟩ := RelationField.exists_read_of_means hmeans
  refine ⟨q, g, ?_, ?_, hclauses, ?_⟩
  . unfold setRelations
    dsimp
    rw [hentries, if_neg (by simp), if_neg hold, hq]
    rfl
  . unfold relations
    rw [hvalue]
    exact hg
  . intro other hother
    exact find?_setKeepingComments_of_other hq hother

theorem relations_congr {p q : Paragraph} {name : Text} (h : q.find? name = p.find? name)
    : q.relations name = p.relations name := by
  unfold relations get?
  rw [h]

end Paragraph

namespace ControlDocument

theorem paragraphs_setParagraph {d : ControlDocument} {p : Paragraph} {ps : List Paragraph}
    (h : d.paragraphs = p :: ps) (q : Paragraph) : (d.setParagraph 0 q).paragraphs = q :: ps := by
  obtain ⟨parts⟩ := d
  unfold paragraphs at h ⊢
  unfold setParagraph
  dsimp at h ⊢
  induction parts with
  | nil => cases h
  | cons part parts ih =>
    cases part with
    | paragraph p' =>
      cases h
      rfl
    | blank line => exact ih h
    | comment lines => exact ih h

theorem setParagraph_self {d : ControlDocument} {p : Paragraph} {ps : List Paragraph}
    (h : d.paragraphs = p :: ps) : d.setParagraph 0 p = d := by
  obtain ⟨parts⟩ := d
  unfold paragraphs at h
  unfold setParagraph
  congr 1
  dsimp at h ⊢
  induction parts with
  | nil => rfl
  | cons part parts ih =>
    cases part with
    | paragraph p' =>
      cases h
      rfl
    | blank line => exact congrArg (_ :: ·) (ih h)
    | comment lines => exact congrArg (_ :: ·) (ih h)

theorem exists_paragraphs_of_sourceParagraph? {d : ControlDocument} {p : Paragraph}
    (h : d.sourceParagraph? = some p) : p.has "Source" = true ∧ ∃ ps, d.paragraphs = p :: ps := by
  unfold sourceParagraph? at h
  split at h
  . next ps hps =>
    split at h
    . next hhas =>
      cases h
      exact ⟨hhas, ps, hps⟩
    . cases h
  . cases h

theorem sourceParagraph?_setParagraph {d : ControlDocument} {p q : Paragraph}
    (h : d.sourceParagraph? = some p) (hq : q.has "Source" = true)
    : (d.setParagraph 0 q).sourceParagraph? = some q := by
  obtain ⟨_, ps, hps⟩ := exists_paragraphs_of_sourceParagraph? h
  unfold sourceParagraph?
  rw [paragraphs_setParagraph hps q]
  exact if_pos hq

end ControlDocument

end DebianPackaging
