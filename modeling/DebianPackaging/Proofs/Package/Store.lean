import DebianPackaging.Package.Metadata
import DebianPackaging.Proofs.Control.Store
import DebianPackaging.Proofs.Manifest.BuildDepends

/-!
This module contains what storing the build dependencies does to the metadata of a package, be it a
control file or a manifest.
-/

namespace DebianPackaging

namespace PackageMetadata

def ReturnsText (f : RelationField) : PackageMetadata → Prop
  | control d => ∀ p, d.sourceParagraph? = some p → p.Keeps buildDependsField f.text
  | manifest _ => True

instance (f : RelationField) : (p : PackageMetadata) → Decidable (p.ReturnsText f)
  | control d =>
    match h : d.sourceParagraph? with
    | some p => decidable_of_iff (p.Keeps buildDependsField f.text) (by simp [ReturnsText, h])
    | none => .isTrue (by simp [ReturnsText, h])
  | manifest _ => .isTrue trivial

def ReturnsPlanned (p : PackageMetadata) (plan : Except Error (Option RelationField)) : Prop :=
  ∀ f, plan = .ok (some f) → p.ReturnsText f

instance (p : PackageMetadata) : (plan : Except Error (Option RelationField)) →
    Decidable (p.ReturnsPlanned plan)
  | .ok (some f) => decidable_of_iff (p.ReturnsText f) (by simp [ReturnsPlanned])
  | .ok none => .isTrue (by simp [ReturnsPlanned])
  | .error _ => .isTrue (by simp [ReturnsPlanned])

def KeepsEntries (f : RelationField) : PackageMetadata → Prop
  | control _ => True
  | manifest m => m.KeepsEntries f

def HoldsTexts : PackageMetadata → Prop
  | control _ => True
  | manifest m => m.HoldsTexts Manifest.buildDependsKey

/-- The package `q` is the package `p` with other build dependencies. Those are read back up to the ones
whose place an item of another kind has taken. -/
structure Stores (p : PackageMetadata) (f : RelationField) (q : PackageMetadata) : Prop where
  setRelations : p.setRelations buildDependsField f = .ok (q, true)
  relations : ∃ g, q.relations buildDependsField = .ok g ∧ g.clauses.Sublist f.clauses ∧
    (g.clauses = f.clauses ↔ p.KeepsEntries f)
  holdsTexts : p.KeepsEntries f → q.HoldsTexts
  other : ∀ other, sameName buildDependsField other = false → q.relations other = p.relations other

theorem HoldsTexts.keepsEntries {p : PackageMetadata} (h : p.HoldsTexts) (f : RelationField)
    : p.KeepsEntries f := by
  cases p with
  | control d => trivial
  | manifest m =>
    intro old new _ _
    exact Manifest.HoldsTexts.keepsTexts h new

theorem relations_control_eq_ok {d : ControlDocument} {field : Text} {f : RelationField}
    : (control d).relations field = .ok f ↔
        ∃ p, d.sourceParagraph? = some p ∧ p.relations field = .ok f := by
  unfold relations ControlDocument.source
  dsimp
  cases d.sourceParagraph? with
  | none =>
    constructor
    . intro h
      cases h
    . rintro ⟨p, hp, _⟩
      cases hp
  | some p =>
    constructor
    . intro h
      exact ⟨p, rfl, h⟩
    . rintro ⟨q, hq, h⟩
      cases hq
      exact h

theorem relations_control {d : ControlDocument} {p : Paragraph} (h : d.sourceParagraph? = some p)
    (field : Text) : (control d).relations field = p.relations field := by
  unfold relations ControlDocument.source
  dsimp
  rw [h]
  rfl

theorem setRelations_control {d : ControlDocument} {p q : Paragraph} {field : Text} {f : RelationField}
    {changed : Bool} (h : d.sourceParagraph? = some p) (hset : p.setRelations field f = .ok (q, changed))
    : (control d).setRelations field f = .ok (control (d.setParagraph 0 q), changed) := by
  unfold setRelations ControlDocument.editSource ControlDocument.source
  dsimp
  rw [h]
  dsimp [bind, Except.bind]
  rw [hset]
  rfl

theorem relations_manifest (m : Manifest)
    : (manifest m).relations buildDependsField = m.buildDepends := rfl

theorem relations_manifest_of_other {m : Manifest} {other : Text}
    (h : sameName buildDependsField other = false) : (manifest m).relations other = .ok {} := by
  have hother : isBuildDepends other = false := by
    unfold isBuildDepends
    rw [← Bool.not_eq_true, sameName_iff] at h ⊢
    exact Ne.symm h
  unfold relations
  dsimp
  rw [hother]
  rfl

theorem isHonest_of_relations {p : PackageMetadata} {f : RelationField}
    (h : p.relations buildDependsField = .ok f) : f.IsHonest ∧ f.IsWritable := by
  cases p with
  | control d =>
    obtain ⟨q, _, hq⟩ := relations_control_eq_ok.mp h
    exact Paragraph.isHonest_of_relations hq
  | manifest m =>
    rw [relations_manifest] at h
    exact Manifest.isHonest_of_buildDepends h

theorem exists_stores {p : PackageMetadata} {f₀ f : RelationField}
    (h : p.relations buildDependsField = .ok f₀) (hf : f.IsHonest) (hw : f.IsWritable)
    (hchanged : f.clauses ≠ f₀.clauses) (hne : f.clauses ≠ []) (hreturns : p.ReturnsText f)
    : ∃ q, p.Stores f q := by
  cases p with
  | control d =>
    obtain ⟨p, hp, hf₀⟩ := relations_control_eq_ok.mp h
    obtain ⟨q, g, hset, hg, hclauses, hother⟩ :=
      Paragraph.exists_setRelations hf₀ hf hw hchanged hne (hreturns p hp)
    -- the paragraph is still that of the source package, as its name does not change
    have hsource : q.has "Source" = true := by
      unfold Paragraph.has
      rw [hother "Source" (by decide +kernel)]
      exact (ControlDocument.exists_paragraphs_of_sourceParagraph? hp).1
    have hq := ControlDocument.sourceParagraph?_setParagraph hp hsource
    refine ⟨control (d.setParagraph 0 q), setRelations_control hp hset, ⟨g, ?_, ?_, ?_⟩, ?_, ?_⟩
    . rw [relations_control hq]
      exact hg
    . rw [hclauses]
    . exact iff_of_true hclauses trivial
    . intro _
      trivial
    . intro other hsame
      rw [relations_control hq, relations_control hp]
      exact Paragraph.relations_congr (hother other hsame)
  | manifest m =>
    rw [relations_manifest] at h
    obtain ⟨m', g, hset, hg, hsublist, hiff, htexts⟩ := Manifest.exists_setBuildDepends h hf hw
    obtain ⟨hf₀, hw₀⟩ := Manifest.isHonest_of_buildDepends h
    have htext : f₀.text ≠ f.text := Ne.symm (RelationField.text_ne hf hw hf₀ hw₀ hchanged)
    refine ⟨manifest m', ?_, ⟨g, hg, hsublist, hiff⟩, htexts, ?_⟩
    . unfold setRelations
      dsimp
      rw [if_pos (by decide +kernel), h]
      dsimp [bind, Except.bind]
      rw [if_neg htext, hset]
      rfl
    . intro other hsame
      rw [relations_manifest_of_other hsame, relations_manifest_of_other hsame]

theorem ensureBuildDependency_eq {p : PackageMetadata} {f : RelationField}
    (h : p.relations buildDependsField = .ok f) {e : Entry}
    (htext : (f.ensure e).2 = true → (f.ensure e).1.text ≠ f.text)
    : p.ensureBuildDependency e =
        if (f.ensure e).2 then p.setRelations buildDependsField (f.ensure e).1 else .ok (p, false) := by
  rcases hensure : f.ensure e with ⟨g, changed⟩
  rw [hensure] at htext
  dsimp at htext ⊢
  cases p with
  | control d =>
    obtain ⟨p, hp, hf⟩ := relations_control_eq_ok.mp h
    obtain ⟨_, ps, hps⟩ := ControlDocument.exists_paragraphs_of_sourceParagraph? hp
    unfold ensureBuildDependency ControlDocument.ensureBuildDependency setRelations
      ControlDocument.editSource ControlDocument.source
    dsimp
    rw [hp]
    dsimp [bind, Except.bind]
    rw [hf]
    dsimp
    rw [hensure]
    cases changed with
    | true => rfl
    | false =>
      dsimp [pure, Except.pure]
      rw [ControlDocument.setParagraph_self hps]
  | manifest m =>
    rw [relations_manifest] at h
    unfold ensureBuildDependency Manifest.ensureBuildDependency setRelations
    dsimp [bind, Except.bind]
    rw [h]
    dsimp
    rw [hensure]
    cases changed with
    | true =>
      have hfield : isBuildDepends buildDependsField = true := by decide +kernel
      rw [hfield, if_neg (Ne.symm (htext rfl))]
      dsimp
      cases m.setBuildDepends g <;> rfl
    | false => rfl

theorem exists_manifest_of_setRelations {m : Manifest} {field : Text} {f : RelationField}
    {q : PackageMetadata} {changed : Bool} (h : (manifest m).setRelations field f = .ok (q, changed))
    : ∃ m', q = manifest m' := by
  unfold setRelations at h
  dsimp at h
  split at h
  . obtain ⟨g, _, h⟩ := bind_eq_ok.mp h
    split at h
    . cases h
      exact ⟨m, rfl⟩
    . obtain ⟨m', _, h⟩ := bind_eq_ok.mp h
      cases h
      exact ⟨m', rfl⟩
  . split at h
    . cases h
      exact ⟨m, rfl⟩
    . cases h

theorem exists_manifest_of_ensureBuildDependency {m : Manifest} {e : Entry} {q : PackageMetadata}
    {changed : Bool} (h : (manifest m).ensureBuildDependency e = .ok (q, changed))
    : ∃ m', q = manifest m' := by
  unfold ensureBuildDependency at h
  obtain ⟨⟨m', _⟩, _, h⟩ := bind_eq_ok.mp h
  cases h
  exact ⟨m', rfl⟩

end PackageMetadata

end DebianPackaging
