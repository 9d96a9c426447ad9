import DebianPackaging.Proofs.Debhelper.Clause
import DebianPackaging.Proofs.Package.Store
import DebianPackaging.Proofs.Relation.Edit

/-!
This module contains the two halves of making a package build with some version of debhelper: everything
that can be refused is decided on a field that was read, and only then the field is stored.
-/

namespace DebianPackaging

namespace RelationField

def ensureDebhelper (f : RelationField) (minimum : Version) : Except Error (Option RelationField) := do
  if ← compatSuffices minimum f.entries then return none
  let (f, result) := f.ensureVersion debhelperPackage minimum
  return if ← result then some f else none

theorem compatSuffices_entries (minimum : Version) (es : List Entry)
    : compatSuffices minimum es = Clause.compatSuffices minimum (es.map (·.relations)) := by
  induction es with
  | nil => rfl
  | cons e es ih =>
    rw [List.map_cons]
    unfold compatSuffices Clause.compatSuffices
    rw [← Entry.names_eq_map_relations, ih]
    -- an entry has no alternatives if and only if its clause is a single relation
    split
    . rfl
    . obtain ⟨first, others⟩ := e
      cases others with
      | nil => rfl
      | cons other others => rfl

theorem clauses_ensureDebhelper (f : RelationField) (minimum : Version)
    : (f.ensureDebhelper minimum).map (Option.map clauses) =
        Clause.ensureDebhelper minimum f.clauses := by
  obtain ⟨hclauses, hresult⟩ := clauses_ensureVersion f debhelperPackage minimum
  unfold ensureDebhelper Clause.ensureDebhelper
  rw [compatSuffices_entries]
  unfold clauses at *
  cases Clause.compatSuffices minimum (f.entries.map (·.relations)) with
  | error err => rfl
  | ok enough =>
    cases enough with
    | true => rfl
    | false =>
      dsimp [bind, Except.bind]
      rw [← hresult, ← hclauses]
      cases (f.ensureVersion debhelperPackage minimum).2 with
      | error err => rfl
      | ok changed => cases changed <;> rfl

theorem clauses_of_ensureDebhelper {f : RelationField} {minimum : Version}
    {result : Option RelationField} (h : f.ensureDebhelper minimum = .ok result)
    : Clause.ensureDebhelper minimum f.clauses = .ok (result.map clauses) := by
  rw [← clauses_ensureDebhelper, h]
  rfl

theorem eq_of_ensureDebhelper {f g : RelationField} {minimum : Version}
    (h : f.ensureDebhelper minimum = .ok (some g))
    : g = (f.ensureVersion debhelperPackage minimum).1 := by
  unfold ensureDebhelper at h
  obtain ⟨enough, _, h⟩ := bind_eq_ok.mp h
  cases enough with
  | true => cases h
  | false =>
    obtain ⟨changed, _, h⟩ := bind_eq_ok.mp h
    cases changed with
    | true =>
      cases h
      rfl
    | false => cases h

end RelationField

theorem isName_debhelperPackage : Relation.IsName debhelperPackage :=
  .plain (c := 'd') rfl (List.all_eq_true.mp (by decide))

namespace PackageMetadata

/-- The build dependencies that a package gets when it is made to build with at least the version of
debhelper that is written `minimum`. There are none if nothing has to change. -/
def planDebhelper (minimum : Text) (p : PackageMetadata) : Except Error (Option RelationField) := do
  let version ← Version.read minimum
  p.checkFields partialBuildDependsFields
  (← p.relations buildDependsField).ensureDebhelper version

def storePlanned (p : PackageMetadata) : Option RelationField → Except Error (PackageMetadata × Bool)
  | none => .ok (p, false)
  | some f => do return ((← p.setRelations buildDependsField f).1, true)

theorem Stores.storePlanned {p q : PackageMetadata} {f : RelationField} (h : p.Stores f q)
    : p.storePlanned (some f) = .ok (q, true) := by
  unfold PackageMetadata.storePlanned
  dsimp
  rw [h.setRelations]
  rfl

theorem ensureDebhelper_eq (p : PackageMetadata) (minimum : Text)
    : p.ensureDebhelper minimum = p.planDebhelper minimum >>= p.storePlanned := by
  unfold ensureDebhelper planDebhelper RelationField.ensureDebhelper
  cases Version.read minimum with
  | error err => rfl
  | ok version =>
    cases p.checkFields partialBuildDependsFields with
    | error err => rfl
    | ok _ =>
      cases p.relations buildDependsField with
      | error err => rfl
      | ok f =>
        dsimp [bind, Except.bind]
        cases RelationField.compatSuffices version f.entries with
        | error err => rfl
        | ok enough =>
          cases enough with
          | true => rfl
          | false =>
            rcases f.ensureVersion debhelperPackage version with ⟨g, result⟩
            cases result with
            | error err => rfl
            | ok changed => cases changed <;> rfl

theorem planDebhelper_eq_ok {p : PackageMetadata} {minimum : Text} {result : Option RelationField}
    : p.planDebhelper minimum = .ok result ↔
        ∃ version f, Version.read minimum = .ok version ∧
          p.checkFields partialBuildDependsFields = .ok () ∧ p.relations buildDependsField = .ok f ∧
          f.ensureDebhelper version = .ok result := by
  unfold planDebhelper
  rw [bind_eq_ok]
  constructor
  . rintro ⟨version, hversion, h⟩
    obtain ⟨_, hfields, h⟩ := bind_eq_ok.mp h
    obtain ⟨f, hf, h⟩ := bind_eq_ok.mp h
    exact ⟨version, f, hversion, hfields, hf, h⟩
  . rintro ⟨version, f, hversion, hfields, hf, h⟩
    refine ⟨version, hversion, ?_⟩
    exact bind_eq_ok.mpr ⟨(), hfields, bind_eq_ok.mpr ⟨f, hf, h⟩⟩

theorem checkFields_congr {p q : PackageMetadata} {fields : List Text}
    (h : ∀ field ∈ fields, q.relations field = p.relations field)
    : q.checkFields fields = p.checkFields fields := by
  induction fields with
  | nil => rfl
  | cons field fields ih =>
    rw [List.forall_mem_cons] at h
    unfold checkFields
    rw [h.1, ih h.2]

theorem checkFields_of_missing {d : ControlDocument} {p : Paragraph} (hp : d.sourceParagraph? = some p)
    {fields : List Text} (h : ∀ field ∈ fields, p.has field = false)
    : (control d).checkFields fields = .ok () := by
  induction fields with
  | nil => rfl
  | cons field fields ih =>
    rw [List.forall_mem_cons] at h
    have hget : p.get? field = none := by
      unfold Paragraph.get?
      rw [Option.map_eq_none_iff, ← Option.isNone_iff_eq_none]
      simpa [Paragraph.has] using h.1
    have hnone : (control d).relations field = .ok {} := by
      rw [relations_control hp]
      unfold Paragraph.relations
      rw [hget]
      rfl
    unfold checkFields
    rw [hnone]
    exact ih h.2

theorem checkFields_of_other {p q : PackageMetadata}
    (h : ∀ other, sameName buildDependsField other = false → q.relations other = p.relations other)
    : q.checkFields partialBuildDependsFields = p.checkFields partialBuildDependsFields := by
  have hother : ∀ field ∈ partialBuildDependsFields, sameName buildDependsField field = false := by
    decide +kernel
  apply checkFields_congr
  intro field hfield
  exact h field (hother field hfield)

theorem storable_of_ensureDebhelper {p : PackageMetadata} {minimum : Text} {version : Version}
    {f g : RelationField} (hread : Version.read minimum = .ok version)
    (hversion : Relation.IsConstraintVersion minimum) (hf : p.relations buildDependsField = .ok f)
    (h : f.ensureDebhelper version = .ok (some g))
    : g.IsHonest ∧ g.IsWritable ∧ g.clauses ≠ f.clauses ∧ g.clauses ≠ [] := by
  obtain ⟨hhonest, hwritable⟩ := isHonest_of_relations hf
  obtain ⟨hensures, _⟩ :=
    Clause.ensuresDebhelper_of_some (Version.read_text hread) (RelationField.clauses_of_ensureDebhelper h)
  have hno : ∀ c, Relation.isSeparator c = true → c ∉ debhelperPackage := by
    intro c hc
    rcases Relation.separator_cases hc with rfl | rfl <;> decide
  refine ⟨?_, ?_, hensures.changed_iff.mp rfl, ?_⟩
  . rw [RelationField.eq_of_ensureDebhelper h]
    exact RelationField.isHonest_ensureVersion hhonest debhelperPackage version
  . rw [RelationField.eq_of_ensureDebhelper h]
    exact RelationField.isWritable_ensureVersion hwritable isName_debhelperPackage hno hread hversion
  . rcases hensures.enough with ⟨hfalse, _⟩ | ⟨⟨c, hc, _⟩, _⟩
    . cases hfalse
    . exact List.ne_nil_of_mem hc

theorem ensureDebhelper_of_error {p : PackageMetadata} {minimum : Text} {err : Error}
    (h : p.planDebhelper minimum = .error err) : p.ensureDebhelper minimum = .error err := by
  rw [ensureDebhelper_eq, h]
  rfl

theorem ensureDebhelper_of_none {p : PackageMetadata} {minimum : Text}
    (h : p.planDebhelper minimum = .ok none) : p.ensureDebhelper minimum = .ok (p, false) := by
  rw [ensureDebhelper_eq, h]
  rfl

theorem exists_ensureDebhelper_of_some {p : PackageMetadata} {minimum : Text} {g : RelationField}
    (hversion : Relation.IsConstraintVersion minimum) (h : p.planDebhelper minimum = .ok (some g))
    (hreturns : p.ReturnsText g) : ∃ q, p.ensureDebhelper minimum = .ok (q, true) ∧ p.Stores g q := by
  obtain ⟨version, f, hread, _, hf, hplan⟩ := planDebhelper_eq_ok.mp h
  obtain ⟨hhonest, hwritable, hchanged, hne⟩ := storable_of_ensureDebhelper hread hversion hf hplan
  obtain ⟨q, hq⟩ := exists_stores hf hhonest hwritable hchanged hne hreturns
  refine ⟨q, ?_, hq⟩
  rw [ensureDebhelper_eq, h]
  exact hq.storePlanned

end PackageMetadata

end DebianPackaging
