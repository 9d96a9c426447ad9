import DebianPackaging.Proofs.Debhelper.Plan

/-!
This module contains the proof that a package that is made to build with some version of debhelper does so
afterwards, that nothing else in its build dependencies changes, and that a failure leaves it as it is. In
a manifest this holds as long as no item of another kind takes the place of a text.
-/

namespace DebianPackaging

namespace PackageMetadata

theorem ensureDebhelper_of_clauses {p : PackageMetadata} {minimum : Text} {version : Version}
    {f : RelationField} (hread : Version.read minimum = .ok version)
    (hfields : p.checkFields partialBuildDependsFields = .ok ())
    (hf : p.relations buildDependsField = .ok f)
    (h : Clause.ensureDebhelper version f.clauses = .ok none)
    : p.ensureDebhelper minimum = .ok (p, false) := by
  have hplan : f.ensureDebhelper version = .ok none := by
    rw [← RelationField.clauses_ensureDebhelper] at h
    obtain ⟨result, hresult, hnone⟩ := map_eq_ok.mp h
    rw [Option.map_eq_none_iff] at hnone
    rw [hresult, hnone]
  apply ensureDebhelper_of_none
  exact planDebhelper_eq_ok.mpr ⟨version, f, hread, hfields, hf, hplan⟩

theorem Stores.ensuresDebhelper_iff {p q : PackageMetadata} {minimum : Text} {version : Version}
    {f h : RelationField} (hread : Version.read minimum = .ok version)
    (hfields : p.checkFields partialBuildDependsFields = .ok ())
    (hplan : f.ensureDebhelper version = .ok (some h)) (hstores : p.Stores h q)
    : ∃ g, q.relations buildDependsField = .ok g ∧
        (Clause.EnsuresDebhelper version f.clauses g.clauses true ∧
            q.ensureDebhelper minimum = .ok (q, false) ↔ p.KeepsEntries h) := by
  have hclauses := RelationField.clauses_of_ensureDebhelper hplan
  obtain ⟨hensures, hagain⟩ := Clause.ensuresDebhelper_of_some (Version.read_text hread) hclauses
  obtain ⟨g, hg, hsublist, hkeeps⟩ := hstores.relations
  refine ⟨g, hg, ?_⟩
  constructor
  . rintro ⟨hensures', _⟩
    exact hkeeps.mp (Clause.eq_of_sublist_of_ensuresDebhelper hclauses hsublist hensures')
  . intro hkept
    have heq := hkeeps.mpr hkept
    rw [heq]
    refine ⟨hensures, ensureDebhelper_of_clauses hread ?_ hg ?_⟩
    . rw [checkFields_of_other hstores.other]
      exact hfields
    . rw [heq]
      exact hagain

/-- An attempt that fails has failed before anything is stored. One that succeeds does what is asked, and
a second one then does nothing, if and only if what it stores is kept. -/
theorem ensuresDebhelper_iff_keepsEntries (p : PackageMetadata) (minimum : Text)
    (hversion : Relation.IsConstraintVersion minimum)
    (hreturns : p.ReturnsPlanned (p.planDebhelper minimum))
    : (∀ err, p.ensureDebhelper minimum = .error err → p.planDebhelper minimum = .error err) ∧
      ∀ q changed, p.ensureDebhelper minimum = .ok (q, changed) →
        ∃ version f g, Version.read minimum = .ok version ∧ p.relations buildDependsField = .ok f ∧
          q.relations buildDependsField = .ok g ∧
          (Clause.EnsuresDebhelper version f.clauses g.clauses changed ∧
              q.ensureDebhelper minimum = .ok (q, false) ↔
            ∀ h, p.planDebhelper minimum = .ok (some h) → p.KeepsEntries h) := by
  cases hplan : p.planDebhelper minimum with
  | error err =>
    rw [ensureDebhelper_of_error hplan]
    constructor
    . intro err' h
      cases h
      rfl
    . intro q changed h
      cases h
  | ok result =>
    obtain ⟨version, f, hread, hfields, hf, hresult⟩ := planDebhelper_eq_ok.mp hplan
    cases result with
    | none =>
      have hensure := ensureDebhelper_of_none hplan
      have hclauses := RelationField.clauses_of_ensureDebhelper hresult
      rw [hensure]
      constructor
      . intro err h
        cases h
      . intro q changed h
        cases h
        refine ⟨version, f, f, hread, hf, hf, ?_⟩
        apply iff_of_true
        . exact ⟨Clause.ensuresDebhelper_of_none hclauses, hensure⟩
        . intro h hh
          cases hh
    | some h =>
      obtain ⟨q, hq, hstores⟩ := exists_ensureDebhelper_of_some hversion hplan (hreturns h hplan)
      obtain ⟨g, hg, hiff⟩ := hstores.ensuresDebhelper_iff hread hfields hresult
      rw [hq]
      constructor
      . intro err h'
        cases h'
      . intro q' changed h'
        cases h'
        refine ⟨version, f, g, hread, hf, hg, ?_⟩
        rw [hiff]
        constructor
        . intro hkept h' hh'
          cases hh'
          exact hkept
        . intro hkept
          exact hkept h rfl

/-- A control file is asked for debhelper once and for all. In a manifest a number that is shown like a
build dependency takes the place of that one. -/
theorem not_keepsEntries_number
    : (∃ d q version f g,
        ControlDocument.readLines? ["Source: x\n", "Build-Depends: foo\n"] = some d ∧
        (control d).ensureDebhelper "10" = .ok (q, true) ∧
        (control d).relations buildDependsField = .ok f ∧ q.relations buildDependsField = .ok g ∧
        Clause.EnsuresDebhelper version f.clauses g.clauses true ∧
        q.ensureDebhelper "10" = .ok (q, false)) ∧
      ∃ m h, Manifest.read "debian/debcargo.toml" "[source]\nbuild_depends = [1, \"1\"]\n" none = .ok m ∧
        (manifest m).planDebhelper "10" = .ok (some h) ∧ ¬ (manifest m).KeepsEntries h := by
  have hversion : Relation.IsConstraintVersion "10" :=
    .mk (c := '1') rfl (List.all_eq_true.mp (by decide))
  constructor
  . have hrun : (ControlDocument.readLines? ["Source: x\n", "Build-Depends: foo\n"]).map (fun d =>
        (decide ((control d).ReturnsPlanned ((control d).planDebhelper "10")),
          ((control d).ensureDebhelper "10").map (·.2))) = some (true, .ok true) := by
      decide +kernel
    obtain ⟨d, hd, hrun⟩ := Option.map_eq_some_iff.mp hrun
    obtain ⟨hreturns, hchanged⟩ := Prod.mk.inj hrun
    obtain ⟨⟨q, _⟩, hq, rfl⟩ := map_eq_ok.mp hchanged
    obtain ⟨version, f, g, _, hf, hg, hiff⟩ :=
      (ensuresDebhelper_iff_keepsEntries (control d) "10" hversion (of_decide_eq_true hreturns)).2 q _ hq
    exact ⟨d, q, version, f, g, hd, hq, hf, hg, hiff.mpr fun _ _ => trivial⟩
  . have hrun : (do
        let m ← Manifest.read "debian/debcargo.toml" "[source]\nbuild_depends = [1, \"1\"]\n" none
        let (q, changed) ← (manifest m).ensureDebhelper "10"
        let f ← (manifest m).relations buildDependsField
        let g ← q.relations buildDependsField
        return (f.clauses, g.clauses, changed)) =
        .ok ([[{ name := "1" }]], [[{ name := "debhelper", constraint := some ⟨">=", "10"⟩ }]], true) := by
      decide +kernel
    obtain ⟨m, hm, hrun⟩ := bind_eq_ok.mp hrun
    obtain ⟨⟨q, changed⟩, hq, hrun⟩ := bind_eq_ok.mp hrun
    obtain ⟨f, hf, hrun⟩ := bind_eq_ok.mp hrun
    obtain ⟨g, hg, hrun⟩ := bind_eq_ok.mp hrun
    obtain ⟨hfoo, hgoo, rfl⟩ : f.clauses = [[{ name := "1" }]] ∧
        g.clauses = [[{ name := "debhelper", constraint := some ⟨">=", "10"⟩ }]] ∧ changed = true := by
      simpa using Except.ok.inj hrun
    obtain ⟨version, f', g', _, hf', hg', hiff⟩ :=
      (ensuresDebhelper_iff_keepsEntries (manifest m) "10" hversion fun _ _ => trivial).2 q true hq
    rw [hf] at hf'
    cases hf'
    rw [hg] at hg'
    cases hg'
    by_contra hnone
    have hkeeps : ∀ h, (manifest m).planDebhelper "10" = .ok (some h) → (manifest m).KeepsEntries h := by
      intro h hh
      by_contra hh'
      exact hnone ⟨m, h, hm, hh, hh'⟩
    have hmem := (hiff.mpr hkeeps).1.mem (c := [{ name := "1" }]) (by simp [hfoo]) (by decide)
    rw [hgoo] at hmem
    exact absurd hmem (by decide)

end PackageMetadata

end DebianPackaging
