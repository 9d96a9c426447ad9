import DebianPackaging.Proofs.Debhelper.Plan

/-!
This module contains runs of requests for build dependencies. What a run answers depends on the clauses of
the build dependencies alone, so a control file and a manifest that start with the same clauses answer
alike and go through the same clauses.
-/

namespace DebianPackaging

inductive BuildRequest where
  | entry (text : Text)
  | debhelper (minimum : Text)

namespace BuildRequest

def perform (p : PackageMetadata) : BuildRequest → Except Error (PackageMetadata × Bool)
  | entry t => do p.ensureBuildDependency (← Entry.read t)
  | debhelper minimum => p.ensureDebhelper minimum

/-- The package behind a request, and the answer. A request that is refused leaves the package as it is. -/
def step (p : PackageMetadata) (r : BuildRequest) : PackageMetadata × Except Error Bool :=
  match r.perform p with
  | .ok (q, changed) => (q, .ok changed)
  | .error err => (p, .error err)

/-- What a request brings in can be written into a field, on one line. -/
def IsClean : BuildRequest → Prop
  | entry t => ',' ∉ t ∧ '\n' ∉ t
  | debhelper minimum => Relation.IsConstraintVersion minimum

def plan (p : PackageMetadata) : BuildRequest → Except Error (Option RelationField)
  | entry t => do
    let e ← Entry.read t
    let (f, changed) := (← p.relations buildDependsField).ensure e
    return if changed then some f else none
  | debhelper minimum => p.planDebhelper minimum

def outcome (cs : List Clause) : BuildRequest → Except Error (Option (List Clause))
  | entry t => do
    let e ← Entry.read t
    return if e.relations ∈ cs then none else some (Clause.add cs e.relations)
  | debhelper minimum => do Clause.ensureDebhelper (← Version.read minimum) cs

def advance (cs : List Clause) (r : BuildRequest) : List Clause × Except Error Bool :=
  match r.outcome cs with
  | .ok (some ds) => (ds, .ok true)
  | .ok none => (cs, .ok false)
  | .error err => (cs, .error err)

end BuildRequest

namespace PackageMetadata

def trace (p : PackageMetadata) : List BuildRequest → List (Except Error Bool × Except Error (List Clause))
  | [] => []
  | r :: rs =>
    let (q, answer) := r.step p
    (answer, (q.relations buildDependsField).map (·.clauses)) :: q.trace rs

def ReturnsAll (p : PackageMetadata) : List BuildRequest → Prop
  | [] => True
  | r :: rs => p.ReturnsPlanned (r.plan p) ∧ (r.step p).1.ReturnsAll rs

instance (p : PackageMetadata) : (rs : List BuildRequest) → Decidable (p.ReturnsAll rs)
  | [] => .isTrue trivial
  | r :: rs =>
    have := (r.step p).1.instDecidableReturnsAll rs
    inferInstanceAs (Decidable (_ ∧ _))

/-- The build dependencies of a package have the clauses, debhelper is in no other field, and nothing that
is no text stands among them. -/
structure Follows (p : PackageMetadata) (cs : List Clause) : Prop where
  relations : ∃ f, p.relations buildDependsField = .ok f ∧ f.clauses = cs
  fields : p.checkFields partialBuildDependsFields = .ok ()
  holdsTexts : p.HoldsTexts

theorem Follows.of_stores {p q : PackageMetadata} {cs : List Clause} {f : RelationField}
    (h : p.Follows cs) (hq : p.Stores f q) : q.Follows f.clauses := by
  have hkeeps := h.holdsTexts.keepsEntries f
  obtain ⟨g, hg, _, hiff⟩ := hq.relations
  refine ⟨⟨g, hg, hiff.mpr hkeeps⟩, ?_, hq.holdsTexts hkeeps⟩
  rw [checkFields_of_other hq.other]
  exact h.fields

end PackageMetadata

namespace BuildRequest

variable {p : PackageMetadata}

theorem plan_entry_eq_ok {t : Text} {result : Option RelationField}
    : (entry t).plan p = .ok result ↔
        ∃ e f, Entry.read t = .ok e ∧ p.relations buildDependsField = .ok f ∧
          (if (f.ensure e).2 then some (f.ensure e).1 else none) = result := by
  unfold plan
  dsimp
  rw [bind_eq_ok]
  constructor
  . rintro ⟨e, he, h⟩
    obtain ⟨f, hf, h⟩ := bind_eq_ok.mp h
    exact ⟨e, f, he, hf, Except.ok.inj h⟩
  . rintro ⟨e, f, he, hf, rfl⟩
    refine ⟨e, he, ?_⟩
    exact bind_eq_ok.mpr ⟨f, hf, rfl⟩

theorem perform_of_none {r : BuildRequest} (h : r.plan p = .ok none) : r.perform p = .ok (p, false) := by
  cases r with
  | entry t =>
    obtain ⟨e, f, he, hf, hnone⟩ := plan_entry_eq_ok.mp h
    have hchanged : (f.ensure e).2 = false := by
      rw [← Bool.not_eq_true]
      intro hchanged
      rw [if_pos hchanged] at hnone
      cases hnone
    unfold perform
    dsimp
    rw [he]
    dsimp [bind, Except.bind]
    rw [PackageMetadata.ensureBuildDependency_eq hf, hchanged]
    . rfl
    . intro htrue
      rw [hchanged] at htrue
      cases htrue
  | debhelper minimum => exact PackageMetadata.ensureDebhelper_of_none h

theorem plan_entry_eq_some {t : Text} {g : RelationField} (h : (entry t).plan p = .ok (some g))
    : ∃ e f, Entry.read t = .ok e ∧ p.relations buildDependsField = .ok f ∧ f.ensure e = (g, true) := by
  obtain ⟨e, f, he, hf, hsome⟩ := plan_entry_eq_ok.mp h
  refine ⟨e, f, he, hf, ?_⟩
  rcases hensure : f.ensure e with ⟨g', changed⟩
  rw [hensure] at hsome
  cases changed with
  | true =>
    cases hsome
    rfl
  | false => cases hsome

theorem storable_of_plan {r : BuildRequest} (hr : r.IsClean) {g : RelationField}
    (h : r.plan p = .ok (some g))
    : ∃ f, p.relations buildDependsField = .ok f ∧ g.IsHonest ∧ g.IsWritable ∧ g.clauses ≠ f.clauses ∧
        g.clauses ≠ [] := by
  cases r with
  | entry t =>
    obtain ⟨e, f, he, hf, hensure⟩ := plan_entry_eq_some h
    obtain ⟨hhonest, hwritable⟩ := PackageMetadata.isHonest_of_relations hf
    have hhonest' := RelationField.isHonest_ensure hhonest (Entry.isHonest_of_read he)
    have hwritable' := RelationField.isWritable_ensure hwritable ((Entry.isWritable_iff_of_read he).mpr hr.1)
    obtain ⟨hclauses, hnew⟩ := RelationField.clauses_ensure f e
    rw [hensure] at hclauses hnew hhonest' hwritable'
    have hmem : e.relations ∉ f.clauses := of_decide_eq_true hnew.symm
    rw [if_neg hmem] at hclauses
    dsimp at hclauses
    have hmem' : e.relations ∈ g.clauses := by
      rw [hclauses]
      exact Clause.mem_add.mpr (.inl rfl)
    refine ⟨f, hf, hhonest', hwritable', ?_, List.ne_nil_of_mem hmem'⟩
    intro heq
    rw [heq] at hmem'
    exact hmem hmem'
  | debhelper minimum =>
    obtain ⟨version, f, hread, _, hf, hplan⟩ := PackageMetadata.planDebhelper_eq_ok.mp h
    exact ⟨f, hf, PackageMetadata.storable_of_ensureDebhelper hread hr hf hplan⟩

theorem exists_perform_of_some {r : BuildRequest} (hr : r.IsClean) {g : RelationField}
    (h : r.plan p = .ok (some g)) (hreturns : p.ReturnsText g)
    : ∃ q, r.perform p = .ok (q, true) ∧ p.Stores g q := by
  cases r with
  | entry t =>
    obtain ⟨f, hf, hhonest, hwritable, hchanged, hne⟩ := storable_of_plan hr h
    obtain ⟨q, hq⟩ := PackageMetadata.exists_stores hf hhonest hwritable hchanged hne hreturns
    obtain ⟨e, f', he, hf', hensure⟩ := plan_entry_eq_some h
    rw [hf] at hf'
    cases hf'
    obtain ⟨hhonest₀, hwritable₀⟩ := PackageMetadata.isHonest_of_relations hf
    refine ⟨q, ?_, hq⟩
    unfold perform
    dsimp
    rw [he]
    dsimp [bind, Except.bind]
    rw [PackageMetadata.ensureBuildDependency_eq hf, hensure]
    . exact hq.setRelations
    . intro _
      rw [hensure]
      exact RelationField.text_ne hhonest hwritable hhonest₀ hwritable₀ hchanged
  | debhelper minimum => exact PackageMetadata.exists_ensureDebhelper_of_some hr h hreturns

section Follows

variable {cs : List Clause} (hp : p.Follows cs)

include hp

theorem clauses_plan (r : BuildRequest)
    : (r.plan p).map (Option.map RelationField.clauses) = r.outcome cs := by
  obtain ⟨f, hf, rfl⟩ := hp.relations
  cases r with
  | entry t =>
    unfold plan outcome
    dsimp
    cases Entry.read t with
    | error err => rfl
    | ok e =>
      obtain ⟨hclauses, hchanged⟩ := RelationField.clauses_ensure f e
      dsimp [bind, Except.bind]
      rw [hf]
      dsimp
      rw [hchanged]
      by_cases hmem : e.relations ∈ f.clauses
      . simp [hmem, pure, Except.pure, Except.map]
      . rw [if_neg hmem] at hclauses
        simp [hmem, hclauses, pure, Except.pure, Except.map]
  | debhelper minimum =>
    unfold plan outcome PackageMetadata.planDebhelper
    dsimp
    cases Version.read minimum with
    | error err => rfl
    | ok version =>
      dsimp [bind, Except.bind]
      rw [hp.fields, hf]
      exact RelationField.clauses_ensureDebhelper f version

theorem perform_of_error {r : BuildRequest} {err : Error} (h : r.plan p = .error err)
    : r.perform p = .error err := by
  obtain ⟨f, hf, _⟩ := hp.relations
  cases r with
  | entry t =>
    unfold plan at h
    unfold perform
    dsimp at h ⊢
    cases he : Entry.read t with
    | error err' =>
      rw [he] at h
      cases h
      rfl
    | ok e =>
      rw [he, hf] at h
      cases h
  | debhelper minimum => exact PackageMetadata.ensureDebhelper_of_error h

theorem follows_step {r : BuildRequest} (hr : r.IsClean) (hreturns : p.ReturnsPlanned (r.plan p))
    : (r.step p).1.Follows (r.advance cs).1 ∧ (r.step p).2 = (r.advance cs).2 := by
  have hplan := clauses_plan hp r
  unfold step advance
  rw [← hplan]
  cases h : r.plan p with
  | error err =>
    rw [perform_of_error hp h]
    exact ⟨hp, rfl⟩
  | ok result =>
    cases result with
    | none =>
      rw [perform_of_none h]
      exact ⟨hp, rfl⟩
    | some f =>
      obtain ⟨q, hq, hstores⟩ := exists_perform_of_some hr h (hreturns f h)
      rw [hq]
      exact ⟨hp.of_stores hstores, rfl⟩

end Follows

theorem exists_step_manifest (m : Manifest) (r : BuildRequest)
    : ∃ m', (r.step (.manifest m)).1 = .manifest m' := by
  unfold step
  split
  . next q changed h =>
    cases r with
    | entry t =>
      obtain ⟨e, _, h⟩ := bind_eq_ok.mp h
      exact PackageMetadata.exists_manifest_of_ensureBuildDependency h
    | debhelper minimum =>
      unfold perform at h
      dsimp at h
      rw [PackageMetadata.ensureDebhelper_eq] at h
      obtain ⟨result, _, h⟩ := bind_eq_ok.mp h
      cases result with
      | none =>
        cases h
        exact ⟨m, rfl⟩
      | some f =>
        obtain ⟨⟨q', _⟩, hset, h⟩ := bind_eq_ok.mp h
        cases h
        exact PackageMetadata.exists_manifest_of_setRelations hset
  . exact ⟨m, rfl⟩

def clauseTrace (cs : List Clause) : List BuildRequest → List (Except Error Bool × List Clause)
  | [] => []
  | r :: rs =>
    let (ds, answer) := r.advance cs
    (answer, ds) :: clauseTrace ds rs

end BuildRequest

namespace PackageMetadata

theorem returnsAll_manifest (m : Manifest) (rs : List BuildRequest) : (manifest m).ReturnsAll rs := by
  induction rs generalizing m with
  | nil => trivial
  | cons r rs ih =>
    obtain ⟨m', hm'⟩ := BuildRequest.exists_step_manifest m r
    refine ⟨fun _ _ => trivial, ?_⟩
    rw [hm']
    exact ih m'

theorem trace_eq_clauseTrace {p : PackageMetadata} {cs : List Clause} (hp : p.Follows cs)
    {rs : List BuildRequest} (hrs : ∀ r ∈ rs, r.IsClean) (hreturns : p.ReturnsAll rs)
    : p.trace rs = (BuildRequest.clauseTrace cs rs).map fun (answer, ds) => (answer, .ok ds) := by
  -- the package follows the clauses behind every request
  induction rs generalizing p cs with
  | nil => rfl
  | cons r rs ih =>
    rw [List.forall_mem_cons] at hrs
    obtain ⟨hfollows, hanswer⟩ := BuildRequest.follows_step hp hrs.1 hreturns.1
    obtain ⟨f, hf, hclauses⟩ := hfollows.relations
    unfold trace BuildRequest.clauseTrace
    dsimp
    rw [hanswer, hf, ih hfollows hrs.2 hreturns.2, ← hclauses]
    rfl

end PackageMetadata

end DebianPackaging
