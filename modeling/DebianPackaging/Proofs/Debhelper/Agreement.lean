import DebianPackaging.Proofs.Control.KeepValue
import DebianPackaging.Proofs.Debhelper.Request
import DebianPackaging.Proofs.Relation.Fold

/-!
This module contains the agreement of control files and manifests. A control file that is read keeps its build
dependencies laid out in a run of requests, so whatever a run stores in it is returned, as long as the
paragraph has room for it, as one with neat build dependencies always has. What a manifest stores is returned
in any case.
-/

namespace DebianPackaging

open Text

structure Paragraph.IsLaidOut (p : Paragraph) (name : Text) : Prop where
  hasFieldNames : p.HasFieldNames
  isLaidOut : ∀ f ∈ p.find? name, f.IsLaidOut

theorem isFieldName_buildDependsField : IsFieldName buildDependsField :=
  ⟨'B', "uild-Depends", rfl, by decide, by decide⟩

namespace Paragraph

theorem IsLaidOut.keeps {p : Paragraph} {name value : Text} (hname : IsFieldName name)
    (h : p.IsLaidOut name) (hvalue : IsFolded value) (hroom : p.HasRoomFor name value)
    : p.Keeps name value ∧ ∀ q, p.setKeepingComments name value = .ok q →
        q.IsLaidOut name ∧ ∀ f ∈ q.find? name, f.Holds value := by
  obtain ⟨q, f, hset, hfind, hf⟩ :=
    exists_setKeepingComments h.hasFieldNames (fun _ => hname) h.isLaidOut hvalue hroom
  constructor
  . refine ⟨q, hset, ?_⟩
    unfold get?
    rw [hfind, Option.map_some, Option.map_some, hf.trim_eq]
  . intro q' hq'
    rw [hset] at hq'
    cases hq'
    have hholds : ∀ f' ∈ q.find? name, f'.Holds value := by
      rw [hfind]
      rintro f' ⟨⟩
      exact hf
    refine ⟨⟨hasFieldNames_of_setKeepingComments h.hasFieldNames hset, ?_⟩, hholds⟩
    exact fun f' hf' => (hholds f' hf').isLaidOut

theorem obeys_of_relations {ends : Char → Bool} {P : Text → Prop} (hP : LineClosed ends P) {p : Paragraph}
    {name : Text} (h : ∀ b ∈ p.find? name, P b.value) {f : RelationField} (hf : p.relations name = .ok f)
    : f.Obeys P := by
  apply RelationField.obeys_of_read hP hf
  unfold get?
  cases hfind : p.find? name with
  | none => exact hP.free (by simp)
  | some b => exact h b hfind

theorem isLaidOut_of_readLines? {t : Text} {d : ControlDocument}
    (h : ControlDocument.readLines? t.feedLines = some d) {p : Paragraph} (hp : p ∈ d.paragraphs)
    {name : Text} {f : RelationField} (hf : p.relations name = .ok f) : p.IsLaidOut name := by
  refine ⟨ControlDocument.hasFieldNames_of_readLines? h p hp, ?_⟩
  intro b hb
  apply ControlDocument.isLaidOut_of_readLines? h p hp b (List.mem_of_find?_eq_some hb)
  rw [← Bool.not_eq_true]
  intro hcomment
  -- a value whose first line is a comment would not be read
  apply RelationField.head?_ne_of_read hf
  unfold ControlDocument.isComment at hcomment
  obtain ⟨u, hu⟩ := List.head?_eq_some_iff.mp (beq_iff_eq.mp hcomment)
  have hhead : (trim b.first).head? = some '#' := by
    rw [hu]
    exact head?_trim_cons (by decide) u
  unfold get?
  rw [Option.mem_def.mp hb, Option.map_some, Option.getD_some]
  unfold ControlField.value
  split
  . exact hhead
  . rw [List.head?_append, hhead]
    rfl

end Paragraph

namespace PackageMetadata

def HasRoomForPlanned (plan : Except Error (Option RelationField)) : PackageMetadata → Prop
  | control d => ∀ f, plan = .ok (some f) → ∀ p ∈ d.sourceParagraph?, p.HasRoomFor buildDependsField f.text
  | manifest _ => True

instance : (plan : Except Error (Option RelationField)) → (p : PackageMetadata) →
    Decidable (p.HasRoomForPlanned plan)
  | .ok (some f), control d =>
    decidable_of_iff (∀ p ∈ d.sourceParagraph?, p.HasRoomFor buildDependsField f.text)
      (by simp [HasRoomForPlanned])
  | .ok none, control _ => .isTrue (by simp [HasRoomForPlanned])
  | .error _, control _ => .isTrue (by simp [HasRoomForPlanned])
  | _, manifest _ => .isTrue trivial

def HasRoomForAll (p : PackageMetadata) : List BuildRequest → Prop
  | [] => True
  | r :: rs => p.HasRoomForPlanned (r.plan p) ∧ (r.step p).1.HasRoomForAll rs

instance (p : PackageMetadata) : (rs : List BuildRequest) → Decidable (p.HasRoomForAll rs)
  | [] => .isTrue trivial
  | r :: rs =>
    have := (r.step p).1.instDecidableHasRoomForAll rs
    inferInstanceAs (Decidable (_ ∧ _))

end PackageMetadata

namespace BuildRequest

def IsFreeOf (ends : Char → Bool) : BuildRequest → Prop
  | entry t => ∀ c ∈ t, ends c = false
  | debhelper _ => True

theorem IsClean.isFreeOf {r : BuildRequest} (hr : r.IsClean) : r.IsFreeOf (· == '\n') := by
  cases r with
  | entry t =>
    intro c hc
    rw [beq_eq_false_iff_ne]
    rintro rfl
    exact hr.2 hc
  | debhelper minimum => trivial

theorem obeys_plan {ends : Char → Bool} {P : Text → Prop} (hP : LineClosed ends P) {p : PackageMetadata}
    {r : BuildRequest} (hr : r.IsClean) (hfree : r.IsFreeOf ends) {f g : RelationField}
    (hf : p.relations buildDependsField = .ok f) (hobeys : f.Obeys P) (h : r.plan p = .ok (some g))
    : g.Obeys P := by
  cases r with
  | entry t =>
    obtain ⟨e, f', he, hf', hensure⟩ := plan_entry_eq_some h
    rw [hf] at hf'
    cases hf'
    have htext : ∀ c ∈ e.text, ends c = false := by
      rw [Entry.text_of_read he]
      exact hfree
    have hensured := RelationField.obeys_ensure hP hobeys htext
    rwa [hensure] at hensured
  | debhelper minimum =>
    obtain ⟨version, f', hread, _, hf', hplan⟩ := PackageMetadata.planDebhelper_eq_ok.mp h
    rw [hf] at hf'
    cases hf'
    obtain ⟨hhonest, hwritable⟩ := PackageMetadata.isHonest_of_relations hf
    obtain ⟨htext, hsep⟩ := Version.text_of_read hread
    have hversion : Relation.IsConstraintVersion minimum := hr
    rw [← htext] at hversion hsep
    have hends : debhelperPackage.all (fun c => !isLineEnd c) = true := by decide
    have hname : ∀ c ∈ debhelperPackage, ends c = false := by
      intro c hc
      exact hP.not_ends (by simpa using List.all_eq_true.mp hends c hc)
    rw [RelationField.eq_of_ensureDebhelper hplan]
    exact RelationField.obeys_ensureVersion hP hname hversion hsep hobeys hhonest hwritable
      isName_debhelperPackage

end BuildRequest

namespace PackageMetadata

theorem exists_of_setRelations_control {d : ControlDocument} {p : Paragraph}
    (hp : d.sourceParagraph? = some p) {f : RelationField} (hne : f.clauses ≠ []) {field : Text}
    {q : PackageMetadata} (h : (control d).setRelations field f = .ok (q, true))
    : ∃ p', p.setKeepingComments field f.text = .ok p' ∧ q = control (d.setParagraph 0 p') := by
  have hentries : f.entries.isEmpty = false := by
    rw [List.isEmpty_eq_false_iff]
    intro hnil
    unfold RelationField.clauses at hne
    rw [hnil] at hne
    exact hne rfl
  cases hset : p.setRelations field f with
  | error err =>
    unfold setRelations ControlDocument.editSource ControlDocument.source at h
    dsimp at h
    rw [hp] at h
    dsimp [bind, Except.bind] at h
    rw [hset] at h
    cases h
  | ok result =>
    obtain ⟨p', changed⟩ := result
    rw [setRelations_control hp hset] at h
    cases h
    unfold Paragraph.setRelations at hset
    dsimp at hset
    rw [hentries, if_neg (by simp)] at hset
    split at hset
    . cases hset
    . obtain ⟨p'', hstored, heq⟩ := map_eq_ok.mp hset
      cases heq
      exact ⟨p', hstored, rfl⟩

section Run

variable {d : ControlDocument} {cs : List Clause} (hd : (control d).Follows cs) {p : Paragraph}
  (hp : d.sourceParagraph? = some p) (hlaid : p.IsLaidOut buildDependsField)

include hd hp hlaid

theorem returnsPlanned_control {r : BuildRequest} (hr : r.IsClean)
    (hroom : (control d).HasRoomForPlanned (r.plan (control d)))
    : (control d).ReturnsPlanned (r.plan (control d)) ∧
      ∃ d' q, (r.step (control d)).1 = control d' ∧ d'.sourceParagraph? = some q ∧
        q.IsLaidOut buildDependsField ∧ (q = p ∨ ∃ g, r.plan (control d) = .ok (some g) ∧
          ∀ b ∈ q.find? buildDependsField, b.Holds g.text) := by
  cases hplan : r.plan (control d) with
  | error err =>
    refine ⟨?_, d, p, ?_, hp, hlaid, .inl rfl⟩
    . intro f hf
      cases hf
    . unfold BuildRequest.step
      rw [BuildRequest.perform_of_error hd hplan]
  | ok result =>
    cases result with
    | none =>
      refine ⟨?_, d, p, ?_, hp, hlaid, .inl rfl⟩
      . intro f hf
        cases hf
      . unfold BuildRequest.step
        rw [BuildRequest.perform_of_none hplan]
    | some g =>
      obtain ⟨f, hf, _, _, _, hne⟩ := BuildRequest.storable_of_plan hr hplan
      have hpf := hf
      rw [relations_control hp] at hpf
      have hvalue : ∀ b ∈ p.find? buildDependsField, IsFolded b.value :=
        fun b hb => ControlField.isFolded_value (hlaid.isLaidOut b hb)
      have hfolded := BuildRequest.obeys_plan lineClosed_isFolded hr hr.isFreeOf hf
        (Paragraph.obeys_of_relations lineClosed_isFolded hvalue hpf) hplan
      obtain ⟨hkeeps, hstays⟩ := hlaid.keeps isFieldName_buildDependsField (hfolded.text lineClosed_isFolded)
        (hroom g hplan p hp)
      have hreturns : (control d).ReturnsText g := by
        intro q hq
        rw [hp] at hq
        cases hq
        exact hkeeps
      obtain ⟨_, hq, hstores⟩ := BuildRequest.exists_perform_of_some hr hplan hreturns
      obtain ⟨q, hset, rfl⟩ := exists_of_setRelations_control hp hne hstores.setRelations
      obtain ⟨hlaid', hholds⟩ := hstays q hset
      constructor
      . intro g' hg'
        cases hg'
        exact hreturns
      . refine ⟨d.setParagraph 0 q, q, ?_, ?_, hlaid', .inr ⟨g, rfl, hholds⟩⟩
        . unfold BuildRequest.step
          rw [hq]
        . apply ControlDocument.sourceParagraph?_setParagraph hp
          unfold Paragraph.has
          rw [Paragraph.find?_setKeepingComments_of_other hset (by decide +kernel)]
          exact (ControlDocument.exists_paragraphs_of_sourceParagraph? hp).1

end Run

theorem hasRoomForPlanned_of_isNeat {d : ControlDocument} {p : Paragraph} (hp : d.sourceParagraph? = some p)
    (hneat : ∀ b ∈ p.find? buildDependsField, b.IsNeat) {r : BuildRequest} (hr : r.IsClean)
    (hfree : r.IsFreeOf isLineEnd)
    : (control d).HasRoomForPlanned (r.plan (control d)) ∧
        ∀ g, r.plan (control d) = .ok (some g) → IsNeat g.text := by
  have hplanned : ∀ g, r.plan (control d) = .ok (some g) → IsNeat g.text := by
    intro g hplan
    obtain ⟨f, hf, _⟩ := BuildRequest.storable_of_plan hr hplan
    have hpf := hf
    rw [relations_control hp] at hpf
    have hobeys := Paragraph.obeys_of_relations lineClosed_isNeat (fun b hb => (hneat b hb).value) hpf
    exact (BuildRequest.obeys_plan lineClosed_isNeat hr hfree hf hobeys hplan).text lineClosed_isNeat
  refine ⟨?_, hplanned⟩
  intro g hplan q hq
  rw [hp] at hq
  cases hq
  exact Paragraph.hasRoomFor_of_isNeat hneat (hplanned g hplan)

theorem returnsAll_control {d : ControlDocument} {cs : List Clause} (hd : (control d).Follows cs)
    {p : Paragraph} (hp : d.sourceParagraph? = some p) (hlaid : p.IsLaidOut buildDependsField)
    {rs : List BuildRequest} (hrs : ∀ r ∈ rs, r.IsClean) (hroom : (control d).HasRoomForAll rs)
    : (control d).ReturnsAll rs := by
  -- the file follows clauses and is laid out behind every request
  induction rs generalizing d cs p with
  | nil => trivial
  | cons r rs ih =>
    rw [List.forall_mem_cons] at hrs
    obtain ⟨hreturns, d', q, hstep, hq, hlaid', _⟩ := returnsPlanned_control hd hp hlaid hrs.1 hroom.1
    have hfollows := (BuildRequest.follows_step hd hrs.1 hreturns).1
    have hroom' := hroom.2
    refine ⟨hreturns, ?_⟩
    rw [hstep] at hfollows hroom' ⊢
    exact ih hfollows hq hlaid' hrs.2 hroom'

theorem hasRoomForAll_of_follows {d : ControlDocument} {cs : List Clause} (hd : (control d).Follows cs)
    {p : Paragraph} (hp : d.sourceParagraph? = some p) (hlaid : p.IsLaidOut buildDependsField)
    (hneat : ∀ b ∈ p.find? buildDependsField, b.IsNeat) {rs : List BuildRequest}
    (hrs : ∀ r ∈ rs, r.IsClean) (hfree : ∀ r ∈ rs, r.IsFreeOf isLineEnd) : (control d).HasRoomForAll rs := by
  -- the field is neat behind every request, too
  induction rs generalizing d cs p with
  | nil => trivial
  | cons r rs ih =>
    rw [List.forall_mem_cons] at hrs hfree
    obtain ⟨hroom, hplanned⟩ := hasRoomForPlanned_of_isNeat hp hneat hrs.1 hfree.1
    obtain ⟨hreturns, d', q, hstep, hq, hlaid', hholds⟩ := returnsPlanned_control hd hp hlaid hrs.1 hroom
    have hfollows := (BuildRequest.follows_step hd hrs.1 hreturns).1
    refine ⟨hroom, ?_⟩
    rw [hstep] at hfollows ⊢
    refine ih hfollows hq hlaid' ?_ hrs.2 hfree.2
    rcases hholds with rfl | ⟨g, hplan, hholds⟩
    . exact hneat
    . exact fun b hb => (hholds b hb).isNeat (hplanned g hplan)

section Read

variable {t : Text} {d : ControlDocument} (hd : ControlDocument.readLines? t.feedLines = some d)
  {p : Paragraph} (hp : d.sourceParagraph? = some p)
  (hfields : ∀ field ∈ partialBuildDependsFields, p.has field = false) {f : RelationField}
  (hf : p.relations buildDependsField = .ok f)

include hd hp hfields hf

theorem follows_control : (control d).Follows f.clauses ∧ p.IsLaidOut buildDependsField := by
  refine ⟨⟨⟨f, ?_, rfl⟩, checkFields_of_missing hp hfields, trivial⟩, ?_⟩
  . rw [relations_control hp]
    exact hf
  . obtain ⟨_, ps, hps⟩ := ControlDocument.exists_paragraphs_of_sourceParagraph? hp
    exact Paragraph.isLaidOut_of_readLines? hd (by simp [hps]) hf

/-- There is room for whatever a run stores in a field whose only line ends are line feeds, without blanks in
front of those that are inside of its value. -/
theorem hasRoomForAll_of_isNeat (hneat : ∀ b ∈ p.find? buildDependsField, b.IsNeat) {rs : List BuildRequest}
    (hrs : ∀ r ∈ rs, r.IsClean) (hfree : ∀ r ∈ rs, r.IsFreeOf isLineEnd) : (control d).HasRoomForAll rs := by
  obtain ⟨hfollows, hlaid⟩ := follows_control hd hp hfields hf
  exact hasRoomForAll_of_follows hfollows hp hlaid hneat hrs hfree

end Read

/-- A control file and a manifest with the same build dependencies answer every run of clean requests
alike and have the same build dependencies behind each request: those that the run on clauses has. -/
theorem trace_control_eq_trace_manifest {t : Text} {d : ControlDocument} {m : Manifest} {p : Paragraph}
    {f g : RelationField} (hd : ControlDocument.readLines? t.feedLines = some d)
    (hp : d.sourceParagraph? = some p)
    (hfields : ∀ field ∈ partialBuildDependsFields, p.has field = false)
    (hf : p.relations buildDependsField = .ok f) (hg : m.buildDepends = .ok g)
    (hclauses : f.clauses = g.clauses) (htexts : m.HoldsTexts Manifest.buildDependsKey)
    {rs : List BuildRequest} (hrs : ∀ r ∈ rs, r.IsClean) (hroom : (control d).HasRoomForAll rs)
    : (control d).trace rs = (manifest m).trace rs ∧
      (control d).trace rs =
        (BuildRequest.clauseTrace f.clauses rs).map fun (answer, ds) => (answer, .ok ds) := by
  obtain ⟨hcontrol, hlaid⟩ := follows_control hd hp hfields hf
  have hmanifest : (manifest m).Follows f.clauses := by
    refine ⟨⟨g, hg, hclauses.symm⟩, ?_, htexts⟩
    -- a manifest has no other field that debhelper could be in
    rfl
  have htrace := trace_eq_clauseTrace hcontrol hrs (returnsAll_control hcontrol hp hlaid hrs hroom)
  refine ⟨?_, htrace⟩
  rw [htrace, trace_eq_clauseTrace hmanifest hrs (returnsAll_manifest m rs)]

theorem trace_control_eq_trace_manifest_foo
    : ∃ d m, ControlDocument.readLines?
          (feedLines "Source: x\nBuild-Depends: foo,\n# for the tests\n zoo\n") = some d ∧
        Manifest.read "debian/debcargo.toml" "[source]\nbuild_depends = [\"foo\", \"zoo\"]\n" none = .ok m ∧
        (control d).trace [.debhelper "10", .entry "bar", .entry "|"] =
          (manifest m).trace [.debhelper "10", .entry "bar", .entry "|"] ∧
        ((control d).trace [.debhelper "10", .entry "bar", .entry "|"]).map (·.1) =
          [.ok true, .ok true, .error (.emptyAlternative "|")] := by
  have hcontrol : (ControlDocument.readLines?
      (feedLines "Source: x\nBuild-Depends: foo,\n# for the tests\n zoo\n")).bind (fun d =>
      d.sourceParagraph?.map fun p => decide (
        (∀ field ∈ partialBuildDependsFields, p.has field = false) ∧
        (p.relations buildDependsField).map (·.clauses) = .ok [[{ name := "foo" }], [{ name := "zoo" }]] ∧
        (∀ b ∈ p.find? buildDependsField, b.IsNeat) ∧
        ((control d).trace [.debhelper "10", .entry "bar", .entry "|"]).map (·.1) =
          [.ok true, .ok true, .error (.emptyAlternative "|")])) = some true := by
    decide +kernel
  have hmanifest : (do
      let m ← Manifest.read "debian/debcargo.toml" "[source]\nbuild_depends = [\"foo\", \"zoo\"]\n" none
      let g ← m.buildDepends
      return (g.clauses, decide (m.HoldsTexts Manifest.buildDependsKey))) =
      .ok ([[{ name := "foo" }], [{ name := "zoo" }]], true) := by
    decide +kernel
  obtain ⟨d, hd, hcontrol⟩ := Option.bind_eq_some_iff.mp hcontrol
  obtain ⟨p, hp, hcontrol⟩ := Option.map_eq_some_iff.mp hcontrol
  obtain ⟨hfields, hrelations, hneat, hanswers⟩ := of_decide_eq_true hcontrol
  obtain ⟨f, hf, hfclauses⟩ := map_eq_ok.mp hrelations
  obtain ⟨m, hm, hmanifest⟩ := bind_eq_ok.mp hmanifest
  obtain ⟨g, hg, hmanifest⟩ := bind_eq_ok.mp hmanifest
  obtain ⟨hgclauses, htexts⟩ := Prod.mk.inj (Except.ok.inj hmanifest)
  have hclean : ∀ r ∈ [BuildRequest.debhelper "10", .entry "bar", .entry "|"], r.IsClean := by
    simp only [List.forall_mem_cons, BuildRequest.IsClean]
    exact ⟨.mk (c := '1') rfl (List.all_eq_true.mp (by decide)), by decide, by decide, by simp⟩
  have hfree : ∀ r ∈ [BuildRequest.debhelper "10", .entry "bar", .entry "|"], r.IsFreeOf isLineEnd := by
    simp only [List.forall_mem_cons, BuildRequest.IsFreeOf]
    exact ⟨trivial, List.all_iff_forall_prop.mp (by decide), List.all_iff_forall_prop.mp (by decide), by simp⟩
  have hroom := hasRoomForAll_of_isNeat hd hp hfields hf hneat hclean hfree
  have htrace := (trace_control_eq_trace_manifest hd hp hfields hf hg (hfclauses.trans hgclauses.symm)
    (of_decide_eq_true htexts) hclean hroom).1
  exact ⟨d, m, hd, hm, htrace, hanswers⟩

end PackageMetadata

end DebianPackaging
