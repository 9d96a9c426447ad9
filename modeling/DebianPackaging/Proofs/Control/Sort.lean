import DebianPackaging.Proofs.Control.KeepComments
import DebianPackaging.Proofs.Relation.Wrap

/-!
This module contains what edits of relationship fields do to the comment lines inside of them, where a
field is set to other relations, and where all relationship fields of a control file are sorted.
-/

namespace DebianPackaging

open Text

namespace RelationField

theorem isInfix_spelled_text {f : RelationField} {e : Entry} (he : e ∈ f.entries) {a : Alternative}
    (ha : a ∈ e.alternatives) : a.spelled.text <:+: f.text := by
  obtain ⟨s, hs, hcontent⟩ := List.mem_filterMap.mp he
  have halternative : a.spelled.text <:+: a.text := ⟨a.lead, a.trail, rfl⟩
  have hentry : a.text <:+: e.text := isInfix_join (List.mem_map_of_mem ha)
  have hsegment : e.text <:+: s.text := by
    cases s with
    | blank t => cases hcontent
    | entry lead e' trail =>
      cases hcontent
      exact ⟨lead, trail, rfl⟩
  have hfield : s.text <:+: f.text := isInfix_join (List.mem_map_of_mem hs)
  exact ((halternative.trans hentry).trans hsegment).trans hfield

theorem isFreeOfComments_wrapAndSort {f : RelationField} (h : IsFreeOfComments f.text) (fieldName : Text)
    : IsFreeOfComments (f.wrapAndSort fieldName) := by
  have hrendered : ∀ w ∈ f.sortedEntries.map (·.evenText), IsFreeOfComments w := by
    rw [List.forall_mem_map]
    intro e he
    apply isFreeOfComments_join (by decide) (by decide)
    rw [List.forall_mem_map]
    intro a ha
    exact h.of_isInfix (isInfix_spelled_text (mem_entries_of_mem_sortedEntries he) ha)
  unfold wrapAndSort
  dsimp only
  split
  . exact isFreeOfComments_join (by decide) (by decide) hrendered
  . exact isFreeOfComments_join (by decide) (by decide) hrendered

end RelationField

namespace Paragraph

inductive Sorts (p : Paragraph) (name : Text) : Paragraph → Prop where
  | other (h : relationFieldNames.contains name.lower = false) : Sorts p name p
  | same {f : RelationField} (hread : RelationField.read ((p.get? name).getD []) = .ok f)
    (hsame : f.wrapAndSort name = (p.get? name).getD []) : Sorts p name p
  | changed {f : RelationField} {q : Paragraph}
    (hread : RelationField.read ((p.get? name).getD []) = .ok f)
    (hchanged : f.wrapAndSort name ≠ (p.get? name).getD [])
    (hset : p.setKeepingComments name (f.wrapAndSort name) = .ok q) : Sorts p name q

inductive SortsAll : Paragraph → List Text → Paragraph → Prop where
  | nil (p : Paragraph) : SortsAll p [] p
  | cons {p q r : Paragraph} {name : Text} {names : List Text} (hfirst : p.Sorts name q)
    (hrest : SortsAll q names r) : SortsAll p (name :: names) r

theorem sortsAll_of_wrapAndSortNames {p q : Paragraph} {names : List Text} {changed : Bool}
    (h : p.wrapAndSortNames names = (q, .ok changed)) : p.SortsAll names q := by
  induction names generalizing p changed with
  | nil =>
    cases h
    exact .nil _
  | cons name names ih =>
    unfold wrapAndSortNames at h
    split at h
    . next hname =>
      rw [Bool.not_eq_true'] at hname
      exact .cons (.other hname) (ih h)
    . dsimp only at h
      split at h
      . cases h
      . next f hread =>
        split at h
        . next hsame => exact .cons (.same hread hsame) (ih h)
        . next hchanged =>
          split at h
          . cases h
          . next p' hset =>
            generalize hrest : p'.wrapAndSortNames names = rest at h
            obtain ⟨q', result⟩ := rest
            obtain ⟨rfl, hresult⟩ := Prod.mk.inj h
            cases result with
            | error e => cases hresult
            | ok c => exact .cons (.changed hread hchanged hset) (ih hrest)

theorem Sorts.find?_of_other {p q : Paragraph} {name other : Text} (h : p.Sorts name q)
    (hother : sameName name other = false) : q.find? other = p.find? other := by
  cases h with
  | other => rfl
  | same => rfl
  | changed _ _ hset => exact find?_setKeepingComments_of_other hset hother

theorem Sorts.hasFieldNames {p q : Paragraph} {name : Text} (h : p.Sorts name q) (hp : p.HasFieldNames)
    : q.HasFieldNames := by
  cases h with
  | other => exact hp
  | same => exact hp
  | changed _ _ hset => exact hasFieldNames_of_setKeepingComments hp hset

theorem SortsAll.find?_of_other {p q : Paragraph} {names : List Text} {other : Text}
    (h : p.SortsAll names q) (hother : ∀ name ∈ names, sameName name other = false)
    : q.find? other = p.find? other := by
  induction h with
  | nil p => rfl
  | cons hfirst hrest ih =>
    rw [List.forall_mem_cons] at hother
    rw [ih hother.2, hfirst.find?_of_other hother.1]

theorem keepsComments_congr {p p' q q' : Paragraph} {name : Text} (hp : p'.find? name = p.find? name)
    (hq : q'.find? name = q.find? name) : p'.KeepsComments q' name ↔ p.KeepsComments q name := by
  unfold KeepsComments
  rw [innerComments_congr hp, innerComments_congr hq]

theorem keepsComments_self (p : Paragraph) (name : Text) : p.KeepsComments p name := fun _ _ => rfl

theorem keepsComments_iff {p q : Paragraph} (hp : p.HasFieldNames) {name value : Text} {f : ControlField}
    (hfind : p.find? name = some f) (hf : f.IsPlain) (hvalue : IsFreeOfComments value)
    (hset : p.setKeepingComments name value = .ok q)
    : p.KeepsComments q name ↔ f.innerComments = [] ∨ f.HasPlaceFor value := by
  by_cases hne : f.innerComments = []
  . have hnil : p.innerComments name = [] := by
      rw [innerComments_of_find? hfind]
      exact hne
    exact iff_of_true (keepsComments_of_nil hnil) (.inl hne)
  . rw [keepsComments_setKeepingComments_iff hp hfind hf hne hvalue hset]
    simp [hne]

theorem keepsComments_setRelations_iff {p q : Paragraph} (hp : p.HasFieldNames) {name : Text}
    (hplain : ∀ g ∈ p.find? name, g.IsPlain) {f : RelationField} (hentries : f.entries ≠ [])
    (hfree : IsFreeOfComments f.text) {changed : Bool} (h : p.setRelations name f = .ok (q, changed))
    : p.KeepsComments q name ↔ p.innerComments name = [] ∨ changed = false ∨
        ∃ g ∈ p.find? name, g.HasPlaceFor f.text := by
  unfold setRelations at h
  dsimp only at h
  rw [if_neg (by simpa using hentries)] at h
  split at h
  . cases h
    exact iff_of_true (p.keepsComments_self name) (.inr (.inl rfl))
  . obtain ⟨p', hset, heq⟩ := map_eq_ok.mp h
    cases heq
    cases hfind : p.find? name with
    | none =>
      have hnil : p.innerComments name = [] := by
        unfold innerComments
        rw [hfind]
        rfl
      exact iff_of_true (keepsComments_of_nil hnil) (.inl hnil)
    | some g =>
      rw [keepsComments_iff hp hfind (hplain g hfind) hfree hset, innerComments_of_find? hfind]
      simp

theorem Sorts.keepsComments_iff {p q : Paragraph} {f : ControlField} (h : p.Sorts f.name q)
    (hp : p.HasFieldNames) (hfind : p.find? f.name = some f) (hf : f.IsPlain)
    (hname : relationFieldNames.contains f.name.lower = true)
    : ∃ r, RelationField.read f.value = .ok r ∧ (p.KeepsComments q f.name ↔
        f.innerComments = [] ∨ r.wrapAndSort f.name = f.value ∨ f.HasPlaceFor (r.wrapAndSort f.name)) := by
  have hget : (p.get? f.name).getD [] = f.value := by
    unfold get?
    rw [hfind]
    rfl
  cases h with
  | other h =>
    rw [hname] at h
    cases h
  | same hread hsame =>
    rw [hget] at hread hsame
    exact ⟨_, hread, iff_of_true (p.keepsComments_self f.name) (.inr (.inl hsame))⟩
  | @changed r _ hread hchanged hset =>
    rw [hget] at hread hchanged
    refine ⟨r, hread, ?_⟩
    have hfree : IsFreeOfComments r.text := by
      rw [RelationField.text_of_read hread]
      exact ControlField.isFreeOfComments_value hf
    rw [Paragraph.keepsComments_iff hp hfind hf (RelationField.isFreeOfComments_wrapAndSort hfree _) hset]
    simp [hchanged]

theorem SortsAll.keepsComments_iff {p q : Paragraph} {names : List Text} (h : p.SortsAll names q)
    (hp : p.HasFieldNames) (hdistinct : ControlDocument.hasDistinctNames names = true) {f : ControlField}
    (hmem : f.name ∈ names) (hfind : p.find? f.name = some f) (hf : f.IsPlain)
    (hname : relationFieldNames.contains f.name.lower = true)
    : ∃ r, RelationField.read f.value = .ok r ∧ (p.KeepsComments q f.name ↔
        f.innerComments = [] ∨ r.wrapAndSort f.name = f.value ∨ f.HasPlaceFor (r.wrapAndSort f.name)) := by
  induction h with
  | nil p => cases hmem
  | @cons p p' q name names hfirst hrest ih =>
    unfold ControlDocument.hasDistinctNames at hdistinct
    rw [Bool.and_eq_true, Bool.not_eq_true', List.any_eq_false] at hdistinct
    obtain ⟨hother, hdistinct⟩ := hdistinct
    cases List.mem_cons.mp hmem with
    | inl hmem =>
      subst hmem
      obtain ⟨r, hread, hkeeps⟩ := hfirst.keepsComments_iff hp hfind hf hname
      refine ⟨r, hread, ?_⟩
      rw [← hkeeps]
      apply keepsComments_congr rfl
      -- the fields that are sorted later are other ones
      apply hrest.find?_of_other
      intro n hn
      rw [← Bool.not_eq_true, sameName_iff]
      intro hlower
      exact hother n hn (sameName_iff.mpr hlower.symm)
    | inr hmem =>
      have hunchanged : p'.find? f.name = p.find? f.name := by
        apply hfirst.find?_of_other
        simpa using hother f.name hmem
      rw [← hunchanged] at hfind
      obtain ⟨r, hread, hkeeps⟩ := ih (hfirst.hasFieldNames hp) hdistinct hmem hfind
      exact ⟨r, hread, (keepsComments_congr hunchanged.symm rfl).trans hkeeps⟩

structure IsPlain (p : Paragraph) : Prop where
  names : p.HasFieldNames
  distinct : ControlDocument.hasDistinctNames p.names = true
  fields : ∀ f ∈ p.fields, relationFieldNames.contains f.name.lower = true → f.IsPlain

theorem find?_of_mem {p : Paragraph} (hdistinct : ControlDocument.hasDistinctNames p.names = true)
    {f : ControlField} (hf : f ∈ p.fields) : p.find? f.name = some f := by
  unfold names at hdistinct
  unfold find?
  generalize p.fields = fields at hdistinct hf
  induction fields with
  | nil => cases hf
  | cons g gs ih =>
    rw [List.map_cons] at hdistinct
    unfold ControlDocument.hasDistinctNames at hdistinct
    rw [Bool.and_eq_true, Bool.not_eq_true', List.any_eq_false, List.forall_mem_map] at hdistinct
    cases List.mem_cons.mp hf with
    | inl h =>
      rw [h]
      exact List.find?_cons_of_pos (by exact sameName_iff.mpr rfl)
    | inr h =>
      rw [List.find?_cons_of_neg (by exact hdistinct.1 f h)]
      exact ih hdistinct.2 h

end Paragraph

namespace ControlDocument

theorem isPlain_of_readLines? {ls : List Text} (hls : ∀ l ∈ ls.map terminateLine, IsFeedLine l)
    {d : ControlDocument} (h : readLines? ls = some d)
    (hfirst : ∀ p ∈ d.paragraphs, ∀ f ∈ p.fields, isComment f.first = false)
    : ∀ p ∈ d.paragraphs, p.IsPlain := by
  intro p hp
  obtain ⟨hdistinct, hlines⟩ := exists_lines_of_readLines? h p hp
  refine ⟨hasFieldNames_of_readLines? h p hp, hdistinct, ?_⟩
  intro f hf _
  obtain ⟨line, rest, hsuffix, hread, hmore⟩ := hlines f hf
  constructor
  . rw [List.forall_mem_cons]
    constructor
    . have hline := hls line (hsuffix.subset (List.mem_cons_self ..))
      exact ControlField.isFeedLine_of_readFieldLine? hline hread
    . intro l hl
      rw [hmore] at hl
      exact hls l (hsuffix.subset (List.mem_cons_of_mem _ (mem_takeContinuation (.inl hl))))
  . exact hfirst p hp f hf
  . rw [hmore]
    exact not_isComment_of_getLast?_takeContinuation rest

theorem forall₂_sortsAll_of_wrapAndSortParts {parts parts' : List ControlPart} {changed : Bool}
    (h : wrapAndSortParts parts = (parts', .ok changed))
    : List.Forall₂ (fun p q : Paragraph => p.SortsAll p.names q) (parts.filterMap (·.paragraph?))
        (parts'.filterMap (·.paragraph?)) := by
  induction parts generalizing parts' changed with
  | nil =>
    cases h
    exact .nil
  | cons part parts ih =>
    unfold wrapAndSortParts at h
    split at h
    . next hnil => cases hnil
    . next p parts₀ heq =>
      cases heq
      split at h
      . cases h
      . next q c hq =>
        dsimp only at h
        generalize hrest : wrapAndSortParts parts = rest at h
        obtain ⟨parts'', result⟩ := rest
        obtain ⟨rfl, hresult⟩ := Prod.mk.inj h
        cases result with
        | error e => cases hresult
        | ok c => exact .cons (Paragraph.sortsAll_of_wrapAndSortNames hq) (ih hrest)
    . next part' parts₀ hother heq =>
      cases heq
      dsimp only at h
      generalize hrest : wrapAndSortParts parts = rest at h
      obtain ⟨parts'', result⟩ := rest
      obtain ⟨rfl, rfl⟩ := Prod.mk.inj h
      have hnone : part.paragraph? = none := by
        cases part with
        | paragraph p => exact absurd rfl (hother p)
        | blank => rfl
        | comment => rfl
      rw [List.filterMap_cons_none hnone, List.filterMap_cons_none hnone]
      exact ih hrest

theorem forall₂_sortsAll_of_wrapAndSort {d d' : ControlDocument} {changed : Bool}
    (h : d.wrapAndSort = (d', .ok changed))
    : List.Forall₂ (fun p q : Paragraph => p.SortsAll p.names q) d.paragraphs d'.paragraphs := by
  unfold wrapAndSort at h
  generalize hparts : wrapAndSortParts d.parts = outcome at h
  obtain ⟨parts, result⟩ := outcome
  obtain ⟨rfl, rfl⟩ := Prod.mk.inj h
  exact forall₂_sortsAll_of_wrapAndSortParts hparts

/-- After relations were stored in a field, and after all relationship fields were sorted, the comments inside
of a field are still there if and only if there were none, the field did not change, or there is a place
for them in what was written. -/
theorem keepsComments_iff_hasPlaceFor {d : ControlDocument} (hd : ∀ p ∈ d.paragraphs, p.IsPlain)
    : (∀ p ∈ d.paragraphs, ∀ (q : Paragraph) (name : Text) (f : RelationField) (changed : Bool),
          relationFieldNames.contains name.lower = true → f.entries ≠ [] → IsFreeOfComments f.text →
          p.setRelations name f = .ok (q, changed) →
          (p.KeepsComments q name ↔ p.innerComments name = [] ∨ changed = false ∨
            ∃ g ∈ p.find? name, g.HasPlaceFor f.text)) ∧
        ∀ (d' : ControlDocument) (changed : Bool), d.wrapAndSort = (d', .ok changed) →
          List.Forall₂ (fun p q : Paragraph => ∀ f ∈ p.fields,
            relationFieldNames.contains f.name.lower = true →
            ∃ r, RelationField.read f.value = .ok r ∧
              (p.KeepsComments q f.name ↔ f.innerComments = [] ∨ r.wrapAndSort f.name = f.value ∨
                f.HasPlaceFor (r.wrapAndSort f.name))) d.paragraphs d'.paragraphs := by
  constructor
  . intro p hp q name f changed hname hentries hfree h
    have hplain : ∀ g ∈ p.find? name, g.IsPlain := by
      intro g hg
      apply (hd p hp).fields g (List.mem_of_find?_eq_some hg)
      rw [sameName_iff.mp (Paragraph.sameName_of_find? hg)]
      exact hname
    exact Paragraph.keepsComments_setRelations_iff (hd p hp).names hplain hentries hfree h
  . intro d' changed h
    refine ((List.forall₂_and_left _ _).mpr ⟨hd, forall₂_sortsAll_of_wrapAndSort h⟩).imp ?_
    rintro p q ⟨hp, hsorts⟩ f hf hname
    exact hsorts.keepsComments_iff hp.names hp.distinct (List.mem_map_of_mem hf)
      (Paragraph.find?_of_mem hp.distinct hf) (hp.fields f hf hname) hname

theorem keepsComments_iff_hasPlaceFor_oneLine
    : ∃ d d' p q q' q'',
        readLines? ["Source: foo\n", "Build-Depends: a,\n", "# keep me\n", " b\n"] = some d ∧
        d.paragraphs = [p] ∧
        (∃ f, RelationField.read "a" = .ok f ∧ p.setRelations "Build-Depends" f = .ok (q, true)) ∧
        ¬ p.KeepsComments q "Build-Depends" ∧
        (∃ f, RelationField.read "a,\n b, c" = .ok f ∧
          p.setRelations "Build-Depends" f = .ok (q', true)) ∧
        p.KeepsComments q' "Build-Depends" ∧
        d.wrapAndSort = (d', .ok true) ∧ d'.paragraphs = [q''] ∧ ¬ p.KeepsComments q'' "Build-Depends" := by
  let field : ControlField := ⟨[], "Build-Depends", " a,\n", ["# keep me\n", " b\n"]⟩
  let source : ControlField := ⟨[], "Source", " foo\n", []⟩
  let p : Paragraph := ⟨[source, field]⟩
  let q : Paragraph := ⟨[source, ⟨[], "Build-Depends", " a\n", []⟩]⟩
  let q' : Paragraph := ⟨[source, ⟨[], "Build-Depends", " a,\n", ["# keep me\n", " b, c\n"]⟩]⟩
  let q'' : Paragraph := ⟨[source, ⟨[], "Build-Depends", " a, b\n", []⟩]⟩
  let entry (lead name : Text) : Segment := .entry lead ⟨⟨[], ⟨{ name }, some name⟩, []⟩, []⟩ []
  have hread : readLines? ["Source: foo\n", "Build-Depends: a,\n", "# keep me\n", " b\n"] =
      some ⟨[.paragraph p]⟩ := by decide +kernel
  have hplain := isPlain_of_readLines? (by decide +kernel) hread (by decide)
  have hmem : p ∈ (⟨[.paragraph p]⟩ : ControlDocument).paragraphs := List.mem_singleton_self p
  have hname : relationFieldNames.contains (Text.lower "Build-Depends") = true := by decide
  have hfield : ∀ g ∈ p.find? "Build-Depends", g = field := by decide
  have hset : p.setRelations "Build-Depends" ⟨[entry [] "a"]⟩ = .ok (q, true) := by decide +kernel
  have hset' : p.setRelations "Build-Depends" ⟨[entry [] "a", entry "\n " "b", entry " " "c"]⟩ =
      .ok (q', true) := by decide +kernel
  have hwrap : RelationField.wrapAndSort ⟨[entry [] "a", entry "\n " "b"]⟩ "Build-Depends" =
      "a, b" := by
    unfold RelationField.wrapAndSort RelationField.sortedEntries
    rw [List.mergeSort_of_pairwise (by decide +kernel)]
    decide +kernel
  have hvalue : RelationField.read ((p.get? "Build-Depends").getD []) =
      .ok ⟨[entry [] "a", entry "\n " "b"]⟩ := by decide +kernel
  have hsorted : p.wrapAndSortNames p.names = (q'', .ok true) := by
    change p.wrapAndSortNames ["Source", "Build-Depends"] = (q'', .ok true)
    have hset'' : p.setKeepingComments "Build-Depends" "a, b" = .ok q'' := by decide +kernel
    rw [Paragraph.wrapAndSortNames, if_pos (by decide), Paragraph.wrapAndSortNames, if_neg (by decide)]
    dsimp only
    rw [hvalue]
    dsimp only
    rw [hwrap, if_neg (by decide), hset'']
    rfl
  have hsort : (⟨[.paragraph p]⟩ : ControlDocument).wrapAndSort = (⟨[.paragraph q'']⟩, .ok true) := by
    unfold wrapAndSort wrapAndSortParts
    dsimp only
    rw [hsorted]
    rfl
  refine ⟨⟨[.paragraph p]⟩, ⟨[.paragraph q'']⟩, p, q, q', q'', hread, rfl, ⟨_, by decide +kernel, hset⟩, ?_,
    ⟨_, by decide +kernel, hset'⟩, ?_, hsort, rfl, ?_⟩
  . rw [(keepsComments_iff_hasPlaceFor hplain).1 p hmem q _ _ _ hname
      (by decide) (isFreeOfComments_of_not_mem (by decide)) hset]
    rintro (hnil | hunchanged | ⟨g, hg, hplace⟩)
    . exact absurd hnil (by decide)
    . cases hunchanged
    . rw [hfield g hg] at hplace
      exact absurd hplace (by decide +kernel)
  . rw [(keepsComments_iff_hasPlaceFor hplain).1 p hmem q' _ _ _ hname
      (by decide) (isFreeOfComments_of_not_mem (by decide)) hset']
    exact .inr (.inr ⟨field, rfl, by decide +kernel⟩)
  . obtain ⟨r, hr, hkeeps⟩ := (List.forall₂_cons.mp
      ((keepsComments_iff_hasPlaceFor hplain).2 ⟨[.paragraph q'']⟩ true hsort)).1 field (by decide) hname
    rw [show RelationField.read field.value = _ from hvalue] at hr
    cases hr
    rw [hwrap] at hkeeps
    rw [show p.KeepsComments q'' "Build-Depends" ↔ _ from hkeeps]
    rintro (hnil | hunchanged | hplace)
    . exact absurd hnil (by decide)
    . exact absurd hunchanged (by decide +kernel)
    . exact absurd hplace (by decide +kernel)

end ControlDocument

end DebianPackaging
