import DebianPackaging.Proofs.Relation.RoundTrip
import DebianPackaging.Proofs.Relation.Separator
import DebianPackaging.Proofs.Text.Split

/-!
This module contains the meaning of texts: the relations that the parts of an entry spell, and those of
the parts of a field that are no blanks. The readers accept exactly the texts that have a meaning, and
read them as what they mean.
-/

namespace DebianPackaging

open Text

/-- What an entry means: its alternatives, however they are written. -/
abbrev Clause := List Relation

/-- The text of an entry spells relations, one between any two bars. -/
def Entry.Means (t : Text) (c : Clause) : Prop :=
  List.Forall₂ (fun part r => Relation.Spells r (trim part)) (t.splitOn '|') c

def RelationField.parts (t : Text) : List Text := (t.splitOn ',').filter fun part => trim part ≠ []

/-- The text of a field spells entries, one between any two commas that have one between them. -/
def RelationField.Means (t : Text) (cs : List Clause) : Prop := List.Forall₂ Entry.Means (parts t) cs

namespace Relation

theorem not_spells_nil (r : Relation) : ¬ Spells r [] := by
  intro h
  have := read?_of_spells h
  cases this

end Relation

namespace Entry

theorem exists_readAlternative_iff {whole part : Text} {r : Relation}
    : (∃ a, readAlternative whole part = .ok a ∧ a.spelled.relation = r) ↔
        Relation.Spells r (trim part) := by
  unfold readAlternative
  constructor
  . rintro ⟨a, h, rfl⟩
    split at h
    . cases h
    . obtain ⟨s, hs, h⟩ := bind_eq_ok.mp h
      cases h
      exact SpelledRelation.spells_of_read hs
  . intro h
    split
    . next htrim =>
      rw [htrim] at h
      exact absurd h (Relation.not_spells_nil r)
    . rw [SpelledRelation.read_of_spells h]
      exact ⟨_, rfl, rfl⟩

theorem means_of_read {t : Text} {e : Entry} (h : Entry.read t = .ok e) : Means t e.relations := by
  unfold Means Entry.relations
  rw [List.forall₂_map_right_iff]
  apply (alternatives_of_read h).imp
  intro part a ha
  exact exists_readAlternative_iff.mp ⟨a, ha, rfl⟩

theorem exists_read_of_means {t : Text} {c : Clause} (h : Means t c)
    : ∃ e, Entry.read t = .ok e ∧ e.relations = c := by
  have has : ∃ as, (t.splitOn '|').mapM (readAlternative t) = .ok as ∧
      as.map (·.spelled.relation) = c := by
    unfold Means at h
    generalize t.splitOn '|' = parts at h
    induction h with
    | nil => exact ⟨[], rfl, rfl⟩
    | cons hr _ ih =>
      obtain ⟨a, ha, rfl⟩ := (@exists_readAlternative_iff t _ _).mpr hr
      obtain ⟨as, has, rfl⟩ := ih
      refine ⟨a :: as, ?_, rfl⟩
      rw [List.mapM_cons, ha, has]
      rfl
  obtain ⟨as, has, rfl⟩ := has
  unfold Entry.read
  rw [has]
  cases as with
  | nil =>
    have := (mapM_eq_ok.mp has).length_eq
    rw [List.length_nil, List.length_eq_zero_iff] at this
    exact absurd this (List.splitOn_ne_nil '|' t)
  | cons first others => exact ⟨_, rfl, rfl⟩

theorem means_trim_iff {t : Text} {c : Clause} : Means (trim t) c ↔ Means t c := by
  unfold Means
  rw [← List.forall₂_map_left_iff (f := trim) (R := fun part r => Relation.Spells r part),
    ← List.forall₂_map_left_iff (f := trim) (R := fun part r => Relation.Spells r part),
    map_trim_splitOn_trim (by decide)]

theorem means_unique {t : Text} {c d : Clause} (hc : Means t c) (hd : Means t d) : c = d := by
  obtain ⟨e, he, rfl⟩ := exists_read_of_means hc
  obtain ⟨e', he', rfl⟩ := exists_read_of_means hd
  rw [he] at he'
  cases he'
  rfl

theorem isWritable_iff_of_means {t : Text} {c : Clause} (h : Means t c)
    : (∀ r ∈ c, r.IsWritable) ↔ ',' ∉ t := by
  constructor
  . intro hw hcomma
    obtain ⟨part, hpart, hmem⟩ := (mem_splitOn_iff (c := '|') (by decide)).mpr hcomma
    obtain ⟨r, hr, hspells⟩ := exists_of_mem_forall₂_left h hpart
    rw [← mem_trim_iff (by decide), Relation.separator_mem_iff (by decide) hspells] at hmem
    exact (hw r hr).noSeparator ',' (by decide) hmem
  . intro ht r hr
    obtain ⟨part, hpart, hspells⟩ := exists_of_mem_forall₂ h hr
    refine ⟨Relation.isGrammatical_of_spells hspells, ?_⟩
    intro ch hch hmention
    rw [← Relation.separator_mem_iff hch hspells,
      mem_trim_iff (Relation.separator_not_isBlank hch)] at hmention
    rcases Relation.separator_cases hch with rfl | rfl
    . exact ht ((mem_splitOn_iff (by decide)).mp ⟨part, hpart, hmention⟩)
    . exact not_mem_of_mem_splitOn hpart hmention

end Entry

namespace Segment

theorem blank_or_entry_of_read {t : Text} {s : Segment} (h : Segment.read t = .ok s)
    : trim t = [] ∧ s.content? = none ∨
      trim t ≠ [] ∧ ∃ e, s.content? = some e ∧ Entry.read (trim t) = .ok e := by
  unfold Segment.read at h
  split at h
  . next ht =>
    cases h
    exact .inl ⟨ht, rfl⟩
  . next ht =>
    obtain ⟨e, he, h⟩ := bind_eq_ok.mp h
    cases h
    exact .inr ⟨ht, e, rfl, he⟩

theorem exists_read_of_blank {t : Text} (h : trim t = [])
    : ∃ s, Segment.read t = .ok s ∧ s.content? = none := by
  unfold Segment.read
  rw [h]
  exact ⟨_, rfl, rfl⟩

theorem exists_read_of_means {t : Text} {c : Clause} (h : Entry.Means t c) (ht : trim t ≠ [])
    : ∃ s e, Segment.read t = .ok s ∧ s.content? = some e ∧ e.relations = c := by
  obtain ⟨e, he, hc⟩ := Entry.exists_read_of_means (Entry.means_trim_iff.mpr h)
  unfold Segment.read
  split
  . contradiction
  . rw [he]
    exact ⟨_, e, rfl, rfl, hc⟩

end Segment

namespace RelationField

def clauses (f : RelationField) : List Clause := f.entries.map (·.relations)

theorem entries_of_segments {parts : List Text} {ss : List Segment}
    (h : List.Forall₂ (fun part s => Segment.read part = .ok s) parts ss)
    : List.Forall₂ (fun part e => Entry.read (trim part) = .ok e)
        (parts.filter fun part => trim part ≠ []) (ss.filterMap (·.content?)) := by
  induction h with
  | nil => exact .nil
  | cons hread _ ih =>
    rcases Segment.blank_or_entry_of_read hread with ⟨ht, hs⟩ | ⟨ht, e, hs, he⟩
    . rw [List.filter_cons_of_neg (by simpa using ht), List.filterMap_cons_none hs]
      exact ih
    . rw [List.filter_cons_of_pos (by simpa using ht), List.filterMap_cons_some hs]
      exact .cons he ih

theorem entries_of_read {t : Text} {f : RelationField} (h : RelationField.read t = .ok f)
    : List.Forall₂ (fun part e => Entry.read (trim part) = .ok e) (parts t) f.entries := by
  obtain ⟨rfl, rfl⟩ | ⟨_, hss⟩ := segments_of_read h
  . exact .nil
  . exact entries_of_segments hss

theorem means_of_read {t : Text} {f : RelationField} (h : RelationField.read t = .ok f)
    : Means t f.clauses := by
  unfold Means clauses
  rw [List.forall₂_map_right_iff]
  apply (entries_of_read h).imp
  intro part e he
  exact Entry.means_trim_iff.mp (Entry.means_of_read he)

theorem exists_segments_of_means {parts : List Text} {cs : List Clause}
    (h : List.Forall₂ Entry.Means (parts.filter fun part => trim part ≠ []) cs)
    : ∃ ss, parts.mapM Segment.read = .ok ss ∧
        (ss.filterMap (·.content?)).map (·.relations) = cs := by
  induction parts generalizing cs with
  | nil =>
    cases h
    exact ⟨[], rfl, rfl⟩
  | cons part parts ih =>
    rw [List.mapM_cons]
    by_cases ht : trim part = []
    . rw [List.filter_cons_of_neg (by simpa using ht)] at h
      obtain ⟨s, hs, hcontent⟩ := Segment.exists_read_of_blank ht
      obtain ⟨ss, hss, rfl⟩ := ih h
      rw [hs, hss]
      refine ⟨s :: ss, rfl, ?_⟩
      rw [List.filterMap_cons_none hcontent]
    . rw [List.filter_cons_of_pos (by simpa using ht)] at h
      obtain ⟨c, cs, hc, hcs, rfl⟩ := List.forall₂_cons_left_iff.mp h
      obtain ⟨s, e, hs, hcontent, rfl⟩ := Segment.exists_read_of_means hc ht
      obtain ⟨ss, hss, rfl⟩ := ih hcs
      rw [hs, hss]
      refine ⟨s :: ss, rfl, ?_⟩
      rw [List.filterMap_cons_some hcontent, List.map_cons]

theorem exists_read_of_means {t : Text} {cs : List Clause} (h : Means t cs)
    : ∃ f, RelationField.read t = .ok f ∧ f.clauses = cs := by
  unfold RelationField.read
  cases t with
  | nil =>
    cases h
    exact ⟨{}, rfl, rfl⟩
  | cons c t =>
    obtain ⟨ss, hss, rfl⟩ := exists_segments_of_means h
    rw [hss]
    exact ⟨_, rfl, rfl⟩

theorem means_unique {t : Text} {cs ds : List Clause} (hc : Means t cs) (hd : Means t ds) : cs = ds := by
  obtain ⟨f, hf, rfl⟩ := exists_read_of_means hc
  obtain ⟨g, hg, rfl⟩ := exists_read_of_means hd
  rw [hf] at hg
  cases hg
  rfl

theorem means_trim_iff {t : Text} {cs : List Clause} : Means (trim t) cs ↔ Means t cs := by
  have hparts : ∀ t : Text, Means t cs ↔
      List.Forall₂ Entry.Means (((t.splitOn ',').map trim).filter fun part => part ≠ []) cs := by
    intro t
    unfold Means parts
    rw [List.filter_map, List.forall₂_map_left_iff]
    simp only [Entry.means_trim_iff]
    rfl
  rw [hparts, hparts, map_trim_splitOn_trim (by decide)]

theorem isWritable_of_means {t : Text} {cs : List Clause} (h : Means t cs)
    : ∀ c ∈ cs, ∀ r ∈ c, r.IsWritable := by
  intro c hc
  obtain ⟨part, hpart, hmeans⟩ := exists_of_mem_forall₂ h hc
  rw [Entry.isWritable_iff_of_means hmeans]
  exact not_mem_of_mem_splitOn (List.mem_filter.mp hpart).1

end RelationField

end DebianPackaging
