import Mathlib.Data.Bool.AllAny
import Mathlib.Data.List.Nodup
import DebianPackaging.Relation.Wrap
import DebianPackaging.Proofs.Relation.Order
import DebianPackaging.Proofs.Relation.ReadBack

/-!
This module contains what laying out a field does to its entries. The entries that are left are those whose
text did not occur before, in the stable order of their names, and both layouts are read back as them. Entries
are compared as they are written but written with one space around each bar, so laying out a field a second
time changes it again if two of its entries are written alike only then.
-/

namespace DebianPackaging

open Text

namespace Entry

/-- The first entries of each text, disregarding the blanks around it. -/
def firstOnes (es : List Entry) : List Entry := es.eraseDupsBy fun a b => a.text.trim == b.text.trim

/-- The second list has the entries of the first one in the order of their names; entries of the same name
keep their order. -/
structure IsStableSort (es es' : List Entry) : Prop where
  perm : es'.Perm es
  inOrder : InOrder es'
  stable : ∀ name, es'.filter (·.sortName == name) = es.filter (·.sortName == name)

theorem le_of_sortName_eq {a b : Entry} (h : a.sortName = b.sortName) : a.le b = true := by
  unfold le
  rw [h]
  exact (packageLe_total _ _).elim id id

theorem isStableSort_mergeSort (es : List Entry) : IsStableSort es (es.mergeSort le) := by
  have htrans : ∀ a b c : Entry, a.le b = true → b.le c = true → a.le c = true := by
    intro a b c
    exact le_trans
  have htotal : ∀ a b : Entry, (a.le b || b.le a) = true := by
    intro a b
    simpa using le_total a b
  refine ⟨List.mergeSort_perm es le, List.pairwise_mergeSort htrans htotal es, ?_⟩
  intro name
  -- entries of the same name are in order already, so the sort keeps them as a sublist
  have hsame : (es.filter (·.sortName == name)).Pairwise fun a b => a.le b = true := by
    apply List.pairwise_of_forall_mem_list
    intro a ha b hb
    rw [List.mem_filter, beq_iff_eq] at ha hb
    exact le_of_sortName_eq (ha.2.trans hb.2.symm)
  have hsub := (List.sublist_mergeSort htrans htotal hsame List.filter_sublist).filter (·.sortName == name)
  rw [List.filter_filter] at hsub
  simp only [Bool.and_self] at hsub
  have hlength := ((List.mergeSort_perm es le).filter (·.sortName == name)).length_eq
  exact (hsub.eq_of_length hlength.symm).symm

theorem distinct_eq (seen : List Text) (es : List Entry)
    : distinct seen es = firstOnes (es.filter fun e => !seen.contains e.text.trim) := by
  unfold firstOnes
  induction es generalizing seen with
  | nil => rfl
  | cons e es ih =>
    unfold distinct
    dsimp only
    split
    . next hseen =>
      rw [List.filter_cons_of_neg (by simpa using hseen)]
      exact ih seen
    . next hseen =>
      rw [List.filter_cons_of_pos (by simpa using hseen), List.eraseDupsBy_cons, List.filter_filter, ih]
      congr 3
      funext o
      simp [Bool.beq_eq_decide_eq]

theorem distinct_nil (es : List Entry) : distinct [] es = firstOnes es := by
  rw [distinct_eq]
  simp

theorem distinct_sublist (seen : List Text) (es : List Entry) : (distinct seen es).Sublist es := by
  induction es generalizing seen with
  | nil => exact .slnil
  | cons e es ih =>
    unfold distinct
    dsimp only
    split
    . exact (ih seen).cons e
    . exact (ih _).cons_cons e

theorem nodup_distinct (seen : List Text) (es : List Entry)
    : ((distinct seen es).map (·.text.trim)).Nodup ∧ ∀ e ∈ distinct seen es, e.text.trim ∉ seen := by
  induction es generalizing seen with
  | nil => simp [distinct]
  | cons e es ih =>
    unfold distinct
    dsimp only
    split
    . exact ih seen
    . next hseen =>
      obtain ⟨hnodup, hnew⟩ := ih (e.text.trim :: seen)
      simp only [List.mem_cons, not_or] at hnew
      rw [List.map_cons, List.nodup_cons, List.forall_mem_cons]
      refine ⟨⟨?_, hnodup⟩, by simpa using hseen, fun o ho => (hnew o ho).2⟩
      intro h
      obtain ⟨o, ho, htext⟩ := List.mem_map.mp h
      exact (hnew o ho).1 htext

theorem exists_mem_distinct (seen : List Text) {es : List Entry} {e : Entry} (he : e ∈ es)
    : e.text.trim ∈ seen ∨ ∃ o ∈ distinct seen es, o.text.trim = e.text.trim := by
  induction es generalizing seen with
  | nil => cases he
  | cons a es ih =>
    unfold distinct
    dsimp only
    split
    . next hseen =>
      cases List.mem_cons.mp he with
      | inl he =>
        rw [he]
        exact .inl (by simpa using hseen)
      | inr he => exact ih seen he
    . cases List.mem_cons.mp he with
      | inl he =>
        rw [he]
        exact .inr ⟨a, by simp, rfl⟩
      | inr he =>
        rcases ih (a.text.trim :: seen) he with h | ⟨o, ho, htext⟩
        . cases List.mem_cons.mp h with
          | inl h => exact .inr ⟨a, by simp, h.symm⟩
          | inr h => exact .inl h
        . exact .inr ⟨o, by simp [ho], htext⟩

theorem distinct_eq_self_iff {es : List Entry}
    : distinct [] es = es ↔ (es.map (·.text.trim)).Nodup := by
  constructor
  . intro h
    rw [← h]
    exact (nodup_distinct [] es).1
  . intro h
    have hself : ∀ seen : List Text, (∀ e ∈ es, e.text.trim ∉ seen) → distinct seen es = es := by
      induction es with
      | nil => simp [distinct]
      | cons e es ih =>
        rw [List.map_cons, List.nodup_cons] at h
        intro seen hseen
        rw [List.forall_mem_cons] at hseen
        unfold distinct
        dsimp only
        rw [if_neg (by simpa using hseen.1), ih h.2]
        intro o ho
        rw [List.mem_cons, not_or]
        refine ⟨?_, hseen.2 o ho⟩
        intro htext
        exact h.1 (List.mem_map.mpr ⟨o, ho, htext⟩)
    exact hself [] (by simp)

structure Evens (e e' : Entry) : Prop where
  relations : e'.relations = e.relations
  text : e'.text = e.evenText
  evenText : e'.evenText = e.evenText

theorem spelled_text_of_read {whole part : Text} {a : Alternative}
    (h : readAlternative whole part = .ok a) : a.spelled.text = trim part := by
  unfold readAlternative at h
  split at h
  . cases h
  . obtain ⟨s, hs, h⟩ := bind_eq_ok.mp h
    cases h
    exact SpelledRelation.text_of_read hs

theorem spelled_texts_of_read {t : Text} {e : Entry} (h : Entry.read t = .ok e)
    : e.alternatives.map (·.spelled.text) = (t.splitOn '|').map trim := by
  apply map_eq_of_forall₂
  rw [List.forall₂_map_left_iff]
  apply (alternatives_of_read h).imp
  intro part a ha
  exact spelled_text_of_read ha

section Even

variable {t : Text} {e : Entry} (h : Entry.read t = .ok e)

include h

theorem trimmed_spelled_texts
    : ∀ w ∈ e.alternatives.map (·.spelled.text), (IsTrimmed w ∧ w ≠ []) ∧ '|' ∉ w := by
  rw [spelled_texts_of_read h, List.forall_mem_map]
  intro part hpart
  refine ⟨⟨isTrimmed_trim part, ?_⟩, ?_⟩
  . intro htrim
    obtain ⟨r, _, hspells⟩ := exists_of_mem_forall₂_left (means_of_read h) hpart
    rw [htrim] at hspells
    exact Relation.not_spells_nil r hspells
  . rw [mem_trim_iff (by decide)]
    exact not_mem_of_mem_splitOn hpart

theorem map_trim_splitOn_evenText : (e.evenText.splitOn '|').map trim = (t.splitOn '|').map trim := by
  rw [← spelled_texts_of_read h]
  apply map_trim_splitOn_join (by decide) isBlankText_space isBlankText_space
  . intro w hw
    exact ⟨(trimmed_spelled_texts h w hw).1.1, (trimmed_spelled_texts h w hw).2⟩
  . unfold alternatives
    simp

theorem isTrimmed_evenText : IsTrimmed e.evenText ∧ e.evenText ≠ [] := by
  apply isTrimmed_join
  . intro w hw
    exact (trimmed_spelled_texts h w hw).1
  . unfold alternatives
    simp

theorem means_evenText : Means e.evenText e.relations := by
  have hmeans := means_of_read h
  unfold Means at hmeans ⊢
  rw [← List.forall₂_map_left_iff (f := trim) (R := fun part r => Relation.Spells r part)] at hmeans ⊢
  rw [map_trim_splitOn_evenText h]
  exact hmeans

theorem comma_not_mem_evenText (hcomma : ',' ∉ t) : ',' ∉ e.evenText := by
  rw [← isWritable_iff_of_means (means_evenText h), isWritable_iff_of_means (means_of_read h)]
  exact hcomma

theorem evens_of_read {e' : Entry} (h' : Entry.read e.evenText = .ok e') : Evens e e' := by
  refine ⟨means_unique (means_of_read h') (means_evenText h), text_of_read h', ?_⟩
  have htexts : e'.alternatives.map (·.spelled.text) = e.alternatives.map (·.spelled.text) := by
    rw [spelled_texts_of_read h', map_trim_splitOn_evenText h, spelled_texts_of_read h]
  unfold evenText
  rw [htexts]

end Even

theorem Evens.text_eq {e e' : Entry} (h : Evens e e') : e'.text = e'.evenText :=
  h.text.trans h.evenText.symm

theorem sortName_eq_of_relations {e e' : Entry} (h : e'.relations = e.relations)
    : e'.sortName = e.sortName := congrArg Relation.name (List.cons.inj h).1

section EvensAll

variable {es es' : List Entry} (h : List.Forall₂ Evens es es')

include h

theorem map_relations_of_evens : es'.map (·.relations) = es.map (·.relations) := by
  apply map_eq_of_forall₂
  rw [List.forall₂_map_left_iff]
  exact h.imp fun _ _ he => he.relations

theorem map_text_of_evens : es'.map (·.text) = es.map (·.evenText) := by
  apply map_eq_of_forall₂
  rw [List.forall₂_map_left_iff]
  exact h.imp fun _ _ he => he.text

theorem map_evenText_of_evens : es'.map (·.evenText) = es.map (·.evenText) := by
  apply map_eq_of_forall₂
  rw [List.forall₂_map_left_iff]
  exact h.imp fun _ _ he => he.evenText

theorem inOrder_of_evens (horder : InOrder es) : InOrder es' := by
  have hnames : es'.map (·.sortName) = es.map (·.sortName) := by
    apply map_eq_of_forall₂
    rw [List.forall₂_map_left_iff]
    exact h.imp fun _ _ he => sortName_eq_of_relations he.relations
  have hpairs : (es.map (·.sortName)).Pairwise fun a b => packageLe a b = true :=
    List.pairwise_map.mpr horder
  rw [← hnames] at hpairs
  exact List.pairwise_map.mp hpairs

end EvensAll

end Entry

namespace RelationField

theorem parts_join {b b' : Text} (hb : IsBlankText b) (hb' : IsBlankText b') {ws : List Text}
    (h : ∀ w ∈ ws, (IsTrimmed w ∧ w ≠ []) ∧ ',' ∉ w)
    : (parts (join (b ++ ',' :: b') ws)).map trim = ws := by
  unfold parts
  cases ws with
  | nil => rfl
  | cons w ws =>
    have hfilter := List.filter_map (f := trim) (p := fun w => w ≠ [])
      (l := (join (b ++ ',' :: b') (w :: ws)).splitOn ',')
    rw [map_trim_splitOn_join (by decide) hb hb' (fun v hv => ⟨(h v hv).1.1, (h v hv).2⟩) (by simp),
      List.filter_eq_self.mpr (fun v hv => by simpa using (h v hv).1.2)] at hfilter
    exact hfilter.symm

theorem means_join_iff {b b' : Text} (hb : IsBlankText b) (hb' : IsBlankText b') {ws : List Text}
    (h : ∀ w ∈ ws, (IsTrimmed w ∧ w ≠ []) ∧ ',' ∉ w) {cs : List Clause}
    : Means (join (b ++ ',' :: b') ws) cs ↔ List.Forall₂ Entry.Means ws cs := by
  unfold Means
  conv_rhs => rw [← parts_join hb hb' h, List.forall₂_map_left_iff]
  simp only [Entry.means_trim_iff]

theorem mem_entries_of_mem_sortedEntries {f : RelationField} {e : Entry} (h : e ∈ f.sortedEntries)
    : e ∈ f.entries :=
  (Entry.distinct_sublist [] f.entries).subset (List.mem_mergeSort.mp h)

theorem inOrder_sortedEntries (f : RelationField) : Entry.InOrder f.sortedEntries :=
  (Entry.isStableSort_mergeSort _).inOrder

theorem sortedEntries_of_inOrder {f : RelationField} (h : Entry.InOrder f.entries)
    : f.sortedEntries = Entry.distinct [] f.entries :=
  List.mergeSort_of_pairwise (List.Pairwise.sublist (Entry.distinct_sublist [] f.entries) h)

theorem wrapAndSort_congr {f g : RelationField}
    (h : g.sortedEntries.map (·.evenText) = f.sortedEntries.map (·.evenText)) (name : Text)
    : g.wrapAndSort name = f.wrapAndSort name := by
  unfold wrapAndSort
  rw [h]

section Read

variable {t : Text} {f : RelationField} (h : RelationField.read t = .ok f)

include h

theorem read_entry {e : Entry} (he : e ∈ f.entries)
    : Entry.read e.text = .ok e ∧ IsTrimmed e.text ∧ ',' ∉ e.text := by
  obtain ⟨part, hpart, hread⟩ := entry_of_read h he
  rw [Entry.text_of_read hread]
  refine ⟨hread, isTrimmed_trim part, ?_⟩
  rw [mem_trim_iff (by decide)]
  exact not_mem_of_mem_splitOn hpart

theorem eq_of_text_eq {a b : Entry} (ha : a ∈ f.entries) (hb : b ∈ f.entries) (htext : a.text = b.text)
    : a = b := by
  have hread := (read_entry h ha).1
  rw [htext, (read_entry h hb).1] at hread
  cases hread
  rfl

theorem mem_sortedEntries_iff {e : Entry} : e ∈ f.sortedEntries ↔ e ∈ f.entries := by
  constructor
  . exact mem_entries_of_mem_sortedEntries
  . intro he
    unfold sortedEntries
    rw [List.mem_mergeSort]
    rcases Entry.exists_mem_distinct [] he with hseen | ⟨o, ho, htext⟩
    . cases hseen
    . have ho' := (Entry.distinct_sublist [] f.entries).subset ho
      rw [(read_entry h he).2.1.trim_eq, (read_entry h ho').2.1.trim_eq] at htext
      rwa [← eq_of_text_eq h ho' he htext]

theorem trimmed_evenTexts
    : ∀ w ∈ f.sortedEntries.map (·.evenText), (IsTrimmed w ∧ w ≠ []) ∧ ',' ∉ w := by
  rw [List.forall_mem_map]
  intro e he
  obtain ⟨hread, _, hcomma⟩ := read_entry h (mem_entries_of_mem_sortedEntries he)
  exact ⟨Entry.isTrimmed_evenText hread, Entry.comma_not_mem_evenText hread hcomma⟩

theorem parts_wrapAndSort (name : Text)
    : (parts (f.wrapAndSort name)).map trim = f.sortedEntries.map (·.evenText) := by
  unfold wrapAndSort
  dsimp only
  split
  . exact parts_join isBlankText_nil isBlankText_space (trimmed_evenTexts h)
  . have hbreak : IsBlankText "\n    " := List.all_iff_forall_prop.mp (by decide)
    exact parts_join isBlankText_nil hbreak (trimmed_evenTexts h)

theorem means_wrapAndSort (name : Text)
    : Means (f.wrapAndSort name) (f.sortedEntries.map (·.relations)) := by
  have hmeans : List.Forall₂ Entry.Means (f.sortedEntries.map (·.evenText))
      (f.sortedEntries.map (·.relations)) := by
    rw [List.forall₂_map_left_iff, List.forall₂_map_right_iff, List.forall₂_same]
    intro e he
    exact Entry.means_evenText (read_entry h (mem_entries_of_mem_sortedEntries he)).1
  rw [← parts_wrapAndSort h name, List.forall₂_map_left_iff] at hmeans
  exact hmeans.imp fun _ _ => Entry.means_trim_iff.mp

theorem exists_read_wrapAndSort (name : Text)
    : ∃ g, RelationField.read (f.wrapAndSort name) = .ok g ∧
        List.Forall₂ Entry.Evens f.sortedEntries g.entries := by
  obtain ⟨g, hg, _⟩ := exists_read_of_means (means_wrapAndSort h name)
  refine ⟨g, hg, ?_⟩
  have hentries := entries_of_read hg
  rw [← List.forall₂_map_left_iff (f := trim) (R := fun w e => Entry.read w = .ok e),
    parts_wrapAndSort h name, List.forall₂_map_left_iff] at hentries
  have hreads : ∀ e ∈ f.sortedEntries, Entry.read e.text = .ok e := by
    intro e he
    exact (read_entry h (mem_entries_of_mem_sortedEntries he)).1
  apply ((List.forall₂_and_left _ _).mpr ⟨hreads, hentries⟩).imp
  rintro e e' ⟨he, he'⟩
  exact Entry.evens_of_read he he'

theorem nodup_evenTexts_iff
    : (f.sortedEntries.map (·.evenText)).Nodup ↔
        ∀ a ∈ f.entries, ∀ b ∈ f.entries, a.evenText = b.evenText → a.text = b.text := by
  have hnodup : f.sortedEntries.Nodup := by
    unfold sortedEntries
    rw [(List.mergeSort_perm _ _).nodup_iff]
    exact (Entry.nodup_distinct [] f.entries).1.of_map _
  rw [List.nodup_map_iff_inj_on hnodup]
  simp only [mem_sortedEntries_iff h]
  constructor
  . intro hinj a ha b hb heven
    rw [hinj a ha b hb heven]
  . intro htext a ha b hb heven
    exact eq_of_text_eq h ha hb (htext a ha b hb heven)

end Read

theorem wrapAndSort_eq_iff {f g : RelationField} {name : Text}
    (hg : RelationField.read (f.wrapAndSort name) = .ok g)
    (hevens : List.Forall₂ Entry.Evens f.sortedEntries g.entries)
    : g.wrapAndSort name = f.wrapAndSort name ↔ (f.sortedEntries.map (·.evenText)).Nodup := by
  have hsorted : g.sortedEntries = Entry.distinct [] g.entries :=
    sortedEntries_of_inOrder (Entry.inOrder_of_evens hevens (inOrder_sortedEntries f))
  have htexts : g.entries.map (·.text.trim) = f.sortedEntries.map (·.evenText) := by
    rw [← Entry.map_text_of_evens hevens]
    apply List.map_congr_left
    intro e he
    exact (read_entry hg he).2.1.trim_eq
  rw [← htexts, ← Entry.distinct_eq_self_iff]
  constructor
  . intro hsame
    obtain ⟨g', hg', hevens'⟩ := exists_read_wrapAndSort hg name
    rw [hsame, hg] at hg'
    cases hg'
    -- the second pass was read back as the same entries, so it left none out
    rw [hsorted] at hevens'
    exact (Entry.distinct_sublist [] g.entries).eq_of_length hevens'.length_eq
  . intro hdistinct
    apply wrapAndSort_congr
    rw [hsorted, hdistinct]
    exact Entry.map_evenText_of_evens hevens

/-- A field that was laid out is read back as the first entries of each text in the stable order of their
names, so no dependency is lost and none is new. -/
theorem clauses_wrapAndSort (t : Text) (f : RelationField) (name : Text)
    (h : RelationField.read t = .ok f)
    : ∃ g es, RelationField.read (f.wrapAndSort name) = .ok g ∧
        Entry.IsStableSort (Entry.firstOnes f.entries) es ∧ g.clauses = es.map (·.relations) ∧
        ∀ c, c ∈ g.clauses ↔ c ∈ f.clauses := by
  obtain ⟨g, hg, hevens⟩ := exists_read_wrapAndSort h name
  have hclauses : g.clauses = f.sortedEntries.map (·.relations) := Entry.map_relations_of_evens hevens
  refine ⟨g, f.sortedEntries, hg, ?_, hclauses, ?_⟩
  . unfold sortedEntries
    rw [Entry.distinct_nil]
    exact Entry.isStableSort_mergeSort _
  . intro c
    rw [hclauses]
    unfold clauses
    simp only [List.mem_map, mem_sortedEntries_iff h]

theorem clauses_wrapAndSort_lines
    : ∃ f g es, RelationField.read "a,\n b|a , b (>= 1), b|a, ${x}" = .ok f ∧
        RelationField.read (f.wrapAndSort "Depends") = .ok g ∧
        Entry.IsStableSort (Entry.firstOnes f.entries) es ∧ g.clauses = es.map (·.relations) ∧
        g.clauses = [[{ name := "a" }], [{ name := "b" }, { name := "a" }],
          [{ name := "b", constraint := some ⟨">=", "1"⟩ }], [{ name := "${x}" }]] := by
  let plain (name : Text) : Entry := ⟨⟨[], ⟨{ name }, some name⟩, []⟩, []⟩
  let either : Entry := ⟨⟨[], ⟨{ name := "b" }, some "b"⟩, []⟩, [⟨[], ⟨{ name := "a" }, some "a"⟩, []⟩]⟩
  let bounded : Entry :=
    ⟨⟨[], ⟨{ name := "b", constraint := some ⟨">=", "1"⟩ }, some "b (>= 1)"⟩, []⟩, []⟩
  let f : RelationField := ⟨[.entry [] (plain "a") [], .entry "\n " either " ", .entry " " bounded [],
    .entry " " either [], .entry " " (plain "${x}") []]⟩
  have hf : RelationField.read "a,\n b|a , b (>= 1), b|a, ${x}" = .ok f := by decide +kernel
  have hsorted : f.sortedEntries = [plain "a", either, bounded, plain "${x}"] :=
    List.mergeSort_of_pairwise (by decide +kernel)
  have hwrap : f.wrapAndSort "Depends" = "a, b | a, b (>= 1), ${x}" := by
    unfold wrapAndSort
    rw [hsorted]
    decide +kernel
  obtain ⟨g, es, hg, hsort, hclauses, _⟩ := clauses_wrapAndSort _ f "Depends" hf
  refine ⟨f, g, es, hf, hg, hsort, hclauses, ?_⟩
  rw [hwrap] at hg
  have hread : (RelationField.read "a, b | a, b (>= 1), ${x}").map clauses = .ok
      [[{ name := "a" }], [{ name := "b" }, { name := "a" }],
        [{ name := "b", constraint := some ⟨">=", "1"⟩ }], [{ name := "${x}" }]] := by decide +kernel
  rw [hg] at hread
  exact Except.ok.inj hread

/-- Entries are compared as they are written at first, so laying out a field a second time leaves out entries
that only the first pass wrote alike. A third pass changes nothing. -/
theorem wrapAndSort_twice_iff (t : Text) (f : RelationField) (name : Text)
    (h : RelationField.read t = .ok f)
    : ∃ g, RelationField.read (f.wrapAndSort name) = .ok g ∧
        (g.wrapAndSort name = f.wrapAndSort name ↔
          ∀ a ∈ f.entries, ∀ b ∈ f.entries, a.evenText = b.evenText → a.text = b.text) ∧
        ∃ g', RelationField.read (g.wrapAndSort name) = .ok g' ∧
          g'.wrapAndSort name = g.wrapAndSort name := by
  obtain ⟨g, hg, hevens⟩ := exists_read_wrapAndSort h name
  obtain ⟨g', hg', hevens'⟩ := exists_read_wrapAndSort hg name
  refine ⟨g, hg, ?_, g', hg', ?_⟩
  . rw [wrapAndSort_eq_iff hg hevens, nodup_evenTexts_iff h]
  . rw [wrapAndSort_eq_iff hg' hevens', nodup_evenTexts_iff hg]
    intro a ha b hb heven
    obtain ⟨_, _, ha⟩ := exists_of_mem_forall₂ hevens ha
    obtain ⟨_, _, hb⟩ := exists_of_mem_forall₂ hevens hb
    rw [ha.text_eq, hb.text_eq, heven]

theorem wrapAndSort_twice_iff_bars
    : ∃ f g, RelationField.read "a|b, a | b" = .ok f ∧
        RelationField.read (f.wrapAndSort "Build-Depends") = .ok g ∧
        f.wrapAndSort "Build-Depends" = "a | b, a | b" ∧ g.wrapAndSort "Build-Depends" = "a | b" ∧
        ¬ ∀ a ∈ f.entries, ∀ b ∈ f.entries, a.evenText = b.evenText → a.text = b.text := by
  let a (trail : Text) : Alternative := ⟨[], ⟨{ name := "a" }, some "a"⟩, trail⟩
  let b (lead : Text) : Alternative := ⟨lead, ⟨{ name := "b" }, some "b"⟩, []⟩
  let f : RelationField := ⟨[.entry [] ⟨a [], [b []]⟩ [], .entry " " ⟨a " ", [b " "]⟩ []]⟩
  let g : RelationField := ⟨[.entry [] ⟨a " ", [b " "]⟩ [], .entry " " ⟨a " ", [b " "]⟩ []]⟩
  have hf : RelationField.read "a|b, a | b" = .ok f := by decide +kernel
  have hfirst : f.wrapAndSort "Build-Depends" = "a | b, a | b" := by
    unfold wrapAndSort
    rw [sortedEntries_of_inOrder (Entry.areSorted_iff.mp (by decide +kernel))]
    decide +kernel
  have hsecond : g.wrapAndSort "Build-Depends" = "a | b" := by
    unfold wrapAndSort
    rw [sortedEntries_of_inOrder (Entry.areSorted_iff.mp (by decide +kernel))]
    decide +kernel
  have hg : RelationField.read (f.wrapAndSort "Build-Depends") = .ok g := by
    rw [hfirst]
    decide +kernel
  refine ⟨f, g, hf, hg, hfirst, hsecond, ?_⟩
  obtain ⟨g', hg', hiff, _⟩ := wrapAndSort_twice_iff _ f "Build-Depends" hf
  rw [hg] at hg'
  cases hg'
  rw [← hiff, hfirst, hsecond]
  decide

end RelationField

end DebianPackaging
