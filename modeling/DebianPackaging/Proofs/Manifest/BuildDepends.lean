import DebianPackaging.Manifest.BuildDepends
import DebianPackaging.Proofs.Manifest.Texts
import DebianPackaging.Proofs.Relation.ReadBack

/-!
This module contains the proof that build dependencies that are stored in a manifest are read back, also
where several of them share an item of the array.
-/

namespace DebianPackaging

open Text

namespace RelationField

theorem means_entryText {e : Entry} (he : e.IsHonest) (hw : e.IsWritable)
    : Means (Manifest.entryText e) [e.relations] := by
  have hcomma : ',' ∉ trim e.text := by
    rw [mem_trim_iff (by decide)]
    exact Entry.comma_not_mem_text he hw
  have hsplit : (trim e.text).splitOn ',' = [trim e.text] := by
    apply List.splitOnP_eq_singleton
    intro c hc
    rw [beq_eq_false_iff_ne]
    intro h
    rw [h] at hc
    exact hcomma hc
  have hne : trim (trim e.text) ≠ [] := by
    rw [trim_trim]
    exact Entry.trim_text_ne_nil he hw
  unfold Means parts Manifest.entryText
  rw [hsplit, List.filter_cons_of_pos (by simpa using hne)]
  exact .cons (Entry.means_trim_iff.mpr (Entry.means_text he hw)) .nil

theorem forall₂_means_entryText {f : RelationField} (hf : f.IsHonest) (hw : f.IsWritable)
    : List.Forall₂ (fun t c => Means t [c]) (f.entries.map Manifest.entryText) f.clauses := by
  unfold clauses
  rw [List.forall₂_map_left_iff, List.forall₂_map_right_iff, List.forall₂_same]
  intro e he
  exact means_entryText (isHonest_of_mem_entries hf he) (hw e he)

@[simp]
theorem entries_ofEntries (es : List Entry) : (ofEntries es).entries = es := by
  cases es with
  | nil => rfl
  | cons e es =>
    unfold ofEntries RelationField.entries
    simp [List.filterMap_map, Segment.content?]

theorem isHonest_ofEntries {es : List Entry} (h : ∀ e ∈ es, e.IsHonest) : (ofEntries es).IsHonest := by
  cases es with
  | nil =>
    intro s hs
    cases hs
  | cons e es =>
    rw [List.forall_mem_cons] at h
    unfold ofEntries IsHonest
    rw [List.forall_mem_cons]
    refine ⟨.entry isBlankText_nil h.1 isBlankText_nil, ?_⟩
    intro s hs
    obtain ⟨o, ho, rfl⟩ := List.mem_map.mp hs
    exact .entry isBlankText_space (h.2 o ho) isBlankText_nil

theorem isWritable_ofEntries {es : List Entry} (h : ∀ e ∈ es, e.IsWritable)
    : (ofEntries es).IsWritable := by
  unfold IsWritable
  rw [entries_ofEntries]
  exact h

end RelationField

namespace Manifest

/-- Texts mean the entries in all of them, in order, and each of them has one. -/
inductive Mean : List Text → List Clause → Prop where
  | nil : Mean [] []
  | cons {t : Text} {ts : List Text} {cs ds : List Clause} (ht : RelationField.Means t cs)
    (hne : cs ≠ []) (hts : Mean ts ds) : Mean (t :: ts) (cs ++ ds)

/-- What stays in the array of the build dependencies once a field is stored is a text. -/
def KeepsEntries (m : Manifest) (f : RelationField) : Prop :=
  ∀ old new, m.sourceTexts? buildDependsKey = .ok old → newItems old f = .ok new →
    m.KeepsTexts buildDependsKey new

theorem readEntries_eq_ok {t : Text} {es : List Entry}
    : readEntries t = .ok es ↔ ∃ f, RelationField.read t = .ok f ∧ f.entries = es := by
  unfold readEntries
  rw [bind_eq_ok]
  constructor
  . rintro ⟨f, hf, h⟩
    cases h
    exact ⟨f, hf, rfl⟩
  . rintro ⟨f, hf, rfl⟩
    exact ⟨f, hf, rfl⟩

theorem entriesOf_eq_ok {ts : List Text} {es : List Entry}
    : entriesOf ts = .ok es ↔
        ∃ ess, List.Forall₂ (fun t es => readEntries t = .ok es) ts ess ∧ ess.flatten = es := by
  unfold entriesOf
  rw [bind_eq_ok]
  constructor
  . rintro ⟨ess, hess, h⟩
    cases h
    exact ⟨ess, mapM_eq_ok.mp hess, rfl⟩
  . rintro ⟨ess, hess, rfl⟩
    exact ⟨ess, mapM_eq_ok.mpr hess, rfl⟩

theorem exists_entriesOf_of_mean {ts : List Text} {cs : List Clause} (h : Mean ts cs)
    : ∃ es, entriesOf ts = .ok es ∧ es.map (·.relations) = cs := by
  induction h with
  | nil => exact ⟨[], rfl, rfl⟩
  | cons ht _ _ ih =>
    obtain ⟨f, hf, rfl⟩ := RelationField.exists_read_of_means ht
    obtain ⟨es, hes, rfl⟩ := ih
    obtain ⟨ess, hess, rfl⟩ := entriesOf_eq_ok.mp hes
    refine ⟨f.entries ++ ess.flatten, ?_, List.map_append⟩
    rw [entriesOf_eq_ok]
    exact ⟨f.entries :: ess, .cons (readEntries_eq_ok.mpr ⟨f, hf, rfl⟩) hess, rfl⟩

theorem isHonest_of_entriesOf {ts : List Text} {es : List Entry} (h : entriesOf ts = .ok es)
    : (RelationField.ofEntries es).IsHonest ∧ (RelationField.ofEntries es).IsWritable := by
  have hmem : ∀ e ∈ es, e.IsHonest ∧ e.IsWritable := by
    obtain ⟨ess, hess, rfl⟩ := entriesOf_eq_ok.mp h
    intro e he
    obtain ⟨es', hes', he⟩ := List.mem_flatten.mp he
    obtain ⟨t, _, hread⟩ := exists_of_mem_forall₂ hess hes'
    obtain ⟨f, hf, rfl⟩ := readEntries_eq_ok.mp hread
    exact ⟨RelationField.isHonest_of_mem_entries (RelationField.isHonest_of_read hf) he,
      RelationField.isWritable_of_read hf e he⟩
  exact ⟨RelationField.isHonest_ofEntries fun e he => (hmem e he).1,
    RelationField.isWritable_ofEntries fun e he => (hmem e he).2⟩

def ItemGroup.IsRead (g : ItemGroup) : Prop :=
  ∃ es, readEntries g.item = .ok es ∧ es.map entryText = g.entries

theorem ItemGroup.isRead_of_ofItem? {item : Text} {g : ItemGroup}
    (h : ItemGroup.ofItem? item = .ok (some g)) : g.IsRead := by
  unfold ItemGroup.ofItem? at h
  obtain ⟨es, hes, h⟩ := bind_eq_ok.mp h
  split at h
  . next first second others heq =>
    cases h
    exact ⟨es, hes, heq⟩
  . cases h

theorem ItemGroup.means_item {g : ItemGroup} (hg : g.IsRead) {cs : List Clause}
    (h : List.Forall₂ (fun t c => RelationField.Means t [c]) g.entries cs)
    : RelationField.Means g.item cs := by
  obtain ⟨es, hes, htexts⟩ := hg
  obtain ⟨f, hf, rfl⟩ := readEntries_eq_ok.mp hes
  have hmeans := RelationField.forall₂_means_entryText (RelationField.isHonest_of_read hf)
    (RelationField.isWritable_of_read hf)
  rw [htexts] at hmeans
  have heq : cs = f.clauses := by
    generalize g.entries = ts at h hmeans
    generalize f.clauses = ds at hmeans
    induction h generalizing ds with
    | nil =>
      cases hmeans
      rfl
    | cons hc _ ih =>
      cases hmeans with
      | cons hd hds =>
        have := RelationField.means_unique hc hd
        rw [List.singleton_inj.mp this, ih _ hds]
  rw [heq]
  exact RelationField.means_of_read hf

theorem mean_regroup {groups : List ItemGroup} (hgroups : ∀ g ∈ groups, g.IsRead) {ts : List Text}
    {cs : List Clause} (h : List.Forall₂ (fun t c => RelationField.Means t [c]) ts cs)
    : Mean (regroup groups ts) cs := by
  fun_induction regroup groups ts generalizing cs with
  | case1 =>
    cases h
    exact .nil
  | case2 t ts g hfind ih =>
    -- the texts of the group stand in front, and what they mean is what its item means
    have hg := hgroups g (List.mem_of_find?_eq_some hfind)
    have hprefix := List.find?_some hfind
    obtain ⟨rest, hrest⟩ := List.isPrefixOf_iff_prefix.mp hprefix
    have hdrop : ts.drop (g.others.length + 1) = rest := by
      have := congrArg (List.drop (g.others.length + 2)) hrest
      rw [List.drop_succ_cons] at this
      rw [← this]
      exact List.drop_left' rfl
    rw [hdrop] at ih ⊢
    rw [← hrest] at h
    obtain ⟨cs₁, cs₂, h₁, h₂, rfl⟩ := exists_of_forall₂_append h
    refine .cons (ItemGroup.means_item hg h₁) ?_ (ih h₂)
    intro hnil
    rw [hnil] at h₁
    cases h₁
  | case3 t ts hfind ih =>
    obtain ⟨c, cs, hc, hcs, rfl⟩ := List.forall₂_cons_left_iff.mp h
    exact .cons hc (List.cons_ne_nil c []) (ih hcs)

theorem mean_of_forall₂ {ts : List Text} {cs : List Clause}
    (h : List.Forall₂ (fun t c => RelationField.Means t [c]) ts cs) : Mean ts cs := by
  induction h with
  | nil => exact .nil
  | @cons t c ts cs hc _ ih => exact .cons hc (List.cons_ne_nil c []) ih

theorem exists_mean_of_sublist {ts us : List Text} {cs : List Clause} (h : Mean us cs)
    (hsublist : ts.Sublist us) : ∃ ds, Mean ts ds ∧ ds.Sublist cs ∧ (ds = cs ↔ ts = us) := by
  induction h generalizing ts with
  | nil =>
    rw [List.sublist_nil] at hsublist
    subst hsublist
    exact ⟨[], .nil, List.Sublist.refl [], by simp⟩
  | @cons u us cs cs' hu hne hus ih =>
    cases hsublist with
    | cons _ hrest =>
      obtain ⟨ds, hds, hsub, _⟩ := ih hrest
      refine ⟨ds, hds, hsub.trans (List.sublist_append_right cs cs'), ?_⟩
      constructor
      . intro heq
        -- a text that is left out means at least one entry, which the number of entries shows
        have hle := hsub.length_le
        have hpos := List.length_pos_iff.mpr hne
        rw [heq, List.length_append] at hle
        omega
      . intro heq
        have hle := hrest.length_le
        rw [heq, List.length_cons] at hle
        omega
    | @cons_cons ts _ _ hrest =>
      obtain ⟨ds, hds, hsub, hiff⟩ := ih hrest
      refine ⟨cs ++ ds, .cons hu hne hds, (List.Sublist.refl cs).append hsub, ?_⟩
      simp [hiff]

theorem exists_groups {old : List Text} {es : List Entry} (h : entriesOf old = .ok es)
    : ∃ groups, old.mapM ItemGroup.ofItem? = .ok groups ∧ ∀ g ∈ groups.filterMap id, g.IsRead := by
  obtain ⟨ess, hess, -⟩ := entriesOf_eq_ok.mp h
  have hgroups : ∃ groups, old.mapM ItemGroup.ofItem? = .ok groups := by
    clear h
    induction hess with
    | nil => exact ⟨[], rfl⟩
    | @cons item es _ _ hread _ ih =>
      obtain ⟨groups, hgroups⟩ := ih
      have hgroup : ∃ group, ItemGroup.ofItem? item = .ok group := by
        refine Exists.imp (fun _ h => bind_eq_ok.mpr ⟨es, hread, h⟩) ?_
        split <;> exact ⟨_, rfl⟩
      obtain ⟨group, hgroup⟩ := hgroup
      refine ⟨group :: groups, ?_⟩
      rw [List.mapM_cons, hgroup, hgroups]
      rfl
  obtain ⟨groups, hgroups⟩ := hgroups
  refine ⟨groups, hgroups, ?_⟩
  intro g hg
  obtain ⟨g', hg', rfl⟩ := List.mem_filterMap.mp hg
  obtain ⟨item, _, hitem⟩ := exists_of_mem_forall₂ (mapM_eq_ok.mp hgroups) hg'
  exact ItemGroup.isRead_of_ofItem? hitem

theorem buildDepends_eq_ok {m : Manifest} {f : RelationField}
    : m.buildDepends = .ok f ↔ ∃ old, m.sourceTexts? buildDependsKey = .ok old ∧
        ∃ es, entriesOf (old.getD []) = .ok es ∧ f = RelationField.ofEntries es := by
  unfold buildDepends
  rw [bind_eq_ok]
  constructor
  . rintro ⟨old, hold, h⟩
    refine ⟨old, hold, ?_⟩
    cases old with
    | none =>
      cases h
      exact ⟨[], rfl, rfl⟩
    | some ts =>
      obtain ⟨es, hes, h⟩ := bind_eq_ok.mp h
      cases h
      exact ⟨es, hes, rfl⟩
  . rintro ⟨old, hold, es, hes, rfl⟩
    refine ⟨old, hold, ?_⟩
    cases old with
    | none =>
      cases hes
      rfl
    | some ts => exact bind_eq_ok.mpr ⟨es, hes, rfl⟩

theorem isHonest_of_buildDepends {m : Manifest} {f : RelationField} (h : m.buildDepends = .ok f)
    : f.IsHonest ∧ f.IsWritable := by
  obtain ⟨_, _, es, hes, rfl⟩ := buildDepends_eq_ok.mp h
  exact isHonest_of_entriesOf hes

theorem exists_newItems {m : Manifest} {f₀ f : RelationField} (h : m.buildDepends = .ok f₀)
    (hf : f.IsHonest) (hw : f.IsWritable)
    : ∃ old new, m.sourceTexts? buildDependsKey = .ok old ∧ newItems old f = .ok new ∧
        Mean new f.clauses := by
  obtain ⟨old, hold, es, hes, _⟩ := buildDepends_eq_ok.mp h
  have hmeans := RelationField.forall₂_means_entryText hf hw
  cases old with
  | none => exact ⟨none, _, hold, rfl, mean_of_forall₂ hmeans⟩
  | some old =>
    obtain ⟨groups, hgroups, hread⟩ := exists_groups hes
    refine ⟨some old, _, hold, ?_, mean_regroup hread hmeans⟩
    exact bind_eq_ok.mpr ⟨groups, hgroups, rfl⟩

theorem exists_setBuildDepends {m : Manifest} {f₀ f : RelationField} (h : m.buildDepends = .ok f₀)
    (hf : f.IsHonest) (hw : f.IsWritable)
    : ∃ m' g, m.setBuildDepends f = .ok m' ∧ m'.buildDepends = .ok g ∧
        g.clauses.Sublist f.clauses ∧ (g.clauses = f.clauses ↔ m.KeepsEntries f) ∧
        (m.KeepsEntries f → m'.HoldsTexts buildDependsKey) := by
  obtain ⟨old, new, hold, hnew, hmean⟩ := exists_newItems h hf hw
  obtain ⟨x, hx, _⟩ := bind_eq_ok.mp hold
  obtain ⟨m', cells, hm', hcells, hstand⟩ := exists_setSourceTexts hx new
  obtain ⟨ds, hds, hdsublist, hdiff⟩ := exists_mean_of_sublist hmean hstand.sublist
  obtain ⟨es, hes, rfl⟩ := exists_entriesOf_of_mean hds
  have hkeeps : m.KeepsEntries f ↔ m.KeepsTexts buildDependsKey new := by
    constructor
    . intro hkeeps
      exact hkeeps old new hold hnew
    . intro hkeeps old' new' hold' hnew'
      rw [hold] at hold'
      cases hold'
      rw [hnew] at hnew'
      cases hnew'
      exact hkeeps
  have hclauses : (RelationField.ofEntries es).clauses = es.map (·.relations) := by
    unfold RelationField.clauses
    rw [RelationField.entries_ofEntries]
  refine ⟨m', RelationField.ofEntries es, ?_, ?_, ?_, ?_, ?_⟩
  . exact bind_eq_ok.mpr ⟨old, hold, bind_eq_ok.mpr ⟨new, hnew, hm'⟩⟩
  . exact buildDepends_eq_ok.mpr ⟨_, sourceTexts?_of_array hcells, es, hes, rfl⟩
  . rw [hclauses]
    exact hdsublist
  . rw [hclauses, hdiff, hstand.eq_iff, hkeeps]
  . rw [hkeeps, ← hstand.eq_iff]
    intro heq
    unfold HoldsTexts
    rw [sourceItems_of_array hcells]
    apply isSome_of_length_texts
    rw [heq, hstand.length_eq]

end Manifest

end DebianPackaging
