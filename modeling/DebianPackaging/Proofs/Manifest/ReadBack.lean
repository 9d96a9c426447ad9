import DebianPackaging.Proofs.Manifest.BuildDepends

/-!
This module contains the proof that build dependencies that were read from texts are the same entries
again when they are read back from a manifest, whatever items they are put together to.
-/

namespace DebianPackaging

open Text
open Toml (Document Found Value Cell)

def Entry.IsRead (e : Entry) : Prop := ∃ t f, RelationField.read t = .ok f ∧ e ∈ f.entries

namespace Manifest

inductive HasReadableItems (m : Manifest) : Prop where
  | missing (h : m.sourceKey buildDependsKey = .ok .nothing)
  | array {cells : List (Cell Value)} (h : m.sourceKey buildDependsKey = .ok (.value (.array cells)))
    (hitems : ∀ v ∈ Cell.items cells, ∃ t es, v.string? = some t ∧ readEntries t = .ok es)

theorem readEntries_entryText {e : Entry} (h : e.IsRead) : readEntries (entryText e) = .ok [e] := by
  obtain ⟨t, f, hf, he⟩ := h
  obtain ⟨part, hpart, hread⟩ := RelationField.entry_of_read hf he
  have hne : trim part ≠ [] := by
    intro hnil
    rw [hnil] at hread
    cases hread
  have hcomma : ∀ c ∈ trim part, (c == ',') = false := by
    intro c hc
    rw [beq_eq_false_iff_ne]
    intro heq
    rw [heq, mem_trim_iff (by decide)] at hc
    exact not_mem_of_mem_splitOn hpart hc
  have hsegment : Segment.read (trim part) = .ok (.entry (lead (trim part)) e
      (trail (trimStart (trim part)))) := by
    unfold Segment.read
    rw [trim_trim]
    split
    . contradiction
    . rw [hread]
      rfl
  have hfield : RelationField.read (trim part) = .ok ⟨[.entry (lead (trim part)) e
      (trail (trimStart (trim part)))]⟩ := by
    unfold RelationField.read
    rw [if_neg (by simpa using hne), List.splitOn, List.splitOnP_eq_singleton hcomma, List.mapM_cons,
      hsegment]
    rfl
  unfold entryText
  rw [Entry.text_of_read hread, trim_trim]
  exact readEntries_eq_ok.mpr ⟨_, hfield, rfl⟩

theorem eq_of_entryText {e e' : Entry} (h : e.IsRead) (h' : e'.IsRead)
    (heq : entryText e = entryText e') : e = e' := by
  have hread := readEntries_entryText h
  rw [heq, readEntries_entryText h'] at hread
  cases hread
  rfl

theorem isRead_of_readEntries {t : Text} {es : List Entry} (h : readEntries t = .ok es)
    : ∀ e ∈ es, e.IsRead := by
  obtain ⟨f, hf, rfl⟩ := readEntries_eq_ok.mp h
  intro e he
  exact ⟨t, f, hf, he⟩

theorem eq_of_map_entryText {es es' : List Entry} (h : ∀ e ∈ es, e.IsRead) (h' : ∀ e ∈ es', e.IsRead)
    (heq : es.map entryText = es'.map entryText) : es = es' := by
  induction es generalizing es' with
  | nil => exact (List.map_eq_nil_iff.mp heq.symm).symm
  | cons e es ih =>
    obtain ⟨e', es', rfl, hhead, htail⟩ := List.map_eq_cons_iff.mp heq.symm
    rw [List.forall_mem_cons] at h h'
    rw [eq_of_entryText h.1 h'.1 hhead.symm, ih h.2 h'.2 htail.symm]

theorem entriesOf_cons {t : Text} {ts : List Text} {es es' : List Entry} (h : readEntries t = .ok es)
    (h' : entriesOf ts = .ok es') : entriesOf (t :: ts) = .ok (es ++ es') := by
  obtain ⟨ess, hess, rfl⟩ := entriesOf_eq_ok.mp h'
  rw [entriesOf_eq_ok]
  exact ⟨es :: ess, .cons h hess, rfl⟩

theorem readEntries_item {g : ItemGroup} (hg : g.IsRead) {es : List Entry} (h : ∀ e ∈ es, e.IsRead)
    (hstarts : g.entries <+: es.map entryText) : readEntries g.item = .ok (es.take g.entries.length) := by
  obtain ⟨es', hes', htexts⟩ := hg
  have htake : (es.take g.entries.length).map entryText = g.entries := by
    rw [List.map_take]
    exact (List.prefix_iff_eq_take.mp hstarts).symm
  rw [hes', eq_of_map_entryText (isRead_of_readEntries hes') _ (htexts.trans htake.symm)]
  intro e he
  exact h e (List.mem_of_mem_take he)

theorem entriesOf_regroup {groups : List ItemGroup} (hgroups : ∀ g ∈ groups, g.IsRead) {es : List Entry}
    (hes : ∀ e ∈ es, e.IsRead)
    : entriesOf (regroup groups (es.map entryText)) = .ok es ∧
        (regroup groups (es.map entryText)).length ≤ es.length := by
  generalize hts : es.map entryText = ts
  fun_induction regroup groups ts generalizing es with
  | case1 =>
    rw [List.map_eq_nil_iff] at hts
    rw [hts]
    exact ⟨rfl, Nat.le_refl 0⟩
  | case2 t ts g hfind ih =>
    have hg := hgroups g (List.mem_of_find?_eq_some hfind)
    have hfound := List.find?_some hfind
    have hstarts := List.isPrefixOf_iff_prefix.mp hfound
    rw [← hts] at hstarts
    have hitem := readEntries_item hg hes hstarts
    obtain ⟨hrest, hlength⟩ := @ih (es.drop g.entries.length)
      (fun e he => hes e (List.mem_of_mem_drop he)) (by rw [List.map_drop, hts]; rfl)
    constructor
    . have happ := entriesOf_cons hitem hrest
      rwa [List.take_append_drop] at happ
    . have hle := hstarts.length_le
      rw [List.length_map] at hle
      rw [List.length_drop] at hlength
      rw [List.length_cons]
      unfold ItemGroup.entries at hle hlength
      rw [List.length_cons] at hle hlength
      omega
  | case3 t ts hfind ih =>
    obtain ⟨e, es, rfl, rfl, hrest⟩ := List.map_eq_cons_iff.mp hts
    rw [List.forall_mem_cons] at hes
    obtain ⟨hread, hlength⟩ := ih hes.2 hrest
    constructor
    . exact entriesOf_cons (readEntries_entryText hes.1) hread
    . rw [List.length_cons, List.length_cons]
      exact Nat.succ_le_succ hlength

theorem exists_buildDepends {m : Manifest} (h : m.HasReadableItems)
    : (∃ f, m.buildDepends = .ok f) ∧ m.HoldsTexts buildDependsKey := by
  cases h with
  | missing h =>
    constructor
    . refine ⟨{}, buildDepends_eq_ok.mpr ⟨none, ?_, [], rfl, rfl⟩⟩
      unfold sourceTexts?
      rw [h]
      rfl
    . unfold HoldsTexts
      rw [sourceItems_of_other h (by simp)]
      simp
  | @array cells h hitems =>
    constructor
    . have hread : ∃ ess, List.Forall₂ (fun t es => readEntries t = .ok es)
          (texts (Cell.items cells)) ess := by
        clear h
        generalize Cell.items cells = vs at hitems
        induction vs with
        | nil => exact ⟨[], .nil⟩
        | cons v vs ih =>
          rw [List.forall_mem_cons] at hitems
          obtain ⟨⟨t, es, ht, hes⟩, hvs⟩ := hitems
          obtain ⟨ess, hess⟩ := ih hvs
          refine ⟨es :: ess, ?_⟩
          unfold texts
          rw [List.filterMap_cons_some ht]
          exact .cons hes hess
      obtain ⟨ess, hess⟩ := hread
      refine ⟨_, buildDepends_eq_ok.mpr ⟨_, sourceTexts?_of_array h, ess.flatten, ?_, rfl⟩⟩
      exact entriesOf_eq_ok.mpr ⟨ess, hess, rfl⟩
    . unfold HoldsTexts
      rw [sourceItems_of_array h]
      intro v hv
      obtain ⟨t, es, ht, _⟩ := hitems v hv
      rw [ht]
      rfl

/-- Build dependencies of entries that were read from texts are put together to no more items than there
are entries, and read back as the same entries. -/
theorem entries_setBuildDepends (m : Manifest) (f : RelationField) (hm : m.HasReadableItems)
    (hf : ∀ e ∈ f.entries, e.IsRead)
    : ∃ old new m' g, m.sourceTexts? buildDependsKey = .ok old ∧ newItems old f = .ok new ∧
        new.length ≤ f.entries.length ∧ m.setBuildDepends f = .ok m' ∧ m'.buildDepends = .ok g ∧
        g.entries = f.entries := by
  obtain ⟨⟨f₀, hf₀⟩, htexts⟩ := exists_buildDepends hm
  obtain ⟨old, hold, es, hes, _⟩ := buildDepends_eq_ok.mp hf₀
  have hitems : ∃ new, newItems old f = .ok new ∧ entriesOf new = .ok f.entries ∧
      new.length ≤ f.entries.length := by
    cases old with
    | none =>
      -- nothing is put together with no old items
      have hnone : regroup [] (f.entries.map entryText) = f.entries.map entryText := by
        induction f.entries with
        | nil => rw [List.map_nil, regroup]
        | cons e es ih => rw [List.map_cons, regroup, List.find?_nil, ih]
      have hread := entriesOf_regroup (List.forall_mem_nil _) hf
      rw [hnone] at hread
      exact ⟨_, rfl, hread⟩
    | some old =>
      obtain ⟨groups, hgroups, hread⟩ := exists_groups hes
      exact ⟨_, bind_eq_ok.mpr ⟨groups, hgroups, rfl⟩, entriesOf_regroup hread hf⟩
  obtain ⟨new, hnew, hread, hlength⟩ := hitems
  obtain ⟨x, hx, _⟩ := bind_eq_ok.mp hold
  obtain ⟨m', cells, hm', hcells, hstand⟩ := exists_setSourceTexts hx new
  have heq := hstand.eq_iff.mpr (htexts.keepsTexts new)
  refine ⟨old, new, m', RelationField.ofEntries f.entries, hold, hnew, hlength, ?_, ?_, ?_⟩
  . exact bind_eq_ok.mpr ⟨old, hold, bind_eq_ok.mpr ⟨new, hnew, hm'⟩⟩
  . refine buildDepends_eq_ok.mpr ⟨_, sourceTexts?_of_array hcells, f.entries, ?_, rfl⟩
    rw [heq]
    exact hread
  . exact RelationField.entries_ofEntries f.entries

theorem entries_setBuildDepends_grouped
    : ∃ m f m' g, Manifest.read "debian/debcargo.toml" "[source]\nbuild_depends = [\"a, b\", \"c\"]\n" none =
          .ok m ∧
        RelationField.read "b, a, b, a" = .ok f ∧ m.setBuildDepends f = .ok m' ∧
        m'.sourceTexts? buildDependsKey = .ok (some ["b", "a, b", "a"]) ∧ m'.buildDepends = .ok g ∧
        g.entries = f.entries := by
  have hrun : (do
      let m ← Manifest.read "debian/debcargo.toml" "[source]\nbuild_depends = [\"a, b\", \"c\"]\n" none
      let f ← RelationField.read "b, a, b, a"
      let m' ← m.setBuildDepends f
      let new ← m'.sourceTexts? buildDependsKey
      let x ← m.sourceKey buildDependsKey
      return (new, (cells? x).any fun cells => (Cell.items cells).all fun v : Value =>
        v.string?.any fun t => (readEntries t).toBool)) = .ok (some ["b", "a, b", "a"], true) := by
    decide +kernel
  obtain ⟨m, hm, hrun⟩ := bind_eq_ok.mp hrun
  obtain ⟨f, hf, hrun⟩ := bind_eq_ok.mp hrun
  obtain ⟨m', hm', hrun⟩ := bind_eq_ok.mp hrun
  obtain ⟨new, hnew, hrun⟩ := bind_eq_ok.mp hrun
  obtain ⟨x, hx, hrun⟩ := bind_eq_ok.mp hrun
  obtain ⟨rfl, hall⟩ := Prod.mk.inj (Except.ok.inj hrun)
  obtain ⟨cells, hcells, hall⟩ := (Option.any_eq_true _ _).mp hall
  rw [eq_of_cells? hcells] at hx
  have hitems : ∀ v ∈ Cell.items cells, ∃ t es, v.string? = some t ∧ readEntries t = .ok es := by
    intro v hv
    obtain ⟨t, ht, hread⟩ := (Option.any_eq_true _ _).mp (List.all_eq_true.mp hall v hv)
    cases hes : readEntries t with
    | ok es => exact ⟨t, es, ht, hes⟩
    | error e =>
      rw [hes] at hread
      cases hread
  obtain ⟨_, _, q, g, _, _, _, hq, hg, hentries⟩ :=
    entries_setBuildDepends m f (.array hx hitems) fun e he => ⟨_, f, hf, he⟩
  rw [hm'] at hq
  cases hq
  exact ⟨m, f, m', g, hm, hf, hm', hnew, hg, hentries⟩

end Manifest

end DebianPackaging
