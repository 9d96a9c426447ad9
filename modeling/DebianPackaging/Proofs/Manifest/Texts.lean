import DebianPackaging.Manifest.Source
import DebianPackaging.Proofs.Outcome
import DebianPackaging.Proofs.Toml.Cell
import DebianPackaging.Proofs.Toml.Set

/-!
This module contains what an array of texts holds once it is made to hold other texts. An array can have
items that are no texts; one of those that is shown like a text that the array has to hold is taken for
it and kept, and then the text is missing.
-/

namespace DebianPackaging

open Toml (Document Found Value Cell)

namespace Manifest

def texts (vs : List Value) : List Text := vs.filterMap (·.string?)

def keptItems (vs : List Value) (new : List Text) : List Value :=
  if vs.map (·.shown) = new then vs
  else EditScript.kept (EditScript.between (vs.map (·.shown)) new) vs

def sourceItems (m : Manifest) (key : Text) : List Value :=
  match m.sourceKey key with
  | .ok (.value (.array cells)) => Cell.items cells
  | _ => []

def cells? : Found → Option (List (Cell Value))
  | .value (.array cells) => some cells
  | _ => none

theorem eq_of_cells? {x : Found} {cells : List (Cell Value)} (h : cells? x = some cells)
    : x = .value (.array cells) := by
  unfold cells? at h
  split at h
  . cases h
    rfl
  . cases h

def HoldsTexts (m : Manifest) (key : Text) : Prop :=
  ∀ v ∈ m.sourceItems key, v.string?.isSome = true

instance (m : Manifest) (key : Text) : Decidable (m.HoldsTexts key) :=
  inferInstanceAs (Decidable (∀ v ∈ m.sourceItems key, _))

def KeepsTexts (m : Manifest) (key : Text) (new : List Text) : Prop :=
  ∀ v ∈ keptItems (m.sourceItems key) new, v.string?.isSome = true

/-- What is to be known of the items of an array that was made to hold texts: those of the texts that are
missing were mistaken for an item that stays in their place. -/
structure StandFor (m : Manifest) (key : Text) (new : List Text) (vs : List Value) : Prop where
  length_eq : vs.length = new.length
  sublist : (texts vs).Sublist new
  eq_iff : texts vs = new ↔ m.KeepsTexts key new

theorem texts_append (vs ws : List Value) : texts (vs ++ ws) = texts vs ++ texts ws := by
  unfold texts
  rw [List.filterMap_append]

theorem texts_map_ofText (ts : List Text) : texts (ts.map Value.ofText) = ts := by
  unfold texts
  rw [List.filterMap_map]
  exact List.filterMap_some

theorem texts_sublist (vs : List Value) : (texts vs).Sublist (vs.map (·.shown)) := by
  induction vs with
  | nil => exact List.Sublist.refl []
  | cons v vs ih =>
    unfold texts
    rw [List.map_cons]
    cases hv : v.string? with
    | none =>
      rw [List.filterMap_cons_none hv]
      exact ih.cons _
    | some t =>
      have hshown : v.shown = t := by
        unfold Value.shown
        rw [hv]
      rw [List.filterMap_cons_some hv, hshown]
      exact ih.cons_cons t

theorem texts_eq_iff (vs : List Value)
    : texts vs = vs.map (·.shown) ↔ ∀ v ∈ vs, v.string?.isSome = true := by
  induction vs with
  | nil => simp [texts]
  | cons v vs ih =>
    rw [List.forall_mem_cons, ← ih]
    unfold texts
    rw [List.map_cons]
    cases hv : v.string? with
    | none =>
      rw [List.filterMap_cons_none hv]
      constructor
      . intro h
        have hle := (texts_sublist vs).length_le
        unfold texts at hle
        rw [h, List.length_cons] at hle
        omega
      . intro h
        cases h.1
    | some t =>
      have hshown : v.shown = t := by
        unfold Value.shown
        rw [hv]
      rw [List.filterMap_cons_some hv, hshown]
      simp

theorem isSome_of_length_texts {vs : List Value} (h : (texts vs).length = vs.length)
    : ∀ v ∈ vs, v.string?.isSome = true := by
  rw [← texts_eq_iff]
  apply (texts_sublist vs).eq_of_length
  rw [List.length_map]
  exact h

theorem mem_of_mem_keptItems {v : Value} {vs : List Value} {new : List Text} (h : v ∈ keptItems vs new)
    : v ∈ vs := by
  unfold keptItems at h
  split at h
  . exact h
  . exact EditScript.mem_of_mem_kept h

theorem HoldsTexts.keepsTexts {m : Manifest} {key : Text} (h : m.HoldsTexts key) (new : List Text)
    : m.KeepsTexts key new := by
  intro v hv
  exact h v (mem_of_mem_keptItems hv)

theorem append_eq_iff_of_sublist {as bs cs ds : List α} (h : as.Sublist cs) (h' : bs.Sublist ds)
    : as ++ bs = cs ++ ds ↔ as = cs ∧ bs = ds := by
  constructor
  . intro heq
    have hlength := congrArg List.length heq
    rw [List.length_append, List.length_append] at hlength
    have hle := h.length_le
    have hle' := h'.length_le
    exact ⟨h.eq_of_length (by omega), h'.eq_of_length (by omega)⟩
  . rintro ⟨rfl, rfl⟩
    rfl

theorem exists_leads {ss : List (EditStep Text)} {vs : List Value} {old new : List Text}
    (h : EditScript.Leads ss old new) (hold : vs.map (·.shown) = old)
    : ∃ ws, EditScript.Leads (ss.map (EditStep.map Value.ofText)) vs ws ∧ ws.length = new.length ∧
        (texts ws).Sublist new ∧
        (texts ws = new ↔ ∀ v ∈ EditScript.kept ss vs, v.string?.isSome = true) := by
  -- a text can be missing behind a kept stretch only, where an item is shown like it
  induction h generalizing vs with
  | nil =>
    rw [List.map_eq_nil_iff] at hold
    subst hold
    exact ⟨[], .nil, rfl, List.Sublist.refl [], by simp [texts, EditScript.kept]⟩
  | keep as _ ih =>
    obtain ⟨us, vs, rfl, rfl, rfl⟩ := List.map_eq_append_iff.mp hold
    obtain ⟨ws, hleads, hlength, hsublist, hiff⟩ := ih rfl
    have hkeep := EditScript.Leads.keep us hleads
    refine ⟨us ++ ws, ?_, ?_, ?_, ?_⟩
    . rw [List.length_map]
      exact hkeep
    . rw [List.length_append, List.length_append, List.length_map, hlength]
    . rw [texts_append]
      exact (texts_sublist us).append hsublist
    . unfold EditScript.kept
      rw [texts_append, append_eq_iff_of_sublist (texts_sublist us) hsublist, texts_eq_iff, hiff,
        List.length_map, List.take_left, List.drop_left, List.forall_mem_append]
  | replace as bs _ ih =>
    obtain ⟨us, vs, rfl, rfl, rfl⟩ := List.map_eq_append_iff.mp hold
    obtain ⟨ws, hleads, hlength, hsublist, hiff⟩ := ih rfl
    have hreplace := EditScript.Leads.replace us (bs.map Value.ofText) hleads
    refine ⟨bs.map Value.ofText ++ ws, ?_, ?_, ?_, ?_⟩
    . rw [List.length_map]
      exact hreplace
    . rw [List.length_append, List.length_append, List.length_map, hlength]
    . rw [texts_append, texts_map_ofText]
      exact (List.Sublist.refl bs).append hsublist
    . unfold EditScript.kept
      rw [texts_append, texts_map_ofText,
        append_eq_iff_of_sublist (List.Sublist.refl bs) hsublist, hiff, List.length_map,
        List.drop_left]
      simp

theorem sourceTexts?_of_array {m : Manifest} {key : Text} {cells : List (Cell Value)}
    (h : m.sourceKey key = .ok (.value (.array cells)))
    : m.sourceTexts? key = .ok (some (texts (Cell.items cells))) := by
  unfold sourceTexts?
  rw [h]
  rfl

theorem sourceKey_setSourceKey {m m' : Manifest} {key : Text} {v : Value}
    (h : m.setSourceKey key v = .ok m') : m'.sourceKey key = .ok (.value v) := by
  unfold setSourceKey at h
  obtain ⟨d, hd, h⟩ := bind_eq_ok.mp h
  cases h
  exact Document.get_set hd

theorem exists_setSourceKey {m : Manifest} {key : Text} {x : Found} (h : m.sourceKey key = .ok x)
    (v : Value) : ∃ m', m.setSourceKey key v = .ok m' := by
  obtain ⟨d, hd⟩ := Document.exists_set_of_get h v
  unfold setSourceKey
  rw [hd]
  exact ⟨_, rfl⟩

theorem sourceItems_of_array {m : Manifest} {key : Text} {cells : List (Cell Value)}
    (h : m.sourceKey key = .ok (.value (.array cells))) : m.sourceItems key = Cell.items cells := by
  unfold sourceItems
  rw [h]

theorem sourceItems_of_other {m : Manifest} {key : Text} {x : Found} (h : m.sourceKey key = .ok x)
    (hx : ∀ cells, x ≠ .value (.array cells)) : m.sourceItems key = [] := by
  unfold sourceItems
  rw [h]
  split
  . next cells heq =>
    cases heq
    exact absurd rfl (hx cells)
  . rfl

theorem exists_setSourceTexts_of_array {m : Manifest} {key : Text} {cells : List (Cell Value)}
    (h : m.sourceKey key = .ok (.value (.array cells))) (new : List Text)
    : ∃ m' cells', m.setSourceTexts key new = .ok m' ∧
        m'.sourceKey key = .ok (.value (.array cells')) ∧ m.StandFor key new (Cell.items cells') := by
  by_cases hsame : (Cell.items cells).map (·.shown) = new
  . refine ⟨m, cells, ?_, h, ?_, ?_, ?_⟩
    . unfold setSourceTexts
      rw [h]
      exact if_pos hsame
    . rw [← hsame, List.length_map]
    . rw [← hsame]
      exact texts_sublist _
    . rw [KeepsTexts, sourceItems_of_array h, keptItems, if_pos hsame, ← texts_eq_iff, hsame]
  . obtain ⟨ws, hleads, hlength, hsublist, hiff⟩ :=
      exists_leads (EditScript.leads_between ((Cell.items cells).map (·.shown)) new) rfl
    obtain ⟨m', hm'⟩ := exists_setSourceKey h (.array (Cell.update 0
      ((EditScript.between ((Cell.items cells).map (·.shown)) new).map (EditStep.map Value.ofText))
      cells))
    have hitems := @Cell.items_update _ _ _ _ hleads [] cells rfl
    rw [List.length_nil, List.nil_append] at hitems
    refine ⟨m', _, ?_, sourceKey_setSourceKey hm', ?_⟩
    . unfold setSourceTexts
      rw [h]
      exact (if_neg hsame).trans hm'
    . rw [hitems]
      refine ⟨hlength, hsublist, ?_⟩
      rw [KeepsTexts, sourceItems_of_array h, keptItems, if_neg hsame]
      exact hiff

theorem exists_setSourceTexts_of_other {m : Manifest} {key : Text} {x : Found}
    (h : m.sourceKey key = .ok x) (hx : ∀ cells, x ≠ .value (.array cells)) (new : List Text)
    : ∃ m' cells, m.setSourceTexts key new = .ok m' ∧
        m'.sourceKey key = .ok (.value (.array cells)) ∧ m.StandFor key new (Cell.items cells) := by
  have hset : m.setSourceTexts key new = m.setSourceKey key (.ofTexts new) := by
    unfold setSourceTexts
    rw [h]
    cases x with
    | value v =>
      cases v with
      | array cells => exact absurd rfl (hx cells)
      | _ => rfl
    | _ => rfl
  obtain ⟨m', hm'⟩ := exists_setSourceKey h (.ofTexts new)
  refine ⟨m', _, hset.trans hm', sourceKey_setSourceKey hm', ?_⟩
  rw [Cell.items_ofItems]
  refine ⟨List.length_map _, ?_, ?_⟩
  . rw [texts_map_ofText]
  . rw [texts_map_ofText]
    simp only [true_iff]
    intro v hv
    have := mem_of_mem_keptItems hv
    rw [sourceItems_of_other h hx] at this
    cases this

theorem exists_setSourceTexts {m : Manifest} {key : Text} {x : Found} (h : m.sourceKey key = .ok x)
    (new : List Text)
    : ∃ m' cells, m.setSourceTexts key new = .ok m' ∧
        m'.sourceKey key = .ok (.value (.array cells)) ∧ m.StandFor key new (Cell.items cells) := by
  by_cases hx : ∃ cells, x = .value (.array cells)
  . obtain ⟨cells, rfl⟩ := hx
    exact exists_setSourceTexts_of_array h new
  . apply exists_setSourceTexts_of_other h
    intro cells hcells
    exact hx ⟨cells, hcells⟩

end Manifest

end DebianPackaging
