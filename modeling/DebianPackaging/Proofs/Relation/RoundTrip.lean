import DebianPackaging.Relation.Field
import DebianPackaging.Proofs.Outcome

/-!
This module contains the proof that reading a relationship field loses no character: what is written
between two commas, or between two bars, is the text of the segment or alternative that is read from
it, so the text of a field that was read is the text that it was read from.
-/

namespace DebianPackaging

theorem SpelledRelation.text_of_read {t : Text} {r : SpelledRelation}
    (h : SpelledRelation.read t = .ok r) : r.text = t := by
  unfold SpelledRelation.read at h
  split at h
  . cases h
    rfl
  . cases h

namespace Entry

theorem alternative_text_of_read {whole part : Text} {a : Alternative}
    (h : readAlternative whole part = .ok a) : a.text = part := by
  unfold readAlternative at h
  split at h
  . cases h
  . obtain ⟨s, hs, h⟩ := bind_eq_ok.mp h
    cases h
    unfold Alternative.text
    dsimp
    rw [SpelledRelation.text_of_read hs, List.append_assoc]
    apply Text.lead_append_trim_append_trail

theorem alternatives_of_read {t : Text} {e : Entry} (h : Entry.read t = .ok e)
    : List.Forall₂ (fun part a => readAlternative t part = .ok a) (t.splitOn '|') e.alternatives := by
  unfold Entry.read at h
  obtain ⟨as, has, h⟩ := bind_eq_ok.mp h
  cases as with
  | nil => cases h
  | cons first others =>
    cases h
    exact mapM_eq_ok.mp has

theorem alternative_texts_of_read {t : Text} {e : Entry} (h : Entry.read t = .ok e)
    : e.alternatives.map (·.text) = t.splitOn '|' := by
  apply map_eq_of_forall₂
  apply (alternatives_of_read h).imp
  intro part a ha
  exact alternative_text_of_read ha

theorem text_of_read {t : Text} {e : Entry} (h : Entry.read t = .ok e) : e.text = t := by
  unfold Entry.text Text.join
  rw [alternative_texts_of_read h]
  apply List.intercalate_splitOn

end Entry

namespace Segment

theorem text_of_read {t : Text} {s : Segment} (h : Segment.read t = .ok s) : s.text = t := by
  unfold Segment.read at h
  split at h
  . cases h
    rfl
  . obtain ⟨e, he, h⟩ := bind_eq_ok.mp h
    cases h
    unfold Segment.text
    dsimp
    rw [Entry.text_of_read he, List.append_assoc]
    apply Text.lead_append_trim_append_trail

theorem content_of_read {t : Text} {s : Segment} {e : Entry} (h : Segment.read t = .ok s)
    (he : s.content? = some e) : Entry.read t.trim = .ok e := by
  unfold Segment.read at h
  split at h
  . cases h
    cases he
  . obtain ⟨e', he', h⟩ := bind_eq_ok.mp h
    cases h
    cases he
    exact he'

end Segment

namespace RelationField

theorem segments_of_read {t : Text} {f : RelationField} (h : RelationField.read t = .ok f)
    : t = [] ∧ f = {} ∨
      t ≠ [] ∧ List.Forall₂ (fun part s => Segment.read part = .ok s) (t.splitOn ',') f.segments := by
  unfold RelationField.read at h
  cases t with
  | nil =>
    cases h
    exact .inl ⟨rfl, rfl⟩
  | cons c t =>
    obtain ⟨ss, hss, h⟩ := bind_eq_ok.mp h
    cases h
    exact .inr ⟨by simp, mapM_eq_ok.mp hss⟩

theorem segment_texts_of_read {t : Text} {f : RelationField} (h : RelationField.read t = .ok f)
    (ht : t ≠ []) : f.segments.map (·.text) = t.splitOn ',' := by
  obtain ⟨ht', _⟩ | ⟨_, hs⟩ := segments_of_read h
  . contradiction
  . apply map_eq_of_forall₂
    apply hs.imp
    intro part s hs
    exact Segment.text_of_read hs

theorem text_of_read {t : Text} {f : RelationField} (h : RelationField.read t = .ok f)
    : f.text = t := by
  obtain ⟨rfl, rfl⟩ | ⟨ht, _⟩ := segments_of_read h
  . rfl
  . unfold RelationField.text Text.join
    rw [segment_texts_of_read h ht]
    apply List.intercalate_splitOn

theorem entry_of_read {t : Text} {f : RelationField} (h : RelationField.read t = .ok f) {e : Entry}
    (he : e ∈ f.entries) : ∃ part ∈ t.splitOn ',', Entry.read (Text.trim part) = .ok e := by
  unfold RelationField.entries at he
  obtain ⟨s, hs, he⟩ := List.mem_filterMap.mp he
  obtain ⟨_, rfl⟩ | ⟨_, hss⟩ := segments_of_read h
  . cases hs
  . obtain ⟨part, hpart, hread⟩ := exists_of_mem_forall₂ hss hs
    exact ⟨part, hpart, Segment.content_of_read hread he⟩

/-- A field that was read is written as it was: as a whole, between any two commas, and between any
two bars of an entry. -/
theorem write_read (t : Text) (f : RelationField) (h : RelationField.read t = .ok f)
    : f.text = t ∧
      (t ≠ [] → f.segments.map (·.text) = t.splitOn ',') ∧
      ∀ e ∈ f.entries, e.alternatives.map (·.text) = e.text.splitOn '|' := by
  refine ⟨text_of_read h, segment_texts_of_read h, ?_⟩
  intro e he
  obtain ⟨part, _, hread⟩ := entry_of_read h he
  rw [Entry.text_of_read hread]
  exact Entry.alternative_texts_of_read hread

theorem write_read_blanks
    : ∃ f, RelationField.read "a|b (>= 1) <x> ,\n c, ," = .ok f ∧
        f.text = "a|b (>= 1) <x> ,\n c, ,".toList ∧
        f.segments.map (·.text) = (["a|b (>= 1) <x> ", "\n c", " ", ""] : List Text) := by
  let f : RelationField := ⟨[
    .entry [] ⟨⟨[], ⟨{ name := "a" }, some "a"⟩, []⟩,
      [⟨[], ⟨{ name := "b", constraint := some ⟨">=", "1"⟩, profiles := [["x"]] },
        some "b (>= 1) <x>"⟩, []⟩]⟩ " ",
    .entry "\n " ⟨⟨[], ⟨{ name := "c" }, some "c"⟩, []⟩, []⟩ [], .blank " ", .blank []]⟩
  have h : RelationField.read "a|b (>= 1) <x> ,\n c, ," = .ok f := by decide +kernel
  refine ⟨f, h, (write_read _ f h).1, ?_⟩
  rw [(write_read _ f h).2.1 (by simp)]
  decide +kernel

end RelationField

end DebianPackaging
