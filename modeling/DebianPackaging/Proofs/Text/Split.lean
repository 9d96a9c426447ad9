import Mathlib.Data.List.Forall2
import DebianPackaging.Proofs.Text.Blank

/-!
This module contains what blanks around a text do to its parts: trimming the parts makes up for
trimming the text.
-/

namespace DebianPackaging

namespace Text

theorem eq_of_splitOnP {p : Char → Bool} {t w : Text} (h : t.splitOnP p = [w]) : t = w := by
  induction t generalizing w with
  | nil => simpa using h
  | cons c t ih =>
    rw [List.splitOnP_cons_eq_if_modifyHead] at h
    split at h
    . exfalso
      exact List.splitOnP_ne_nil p t (List.cons.inj h).2
    . obtain ⟨v, vs, hvs⟩ := List.exists_cons_of_ne_nil (List.splitOnP_ne_nil p t)
      rw [hvs, List.modifyHead_cons] at h
      cases h
      rw [ih hvs]

theorem exists_of_splitOnP_append {p : Char → Bool} {t : Text} {ws ws' : List Text} (hne : ws ≠ [])
    (hne' : ws' ≠ []) (h : t.splitOnP p = ws ++ ws')
    : ∃ a c b, t = a ++ c :: b ∧ p c = true ∧ a.splitOnP p = ws ∧ b.splitOnP p = ws' := by
  induction t generalizing ws with
  | nil =>
    have := congrArg List.length h
    have := List.length_pos_iff.mpr hne
    have := List.length_pos_iff.mpr hne'
    simp at *
    omega
  | cons c t ih =>
    obtain ⟨w, ws, rfl⟩ := List.exists_cons_of_ne_nil hne
    rw [List.splitOnP_cons_eq_if_modifyHead] at h
    split at h
    . next hc =>
      obtain ⟨rfl, htail⟩ := List.cons.inj h
      cases ws with
      | nil => exact ⟨[], c, t, rfl, hc, rfl, htail⟩
      | cons w ws =>
        obtain ⟨a, d, b, rfl, hd, ha, hb⟩ := ih (by simp) htail
        refine ⟨c :: a, d, b, rfl, hd, ?_, hb⟩
        rw [List.splitOnP_cons_eq_if_modifyHead, if_pos hc, ha]
    . next hc =>
      obtain ⟨v, vs, hvs⟩ := List.exists_cons_of_ne_nil (List.splitOnP_ne_nil p t)
      rw [hvs, List.modifyHead_cons] at h
      obtain ⟨rfl, rfl⟩ := List.cons.inj h
      obtain ⟨a, d, b, rfl, hd, ha, hb⟩ := ih (by simp : v :: ws ≠ []) hvs
      refine ⟨c :: a, d, b, rfl, hd, ?_, hb⟩
      rw [List.splitOnP_cons_eq_if_modifyHead, if_neg hc, ha]
      rfl

theorem not_mem_of_mem_splitOn {c : Char} {t w : Text} (h : w ∈ t.splitOn c) : c ∉ w := by
  intro hc
  have := not_of_mem_splitOnP h c hc
  simp at this

theorem splitOn_of_not_mem {c : Char} {t : Text} (h : c ∉ t) : t.splitOn c = [t] := by
  apply List.splitOnP_eq_singleton
  intro d hd
  rw [beq_eq_false_iff_ne]
  rintro rfl
  exact h hd

theorem mem_splitOn_iff {c d : Char} (h : d ≠ c) {t : Text} : (∃ w ∈ t.splitOn c, d ∈ w) ↔ d ∈ t := by
  apply mem_splitOnP_iff
  simpa using h

theorem eq_of_intercalate_eq {c : Char} {parts parts' : List Text} (h : ∀ t ∈ parts, c ∉ t)
    (h' : ∀ t ∈ parts', c ∉ t) (hlength : parts.length = parts'.length)
    (heq : [c].intercalate parts = [c].intercalate parts') : parts = parts' := by
  by_cases hnil : parts = []
  . rw [hnil, List.length_nil] at hlength
    rw [hnil, List.length_eq_zero_iff.mp hlength.symm]
  . have hnil' : parts' ≠ [] := by
      rw [← List.length_pos_iff, ← hlength]
      exact List.length_pos_iff.mpr hnil
    rw [← List.splitOn_intercalate c h hnil, heq, List.splitOn_intercalate c h' hnil']

theorem join_append_sep (sep : Text) {parts : List Text} (h : parts ≠ [])
    : join sep parts ++ sep = parts.flatMap (· ++ sep) := by
  unfold join
  induction parts with
  | nil => contradiction
  | cons t parts ih =>
    cases parts with
    | nil => simp
    | cons u parts =>
      rw [List.intercalate_cons_cons, List.flatMap_cons, ← ih (List.cons_ne_nil u parts)]
      simp only [List.append_assoc]

theorem join_append (sep : Text) {parts parts' : List Text} (h : parts ≠ []) (h' : parts' ≠ [])
    : join sep (parts ++ parts') = join sep parts ++ (sep ++ join sep parts') := by
  unfold join
  induction parts with
  | nil => contradiction
  | cons t parts ih =>
    cases parts with
    | nil => rw [List.singleton_append, List.intercalate_cons_of_ne_nil h', List.intercalate_singleton,
        List.append_assoc]
    | cons u parts =>
      rw [List.cons_append, List.intercalate_cons_of_ne_nil (by simp), ih (by simp),
        List.intercalate_cons_cons]
      simp only [List.append_assoc]

theorem isInfix_join {sep part : Text} {parts : List Text} (h : part ∈ parts)
    : part <:+: join sep parts := by
  unfold join
  induction parts with
  | nil => cases h
  | cons w parts ih =>
    cases parts with
    | nil =>
      exact ⟨[], [], by simp [List.mem_singleton.mp h]⟩
    | cons w' parts =>
      rw [List.intercalate_cons_cons]
      cases List.mem_cons.mp h with
      | inl h =>
        rw [h, List.append_assoc]
        exact (List.prefix_append ..).isInfix
      | inr h => exact (ih h).trans (List.suffix_append ..).isInfix

theorem mem_trim_iff {c : Char} (hc : isBlank c = false) {t : Text} : c ∈ trim t ↔ c ∈ t := by
  conv => rhs; rw [← lead_append_trim_append_trail t]
  have hlead := not_mem_of_isBlankText (isBlankText_lead t) hc
  have htrail := not_mem_of_isBlankText (isBlankText_trail (trimStart t)) hc
  simp [hlead, htrail]

theorem trim_blank_append_blank {b t b' : Text} (hb : IsBlankText b) (hb' : IsBlankText b')
    : trim (b ++ (t ++ b')) = trim t := by
  have hlead := hb.append (isBlankText_lead t)
  have htrail := (isBlankText_trail (trimStart t)).append hb'
  have happ : b ++ (t ++ b') = (b ++ lead t) ++ (trim t ++ (trail (trimStart t) ++ b')) := by
    conv => lhs; rw [← lead_append_trim_append_trail t]
    simp only [List.append_assoc]
  rw [happ]
  by_cases hne : trim t = []
  . rw [hne, trim_eq_nil_iff, List.nil_append]
    exact hlead.append htrail
  . exact (isTrimmed_trim t).trim_append hne hlead htrail

theorem trim_blank_append {b : Text} (hb : IsBlankText b) (t : Text) : trim (b ++ t) = trim t := by
  have := trim_blank_append_blank (t := t) hb isBlankText_nil
  rwa [List.append_nil] at this

theorem trim_append_blank {b : Text} (hb : IsBlankText b) (t : Text) : trim (t ++ b) = trim t :=
  trim_blank_append_blank isBlankText_nil hb

@[simp]
theorem trim_trim (t : Text) : trim (trim t) = trim t := (isTrimmed_trim t).trim_eq

section Split

variable {c : Char} (hc : isBlank c = false)

include hc

theorem splitOn_isBlankText {b : Text} (hb : IsBlankText b) : b.splitOn c = [b] :=
  splitOn_of_not_mem (not_mem_of_isBlankText hb hc)

theorem map_trim_splitOn_blank_append {b : Text} (hb : IsBlankText b) (t : Text)
    : ((b ++ t).splitOn c).map trim = (t.splitOn c).map trim := by
  induction b with
  | nil => rfl
  | cons d b ih =>
    obtain ⟨hd, hb⟩ := isBlankText_cons hb
    have hne : d ≠ c := by
      intro h
      rw [h, hc] at hd
      contradiction
    rw [← ih hb, List.cons_append, List.splitOn_cons_eq_if_modifyHead]
    obtain ⟨w, ws, hws⟩ := List.exists_cons_of_ne_nil (List.splitOn_ne_nil c (b ++ t))
    have htrim : trim (d :: w) = trim w := trim_blank_append (b := [d]) (by simpa [IsBlankText]) w
    simp [hne, hws, htrim]

theorem forall₂_splitOn_append_blank {b : Text} (hb : IsBlankText b) (t : Text)
    : List.Forall₂ (fun v w => ∃ b, IsBlankText b ∧ w = v ++ b) (t.splitOn c)
        ((t ++ b).splitOn c) := by
  induction t with
  | nil =>
    rw [List.nil_append, splitOn_isBlankText hc hb]
    exact .cons ⟨b, hb, rfl⟩ .nil
  | cons d t ih =>
    rw [List.cons_append, List.splitOn_cons_eq_if_modifyHead, List.splitOn_cons_eq_if_modifyHead]
    split
    . exact .cons ⟨[], isBlankText_nil, rfl⟩ ih
    . obtain ⟨v, vs, hvs⟩ := List.exists_cons_of_ne_nil (List.splitOn_ne_nil c t)
      obtain ⟨w, ws, hws⟩ := List.exists_cons_of_ne_nil (List.splitOn_ne_nil c (t ++ b))
      rw [hvs, hws] at ih
      cases ih with
      | cons hhead htail =>
        obtain ⟨b', hb', rfl⟩ := hhead
        rw [hvs, hws]
        exact .cons ⟨b', hb', rfl⟩ htail

theorem map_trim_splitOn_append_blank {b : Text} (hb : IsBlankText b) (t : Text)
    : ((t ++ b).splitOn c).map trim = (t.splitOn c).map trim := by
  have h := forall₂_splitOn_append_blank hc hb t
  generalize t.splitOn c = vs, (t ++ b).splitOn c = ws at h
  induction h with
  | nil => rfl
  | cons hvw _ ih =>
    obtain ⟨b', hb', rfl⟩ := hvw
    rw [List.map_cons, List.map_cons, trim_append_blank hb', ih]

theorem map_trim_splitOn_trim (t : Text)
    : ((trim t).splitOn c).map trim = (t.splitOn c).map trim := by
  have happ := lead_append_trim_append_trail t
  calc
    _ = ((trim t ++ trail (trimStart t)).splitOn c).map trim :=
      (map_trim_splitOn_append_blank hc (isBlankText_trail _) _).symm
    _ = ((lead t ++ (trim t ++ trail (trimStart t))).splitOn c).map trim :=
      (map_trim_splitOn_blank_append hc (isBlankText_lead t) _).symm
    _ = _ := by rw [happ]

theorem map_trim_splitOn_join {b b' : Text} (hb : IsBlankText b) (hb' : IsBlankText b')
    {parts : List Text} (h : ∀ t ∈ parts, IsTrimmed t ∧ c ∉ t) (hne : parts ≠ [])
    : ((join (b ++ c :: b') parts).splitOn c).map trim = parts := by
  unfold join
  induction parts with
  | nil => contradiction
  | cons t parts ih =>
    rw [List.forall_mem_cons] at h
    obtain ⟨⟨ht, hct⟩, h⟩ := h
    cases parts with
    | nil =>
      rw [List.intercalate_singleton, splitOn_of_not_mem hct, List.map_singleton, ht.trim_eq]
    | cons u parts =>
      have hfront : ∀ d ∈ t ++ b, (d == c) = false := by
        intro d hd
        rw [beq_eq_false_iff_ne]
        rintro rfl
        cases List.mem_append.mp hd with
        | inl hd => exact hct hd
        | inr hd => exact not_mem_of_isBlankText hb hc hd
      have happ : t ++ (b ++ c :: b') ++ (b ++ c :: b').intercalate (u :: parts) =
          (t ++ b) ++ c :: (b' ++ (b ++ c :: b').intercalate (u :: parts)) := by simp
      rw [List.intercalate_cons_cons, happ, List.splitOn,
        List.splitOnP_append_cons_of_forall_mem hfront c (by simp), List.map_cons, trim_append_blank hb,
        ht.trim_eq]
      congr 1
      exact (map_trim_splitOn_blank_append hc hb' _).trans (ih h (by simp))

end Split

end Text

end DebianPackaging
