import DebianPackaging.Proofs.Text.Basic
import DebianPackaging.Proofs.Text.Line

/-!
This module contains folded texts: texts of several lines as a field of a paragraph can hold them. Each line
behind the first one starts with a space or a tab, and none but the last one is blank. A text is neat if its
lines end with line feeds only, and without blanks in front of those.
-/

namespace DebianPackaging

namespace Text

/-- Behind each line feed stands a space or a tab, and more than blanks up to the next line feed. -/
def IsFolded : Text → Prop
  | [] => True
  | c :: t => (c = '\n' → t.head?.any isGap = true ∧ '\n' ∉ lead t) ∧ IsFolded t

theorem mem_lead_append {s t : Text} {c : Char} (h : c ∈ lead (s ++ t)) : c ∈ lead s ∨ c ∈ lead t := by
  unfold lead at *
  rw [List.takeWhile_append] at h
  split at h
  . next hlength =>
    rw [List.IsPrefix.eq_of_length (List.takeWhile_prefix _) hlength]
    exact List.mem_append.mp h
  . exact .inl h

theorem lead_prefix_lead_append (s t : Text) : lead s <+: lead (s ++ t) := by
  unfold lead
  rw [List.takeWhile_append]
  split
  . exact (List.takeWhile_prefix _).trans (List.prefix_append s _)
  . exact List.prefix_rfl

theorem not_mem_lead_of_stopsAt {t : Text} (h : StopsAt isBlank t) (c : Char) : c ∉ lead t := by
  cases t with
  | nil => simp [lead]
  | cons d t =>
    rw [stopsAt_cons] at h
    simp [lead, h]

theorem not_stopsAt_of_isGap {t : Text} (h : t.head?.any isGap = true) : ¬ StopsAt isBlank t := by
  intro hstops
  obtain ⟨c, hc, hgap⟩ := Option.any_eq_true _ _ |>.mp h
  have := hstops c hc
  rw [isBlank_of_isGap hgap] at this
  cases this

theorem isFolded_append {s t : Text} (hs : IsFolded s) (ht : IsFolded t) (hlead : '\n' ∉ lead t)
    : IsFolded (s ++ t) := by
  induction s with
  | nil => exact ht
  | cons c s ih =>
    refine ⟨?_, ih hs.2⟩
    intro hc
    obtain ⟨hgap, hs'⟩ := hs.1 hc
    constructor
    . cases s with
      | nil => cases hgap
      | cons d s => exact hgap
    . intro hmem
      exact (mem_lead_append hmem).elim hs' hlead

theorem isFolded_append_of_not_mem {s t : Text} (hs : '\n' ∉ s) (ht : IsFolded t) : IsFolded (s ++ t) := by
  induction s with
  | nil => exact ht
  | cons c s ih =>
    rw [List.mem_cons, not_or] at hs
    exact ⟨fun hc => absurd hc.symm hs.1, ih hs.2⟩

theorem isFolded_of_not_mem {t : Text} (h : '\n' ∉ t) : IsFolded t := by
  rw [← List.append_nil t]
  exact isFolded_append_of_not_mem h trivial

theorem IsFolded.right {s t : Text} (h : IsFolded (s ++ t)) : IsFolded t := by
  induction s with
  | nil => exact h
  | cons c s ih => exact ih h.2

theorem IsFolded.left {s t : Text} (h : IsFolded (s ++ t)) (ht : StopsAt isBlank t) : IsFolded s := by
  induction s with
  | nil => trivial
  | cons c s ih =>
    refine ⟨?_, ih h.2⟩
    intro hc
    obtain ⟨hgap, hlead⟩ := h.1 hc
    refine ⟨?_, fun hmem => hlead ((lead_prefix_lead_append s t).subset hmem)⟩
    cases s with
    | nil => exact absurd ht (not_stopsAt_of_isGap hgap)
    | cons d s => exact hgap

theorem feed_not_mem {t : Text} (h : ∀ c ∈ t, (c == '\n') = false) : '\n' ∉ t := by
  intro hmem
  cases h _ hmem

/-- The only line ends of a text are line feeds, and none of them stands behind a blank. -/
def IsNeat : Text → Prop
  | [] => True
  | c :: t => (isLineEnd c = true → c = '\n') ∧ (isBlank c = true → t.head? ≠ some '\n') ∧ IsNeat t

instance : (t : Text) → Decidable (IsNeat t)
  | [] => .isTrue trivial
  | _ :: t =>
    have := instDecidableIsNeat t
    inferInstanceAs (Decidable (_ ∧ _ ∧ _))

theorem isNeat_cons_iff {c : Char} {t : Text}
    : IsNeat (c :: t) ↔
        (isLineEnd c = true → c = '\n') ∧ (isBlank c = true → t.head? ≠ some '\n') ∧ IsNeat t := .rfl

theorem isNeat_append_iff {s t : Text}
    : IsNeat (s ++ t) ↔
        IsNeat s ∧ IsNeat t ∧ ∀ c ∈ s.getLast?, isBlank c = true → t.head? ≠ some '\n' := by
  induction s with
  | nil => simp [IsNeat]
  | cons c s ih =>
    rw [List.cons_append, isNeat_cons_iff, isNeat_cons_iff, ih]
    cases s with
    | nil =>
      simp [IsNeat]
      tauto
    | cons d s =>
      rw [List.cons_append, List.head?_cons, List.head?_cons, List.getLast?_cons_cons]
      tauto

theorem IsNeat.of_isInfix {s t : Text} (h : IsNeat t) (hpart : s <:+: t) : IsNeat s := by
  obtain ⟨a, b, rfl⟩ := hpart
  exact (isNeat_append_iff.mp (isNeat_append_iff.mp h).1).2.1

theorem isNeat_free {t : Text} (h : ∀ c ∈ t, isLineEnd c = false) : IsNeat t := by
  induction t with
  | nil => trivial
  | cons c t ih =>
    rw [List.forall_mem_cons] at h
    refine ⟨?_, ?_, ih h.2⟩
    . rw [h.1]
      intro hc
      cases hc
    . intro _ hhead
      cases h.2 _ (List.mem_of_head? hhead)

theorem IsNeat.eq_feed {t : Text} (h : IsNeat t) {c : Char} (hc : c ∈ t) (hend : isLineEnd c = true)
    : c = '\n' := by
  obtain ⟨a, b, rfl⟩ := List.append_of_mem hc
  exact (isNeat_append_iff.mp h).2.1.1 hend

/-- `P` holds of texts without the characters `ends`, and is kept where texts are cut or put together beside
the blanks around a line feed. -/
structure LineClosed (ends : Char → Bool) (P : Text → Prop) : Prop where
  feed : ends '\n' = true
  lineEnd : ∀ c, ends c = true → isLineEnd c = true
  free : ∀ {t}, (∀ c ∈ t, ends c = false) → P t
  append : ∀ {s t}, P s → P t → '\n' ∉ lead t → P (s ++ t)
  solid : ∀ {s t}, (∀ c ∈ s, ends c = false) → (∀ c ∈ s.getLast?, isBlank c = false) → P t → P (s ++ t)
  left : ∀ {s t}, P (s ++ t) → StopsAt isBlank t → P s
  right : ∀ {s t}, P (s ++ t) → P t

theorem head?_ne_of_not_mem_lead {t : Text} (h : '\n' ∉ lead t) : t.head? ≠ some '\n' := by
  intro hhead
  obtain ⟨u, rfl⟩ := List.head?_eq_some_iff.mp hhead
  apply h
  unfold lead
  rw [List.takeWhile_cons_of_pos (by decide)]
  exact List.mem_cons_self

theorem lineClosed_isFolded : LineClosed (· == '\n') IsFolded where
  feed := rfl
  lineEnd c hc := by
    rw [beq_iff_eq.mp hc]
    rfl
  free h := isFolded_of_not_mem (feed_not_mem h)
  append := isFolded_append
  solid hs _ ht := isFolded_append_of_not_mem (feed_not_mem hs) ht
  left := IsFolded.left
  right := IsFolded.right

theorem lineClosed_isNeat : LineClosed isLineEnd IsNeat where
  feed := rfl
  lineEnd _ hc := hc
  free := isNeat_free
  append hs ht hlead := isNeat_append_iff.mpr ⟨hs, ht, fun _ _ _ => head?_ne_of_not_mem_lead hlead⟩
  solid hs hlast ht := by
    refine isNeat_append_iff.mpr ⟨isNeat_free hs, ht, ?_⟩
    intro c hc hblank
    rw [hlast c hc] at hblank
    cases hblank
  left h _ := (isNeat_append_iff.mp h).1
  right h := (isNeat_append_iff.mp h).2.1

namespace LineClosed

variable {ends : Char → Bool} {P : Text → Prop} (hP : LineClosed ends P)

include hP

theorem not_ends {c : Char} (hc : isLineEnd c = false) : ends c = false := by
  rw [← Bool.not_eq_true]
  intro hends
  rw [hP.lineEnd c hends] at hc
  cases hc

theorem feed_not_mem {t : Text} (h : ∀ c ∈ t, ends c = false) : '\n' ∉ t := by
  intro hmem
  have := h _ hmem
  rw [hP.feed] at this
  cases this

theorem join_iff {parts : List Text} : P (join "," parts) ↔ ∀ w ∈ parts, P w := by
  unfold join
  induction parts with
  | nil => simp [hP.free]
  | cons w parts ih =>
    cases parts with
    | nil => simp
    | cons w' parts =>
      have hcomma (u : Text) : StopsAt isBlank (",".toList ++ u) := (stopsAt_cons ..).mpr (by decide)
      rw [List.intercalate_cons_cons, List.append_assoc, List.forall_mem_cons]
      constructor
      . intro h
        exact ⟨hP.left h (hcomma _), ih.mp (hP.right (hP.right h))⟩
      . rintro ⟨hw, hrest⟩
        refine hP.append hw ?_ (not_mem_lead_of_stopsAt (hcomma _) '\n')
        apply hP.solid (s := ",".toList) ?_ ?_ (ih.mpr hrest)
        . intro c hc
          rw [List.mem_singleton.mp hc]
          exact hP.not_ends (by decide)
        . intro c hc
          cases hc
          decide

end LineClosed

def IsFed (l : Text) : Prop := ∃ body, l = body ++ ['\n'] ∧ '\n' ∉ body

theorem IsFed.ne_nil {l : Text} (h : IsFed l) : l ≠ [] := by
  obtain ⟨body, rfl, _⟩ := h
  simp

theorem IsFed.getLast?_eq {l : Text} (h : IsFed l) : l.getLast? = some '\n' := by
  obtain ⟨body, rfl, _⟩ := h
  simp

theorem IsFed.of_append_cons {s t : Text} {c : Char} (hc : c ≠ '\n') (h : IsFed (s ++ c :: t)) : IsFed t := by
  obtain ⟨body, heq, hbody⟩ := h
  rcases List.eq_nil_or_concat' t with rfl | ⟨u, d, rfl⟩
  . obtain ⟨_, hlast⟩ := List.append_inj' heq rfl
    exact absurd (List.cons.inj hlast).1 hc
  . rw [← List.cons_append, ← List.append_assoc] at heq
    obtain ⟨rfl, hlast⟩ := List.append_inj' heq rfl
    refine ⟨u, by rw [hlast], ?_⟩
    intro hmem
    exact hbody (by simp [hmem])

theorem IsFeedLine.isFed {l : Text} (h : IsFeedLine l) : IsFed l := by
  obtain ⟨s, ending, rfl, hs, hending⟩ := exists_of_lines_eq h.lines_eq
  have hlast := h.getLast?_eq
  have hfeed : '\n' ∉ s := by
    intro hmem
    have := hs _ hmem
    cases this
  rcases hending with rfl | rfl | ⟨c, rfl, _⟩
  . rw [List.append_nil] at hlast
    exact absurd (List.mem_of_getLast? hlast) hfeed
  . exact ⟨s ++ ['\r'], by simp, by simpa using hfeed⟩
  . rw [List.getLast?_concat] at hlast
    cases hlast
    exact ⟨s, rfl, hfeed⟩

theorem feedLines_cons {c : Char} (hc : c ≠ '\n') (t : Text)
    : feedLines (c :: t) = consLine c (feedLines t) := by
  rw [feedLines, if_neg hc]

theorem isFed_of_mem_feedLines {t l : Text} (h : l ∈ feedLines (t ++ ['\n'])) : IsFed l := by
  revert l
  change ∀ l ∈ feedLines (t ++ ['\n']), IsFed l
  induction t with
  | nil =>
    intro l hl
    rw [List.mem_singleton.mp hl]
    exact ⟨[], rfl, by simp⟩
  | cons c t ih =>
    rw [List.cons_append]
    by_cases hc : c = '\n'
    . rw [feedLines, if_pos hc, List.forall_mem_cons]
      exact ⟨⟨[], by simp [hc], by simp⟩, ih⟩
    . rw [feedLines_cons hc]
      cases hlines : feedLines (t ++ ['\n']) with
      | nil =>
        have := flatten_feedLines (t ++ ['\n'])
        rw [hlines] at this
        simp at this
      | cons first rest =>
        rw [hlines, List.forall_mem_cons] at ih
        unfold consLine
        rw [List.forall_mem_cons]
        obtain ⟨⟨body, rfl, hbody⟩, hrest⟩ := ih
        exact ⟨⟨c :: body, rfl, by simp [hbody, Ne.symm hc]⟩, hrest⟩

theorem not_mem_dropLast_of_mem_feedLines {t l : Text} (h : l ∈ feedLines t) : '\n' ∉ l.dropLast := by
  revert l
  change ∀ l ∈ feedLines t, '\n' ∉ l.dropLast
  induction t with
  | nil => simp [feedLines]
  | cons c t ih =>
    by_cases hc : c = '\n'
    . rw [feedLines, if_pos hc, List.forall_mem_cons]
      exact ⟨by simp, ih⟩
    . rw [feedLines_cons hc]
      cases hlines : feedLines t with
      | nil => simp [consLine]
      | cons first rest =>
        rw [hlines, List.forall_mem_cons] at ih
        unfold consLine
        rw [List.forall_mem_cons]
        refine ⟨?_, ih.2⟩
        cases first with
        | nil => simp
        | cons d first =>
          rw [List.dropLast_cons_cons, List.mem_cons, not_or]
          exact ⟨Ne.symm hc, ih.1⟩

theorem feedLines_append_feed {s : Text} (hs : '\n' ∉ s) (t : Text)
    : feedLines (s ++ '\n' :: t) = (s ++ ['\n']) :: feedLines t := by
  induction s with
  | nil => simp [feedLines]
  | cons c s ih =>
    rw [List.mem_cons, not_or] at hs
    rw [List.cons_append, feedLines_cons (Ne.symm hs.1), ih hs.2]
    rfl

theorem lines_eq_feedLines {t : Text} (h : ∀ l ∈ lines t, l.getLast? = some '\n')
    : lines t = feedLines t := by
  fun_induction lines t with
  | case1 => rfl
  | case2 t ih =>
    rw [List.forall_mem_cons] at h
    rw [feedLines_cons (by decide), feedLines, if_pos rfl, ih h.2]
    rfl
  | case3 c t _ _ ih =>
    rw [List.forall_mem_cons] at h
    have hc : c = '\n' := by simpa using h.1
    rw [feedLines, if_pos hc, ih h.2]
  | case4 c t _ hc ih =>
    have hne : c ≠ '\n' := by
      rintro rfl
      exact hc (by decide)
    rw [feedLines_cons hne]
    cases hlines : lines t with
    | nil =>
      rw [hlines] at h
      have : c = '\n' := by simpa [consLine] using h
      contradiction
    | cons l ls =>
      have hl : l ≠ [] := ne_nil_of_mem_lines (t := t) (by simp [hlines])
      rw [hlines] at h ih
      unfold consLine at h
      rw [List.forall_mem_cons, List.getLast?_cons_of_ne_nil hl] at h
      rw [ih (List.forall_mem_cons.mpr h)]

theorem lines_eq_feedLines_of_isLineEnd {t : Text} (h : ∀ c ∈ t, isLineEnd c = true → c = '\n')
    : lines t = feedLines t := by
  fun_induction lines t with
  | case1 => rfl
  | case2 t ih =>
    have := h '\r' List.mem_cons_self rfl
    cases this
  | case3 c t _ hc ih =>
    rw [List.forall_mem_cons] at h
    rw [feedLines, if_pos (h.1 hc), ih h.2]
  | case4 c t _ hc ih =>
    rw [List.forall_mem_cons] at h
    have hne : c ≠ '\n' := by
      rintro rfl
      exact hc (by decide)
    rw [feedLines_cons hne, ih h.2]

end Text

end DebianPackaging
