import Mathlib.Data.Bool.AllAny
import Mathlib.Data.List.Chain
import DebianPackaging.Text.Line
import DebianPackaging.Proofs.Text.Blank

/-!
This module contains what the lines of a text are. Where no carriage return is involved, lines that each
end where they should are the lines of the text that they make up together.
-/

namespace DebianPackaging

theorem isBlank_of_isLineEnd {c : Char} (h : isLineEnd c = true) : isBlank c = true := by
  simp only [isLineEnd, isBlank, Bool.or_eq_true, Bool.and_eq_true, decide_eq_true_eq, beq_iff_eq] at *
  omega

theorem not_isLineEnd_of_not_isBlank {c : Char} (h : isBlank c = false) : isLineEnd c = false := by
  rw [← Bool.not_eq_true] at h ⊢
  exact mt isBlank_of_isLineEnd h

theorem isLineEnd_of_isNewline {c : Char} (h : isNewline c = true) : isLineEnd c = true := by
  simp only [isNewline, Bool.or_eq_true, beq_iff_eq] at h
  cases h with
  | inl h => simp [h, isLineEnd]
  | inr h => simp [h, isLineEnd]

theorem not_isNewline_of_not_isBlank {c : Char} (h : isBlank c = false) : isNewline c = false := by
  rw [← Bool.not_eq_true]
  intro hnewline
  rw [isBlank_of_isLineEnd (isLineEnd_of_isNewline hnewline)] at h
  contradiction

namespace Text

def IsLine (l : Text) : Prop := ∀ c ∈ l.dropLast, isLineEnd c = false

def IsEnded (l : Text) : Prop := ∃ c ∈ l.getLast?, isLineEnd c = true

structure AreLines (ls : List Text) : Prop where
  isLine : ∀ l ∈ ls, IsLine l
  isEnded : ls.Pairwise fun l _ => IsEnded l

theorem isLine_cons {c : Char} {l : Text} (hc : isLineEnd c = false) (hl : IsLine l)
    : IsLine (c :: l) := by
  cases l with
  | nil =>
    intro d hd
    cases hd
  | cons d l =>
    intro e he
    rw [List.dropLast_cons_cons] at he
    cases List.mem_cons.mp he with
    | inl he => rw [he, hc]
    | inr he => exact hl e he

theorem isLine_of_forall {l : Text} (h : ∀ c ∈ l, isLineEnd c = false) : IsLine l := by
  intro c hc
  apply h
  exact List.dropLast_subset l hc

theorem isLine_append {l l' : Text} (hne : l' ≠ [])
    : IsLine (l ++ l') ↔ (∀ c ∈ l, isLineEnd c = false) ∧ IsLine l' := by
  unfold IsLine
  rw [List.dropLast_append_of_ne_nil hne, List.forall_mem_append]

theorem isEnded_append {l l' : Text} (hne : l' ≠ []) : IsEnded (l ++ l') ↔ IsEnded l' := by
  unfold IsEnded
  rw [List.getLast?_append, Option.or_of_isSome]
  simpa using hne

theorem isEnded_cons {c : Char} {l : Text} (h : IsEnded l) : IsEnded (c :: l) := by
  obtain ⟨d, hd, hend⟩ := h
  refine ⟨d, ?_, hend⟩
  simp [List.getLast?_cons, Option.mem_def.mp hd]

theorem AreLines.tail {l : Text} {ls : List Text} (h : AreLines (l :: ls)) : AreLines ls := by
  constructor
  . intro l hl
    apply h.isLine
    simp [hl]
  . exact (List.pairwise_cons.mp h.isEnded).2

theorem AreLines.sublist {ls ls' : List Text} (h : AreLines ls) (hls : ls'.Sublist ls)
    : AreLines ls' := by
  constructor
  . intro l hl
    apply h.isLine
    exact hls.subset hl
  . exact h.isEnded.sublist hls

theorem AreLines.exchange {before after : List Text} {l l' : Text}
    (h : AreLines (before ++ l :: after)) (hline : IsLine l → IsLine l')
    (hended : IsEnded l → IsEnded l') : AreLines (before ++ l' :: after) := by
  have hlines := h.isLine
  have hpair := h.isEnded
  rw [List.forall_mem_append, List.forall_mem_cons] at hlines
  rw [List.pairwise_append, List.pairwise_cons] at hpair
  constructor
  . rw [List.forall_mem_append, List.forall_mem_cons]
    exact ⟨hlines.1, hline hlines.2.1, hlines.2.2⟩
  . rw [List.pairwise_append, List.pairwise_cons]
    refine ⟨hpair.1, ⟨?_, hpair.2.1.2⟩, ?_⟩
    . intro k hk
      exact hended (hpair.2.1.1 k hk)
    . intro k hk _ _
      exact hpair.2.2 k hk l (by simp)

theorem ne_nil_of_mem_consLine {c : Char} {ls : List Text} (h : ∀ l ∈ ls, l ≠ [])
    : ∀ l ∈ consLine c ls, l ≠ [] := by
  cases ls with
  | nil => simp [consLine]
  | cons l ls =>
    rw [List.forall_mem_cons] at h
    simpa [consLine] using h.2

theorem ne_nil_of_mem_lines {t l : Text} (h : l ∈ lines t) : l ≠ [] := by
  revert l
  change ∀ l ∈ lines t, l ≠ []
  fun_induction lines t with
  | case1 => simp
  | case2 t ih => simpa using ih
  | case3 c t _ hc ih => simpa using ih
  | case4 c t _ hc ih => exact ne_nil_of_mem_consLine ih

theorem areLines_consLine {c : Char} (hc : isLineEnd c = false) {ls : List Text} (h : AreLines ls)
    : AreLines (consLine c ls) := by
  cases ls with
  | nil =>
    constructor
    . simp [consLine, IsLine]
    . simp [consLine]
  | cons l ls =>
    have hpair := List.pairwise_cons.mp h.isEnded
    constructor
    . unfold consLine
      rw [List.forall_mem_cons]
      refine ⟨isLine_cons hc (h.isLine l (by simp)), h.tail.isLine⟩
    . unfold consLine
      rw [List.pairwise_cons]
      refine ⟨?_, hpair.2⟩
      intro l' hl'
      apply isEnded_cons
      exact hpair.1 l' hl'

theorem areLines_lines {t : Text} (h : '\r' ∉ t) : AreLines (lines t) := by
  fun_induction lines t with
  | case1 => exact ⟨by simp, .nil⟩
  | case2 t ih => simp at h
  | case3 c t _ hc ih =>
    specialize ih (by simp at h; exact h.2)
    constructor
    . rw [List.forall_mem_cons]
      refine ⟨?_, ih.isLine⟩
      simp [IsLine]
    . rw [List.pairwise_cons]
      refine ⟨?_, ih.isEnded⟩
      intro l _
      exact ⟨c, rfl, hc⟩
  | case4 c t _ hc ih =>
    apply areLines_consLine
    . simpa using hc
    . apply ih
      simp at h
      exact h.2

theorem isEnded_of_mem_lines {t l : Text} (h : '\r' ∉ t) (hended : IsEnded t) (hl : l ∈ lines t)
    : IsEnded l := by
  have hpair := (areLines_lines h).isEnded
  have hne := ne_nil_of_mem_lines hl
  rw [← flatten_lines t] at hended
  obtain ⟨before, after, heq⟩ := List.append_of_mem hl
  rw [heq] at hpair hended
  cases after with
  | nil =>
    rw [List.flatten_append, List.flatten_singleton, isEnded_append hne] at hended
    exact hended
  | cons l' after =>
    rw [List.pairwise_append, List.pairwise_cons] at hpair
    exact hpair.2.1.1 l' (by simp)

theorem not_mem_of_mem_lines {c : Char} {t : Text} (h : c ∉ t) : ∀ l ∈ lines t, c ∉ l := by
  intro l hl hc
  apply h
  rw [← flatten_lines t]
  exact List.mem_flatten.mpr ⟨l, hl, hc⟩

theorem eq_nil_of_lines {t : Text} (h : lines t = []) : t = [] := by
  rw [← flatten_lines t, h]
  rfl

theorem lines_cons {c : Char} (hc : isLineEnd c = false) (t : Text)
    : lines (c :: t) = consLine c (lines t) := by
  have hne : c ≠ '\r' := by
    intro h
    rw [h] at hc
    contradiction
  rw [lines]
  . simp [hc]
  . intro t' h _
    exact hne h

theorem lines_ended_cons {c : Char} (hc : isLineEnd c = true) (hne : c ≠ '\r') (t : Text)
    : lines (c :: t) = [c] :: lines t := by
  rw [lines]
  . simp [hc]
  . intro t' h _
    exact hne h

theorem lines_append {l t : Text} (hline : IsLine l) (hne : l ≠ []) (hcr : '\r' ∉ l)
    (hended : t ≠ [] → IsEnded l) : lines (l ++ t) = l :: lines t := by
  induction l with
  | nil => contradiction
  | cons c l ih =>
    rw [List.mem_cons, not_or] at hcr
    cases l with
    | nil =>
      by_cases hc : isLineEnd c = true
      . exact lines_ended_cons hc (Ne.symm hcr.1) t
      . cases t with
        | nil =>
          rw [Bool.not_eq_true] at hc
          exact lines_cons hc []
        | cons e t =>
          obtain ⟨d, hd, hend⟩ := hended (by simp)
          cases hd
          contradiction
    | cons d l =>
      have hc : isLineEnd c = false := hline c (by simp)
      rw [List.cons_append, lines_cons hc, ih _ (by simp) hcr.2]
      . rfl
      . intro ht
        obtain ⟨e, he, hend⟩ := hended ht
        exact ⟨e, by simpa using he, hend⟩
      . intro e he
        apply hline
        simp [he]

theorem lines_flatten {ls : List Text} (h : AreLines ls) (hne : ∀ l ∈ ls, l ≠ [])
    (hcr : ∀ l ∈ ls, '\r' ∉ l) : lines ls.flatten = ls := by
  induction ls with
  | nil => rfl
  | cons l ls ih =>
    rw [List.forall_mem_cons] at hne hcr
    rw [List.flatten_cons, lines_append (h.isLine l (by simp)) hne.1 hcr.1, ih h.tail hne.2 hcr.2]
    intro hflatten
    cases ls with
    | nil => contradiction
    | cons l' ls =>
      apply (List.pairwise_cons.mp h.isEnded).1 l'
      simp

/-- A line can stand in front of another one: it is ended, and not by a carriage return that would be one
line end with a line feed behind it. -/
structure Precedes (l l' : Text) : Prop where
  isEnded : IsEnded l
  not_split : ¬ (l.getLast? = some '\r' ∧ l'.head? = some '\n')

theorem lines_append_of_precedes {l t : Text} (hline : lines l = [l]) (h : Precedes l t)
    : lines (l ++ t) = l :: lines t := by
  obtain ⟨⟨e, he, hend⟩, hsplit⟩ := h
  fun_induction lines l with
  | case1 => cases he
  | case2 u ih =>
    cases u with
    | nil => rfl
    | cons c u =>
      cases eq_nil_of_lines (List.cons.inj hline).2
  | case3 c u hne hc ih =>
    obtain ⟨heq, _⟩ := List.cons.inj hline
    cases heq
    rw [List.singleton_append, lines, if_pos hc]
    rintro t' rfl rfl
    exact hsplit ⟨rfl, rfl⟩
  | case4 c u hne hc ih =>
    have hc' : isLineEnd c = false := by simpa using hc
    cases hu : lines u with
    | nil =>
      cases eq_nil_of_lines hu
      cases he
      exact absurd hend hc
    | cons v vs =>
      rw [hu] at hline
      obtain ⟨heq, rfl⟩ := List.cons.inj hline
      cases heq
      have hlast : (c :: u).getLast? = u.getLast? := by
        cases u with
        | nil => cases hu
        | cons d u => rw [List.getLast?_cons_cons]
      rw [hlast] at he hsplit
      rw [List.cons_append, lines_cons hc', ih hu hsplit he]
      rfl

theorem lines_flatten_of_isChain {ls : List Text} (hline : ∀ l ∈ ls, lines l = [l])
    (h : ls.IsChain Precedes) : lines ls.flatten = ls := by
  induction ls with
  | nil => rfl
  | cons l ls ih =>
    rw [List.forall_mem_cons] at hline
    rw [List.isChain_cons] at h
    rw [List.flatten_cons]
    cases ls with
    | nil => rw [List.flatten_nil, List.append_nil, hline.1]
    | cons l' ls =>
      have hprecedes : Precedes l (l' :: ls).flatten := by
        obtain ⟨hended, hsplit⟩ := h.1 l' rfl
        refine ⟨hended, ?_⟩
        obtain ⟨c, t, rfl⟩ := List.exists_cons_of_ne_nil (l := l') (by
          rintro rfl
          cases hline.2 [] (by simp))
        exact hsplit
      rw [lines_append_of_precedes hline.1 hprecedes, ih hline.2 h.2]

theorem head?_of_lines {t l : Text} {ls : List Text} (h : lines t = l :: ls) : l.head? = t.head? := by
  have hflatten := flatten_lines t
  have hne : l ≠ [] := ne_nil_of_mem_lines (t := t) (by simp [h])
  rw [h] at hflatten
  rw [← hflatten]
  obtain ⟨c, l, rfl⟩ := List.exists_cons_of_ne_nil hne
  rfl

theorem isChain_lines (t : Text) : (lines t).IsChain Precedes := by
  fun_induction lines t with
  | case1 => exact .nil
  | case2 t ih =>
    rw [List.isChain_cons]
    refine ⟨?_, ih⟩
    intro l _
    exact ⟨⟨'\n', rfl, by decide⟩, by simp⟩
  | case3 c t hne hc ih =>
    rw [List.isChain_cons]
    refine ⟨?_, ih⟩
    intro l hl
    refine ⟨⟨c, rfl, hc⟩, ?_⟩
    rintro ⟨hlast, hhead⟩
    cases hlast
    cases hls : lines t with
    | nil =>
      rw [hls] at hl
      cases hl
    | cons l' ls =>
      rw [hls] at hl
      cases hl
      rw [head?_of_lines hls] at hhead
      obtain ⟨t, rfl⟩ := List.head?_eq_some_iff.mp hhead
      exact hne t rfl rfl
  | case4 c t hne hc ih =>
    cases hls : lines t with
    | nil => exact .singleton _
    | cons l ls =>
      rw [hls, List.isChain_cons] at ih
      unfold consLine
      rw [List.isChain_cons]
      refine ⟨?_, ih.2⟩
      intro l' hl'
      obtain ⟨hended, hsplit⟩ := ih.1 l' hl'
      have hne : l ≠ [] := ne_nil_of_mem_lines (t := t) (by simp [hls])
      obtain ⟨d, l, rfl⟩ := List.exists_cons_of_ne_nil hne
      refine ⟨isEnded_cons hended, ?_⟩
      rwa [List.getLast?_cons_cons]

structure IsFeedLine (l : Text) : Prop where
  lines_eq : lines l = [l]
  getLast?_eq : l.getLast? = some '\n'

instance (l : Text) : Decidable (IsFeedLine l) :=
  decidable_of_iff (lines l = [l] ∧ l.getLast? = some '\n') ⟨fun h => ⟨h.1, h.2⟩, fun h => ⟨h.1, h.2⟩⟩

theorem IsFeedLine.precedes {l : Text} (h : IsFeedLine l) (l' : Text) : Precedes l l' := by
  constructor
  . exact ⟨'\n', h.getLast?_eq, by decide⟩
  . rw [h.getLast?_eq]
    rintro ⟨hlast, _⟩
    cases hlast

/-- A line that can stand in front of any other one. -/
structure IsWholeLine (l : Text) : Prop where
  lines_eq : lines l = [l]
  precedes : ∀ l', Precedes l l'

theorem IsFeedLine.isWholeLine {l : Text} (h : IsFeedLine l) : IsWholeLine l :=
  ⟨h.lines_eq, h.precedes⟩

theorem lines_flatten_of_isFeedLine {ls : List Text} (h : ∀ l ∈ ls, IsFeedLine l)
    : lines ls.flatten = ls := by
  apply lines_flatten_of_isChain
  . intro l hl
    exact (h l hl).lines_eq
  . induction ls with
    | nil => exact .nil
    | cons l ls ih =>
      rw [List.forall_mem_cons] at h
      exact List.isChain_cons.mpr ⟨fun l' _ => h.1.precedes l', ih h.2⟩

theorem lines_of_mem_lines {t l : Text} (h : l ∈ lines t) : lines l = [l] := by
  revert l
  change ∀ l ∈ lines t, lines l = [l]
  fun_induction lines t with
  | case1 => simp
  | case2 t ih =>
    rw [List.forall_mem_cons]
    exact ⟨rfl, ih⟩
  | case3 c t hne hc ih =>
    rw [List.forall_mem_cons]
    refine ⟨?_, ih⟩
    rw [lines, if_pos hc]
    . rfl
    . intro t' _ ht
      cases ht
  | case4 c t hne hc ih =>
    have hc : isLineEnd c = false := by simpa using hc
    cases hls : lines t with
    | nil => simp [consLine, lines_cons hc, lines]
    | cons l ls =>
      rw [hls, List.forall_mem_cons] at ih
      unfold consLine
      rw [List.forall_mem_cons, lines_cons hc, ih.1]
      exact ⟨rfl, ih.2⟩

theorem lines_flatten_exchange {t : Text} {before after : List Text} {l l' : Text}
    (h : lines t = before ++ l :: after) (hline : lines l' = [l']) (hhead : l'.head? = l.head?)
    (hprecedes : ∀ k, Precedes l k → Precedes l' k)
    : lines (before ++ l' :: after).flatten = before ++ l' :: after := by
  have hchain := isChain_lines t
  rw [h, List.isChain_append, List.isChain_cons] at hchain
  obtain ⟨hbefore, ⟨hl, hafter⟩, hlast⟩ := hchain
  apply lines_flatten_of_isChain
  . have hlines : ∀ k ∈ before ++ l :: after, lines k = [k] := by
      rw [← h]
      intro k
      exact lines_of_mem_lines
    rw [List.forall_mem_append, List.forall_mem_cons] at hlines ⊢
    exact ⟨hlines.1, hline, hlines.2.2⟩
  . rw [List.isChain_append, List.isChain_cons]
    refine ⟨hbefore, ⟨?_, hafter⟩, ?_⟩
    . intro k hk
      exact hprecedes k (hl k hk)
    . intro k hk k' hk'
      obtain rfl : l' = k' := by simpa using hk'
      obtain ⟨hended, hsplit⟩ := hlast k hk l rfl
      refine ⟨hended, ?_⟩
      rwa [hhead]

theorem lines_append_of_not_isLineEnd {s : Text} (hs : ∀ c ∈ s, isLineEnd c = false) {t l : Text}
    {ls : List Text} (h : lines t = l :: ls) : lines (s ++ t) = (s ++ l) :: ls := by
  induction s with
  | nil => exact h
  | cons c s ih =>
    rw [List.forall_mem_cons] at hs
    rw [List.cons_append, lines_cons hs.1, ih hs.2]
    rfl

theorem dropNewline_append_cons {c : Char} (hc : isNewline c = false) (a b : Text)
    : dropNewline (a ++ c :: b) = a ++ c :: dropNewline b := by
  have hdrop : (b.reverse ++ c :: a.reverse).dropWhile isNewline
      = b.reverse.dropWhile isNewline ++ c :: a.reverse := by
    rw [List.dropWhile_append]
    split
    . next h =>
      rw [List.isEmpty_iff] at h
      simp [h, hc]
    . rfl
  unfold dropNewline dropEndWhile
  rw [List.reverse_append, List.reverse_cons, List.append_assoc, List.singleton_append, hdrop]
  simp

theorem dropNewline_cons {c : Char} (hc : isNewline c = false) (l : Text)
    : dropNewline (c :: l) = c :: dropNewline l :=
  dropNewline_append_cons hc [] l

theorem newline_append_cons {c : Char} (hc : isNewline c = false) (a b : Text)
    : newline (a ++ c :: b) = newline b := by
  have hparts := dropNewline_append_newline (a ++ c :: b)
  rw [dropNewline_append_cons hc] at hparts
  apply (List.append_right_inj (a ++ c :: dropNewline b)).mp
  rw [hparts, List.append_assoc, List.cons_append, dropNewline_append_newline]

theorem isNewline_of_mem_newline {l : Text} {c : Char} (h : c ∈ newline l) : isNewline c = true := by
  unfold newline takeEndWhile at h
  rw [List.mem_reverse] at h
  exact of_mem_takeWhile h

theorem isBlankText_newline (l : Text) : IsBlankText (newline l) := by
  intro c hc
  exact isBlank_of_isLineEnd (isLineEnd_of_isNewline (isNewline_of_mem_newline hc))

theorem words_dropNewline (l : Text) : words (dropNewline l) = words l := by
  have hwords := words_append_of_isBlankText (dropNewline l) (isBlankText_newline l)
  rw [dropNewline_append_newline] at hwords
  exact hwords.symm

theorem dropNewline_append_newlines {l n : Text} (hl : ∀ c ∈ l, isNewline c = false)
    (hn : ∀ c ∈ n, isNewline c = true) : dropNewline (l ++ n) = l := by
  unfold dropNewline dropEndWhile
  rw [List.reverse_append, dropWhile_append_of_stopsAt, List.reverse_reverse]
  . intro c hc
    exact hn c (List.mem_reverse.mp hc)
  . intro c hc
    apply hl
    rw [← List.mem_reverse]
    exact List.mem_of_mem_head? hc

theorem not_isNewline_of_mem_lines {t l : Text} (h : l ∈ lines t)
    : ∀ c ∈ dropNewline l, isNewline c = false := by
  revert l
  change ∀ l ∈ lines t, ∀ c ∈ dropNewline l, isNewline c = false
  fun_induction lines t with
  | case1 => simp
  | case2 t ih =>
    rw [List.forall_mem_cons]
    refine ⟨?_, ih⟩
    simp [dropNewline, dropEndWhile, isNewline]
  | case3 c t _ hc ih =>
    rw [List.forall_mem_cons]
    refine ⟨?_, ih⟩
    by_cases hnewline : isNewline c = true
    . simp [dropNewline, dropEndWhile, hnewline]
    . simp [dropNewline, dropEndWhile, hnewline]
  | case4 c t _ hc ih =>
    have hnewline : isNewline c = false := by
      rw [← Bool.not_eq_true]
      intro h
      exact hc (isLineEnd_of_isNewline h)
    cases hls : lines t with
    | nil => simp [consLine, dropNewline, dropEndWhile, hnewline]
    | cons l ls =>
      rw [hls, List.forall_mem_cons] at ih
      unfold consLine
      rw [List.forall_mem_cons, dropNewline_cons hnewline, List.forall_mem_cons]
      exact ⟨⟨hnewline, ih.1⟩, ih.2⟩

theorem newline_ne_nil {l : Text} (hends : ∀ c ∈ dropNewline l, isLineEnd c = false) (h : IsEnded l)
    : newline l ≠ [] := by
  intro hnil
  have hparts := dropNewline_append_newline l
  rw [hnil, List.append_nil] at hparts
  obtain ⟨c, hc, hend⟩ := h
  rw [hends c (by rw [hparts]; exact List.mem_of_getLast? hc)] at hend
  contradiction

section Exchange

variable {l s : Text} (hends : ∀ c ∈ dropNewline l, isLineEnd c = false)

include hends

theorem precedes_exchange {k : Text} (h : Precedes l k) : Precedes (s ++ newline l) k := by
  have hne := newline_ne_nil hends h.isEnded
  have hlast : (s ++ newline l).getLast? = l.getLast? := by
    nth_rewrite 2 [← dropNewline_append_newline l]
    rw [List.getLast?_append, List.getLast?_append, Option.or_of_isSome (by simpa using hne),
      Option.or_of_isSome (by simpa using hne)]
  obtain ⟨⟨c, hc, hend⟩, hsplit⟩ := h
  rw [← hlast] at hc hsplit
  exact ⟨⟨c, hc, hend⟩, hsplit⟩

theorem lines_exchange (hl : lines l = [l]) (hs : ∀ c ∈ s, isLineEnd c = false) (hne : s ≠ [])
    : lines (s ++ newline l) = [s ++ newline l] := by
  have hparts := dropNewline_append_newline l
  cases hnewline : lines (newline l) with
  | nil =>
    have hreturn : '\r' ∉ s := by
      intro hmem
      have := hs _ hmem
      contradiction
    have hline := lines_append (t := []) (isLine_of_forall hs) hne hreturn (fun h => absurd rfl h)
    rw [eq_nil_of_lines hnewline]
    rw [List.append_nil] at hline ⊢
    exact hline
  | cons k ks =>
    have hlines := lines_append_of_not_isLineEnd hends hnewline
    rw [hparts, hl] at hlines
    obtain ⟨heq, rfl⟩ := List.cons.inj hlines
    nth_rewrite 1 [← hparts] at heq
    rw [lines_append_of_not_isLineEnd hs hnewline, ← List.append_cancel_left heq]

end Exchange

theorem exists_of_lines_eq {l : Text} (h : lines l = [l])
    : ∃ s ending, l = s ++ ending ∧ (∀ c ∈ s, isLineEnd c = false) ∧
        (ending = [] ∨ ending = ['\r', '\n'] ∨ ∃ c, ending = [c] ∧ isLineEnd c = true) := by
  fun_induction lines l with
  | case1 => cases h
  | case2 t ih =>
    obtain ⟨_, hnil⟩ := List.cons.inj h
    rw [eq_nil_of_lines hnil]
    exact ⟨[], ['\r', '\n'], rfl, by simp, .inr (.inl rfl)⟩
  | case3 c t _ hc ih =>
    obtain ⟨_, hnil⟩ := List.cons.inj h
    rw [eq_nil_of_lines hnil]
    exact ⟨[], [c], rfl, by simp, .inr (.inr ⟨c, rfl, hc⟩)⟩
  | case4 c t _ hc ih =>
    rw [Bool.not_eq_true] at hc
    cases hls : lines t with
    | nil =>
      rw [eq_nil_of_lines hls]
      exact ⟨[c], [], rfl, by simpa using hc, .inl rfl⟩
    | cons k ks =>
      rw [hls] at h ih
      obtain ⟨heq, rfl⟩ := List.cons.inj h
      obtain ⟨_, rfl⟩ := List.cons.inj heq
      obtain ⟨s, ending, rfl, hs, hending⟩ := ih rfl
      exact ⟨c :: s, ending, rfl, List.forall_mem_cons.mpr ⟨hc, hs⟩, hending⟩

end Text

end DebianPackaging
