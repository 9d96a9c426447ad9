import DebianPackaging.Proofs.Control.Field

/-!
This module contains the comment lines inside of the values of fields, and the texts that are stored
without becoming comments.
-/

namespace DebianPackaging

open Text
open ControlDocument (isComment isContinuation takeContinuation)

namespace Text

/-- No line of a text but the first one is a comment. -/
def IsFreeOfComments (t : Text) : Prop := ∀ c, isLineEnd c = true → ¬ [c, '#'] <:+: t

theorem IsFreeOfComments.of_isInfix {s t : Text} (h : IsFreeOfComments t) (hs : s <:+: t)
    : IsFreeOfComments s := by
  intro c hc hpart
  exact h c hc (hpart.trans hs)

theorem isFreeOfComments_append {s t : Text} (hs : IsFreeOfComments s) (ht : IsFreeOfComments t)
    (hjoint : IsEnded s → t.head? ≠ some '#') : IsFreeOfComments (s ++ t) := by
  rintro c hc ⟨a, b, heq⟩
  rw [List.append_assoc] at heq
  rcases List.append_eq_append_iff.mp heq with ⟨u, rfl, htail⟩ | ⟨u, rfl, htail⟩
  . cases u with
    | nil => exact ht c hc ⟨[], b, htail⟩
    | cons d u =>
      cases u with
      | nil =>
        simp only [List.cons_append, List.nil_append, List.cons.injEq] at htail
        obtain ⟨rfl, htail⟩ := htail
        apply hjoint
        . exact ⟨c, by simp, hc⟩
        . rw [← htail]
          rfl
      | cons e u =>
        simp only [List.cons_append, List.nil_append, List.cons.injEq] at htail
        obtain ⟨rfl, rfl, _⟩ := htail
        exact hs c hc ⟨a, u, by simp⟩
  . exact ht c hc ⟨u, b, by simp [htail]⟩

theorem isFreeOfComments_of_not_isLineEnd {t : Text} (h : ∀ c ∈ t, isLineEnd c = false)
    : IsFreeOfComments t := by
  intro c hc hpart
  have := h c (hpart.subset (by simp))
  rw [hc] at this
  cases this

theorem not_isComment_of_mem_lines {t : Text} (h : IsFreeOfComments t) {l : Text}
    (hl : l ∈ (lines t).drop 1) : isComment l = false := by
  obtain ⟨before, behind, hsplit⟩ := List.append_of_mem hl
  rw [← Bool.not_eq_true]
  intro hcomment
  unfold isComment at hcomment
  obtain ⟨y, rfl⟩ := List.head?_eq_some_iff.mp (beq_iff_eq.mp hcomment)
  cases hlines : lines t with
  | nil =>
    rw [hlines] at hl
    cases hl
  | cons first rest =>
    rw [hlines, List.drop_one, List.tail_cons] at hsplit
    -- the line in front of the comment ends in front of it
    have hchain := isChain_lines t
    rw [hlines, hsplit, ← List.cons_append] at hchain
    obtain ⟨_, _, hjoint⟩ := List.isChain_append.mp hchain
    obtain ⟨last, hlast⟩ := Option.isSome_iff_exists.mp
      (show (first :: before).getLast?.isSome = true by simp)
    obtain ⟨c, hc, hend⟩ := (hjoint last hlast _ rfl).isEnded
    obtain ⟨init, hinit⟩ := List.getLast?_eq_some_iff.mp hlast
    obtain ⟨x, rfl⟩ := List.getLast?_eq_some_iff.mp hc
    have hflatten := flatten_lines t
    rw [hlines, hsplit, ← List.cons_append, hinit] at hflatten
    refine h c hend ⟨init.flatten ++ x, y ++ behind.flatten, ?_⟩
    rw [← hflatten]
    simp

theorem isFreeOfComments_of_not_mem {t : Text} (h : '#' ∉ t) : IsFreeOfComments t := by
  intro c _ hpart
  exact h (hpart.subset (by simp))

theorem isFreeOfComments_singleton (c : Char) : IsFreeOfComments [c] := by
  intro d _ hpart
  have := hpart.length_le
  simp at this

theorem isFreeOfComments_append_feed {t : Text} (h : IsFreeOfComments t)
    : IsFreeOfComments (t ++ ['\n']) :=
  isFreeOfComments_append h (isFreeOfComments_singleton '\n') (by simp)

theorem isFreeOfComments_append_lines {s t : Text} (hs : IsFreeOfComments s)
    (ht : ∀ l ∈ lines t, isComment l = false) (hfree : IsFreeOfComments t) : IsFreeOfComments (s ++ t) := by
  apply isFreeOfComments_append hs hfree
  intro _ hhead
  cases hlines : lines t with
  | nil =>
    rw [eq_nil_of_lines hlines] at hhead
    cases hhead
  | cons l ls =>
    have hl := ht l (by simp [hlines])
    unfold isComment at hl
    rw [head?_of_lines hlines, hhead] at hl
    cases hl

theorem isFreeOfComments_of_lines {t : Text} (h : ∀ l ∈ (lines t).drop 1, isComment l = false)
    : IsFreeOfComments t := by
  fun_induction lines t with
  | case1 => exact isFreeOfComments_of_not_isLineEnd (by simp)
  | case2 t ih =>
    apply isFreeOfComments_append_lines (s := ['\r', '\n'])
    . exact isFreeOfComments_append_feed (isFreeOfComments_singleton '\r')
    . simpa using h
    . apply ih
      intro l hl
      exact h l (List.mem_of_mem_drop hl)
  | case3 c t hne hc ih =>
    apply isFreeOfComments_append_lines (s := [c])
    . exact isFreeOfComments_singleton c
    . simpa using h
    . apply ih
      intro l hl
      exact h l (List.mem_of_mem_drop hl)
  | case4 c t hne hc ih =>
    have hc : isLineEnd c = false := by simpa using hc
    apply isFreeOfComments_append (s := [c]) (isFreeOfComments_singleton c)
    . apply ih
      intro l hl
      apply h
      cases hls : lines t with
      | nil =>
        rw [hls] at hl
        cases hl
      | cons l' ls =>
        rw [hls] at hl
        exact hl
    . rintro ⟨d, hd, hend⟩
      cases hd
      exact absurd hend (by simp [hc])

theorem isFreeOfComments_join {sep : Text} {parts : List Text} (hsep : '#' ∉ sep)
    (hlast : (sep.getLast?.any fun c => !isLineEnd c) = true)
    (hparts : ∀ w ∈ parts, IsFreeOfComments w) : IsFreeOfComments (join sep parts) := by
  obtain ⟨d, hd, hline⟩ := Option.any_eq_true _ _ |>.mp hlast
  unfold join
  induction parts with
  | nil => exact isFreeOfComments_of_not_mem (by simp)
  | cons w parts ih =>
    rw [List.forall_mem_cons] at hparts
    cases parts with
    | nil =>
      rw [List.intercalate_singleton]
      exact hparts.1
    | cons w' parts =>
      rw [List.intercalate_cons_cons]
      apply isFreeOfComments_append
      . apply isFreeOfComments_append hparts.1 (isFreeOfComments_of_not_mem hsep)
        intro _ hhead
        exact hsep (List.mem_of_head? hhead)
      . exact ih hparts.2
      . rintro ⟨c, hc, hend⟩
        rw [List.getLast?_append, hd] at hc
        cases hc
        rw [hend] at hline
        cases hline

theorem isFreeOfComments_terminateLine {t : Text} (h : IsFreeOfComments t)
    : IsFreeOfComments (ControlDocument.terminateLine t) := by
  unfold ControlDocument.terminateLine
  split
  . exact h
  . exact isFreeOfComments_append_feed h

theorem isFreeOfComments_layOut {value : Text} (h : IsFreeOfComments value)
    : IsFreeOfComments (Paragraph.layOut value) := by
  have htrim (t : Text) (ht : IsFreeOfComments t) : IsFreeOfComments (' ' :: trim t) := by
    apply isFreeOfComments_append (s := [' '])
    . exact isFreeOfComments_singleton ' '
    . exact ht.of_isInfix (isInfix_trim t)
    . rintro ⟨c, hc, hline⟩
      cases hc
      cases hline
  unfold Paragraph.layOut
  split
  . split
    . exact isFreeOfComments_singleton '\n'
    . exact isFreeOfComments_append_feed (htrim _ h)
  . next first rest hcut =>
    rw [eq_append_of_cut? hcut] at h
    have hfirst : IsFreeOfComments first := h.of_isInfix (List.prefix_append ..).isInfix
    have hrest : IsFreeOfComments ('\n' :: rest) := h.of_isInfix (List.suffix_append ..).isInfix
    apply isFreeOfComments_terminateLine
    apply isFreeOfComments_append ?_ hrest (by simp)
    split
    . exact hfirst
    . exact htrim _ hfirst

end Text

namespace ControlField

def innerComments (f : ControlField) : List Text := f.more.filter isComment

structure IsPlain (f : ControlField) : Prop where
  isFeedLine : ∀ l ∈ f.first :: f.more, IsFeedLine l
  first : isComment f.first = false
  last : ∀ l ∈ f.more.getLast?, isComment l = false

theorem isFeedLine_of_readFieldLine? {line name first : Text} (hline : IsFeedLine line)
    (h : ControlDocument.readFieldLine? line = some (name, first)) : IsFeedLine first := by
  have hname := ControlDocument.isFieldName_of_readFieldLine? h
  have heq : line = (name ++ [':']) ++ first := by
    rw [ControlDocument.eq_append_of_readFieldLine? h]
    simp
  rw [heq] at hline
  have hend : ∀ c ∈ name ++ [':'], isLineEnd c = false := by
    rw [List.forall_mem_append, List.forall_mem_singleton]
    exact ⟨hname.not_isLineEnd, by decide⟩
  cases hfirst : lines first with
  | nil =>
    have hlast := hline.getLast?_eq
    rw [eq_nil_of_lines hfirst] at hlast
    simp at hlast
  | cons l ls =>
    have hlines := hline.lines_eq
    rw [lines_append_of_not_isLineEnd hend hfirst] at hlines
    obtain ⟨hl, rfl⟩ := List.cons.inj hlines
    rw [List.append_cancel_left_eq] at hl
    rw [hl] at hfirst
    refine ⟨hfirst, ?_⟩
    have hlast := hline.getLast?_eq
    rw [List.getLast?_append, Option.or_of_isSome] at hlast
    . exact hlast
    . rw [List.getLast?_isSome]
      exact ne_nil_of_mem_lines (t := first) (by simp [hfirst])

theorem isFeedLine_of_mem_innerComments {f : ControlField} (hf : f.IsPlain) {c : Text}
    (hc : c ∈ f.innerComments) : IsFeedLine c ∧ isComment c = true := by
  obtain ⟨hmore, hcomment⟩ := List.mem_filter.mp hc
  exact ⟨hf.isFeedLine c (List.mem_cons_of_mem _ hmore), hcomment⟩

theorem isFreeOfComments_value {f : ControlField} (hf : f.IsPlain) : IsFreeOfComments f.value := by
  have hcontinuation : ∀ l ∈ f.continuation, IsFeedLine l ∧ isComment l = false := by
    intro l hl
    obtain ⟨hmore, hcomment⟩ := List.mem_filter.mp hl
    refine ⟨hf.isFeedLine l (List.mem_cons_of_mem _ hmore), ?_⟩
    unfold isComment
    simpa using hcomment
  have hfirst : IsFreeOfComments f.first := by
    apply isFreeOfComments_of_lines
    rw [(hf.isFeedLine f.first (List.mem_cons_self ..)).lines_eq]
    simp
  have hlines : lines f.continuation.flatten = f.continuation :=
    lines_flatten_of_isFeedLine fun l hl => (hcontinuation l hl).1
  have hrest : IsFreeOfComments ('\n' :: f.continuation.flatten) := by
    apply isFreeOfComments_append_lines (s := ['\n']) (isFreeOfComments_singleton '\n')
    . rw [hlines]
      exact fun l hl => (hcontinuation l hl).2
    . apply isFreeOfComments_of_lines
      rw [hlines]
      exact fun l hl => (hcontinuation l (List.mem_of_mem_drop hl)).2
  unfold value
  split
  . exact hfirst.of_isInfix (isInfix_trim _)
  . apply isFreeOfComments_append (hfirst.of_isInfix (isInfix_trim _))
    . apply hrest.of_isInfix
      apply List.IsPrefix.isInfix
      exact List.cons_prefix_cons.mpr ⟨rfl, List.dropLast_prefix _⟩
    . simp

end ControlField

end DebianPackaging
