import DebianPackaging.Proofs.Control.Comment
import DebianPackaging.Proofs.Text.Fold

/-!
This module contains the lines of folded texts, and the fields whose values are folded: those that were read
from the lines of a text.
-/

namespace DebianPackaging

open Text
open ControlDocument (isComment isContinuation takeContinuation)

namespace Text

theorem not_isComment_of_isGap {l : Text} (h : l.head?.any isGap = true) : isComment l = false := by
  obtain ⟨c, hc, hgap⟩ := Option.any_eq_true _ _ |>.mp h
  unfold isComment
  rw [Option.mem_def.mp hc]
  unfold isGap at hgap
  rw [Bool.or_eq_true, beq_iff_eq, beq_iff_eq] at hgap
  rcases hgap with rfl | rfl <;> rfl

theorem isContinuation_iff {l : Text}
    : isContinuation l = true ↔ l.head?.any isGap = true ∧ l.all isBlank = false := by
  unfold isContinuation
  cases l with
  | nil => simp
  | cons c l => rw [List.head?_cons, Option.any_some, Bool.and_eq_true, Bool.not_eq_true']

structure AreFolded (ls : List Text) : Prop where
  isFed : ∀ l ∈ ls, IsFed l
  isGap : ∀ l ∈ ls, l.head?.any isGap = true
  continues : ls.Pairwise fun l _ => isContinuation l = true

theorem areFolded_nil : AreFolded [] := ⟨by simp, by simp, .nil⟩

theorem AreFolded.tail {l : Text} {ls : List Text} (h : AreFolded (l :: ls)) : AreFolded ls where
  isFed := (List.forall_mem_cons.mp h.isFed).2
  isGap := (List.forall_mem_cons.mp h.isGap).2
  continues := (List.pairwise_cons.mp h.continues).2

theorem head?_of_feedLines {t l : Text} {ls : List Text} (h : feedLines (t ++ ['\n']) = l :: ls)
    : l.head? = (t ++ ['\n']).head? := by
  have hne : l ≠ [] := (isFed_of_mem_feedLines (t := t) (by simp [h])).ne_nil
  rw [← flatten_feedLines (t ++ ['\n']), h, List.flatten_cons, List.head?_append_of_ne_nil _ hne]

theorem exists_feedLines_of_isFolded {t : Text} (h : IsFolded t)
    : ∃ first rest, feedLines (t ++ ['\n']) = first :: rest ∧ AreFolded rest ∧
        (rest ≠ [] → first.all isBlank = true → '\n' ∈ lead t) := by
  induction t with
  | nil => exact ⟨['\n'], [], by decide, areFolded_nil, by simp⟩
  | cons c t ih =>
    obtain ⟨first, rest, hlines, hrest, hblank⟩ := ih h.2
    rw [List.cons_append]
    by_cases hc : c = '\n'
    . obtain ⟨hgap, hlead⟩ := h.1 hc
      have hhead : first.head?.any isGap = true := by
        rw [head?_of_feedLines hlines, List.head?_append_of_ne_nil]
        . exact hgap
        . rintro rfl
          cases hgap
      have hfed : IsFed first := isFed_of_mem_feedLines (t := t) (by simp [hlines])
      refine ⟨[c], first :: rest, ?_, ⟨?_, ?_, ?_⟩, ?_⟩
      . rw [feedLines, if_pos hc, hlines]
      . exact List.forall_mem_cons.mpr ⟨hfed, hrest.isFed⟩
      . exact List.forall_mem_cons.mpr ⟨hhead, hrest.isGap⟩
      . rw [List.pairwise_cons]
        refine ⟨?_, hrest.continues⟩
        intro l hl
        rw [isContinuation_iff, ← Bool.not_eq_true]
        exact ⟨hhead, fun hall => hlead (hblank (List.ne_nil_of_mem hl) hall)⟩
      . intro _ _
        unfold lead
        rw [hc, List.takeWhile_cons_of_pos (by decide)]
        exact List.mem_cons_self
    . refine ⟨c :: first, rest, ?_, hrest, ?_⟩
      . rw [feedLines_cons hc, hlines]
        rfl
      . intro hne hall
        rw [List.all_cons, Bool.and_eq_true] at hall
        unfold lead
        rw [List.takeWhile_cons_of_pos hall.1]
        exact List.mem_cons_of_mem c (hblank hne hall.2)

theorem isFolded_feed_flatten {ls : List Text} (h : AreFolded ls) (hne : ls ≠ [])
    : IsFolded ('\n' :: ls.flatten.dropLast) := by
  induction ls with
  | nil => contradiction
  | cons l ls ih =>
    obtain ⟨body, hl, hbody⟩ := h.isFed l List.mem_cons_self
    have hgap := h.isGap l List.mem_cons_self
    have hhead : ∀ u : Text, (body ++ u).head?.any isGap = true := by
      intro u
      rw [hl] at hgap
      cases body with
      | nil => cases hgap
      | cons c body => exact hgap
    cases ls with
    | nil =>
      rw [List.flatten_singleton, hl, List.dropLast_concat]
      refine ⟨fun _ => ⟨by simpa using hhead [], ?_⟩, isFolded_of_not_mem hbody⟩
      intro hmem
      exact hbody ((List.takeWhile_prefix _).subset hmem)
    | cons l' ls =>
      have hrest := ih h.tail (by simp)
      have hflatten : (l' :: ls).flatten ≠ [] := by
        rw [List.flatten_cons]
        exact List.append_ne_nil_of_left_ne_nil (h.tail.isFed l' List.mem_cons_self).ne_nil _
      have hline := (List.pairwise_cons.mp h.continues).1 l' List.mem_cons_self
      rw [List.flatten_cons, List.dropLast_append_of_ne_nil hflatten, hl, List.append_assoc,
        List.singleton_append]
      refine ⟨fun _ => ⟨hhead _, ?_⟩, isFolded_append_of_not_mem hbody hrest⟩
      -- the line has more than blanks, so that no line feed behind it is reached
      have hall := (isContinuation_iff.mp hline).2
      rw [hl, List.all_append, Bool.and_eq_false_iff] at hall
      obtain ⟨c, hc, hblank⟩ := List.all_eq_false.mp (hall.resolve_right (by decide))
      obtain ⟨u, v, rfl⟩ := List.append_of_mem hc
      rw [List.append_assoc, List.cons_append]
      intro hmem
      rcases mem_lead_append hmem with hmem | hmem
      . exact hbody (List.mem_append_left _ ((List.takeWhile_prefix _).subset hmem))
      . exact not_mem_lead_of_stopsAt ((stopsAt_cons ..).mpr (by simpa using hblank)) _ hmem

theorem isFed_terminateLine {t l : Text} (h : l ∈ feedLines t) : IsFed (ControlDocument.terminateLine l) := by
  have hdrop := not_mem_dropLast_of_mem_feedLines h
  unfold ControlDocument.terminateLine
  split
  . next hlast =>
    obtain ⟨body, rfl⟩ := List.getLast?_eq_some_iff.mp hlast
    rw [List.dropLast_concat] at hdrop
    exact ⟨body, rfl, hdrop⟩
  . next hlast =>
    refine ⟨l, rfl, ?_⟩
    rcases List.eq_nil_or_concat' l with rfl | ⟨body, c, rfl⟩
    . simp
    . rw [List.dropLast_concat] at hdrop
      rw [List.getLast?_concat, Option.some_inj] at hlast
      simp [hdrop, Ne.symm hlast]

end Text

namespace ControlField

structure IsLaidOut (f : ControlField) : Prop where
  isFed : ∀ l ∈ f.first :: f.more, IsFed l
  first : isComment f.first = false
  continues : ∀ l ∈ f.more, isComment l = false → isContinuation l = true

theorem IsLaidOut.areFolded {f : ControlField} (h : f.IsLaidOut) : AreFolded f.continuation := by
  have hmem : ∀ l ∈ f.continuation, l ∈ f.more ∧ isContinuation l = true := by
    intro l hl
    obtain ⟨hmore, hcomment⟩ := List.mem_filter.mp hl
    refine ⟨hmore, h.continues l hmore ?_⟩
    unfold isComment
    simpa using hcomment
  constructor
  . intro l hl
    exact h.isFed l (List.mem_cons_of_mem _ (hmem l hl).1)
  . intro l hl
    exact (isContinuation_iff.mp (hmem l hl).2).1
  . exact List.Pairwise.imp_of_mem (fun hl _ _ => (hmem _ hl).2)
      (List.pairwise_of_forall (R := fun _ _ => True) fun _ _ => trivial)

theorem isFolded_value {f : ControlField} (h : f.IsLaidOut) : IsFolded f.value := by
  obtain ⟨body, hfirst, hbody⟩ := h.isFed f.first List.mem_cons_self
  have htrim : '\n' ∉ f.first.trim := by
    have heq : f.first.trim = trim body := by
      rw [hfirst]
      exact trim_blank_append_blank isBlankText_nil (isBlankText_singleton (by decide))
    rw [heq]
    intro hmem
    exact hbody ((isInfix_trim body).subset hmem)
  unfold value
  split
  . exact isFolded_of_not_mem htrim
  . next hne =>
    apply isFolded_append_of_not_mem htrim
    exact isFolded_feed_flatten h.areFolded (by simpa using hne)

end ControlField

namespace ControlDocument

theorem isContinuation_of_mem_takeContinuation {ls : List Text}
    : ∀ l ∈ (takeContinuation ls).1, isComment l = false → isContinuation l = true := by
  fun_induction takeContinuation ls with
  | case1 => simp
  | case2 ls l rest _ hl _ more behind hrest ih =>
    rw [hrest] at ih
    rw [List.forall_mem_append, List.forall_mem_cons]
    refine ⟨?_, fun _ => hl, ih⟩
    intro c hc hcomment
    rw [of_mem_takeWhile hc] at hcomment
    cases hcomment
  | case3 => simp

theorem isLaidOut_of_readLines? {t : Text} {d : ControlDocument} (h : readLines? t.feedLines = some d)
    : ∀ p ∈ d.paragraphs, ∀ f ∈ p.fields, isComment f.first = false → f.IsLaidOut := by
  intro p hp f hf hfirst
  obtain ⟨line, rest, hsuffix, hread, hmore⟩ := (exists_lines_of_readLines? h p hp).2 f hf
  have hfed : ∀ l ∈ line :: rest, IsFed l := by
    intro l hl
    obtain ⟨l', hl', rfl⟩ := List.mem_map.mp (hsuffix.subset hl)
    exact isFed_terminateLine hl'
  rw [List.forall_mem_cons] at hfed
  refine ⟨?_, hfirst, ?_⟩
  . rw [List.forall_mem_cons]
    constructor
    . have hline := hfed.1
      rw [eq_append_of_readFieldLine? hread] at hline
      exact hline.of_append_cons (by decide)
    . intro l hl
      rw [hmore] at hl
      exact hfed.2 l (mem_takeContinuation (.inl hl))
  . rw [hmore]
    exact isContinuation_of_mem_takeContinuation

end ControlDocument

end DebianPackaging
