import Mathlib.Data.List.Basic
import DebianPackaging.Proofs.Makefile.Prerequisite

/-!
This module contains headers in which a backslash does nothing but continue a line. Taking a word out of
such a header continues the same lines as before.
-/

namespace DebianPackaging

open Text MakeLine

namespace MakeLine

inductive IsPlain : Text → Prop where
  | ended {t : Text} {c : Char} (ht : '\\' ∉ t) (hc : isLineEnd c = true) : IsPlain (t ++ [c])
  | continued {t : Text} (ht : '\\' ∉ t) : IsPlain (t ++ ['\\', '\n'])

theorem mem_of_isContinued {t : Text} (h : isContinued t = true) : '\\' ∈ t := by
  unfold isContinued at h
  rw [beq_iff_eq] at h
  rw [← dropNewline_append_newline t]
  simp [List.mem_of_getLast? h]

theorem isContinued_of_not_mem {t : Text} (h : '\\' ∉ t) : isContinued t = false := by
  rw [← Bool.not_eq_true]
  intro hcontinued
  exact h (mem_of_isContinued hcontinued)

theorem isContinued_ended {t : Text} (ht : '\\' ∉ t) {c : Char} (hc : isLineEnd c = true)
    : isContinued (t ++ [c]) = false := by
  apply isContinued_of_not_mem
  rw [List.mem_append, List.mem_singleton, not_or]
  refine ⟨ht, ?_⟩
  intro h
  rw [← h] at hc
  contradiction

theorem isContinued_continued (t : Text) : isContinued (t ++ ['\\', '\n']) = true := by
  have hdrop := dropNewline_append_cons (c := '\\') rfl t ['\n']
  unfold isContinued
  rw [hdrop]
  simp [dropNewline, dropEndWhile, isNewline]

theorem IsPlain.ne_nil {l : Text} (h : IsPlain l) : l ≠ [] := by
  cases h <;> simp

end MakeLine

namespace Rule

theorem joinContinued_append_of_not_mem {t : Text} (h : '\\' ∉ t) (t' : Text)
    : joinContinued (t ++ t') = t ++ joinContinued t' := by
  induction t with
  | nil => rfl
  | cons c t ih =>
    rw [List.mem_cons, not_or] at h
    rw [List.cons_append, joinContinued, ih h.2]
    . rfl
    . intro _ hc _
      exact h.1 hc.symm
    . intro _ hc _
      exact h.1 hc.symm

theorem joinContinued_of_not_mem {t : Text} (h : '\\' ∉ t) : joinContinued t = t := by
  have happ := joinContinued_append_of_not_mem h []
  rwa [List.append_nil, joinContinued, List.append_nil] at happ

theorem not_mem_joinContinued_of_plain {ls : List Text} (h : ∀ l ∈ ls, IsPlain l)
    : '\\' ∉ joinContinued ls.flatten := by
  induction ls with
  | nil => simp [joinContinued]
  | cons l ls ih =>
    rw [List.forall_mem_cons] at h
    specialize ih h.2
    rw [List.flatten_cons]
    cases h.1 with
    | @ended t c ht hc =>
      have hl : '\\' ∉ t ++ [c] := by
        rw [List.mem_append, List.mem_singleton, not_or]
        refine ⟨ht, ?_⟩
        intro h
        rw [← h] at hc
        contradiction
      rw [joinContinued_append_of_not_mem hl, List.mem_append, not_or]
      exact ⟨hl, ih⟩
    | @continued t ht =>
      rw [List.append_assoc, joinContinued_append_of_not_mem ht]
      simp [joinContinued, ht, ih]

theorem isNewline_of_not_mem_joinContinued {c : Char} {t : Text}
    (h : '\\' ∉ joinContinued ('\\' :: c :: t)) : isNewline c = true := by
  rw [← Bool.not_eq_false]
  intro hc
  apply h
  rw [joinContinued]
  . simp
  . intro _ _ heq
    cases heq
    contradiction
  . intro _ _ heq
    cases heq
    contradiction

theorem isPlain_of_not_mem {before after : List Text} {l : Text} (hline : IsLine l) (hended : IsEnded l)
    (hreturn : '\r' ∉ l) (h : '\\' ∉ joinContinued (before ++ l :: after).flatten) : IsPlain l := by
  obtain ⟨c, hc, hend⟩ := hended
  obtain ⟨t, rfl⟩ := List.getLast?_eq_some_iff.mp hc
  by_cases ht : '\\' ∈ t
  . obtain ⟨t', rest, rfl, ht'⟩ := List.eq_append_cons_of_mem ht
    have hflatten : (before ++ (t' ++ '\\' :: rest ++ [c]) :: after).flatten
        = before.flatten ++ t' ++ '\\' :: (rest ++ [c] ++ after.flatten) := by
      simp
    have hstops : StopsAt isNewline ('\\' :: (rest ++ [c] ++ after.flatten)) := by
      simp [isNewline]
    rw [hflatten, joinContinued_append hstops, List.mem_append, not_or] at h
    cases rest with
    | nil =>
      have hc := isNewline_of_not_mem_joinContinued h.2
      have hlf : c = '\n' := by
        have hne : c ≠ '\r' := by
          intro heq
          simp [heq] at hreturn
        simpa [isNewline, hne] using hc
      rw [hlf, List.append_assoc]
      exact .continued ht'
    | cons d rest =>
      have hd := isLineEnd_of_isNewline (isNewline_of_not_mem_joinContinued h.2)
      have hd' := ((isLine_append (by simp)).mp hline).1 d (by simp)
      rw [hd] at hd'
      contradiction
  . exact .ended ht hend

theorem LosesWord.exists_of_append {name t rest l : Text} (h : LosesWord name (t ++ rest) l)
    (hname : name ≠ []) (hrest : ∀ c ∈ name, c ∉ rest)
    : ∃ t', l = t' ++ rest ∧ ∀ c, c ∉ t → c ∉ t' := by
  generalize hs : t ++ rest = s at h
  cases h with
  | @mk front gap kept rest' c hc _ =>
    have hback : ∃ back, t = front ++ c :: (gap ++ name) ++ back ∧ rest' = back ++ rest := by
      rw [← List.append_assoc, List.append_eq_append_iff] at hs
      rcases hs with ⟨back, hfront, hrest'⟩ | ⟨back, ht, hrest'⟩
      . -- the word would reach into the end of the line
        have hnil : back = [] := by
          by_contra hne
          have hlast := congrArg List.getLast? hfront
          rw [List.getLast?_append_of_ne_nil _ hne, ← List.cons_append, ← List.append_assoc,
            List.getLast?_append_of_ne_nil _ hname, List.getLast?_eq_some_getLast hname] at hlast
          apply hrest _ (List.getLast_mem hname)
          rw [hrest', List.mem_append]
          exact .inl (List.mem_of_getLast? hlast.symm)
        rw [hnil] at hfront hrest'
        exact ⟨[], by simpa using hfront.symm, by simpa using hrest'.symm⟩
      . exact ⟨back, ht, hrest'⟩
    obtain ⟨back, rfl, rfl⟩ := hback
    refine ⟨front ++ kept ++ back, by simp, ?_⟩
    intro d hd
    cases hc with
    | inl hc => simp_all
    | inr hc => simp_all

theorem LosesWord.isPlain {name l l' : Text} (h : LosesWord name l l') (hname : IsWord name)
    (hbackslash : '\\' ∉ name) (hl : IsPlain l)
    : IsPlain l' ∧ isContinued l' = isContinued l := by
  cases hl with
  | @ended t c ht hc =>
    obtain ⟨t', rfl, hsubset⟩ := h.exists_of_append hname.ne_nil (by
      intro d hd hmem
      rw [List.mem_singleton] at hmem
      have hblank := hname.notBlank d hd
      rw [hmem, isBlank_of_isLineEnd hc] at hblank
      contradiction)
    have ht' := hsubset _ ht
    rw [isContinued_ended ht hc, isContinued_ended ht' hc]
    exact ⟨.ended ht' hc, rfl⟩
  | @continued t ht =>
    obtain ⟨t', rfl, hsubset⟩ := h.exists_of_append hname.ne_nil (by
      intro d hd hmem
      have hblank := hname.notBlank d hd
      simp only [List.mem_cons, List.not_mem_nil, or_false] at hmem
      cases hmem with
      | inl heq =>
        rw [heq] at hd
        contradiction
      | inr heq =>
        rw [heq] at hblank
        contradiction)
    rw [isContinued_continued, isContinued_continued]
    exact ⟨.continued (hsubset _ ht), rfl⟩

theorem mem_of_mem_prerequisites_splitHeader {header : Text} {c : Char}
    (h : c ∈ (splitHeader header).prerequisites) : c ∈ header := by
  unfold splitHeader at h
  split at h
  . cases h
  . next targets rest hcut =>
    have hrest : c ∈ rest := by
      generalize hrest' : (if rest.head? == some ':' then rest.drop 1 else rest) = rest' at h
      have hsubset : rest' ⊆ rest := by
        rw [← hrest']
        split
        . exact List.drop_subset 1 rest
        . exact List.Subset.refl rest
      apply hsubset
      dsimp at h
      rw [hrest'] at h
      split at h
      . exact List.takeWhile_subset _ h
      . next rest'' recipe hcut' =>
        rw [eq_append_of_cut? hcut', List.mem_append]
        left
        exact List.takeWhile_subset _ h
    rw [eq_append_of_cut? hcut]
    simp [hrest]

theorem mem_joinContinued_of_mem_prerequisites {r : Rule} {name : Text} (h : name ∈ r.prerequisites)
    {c : Char} (hc : c ∈ name) : c ∈ joinContinued r.headerLines.flatten := by
  have hblank := (isWord_of_mem_prerequisites h).notBlank c hc
  unfold prerequisites at h
  have hmem : c ∈ r.header.prerequisites := by
    rw [← mem_words_iff hblank]
    exact ⟨name, (List.mem_filter.mp h).1, hc⟩
  rw [← dropNewline_append_newline (joinContinued r.headerLines.flatten), List.mem_append]
  left
  exact mem_of_mem_prerequisites_splitHeader hmem

end Rule

end DebianPackaging
