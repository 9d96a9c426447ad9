import Mathlib.Data.Bool.AllAny
import DebianPackaging.Proofs.Makefile.AppendName
import DebianPackaging.Proofs.Makefile.EditRun
import DebianPackaging.Proofs.Makefile.Header

/-!
This module contains makefiles with a new rule for a phony target at their end. The line in front of the
rule gets a line feed if it has none. When the makefile is read again, the rule is one unless that line is
continued.
-/

namespace DebianPackaging

open Text MakeLine MakeElement

namespace Makefile

section Terminate

theorem terminateLines_append (ls : List Text) {ls' : List Text} (hne : ls' ≠ [])
    : terminateLines (ls ++ ls') = ls ++ terminateLines ls' := by
  induction ls with
  | nil => rfl
  | cons l ls ih =>
    rw [List.cons_append, terminateLines, ih]
    . rfl
    . intro hnil
      exact hne (List.append_eq_nil_iff.mp hnil).2

theorem terminate_append (es : List MakeElement) {es' : List MakeElement} (hne : es' ≠ [])
    : terminate (es ++ es') = es ++ terminate es' := by
  induction es with
  | nil => rfl
  | cons e es ih =>
    have hne' : es ++ es' ≠ [] := fun hnil => hne (List.append_eq_nil_iff.mp hnil).2
    rw [List.cons_append, terminate, ih]
    . rfl
    . exact fun _ _ => hne'
    . exact fun _ _ => hne'

theorem lines_terminateRule (r : Rule) : (terminateRule r).lines = terminateLines r.lines := by
  unfold terminateRule
  split
  . next hbody =>
    rw [List.isEmpty_iff] at hbody
    obtain ⟨first, continued, heq, _⟩ := terminateLines_cons r.first r.continued
    unfold Rule.lines Rule.headerLines
    rw [heq, hbody, List.append_nil, List.append_nil, heq]
  . next hbody =>
    rw [List.isEmpty_iff] at hbody
    unfold Rule.lines
    rw [terminateLines_append _ hbody]
    rfl

theorem allLines_terminate (es : List MakeElement)
    : allLines (terminate es) = terminateLines (allLines es) := by
  fun_induction terminate es with
  | case1 => rfl
  | case2 t => rfl
  | case3 r => simpa [MakeElement.lines] using lines_terminateRule r
  | case4 e es hline hrule ih =>
    have hne : es ≠ [] := by
      rintro rfl
      cases e with
      | line t => exact hline t rfl rfl
      | rule r => exact hrule r rfl rfl
    rw [allLines_cons, allLines_cons, ih, terminateLines_append]
    rwa [ne_eq, allLines_eq_nil_iff]

end Terminate

theorem lines_append_feed {l : Text} (hl : lines l = [l]) (hlast : l.getLast? ≠ some '\n')
    : lines (l ++ ['\n']) = [l ++ ['\n']] ∨ isContinued l = false ∧ Precedes l ['\n'] := by
  obtain ⟨s, ending, rfl, hs, rfl | rfl | ⟨c, rfl, hc⟩⟩ := exists_of_lines_eq hl
  . left
    rw [List.append_nil]
    exact lines_append_of_not_isLineEnd hs rfl
  . simp at hlast
  . by_cases hreturn : c = '\r'
    . left
      rw [hreturn, List.append_assoc]
      exact lines_append_of_not_isLineEnd hs rfl
    . right
      have hfeed : c ≠ '\n' := by simpa using hlast
      have hnewline : isNewline c = false := by simp [isNewline, hfeed, hreturn]
      have hbackslash : c ≠ '\\' := by
        rintro rfl
        contradiction
      constructor
      . rw [Rule.isContinued_append_cons hnewline hbackslash]
        rfl
      . exact ⟨⟨c, by simp, hc⟩, by simp [hreturn]⟩

theorem lines_flatten_replace {t l l' : Text} {ls more : List Text} (h : lines t = ls ++ [l])
    (hlines : ∀ k ∈ l' :: more, lines k = [k]) (hchain : (l' :: more).IsChain Precedes)
    (hhead : l'.head? = l.head?) : lines (ls ++ l' :: more).flatten = ls ++ l' :: more := by
  have hold := isChain_lines t
  have hmem : ∀ k ∈ ls, lines k = [k] := by
    intro k hk
    apply lines_of_mem_lines (t := t)
    simp [h, hk]
  rw [h, List.isChain_append] at hold
  apply lines_flatten_of_isChain
  . rw [List.forall_mem_append]
    exact ⟨hmem, hlines⟩
  . rw [List.isChain_append]
    refine ⟨hold.1, hchain, ?_⟩
    intro k hk k' hk'
    obtain rfl : l' = k' := by simpa using hk'
    obtain ⟨hended, hsplit⟩ := hold.2.2 k hk l rfl
    refine ⟨hended, ?_⟩
    rwa [hhead]

theorem lines_terminate_append {t l p : Text} {ls : List Text} (h : lines t = ls ++ [l]) (hp : IsFeedLine p)
    : ∃ ls', lines ((terminateLines (lines t)).flatten ++ p) = ls' ++ [p] ∧
        (ls' = ls ++ [l] ∨ ls' = ls ++ [l ++ ['\n']] ∨
          ls' = ls ++ [l] ++ [['\n']] ∧ isContinued l = false) := by
  have hl : lines l = [l] := by
    apply lines_of_mem_lines (t := t)
    simp [h]
  have hne : l ≠ [] := by
    rintro rfl
    cases hl
  have hflatten : ∀ ls' : List Text, ls'.flatten ++ p = (ls' ++ [p]).flatten := by simp
  rw [h, terminateLines_append ls (by simp), terminateLines, hflatten]
  by_cases hlast : l.getLast? = some '\n'
  . have hfeed : IsFeedLine l := ⟨hl, hlast⟩
    refine ⟨ls ++ [l], ?_, .inl rfl⟩
    rw [if_pos hlast, List.append_assoc]
    apply lines_flatten_replace h _ _ rfl
    . simpa using ⟨hl, hp.lines_eq⟩
    . simpa using hfeed.precedes p
  . rw [if_neg hlast]
    rcases lines_append_feed hl hlast with hline | ⟨hended, hprecedes⟩
    . have hfeed : IsFeedLine (l ++ ['\n']) := ⟨hline, by simp⟩
      refine ⟨ls ++ [l ++ ['\n']], ?_, .inr (.inl rfl)⟩
      rw [List.append_assoc]
      apply lines_flatten_replace h
      . simpa using ⟨hline, hp.lines_eq⟩
      . simpa using hfeed.precedes p
      . rw [List.head?_append_of_ne_nil _ hne]
    . have hfeed : IsFeedLine ['\n'] := ⟨rfl, rfl⟩
      refine ⟨ls ++ [l] ++ [['\n']], ?_, .inr (.inr ⟨rfl, hended⟩)⟩
      have hparts : (ls ++ [l ++ ['\n']] ++ [p]).flatten = (ls ++ l :: [['\n'], p]).flatten := by simp
      have hparts' : ls ++ [l] ++ [['\n']] ++ [p] = ls ++ l :: [['\n'], p] := by simp
      rw [hparts, hparts']
      apply lines_flatten_replace h _ _ rfl
      . simpa using ⟨hl, hfeed.lines_eq, hp.lines_eq⟩
      . simpa using ⟨hprecedes, hfeed.precedes p⟩

section Phony

variable {target : Text} (hname : Rule.IsListName target)

include hname

theorem isFeedLine_phonyRule : IsFeedLine (phonyRule target).first := by
  have hend : lines ['\n'] = [['\n']] := rfl
  constructor
  . apply lines_append_of_not_isLineEnd _ hend
    intro c hc
    rw [List.mem_append] at hc
    cases hc with
    | inl hc =>
      have hfront : ∀ c ∈ phonyTarget ++ ": ".toList, isLineEnd c = false :=
        List.all_iff_forall_prop.mp (by decide)
      exact hfront c hc
    | inr hc => exact not_isLineEnd_of_not_isBlank (hname.isWord.notBlank c hc)
  . exact List.getLast?_concat

omit hname in
theorem isHeader_phonyRule (target : Text) : isHeader (phonyRule target).first = true := by
  have hempty : isHeader (phonyTarget ++ ':' :: " ".toList) = true := by decide
  exact Rule.isHeader_of_colon (by decide) (fun _ => rfl) hempty

theorem listedBy_phonyRule (hbar : target ≠ ['|']) : listedBy [(phonyRule target).first] = [target] := by
  have hcolon : (phonyRule target).first = phonyTarget ++ ':' :: ([] ++ ' ' :: (target ++ ['\n'])) := by
    simp [phonyRule]
  have hphony : Rule.isPhony ⟨(phonyRule target).first, [], []⟩ = true := by
    unfold Rule.isPhony
    rw [hcolon, Rule.targets_of_colon (by decide)]
    decide
  have hlisted := @Rule.prerequisites_of_append phonyTarget (by decide) [] (by simp) target hname ['\n']
    (List.all_iff_forall_prop.mp (by decide)) [] (fun _ => rfl) []
  rw [← hcolon] at hlisted
  rw [listedBy, MakeElement.phonyTargets, if_pos hphony, hlisted]
  simp [Rule.skipColon, Rule.joinContinued, words_nil, hbar]

end Phony

theorem flatMap_listedBy_append_iff {ls : List Text} (hnone : hasPhonyHeader true ls = false) {p name : Text}
    (hp : isHeader p = true) (hlisted : listedBy [p] = [name])
    : name ∈ (headers true (ls ++ [p])).flatMap listedBy ↔ endedAfter true ls = true := by
  constructor
  . intro hmem
    rw [← Bool.not_eq_false]
    intro hcontinued
    have hbehind : hasPhonyHeader true (ls ++ [p]) = hasPhonyHeader true ls := by
      apply hasPhonyHeader_append_singleton
      rw [hcontinued, Bool.false_and]
    rw [flatMap_listedBy_of_not (hbehind.trans hnone)] at hmem
    cases hmem
  . intro hended
    have hsuffix := headers_suffix true ls [p]
    have hheaders : headers true [p] = [[p]] := by simp [headers, hp, takeContinued]
    rw [hended, hheaders] at hsuffix
    rw [List.mem_flatMap]
    refine ⟨[p], hsuffix.subset (by simp), ?_⟩
    simp [hlisted]

theorem text_append_phonyRule (t target : Text)
    : (Makefile.mk (terminate (read t).elements ++ [.rule (phonyRule target)])).text
        =
      (terminateLines (lines t)).flatten ++ (phonyRule target).first := by
  unfold Makefile.text
  rw [← flatten_allLines, allLines_append, allLines_terminate, allLines_elements_read]
  simp [MakeElement.lines, Rule.lines, Rule.headerLines, phonyRule]

theorem mem_phonyTargets_read_append {t : Text} (hnone : ∀ r, .rule r ∈ (read t).elements → r.isPhony = false)
    {target : Text} (hname : Rule.IsListName target) (hbar : target ≠ ['|'])
    : target ∈
          (read (Makefile.mk (terminate (read t).elements ++ [.rule (phonyRule target)])).text).phonyTargets ↔
        ∀ l ∈ (lines t).getLast?, isContinued l = false := by
  have hfeed := isFeedLine_phonyRule hname
  have hheader := isHeader_phonyRule target
  have hlisted := listedBy_phonyRule hname hbar
  have hold := hasPhonyHeader_allLines (isLaidOut_read t) hnone
  rw [text_append_phonyRule, phonyTargets_eq_flatMap, flatMap_phonyTargets (isLaidOut_read _),
    allLines_elements_read]
  rw [allLines_elements_read] at hold
  generalize (phonyRule target).first = p at hfeed hheader hlisted
  rcases List.eq_nil_or_concat (lines t) with hlines | ⟨ls, l, hlines⟩
  . rw [hlines] at hold ⊢
    have hmem := (flatMap_listedBy_append_iff hold hheader hlisted).mpr rfl
    simpa [terminateLines, hfeed.lines_eq] using hmem
  . rw [List.concat_eq_append] at hlines
    obtain ⟨ls', hlines', hcases⟩ := lines_terminate_append hlines hfeed
    rw [hlines] at hold
    have hlast : endedAfter true ls' = !isContinued l ∧ hasPhonyHeader true ls' = false := by
      rcases hcases with rfl | rfl | ⟨rfl, hended⟩
      . exact ⟨endedAfter_append_singleton true ls l, hold⟩
      . rw [endedAfter_append_singleton, hasPhonyHeader_append_feed]
        unfold isContinued
        rw [dropNewline_append_newline_run (by simp [isNewline])]
        exact ⟨rfl, hold⟩
      . have hblank : isHeader ['\n'] = false := by decide
        rw [endedAfter_append_singleton, hended, hasPhonyHeader_append_singleton (by simp [hblank])]
        exact ⟨rfl, hold⟩
    rw [hlines', flatMap_listedBy_append_iff hlast.2 hheader hlisted, hlast.1, hlines, List.getLast?_concat]
    simp

end Makefile

end DebianPackaging
