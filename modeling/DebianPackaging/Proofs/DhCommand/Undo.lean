import DebianPackaging.Proofs.DhCommand.Item

/-!
This module contains that dropping an add-on undoes adding it. A new add-on stands directly behind a flag that
ends in `=`, and this place is told from any other one at which the add-on could be dropped.
-/

namespace DebianPackaging

open Text

namespace DhCommand

section Place

variable {front x e : Text} {gap : Char} (hgap : isGap gap = true) (hx : IsItem x) (hfront : ¬ x <:+: front)
  (he : StopsAt inItem e) (hbehind : ¬ x <:+: e)

include hgap hx hfront he hbehind

theorem eq_of_append_opening {a o' e' : Text} (ho' : IsOpening o') (he' : StopsAt inItem e')
    (h : front ++ (gap :: ("--with=" : Text) ++ (x ++ e)) = a ++ (o' ++ (x ++ e')))
    : front = a ∧ gap :: ("--with=" : Text) = o' ∧ e = e' := by
  have hnot : ¬ x <:+: front ++ [gap] := by
    intro hmem
    have hstops : StopsAt (fun c => !isGap c) [gap] := by simp [hgap]
    rcases isInfix_append_of_stopsAt (fun c hc => by simp [hx.isGap c hc]) hstops hmem with
      hmem | hmem
    . exact hfront hmem
    . obtain ⟨c, hc⟩ := List.exists_mem_of_ne_nil x hx.ne_nil
      have hc' := hx.isGap c hc
      rw [List.mem_singleton.mp (hmem.subset hc), hgap] at hc'
      cases hc'
  have hflag : ∀ c ∈ ("--with=" : Text) ++ x, inItem c = true := by
    rw [List.forall_mem_append]
    exact ⟨List.all_iff_forall_prop.mp (by decide), hx.chars⟩
  have hparts : ((front ++ [gap]) ++ (("--with=" : Text) ++ x)) ++ e = ((a ++ o') ++ x) ++ e' := by
    simpa using h
  obtain ⟨heq, hend⟩ := eq_of_stopsAt hflag hx.chars he he' hnot hbehind hparts
  have hopen : front ++ gap :: ("--with=" : Text) = a ++ o' := by
    apply (List.append_left_inj x).mp
    simpa using heq
  obtain ⟨hfronts, hflags⟩ := List.append_inj' hopen ho'.length_eq.symm
  exact ⟨hfronts, hflags, hend⟩

theorem eq_nil_of_append {a b o' e' : Text} (hsplit : front = a ++ b) (ho' : IsOpening o')
    (he' : StopsAt inItem e')
    (h : b ++ (gap :: ("--with=" : Text) ++ (x ++ e)) = o' ++ (x ++ e')) : b = [] := by
  obtain ⟨heq, _⟩ := eq_of_append_opening hgap hx hfront he hbehind (a := a) ho' he'
    (by rw [hsplit, List.append_assoc, h])
  rw [hsplit] at heq
  simpa using heq

end Place

theorem exists_opening_of_dropSole? {s x : Text} (hs : '\n' ∉ s) (h : dropSole? x s ≠ none)
    : ∃ o e, IsOpening o ∧ s = o ++ (x ++ e) ∧ (e = [] ∨ ∃ more, e = ' ' :: more) := by
  obtain ⟨flag, hflag, hrest⟩ := (dropSole?_ne_none_iff hs).mp h
  have ho := isOpening_text hflag
  have heq := WithFlag.eq_text_append hflag
  rcases hrest with hrest | ⟨c, more, hrest⟩
  . exact ⟨flag.text, [], ho, by simp [heq, hrest], .inl rfl⟩
  . exact ⟨flag.text, ' ' :: c :: more, ho, by rw [heq, hrest], .inr ⟨c :: more, rfl⟩⟩

theorem exists_opening_of_dropFirst? {s x : Text} (h : dropFirst? x s ≠ none)
    : ∃ o more, IsOpening o ∧ s = o ++ (x ++ ',' :: more) := by
  obtain ⟨flag, more, hflag, hrest⟩ := dropFirst?_ne_none_iff.mp h
  exact ⟨flag.text, more, isOpening_text hflag, by rw [← hrest, ← WithFlag.eq_text_append hflag]⟩

theorem stopsAt_inItem_of_space {e : Text} (h : e = [] ∨ ∃ more, e = ' ' :: more) : StopsAt inItem e := by
  rcases h with rfl | ⟨more, rfl⟩
  . exact stopsAt_nil _
  . exact (stopsAt_cons _ _ _).mpr rfl

section Undo

variable {x : Text} (hx : IsItem x)

include hx

theorem dropWith_newFlag {line : Text} (hnewline : '\n' ∉ line ++ " --with=" ++ x) (hnew : ¬ x <:+: line)
    : dropWith (line ++ " --with=" ++ x) x = line := by
  have hopening : IsOpening (' ' :: ("--with=" : Text)) := .mk rfl (.inr rfl)
  have hparts : line ++ (" --with=" : Text) ++ x = line ++ (' ' :: ("--with=" : Text) ++ (x ++ [])) := by simp
  have hnil : ¬ x <:+: ([] : Text) := by simpa using hx.ne_nil
  rw [hparts] at hnewline
  obtain ⟨new, rest, hsome, heq⟩ :=
    exists_dropSole? hopening (mt (List.mem_append_right line) hnewline) (.inl rfl)
  have hsole : (line ++ (' ' :: ("--with=" : Text) ++ (x ++ []))).replaceFirst (dropSole? x) = line := by
    rw [replaceFirst_append hsome, heq, List.append_nil]
    intro a b hsplit hb
    rw [← not_ne_iff]
    intro h
    have hs : '\n' ∉ b ++ (' ' :: ("--with=" : Text) ++ (x ++ [])) := by
      rw [hsplit, List.append_assoc] at hnewline
      exact mt (List.mem_append_right a) hnewline
    obtain ⟨o', e', ho', hplace, he'⟩ := exists_opening_of_dropSole? hs h
    exact hb (eq_nil_of_append rfl hx hnew (stopsAt_nil _) hnil hsplit ho'
      (stopsAt_inItem_of_space he') hplace)
  rw [hparts, dropWith_eq_replaceFirst, hsole, replaceFirst_of_mem_removals hnew (mem_removals_first x),
    replaceFirst_of_mem_removals hnew (mem_removals_inner x),
    replaceFirst_of_mem_removals hnew (mem_removals_final x)]

theorem dropWith_prepended {front rest : Text} {gap : Char} (hgap : isGap gap = true)
    (hnewline : '\n' ∉ front ++ (gap :: ("--with=" : Text) ++ (x ++ ',' :: rest)))
    (hfront : ¬ x <:+: front) (hrest : ¬ x <:+: rest)
    : dropWith (front ++ (gap :: ("--with=" : Text) ++ (x ++ ',' :: rest))) x =
        front ++ (gap :: ("--with=" : Text) ++ rest) := by
  have hopening : IsOpening (gap :: ("--with=" : Text)) := .mk hgap (.inr rfl)
  have hstops : StopsAt inItem (',' :: rest) := (stopsAt_cons _ _ _).mpr rfl
  have hbehind : ¬ x <:+: ',' :: rest := by
    rw [List.infix_cons_iff, not_or]
    refine ⟨?_, hrest⟩
    intro hstart
    obtain ⟨c, x, rfl⟩ := List.exists_cons_of_ne_nil hx.ne_nil
    rw [List.cons_prefix_cons] at hstart
    exact hx.comma_not_mem (by simp [hstart.1])
  have hsole : ∀ s, s <:+ front ++ (gap :: ("--with=" : Text) ++ (x ++ ',' :: rest)) →
      dropSole? x s = none := by
    rintro s ⟨a, hsplit⟩
    rw [← not_ne_iff]
    intro h
    have hs : '\n' ∉ s := by
      rw [← hsplit] at hnewline
      exact mt (List.mem_append_right a) hnewline
    obtain ⟨o', e', ho', rfl, he'⟩ := exists_opening_of_dropSole? hs h
    obtain ⟨_, _, rfl⟩ := eq_of_append_opening hgap hx hfront hstops hbehind ho'
      (stopsAt_inItem_of_space he') hsplit.symm
    simp at he'
  have hfirst : ∀ a b, front = a ++ b → b ≠ [] →
      dropFirst? x (b ++ (gap :: ("--with=" : Text) ++ (x ++ ',' :: rest))) = none := by
    intro a b hsplit hb
    rw [← not_ne_iff]
    intro h
    obtain ⟨o', more, ho', hplace⟩ := exists_opening_of_dropFirst? h
    exact hb (eq_nil_of_append hgap hx hfront hstops hbehind hsplit ho'
      ((stopsAt_cons _ _ _).mpr rfl) hplace)
  have hgone : ¬ ',' :: x <:+: front ++ (gap :: ("--with=" : Text) ++ rest) :=
    hopening.not_isInfix hx.isGap hfront hrest
  rw [dropWith_eq_replaceFirst, replaceFirst_of_forall hsole,
    replaceFirst_append (dropFirst?_opening hopening rest) hfirst,
    replaceFirst_dropItem?_of_not_isInfix findsItem_innerItem? hgone,
    replaceFirst_dropItem?_of_not_isInfix findsItem_finalItem? hgone]

end Undo

/-- How dropping an add-on undoes adding it: a line, the line with the add-on, and that line without the add-on
again. The line is the same again, but the flag to whose list the add-on was prepended is written with a `=`. -/
inductive Undoes (x : Text) : (line added dropped : Text) → Prop where
  | flag {line : Text} (h : ¬ (" --with" : Text) <:+: line) : Undoes x line (line ++ " --with=" ++ x) line
  | item {front rest : Text} {gap sep c : Char} (hgap : isGap gap = true) (hsep : sep = ' ' ∨ sep = '=')
      (hc : isGap c = false)
      : Undoes x (front ++ (gap :: ("--with" : Text) ++ sep :: c :: rest))
          (front ++ (gap :: ("--with=" : Text) ++ (x ++ ',' :: c :: rest)))
          (front ++ (gap :: ("--with=" : Text) ++ c :: rest))
  | nowhere {line : Text} (hflag : (" --with" : Text) <:+: line) (h : getWith line = [])
      : Undoes x line line line

theorem exists_opening_of_prependAddon? {x s new rest : Text} (h : prependAddon? x s = some (new, rest))
    : ∃ gap sep c t, isGap gap = true ∧ (sep = ' ' ∨ sep = '=') ∧ isGap c = false ∧
        s = gap :: ("--with" : Text) ++ sep :: c :: t ∧
        new ++ rest = gap :: ("--with=" : Text) ++ (x ++ ',' :: c :: t) := by
  obtain ⟨flag, hread, heq⟩ := Option.map_eq_some_iff.mp h
  cases heq
  obtain ⟨hflag, hne⟩ := Option.filter_eq_some_iff.mp hread
  obtain ⟨hgap, hsep, hs⟩ := WithFlag.read?_eq_some_iff.mp hflag
  have hrest : ∃ c t, isGap c = false ∧ flag.rest = c :: t := by
    unfold WithFlag.list at hne
    match hrest : flag.rest with
    | [] => simp [hrest] at hne
    | c :: t => exact ⟨c, t, by simpa [hrest, List.takeWhile_cons] using hne, rfl⟩
  obtain ⟨c, t, hc, hrest⟩ := hrest
  refine ⟨flag.gap, flag.separator, c, t, hgap, hsep, hc, ?_, ?_⟩
  . simp [hs, hrest, WithFlag.text]
  . unfold WithFlag.list WithFlag.afterList
    rw [List.append_assoc, List.takeWhile_append_dropWhile, hrest]
    simp

/-- An add-on that a line does not mention is dropped again after it was added, and the line is as it was but
for the `=` of the flag that took the add-on. -/
theorem undoes_addWith {line x : Text} (hline : '\n' ∉ line) (hx : IsWord x) (hcomma : ',' ∉ x)
    (hnew : ¬ x <:+: line) : Undoes x line (addWith line x) (dropWith (addWith line x) x) := by
  have hitem := isItem_of_isWord hx hcomma
  unfold addWith
  rw [if_neg (by rwa [occursIn_iff])]
  by_cases hflag : (" --with" : Text) <:+: line
  . rw [if_neg (by simpa using occursIn_iff.mpr hflag)]
    have hrun := replacesFirst_replaceFirst (prependAddon? x) line
    generalize hadded : line.replaceFirst (prependAddon? x) = added at hrun
    cases hrun with
    | nowhere _ =>
      rw [dropWith_eq, replaceEach_of_not_isInfix (fun _ h => isCut_of_mem_removals h) hnew]
      apply Undoes.nowhere hflag
      rw [← not_ne_iff, getWith_ne_nil_iff, not_ne_iff]
      rcases withLists_replaceFirst hx line with ⟨hnil, _⟩ | ⟨list, lists, hold, hprepended⟩
      . exact hnil
      . rw [hadded, hold] at hprepended
        have hlength := congrArg List.length (List.cons.inj hprepended).1
        simp at hlength
        omega
    | @place front s new rest hplace hfirst =>
      obtain ⟨gap, sep, c, t, hgap, hsep, hc, rfl, hnewText⟩ := exists_opening_of_prependAddon? hplace
      rw [hnewText, dropWith_prepended hitem hgap]
      . exact .item hgap hsep hc
      . simp [not_mem_newline_of_isWord hx] at hline ⊢
        tauto
      . exact fun h => hnew (h.trans (List.prefix_append front _).isInfix)
      . intro h
        apply hnew
        exact h.trans (List.IsSuffix.isInfix ⟨front ++ (gap :: ("--with" : Text) ++ [sep]), by simp⟩)
  . rw [if_pos (by simpa using mt occursIn_iff.mp hflag), dropWith_newFlag hitem _ hnew]
    . exact .flag hflag
    . simp [hline, not_mem_newline_of_isWord hx]

theorem undoes_addWith_python3
    : ∃ line line' line'' x : Text, line = "dh $@ --with foo,bar --buildsystem=cmake" ∧ line' = "dh $@" ∧
        line'' = "dh $@ --without systemd" ∧ x = "python3" ∧
        Undoes x line (addWith line x) (dropWith (addWith line x) x) ∧
        addWith line x = "dh $@ --with=python3,foo,bar --buildsystem=cmake" ∧
        dropWith (addWith line x) x = "dh $@ --with=foo,bar --buildsystem=cmake" ∧
        Undoes x line' (addWith line' x) (dropWith (addWith line' x) x) ∧
        dropWith (addWith line' x) x = line' ∧
        Undoes x line'' (addWith line'' x) (dropWith (addWith line'' x) x) ∧ addWith line'' x = line'' := by
  have hx : IsWord ("python3" : Text) := ⟨by decide, List.all_iff_forall_prop.mp (by decide)⟩
  have hcomma : ',' ∉ ("python3" : Text) := by decide
  refine ⟨_, _, _, _, rfl, rfl, rfl, rfl, ?_, by decide +kernel, by decide +kernel, ?_, by decide +kernel,
    ?_, by decide +kernel⟩
  . exact undoes_addWith (by decide) hx hcomma (by decide +kernel)
  . exact undoes_addWith (by decide) hx hcomma (by decide +kernel)
  . exact undoes_addWith (by decide) hx hcomma (by decide +kernel)

end DhCommand

end DebianPackaging
