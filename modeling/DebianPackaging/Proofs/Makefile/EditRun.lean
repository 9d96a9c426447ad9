import DebianPackaging.Proofs.Makefile.Continuation

/-!
This module contains runs of edits of a makefile. An edit that reports no change leaves the makefile as it
is, each edit leaves a colon on the first line of every rule, and a carriage return gets into a makefile only
with a text that an edit inserts.
-/

namespace DebianPackaging

open Text MakeElement DhCommand

namespace Makefile

inductive Edit where
  | addPhony (target : Text)
  | dropPhony (target : Text)
  | updateDhInvocations (f : Text → Text)
  | discardOverrides

namespace Edit

def apply (m : Makefile) : Edit → Makefile × Bool
  | addPhony target => m.addPhony target
  | dropPhony target => m.dropPhony target
  | updateDhInvocations f => m.updateDhInvocations f
  | discardOverrides => (m.discardOverrides.1, m.discardOverrides.2 != 0)

def inserted (m : Makefile) : Edit → List Text
  | addPhony target => if m.phonyTargets.contains target then [] else [target]
  | dropPhony _ => []
  | updateDhInvocations f => (m.placedInvocations.filter (·.isTabbed)).map fun recipe => f recipe.text
  | discardOverrides => []

end Edit

def run (m : Makefile) (edits : List Edit) : Makefile := edits.foldl (fun m edit => (edit.apply m).1) m

def ReportNothing : (m : Makefile) → (edits : List Edit) → Prop
  | _, [] => True
  | m, edit :: edits => (edit.apply m).2 = false ∧ ReportNothing (edit.apply m).1 edits

def InsertNoReturn : (m : Makefile) → (edits : List Edit) → Prop
  | _, [] => True
  | m, edit :: edits => (∀ t ∈ edit.inserted m, '\r' ∉ t) ∧ InsertNoReturn (edit.apply m).1 edits

section Report

theorem dropPhonyFrom_eq_self {target : Text} {es done : List MakeElement}
    (h : (dropPhonyFrom target done es).2 = false) : (dropPhonyFrom target done es).1 = done ++ es := by
  induction es generalizing done with
  | nil => exact (List.append_nil done).symm
  | cons e es ih =>
    cases e with
    | line t =>
      unfold dropPhonyFrom at h ⊢
      rw [ih h, List.append_assoc]
      rfl
    | rule r =>
      unfold dropPhonyFrom at h ⊢
      split at h
      . contradiction
      . next hr =>
        rw [if_neg hr, ih h, List.append_assoc]
        rfl

theorem dropPhony_eq_self {m : Makefile} {target : Text} (h : (m.dropPhony target).2 = false)
    : (m.dropPhony target).1 = m := by
  unfold dropPhony at h ⊢
  dsimp only at h ⊢
  rw [dropPhonyFrom_eq_self h]
  rfl

theorem addPhony_eq_self {m : Makefile} {target : Text} (h : (m.addPhony target).2 = false)
    : (m.addPhony target).1 = m := by
  unfold addPhony at h ⊢
  split at h
  . next hphony => rw [if_pos hphony]
  . split at h <;> contradiction

theorem updateDhInvocations_eq_self {m : Makefile} {f : Text → Text}
    (h : (m.updateDhInvocations f).2 = false) : (m.updateDhInvocations f).1 = m := by
  unfold updateDhInvocations at h ⊢
  simpa using h

theorem discardOverrides_eq_self {m : Makefile} (h : m.discardOverrides.2 = 0)
    : m.discardOverrides.1 = m := by
  unfold discardOverrides at h ⊢
  rw [List.length_eq_zero_iff.mp h]
  rfl

theorem apply_eq_self {m : Makefile} {edit : Edit} (h : (edit.apply m).2 = false)
    : (edit.apply m).1 = m := by
  cases edit with
  | addPhony target => exact addPhony_eq_self h
  | dropPhony target => exact dropPhony_eq_self h
  | updateDhInvocations f => exact updateDhInvocations_eq_self h
  | discardOverrides => exact discardOverrides_eq_self (by simpa [Edit.apply] using h)

theorem run_eq_self {m : Makefile} {edits : List Edit} (h : m.ReportNothing edits)
    : m.run edits = m := by
  induction edits with
  | nil => rfl
  | cons edit edits ih =>
    obtain ⟨hedit, hedits⟩ := h
    rw [apply_eq_self hedit] at hedits
    change ((edit.apply m).1).run edits = m
    rw [apply_eq_self hedit, ih hedits]

end Report

section Terminate

theorem terminateLines_cons (l : Text) (ls : List Text)
    : ∃ l' ls', terminateLines (l :: ls) = l' :: ls' ∧ (l' = l ∨ l' = l ++ ['\n']) := by
  cases ls with
  | nil =>
    refine ⟨_, [], rfl, ?_⟩
    split <;> simp
  | cons k ks => exact ⟨l, _, rfl, .inl rfl⟩

theorem mem_flatten_terminateLines {ls : List Text} {c : Char} (h : c ∈ (terminateLines ls).flatten)
    : c ∈ ls.flatten ∨ c = '\n' := by
  fun_induction terminateLines ls with
  | case1 => cases h
  | case2 l =>
    split at h
    . exact .inl h
    . simpa using h
  | case3 l ls _ ih =>
    rw [List.flatten_cons, List.mem_append] at h ⊢
    rw [or_assoc]
    exact h.imp_right ih

theorem colon_mem_terminateRule {r : Rule} (h : ':' ∈ r.first) : ':' ∈ (terminateRule r).first := by
  unfold terminateRule
  split
  . obtain ⟨first, continued, heq, hfirst⟩ := terminateLines_cons r.first r.continued
    unfold Rule.headerLines
    rw [heq]
    cases hfirst with
    | inl hfirst => rwa [hfirst]
    | inr hfirst => simp [hfirst, h]
  . exact h

theorem mem_text_terminateRule {r : Rule} {c : Char} (h : c ∈ (terminateRule r).text)
    : c ∈ r.text ∨ c = '\n' := by
  unfold terminateRule at h
  split at h
  . next hbody =>
    rw [List.isEmpty_iff] at hbody
    obtain ⟨first, continued, heq, _⟩ := terminateLines_cons r.first r.continued
    have hlines : c ∈ (terminateLines r.headerLines).flatten := by
      unfold Rule.headerLines at h ⊢
      rw [heq] at h ⊢
      simpa [Rule.text, Rule.lines, Rule.headerLines, hbody] using h
    have := mem_flatten_terminateLines hlines
    simpa [Rule.text, Rule.lines, hbody] using this
  . unfold Rule.text Rule.lines at h ⊢
    rw [List.flatten_append, List.mem_append] at h ⊢
    rw [or_assoc]
    exact h.imp_right mem_flatten_terminateLines

theorem mem_terminate {es : List MakeElement} {e : MakeElement} (h : e ∈ terminate es)
    : e ∈ es ∨ (∃ t, .line t ∈ es ∧ e = .line (t ++ ['\n'])) ∨
        ∃ r, .rule r ∈ es ∧ e = .rule (terminateRule r) := by
  fun_induction terminate es with
  | case1 => cases h
  | case2 t =>
    split at h
    . exact .inl h
    . exact .inr (.inl ⟨t, by simp, by simpa using h⟩)
  | case3 r => exact .inr (.inr ⟨r, by simp, by simpa using h⟩)
  | case4 e' es _ _ ih =>
    cases List.mem_cons.mp h with
    | inl h => simp [h]
    | inr h =>
      rcases ih h with h | ⟨t, ht, rfl⟩ | ⟨r, hr, rfl⟩
      . simp [h]
      . exact .inr (.inl ⟨t, by simp [ht], rfl⟩)
      . exact .inr (.inr ⟨r, by simp [hr], rfl⟩)

end Terminate

section Colon

theorem colon_mem_appendPrerequisite {r : Rule} (h : ':' ∈ r.first) (target : Text)
    : ':' ∈ (appendPrerequisite r target).first := by
  have hline : ':' ∈ r.first.dropNewline ∨ ':' ∈ r.first.newline := by
    rw [← List.mem_append, dropNewline_append_newline]
    exact h
  unfold appendPrerequisite
  cases hline with
  | inl h => simp [h]
  | inr h => simp [h]

variable {m : Makefile} (hm : HasColons m.elements)

include hm

theorem hasColons_terminate : HasColons (terminate m.elements) := by
  intro r hr
  rcases mem_terminate hr with hr | ⟨t, _, heq⟩ | ⟨r', hr', heq⟩
  . exact hm r hr
  . cases heq
  . cases heq
    exact colon_mem_terminateRule (hm r' hr')

theorem hasColons_addPhony (target : Text) : HasColons (m.addPhony target).1.elements := by
  unfold addPhony
  split
  . exact hm
  . split
    . next before q after hcut =>
      obtain ⟨heq, _⟩ := cutRule?_eq_some hcut
      unfold HasColons at hm ⊢
      rw [heq] at hm
      intro r hr
      rw [List.mem_append, List.mem_cons] at hr
      rcases hr with hr | hr | hr
      . exact hm r (by simp [hr])
      . cases hr
        exact colon_mem_appendPrerequisite (hm q (by simp)) target
      . exact hm r (by simp [hr])
    . intro r hr
      cases List.mem_append.mp hr with
      | inl hr => exact hasColons_terminate hm r hr
      | inr hr =>
        rw [List.mem_singleton] at hr
        cases hr
        have hcolon : ':' ∈ phonyTarget ++ ((": " : String) : Text) := List.mem_append_right _ (by decide)
        exact List.mem_append_left _ (List.mem_append_left _ hcolon)

theorem hasColons_mapRecipes (f : Text → Text) : HasColons (m.mapRecipes f).elements := by
  intro r hr
  obtain ⟨e, he, heq⟩ := List.mem_map.mp hr
  cases e with
  | line t => cases heq
  | rule q =>
    cases heq
    exact hm q he

theorem hasColons_apply (edit : Edit) : HasColons (edit.apply m).1.elements := by
  cases edit with
  | addPhony target => exact hasColons_addPhony hm target
  | dropPhony target =>
    have hrun := prunes_dropPhony (Eq.refl target) m hm
    exact hrun.hasColons hm
  | updateDhInvocations f => exact hasColons_mapRecipes hm _
  | discardOverrides => exact (prunes_discardOverrides hm).1.hasColons hm

end Colon

section Character

def scaffold : Text := phonyTarget ++ ": " ++ "\n"

theorem mem_text_iff {m : Makefile} {c : Char} : c ∈ m.text ↔ ∃ e ∈ m.elements, c ∈ e.text := by
  unfold text
  simp

theorem mem_text_appendPrerequisite {r : Rule} {target : Text} {c : Char}
    (h : c ∈ (appendPrerequisite r target).text) : c ∈ r.text ∨ c ∈ target ∨ c = ' ' := by
  have htext : (appendPrerequisite r target).text
      = r.first.dropNewline ++ [' '] ++ target ++ r.first.newline ++ (r.continued ++ r.body).flatten := rfl
  have htext' : r.text = r.first.dropNewline ++ r.first.newline ++ (r.continued ++ r.body).flatten := by
    rw [dropNewline_append_newline]
    rfl
  rw [htext, List.mem_append, List.mem_append, List.mem_append, List.mem_append, List.mem_singleton] at h
  rw [htext', List.mem_append, List.mem_append]
  rcases h with (((h | h) | h) | h) | h
  . exact .inl (.inl (.inl h))
  . exact .inr (.inr h)
  . exact .inr (.inl h)
  . exact .inl (.inl (.inr h))
  . exact .inl (.inr h)

theorem mem_text_terminate {es : List MakeElement} {c : Char} (h : ∃ e ∈ terminate es, c ∈ e.text)
    : (∃ e ∈ es, c ∈ e.text) ∨ c = '\n' := by
  obtain ⟨e, he, hc⟩ := h
  rcases mem_terminate he with he | ⟨t, ht, rfl⟩ | ⟨r, hr, rfl⟩
  . exact .inl ⟨e, he, hc⟩
  . have hc : c ∈ t ++ ['\n'] := hc
    rw [List.mem_append, List.mem_singleton] at hc
    exact hc.imp_left fun hc => ⟨.line t, ht, hc⟩
  . exact (mem_text_terminateRule hc).imp_left fun hc => ⟨.rule r, hr, hc⟩

theorem mem_text_addPhony {m : Makefile} {target : Text} (hphony : m.phonyTargets.contains target = false)
    {c : Char} (h : c ∈ (m.addPhony target).1.text) : c ∈ m.text ∨ c ∈ target ∨ c ∈ scaffold := by
  unfold addPhony at h
  rw [hphony] at h
  rw [mem_text_iff] at h ⊢
  split at h
  . contradiction
  . split at h
    . next before r after hcut =>
      obtain ⟨e, he, hc⟩ := h
      rw [(cutRule?_eq_some hcut).1]
      simp only [List.mem_append, List.mem_cons] at he ⊢
      rcases he with he | rfl | he
      . exact .inl ⟨e, .inl he, hc⟩
      . have hspace : c = ' ' → c ∈ scaffold := by
          rintro rfl
          decide
        exact (mem_text_appendPrerequisite hc).imp (fun hc => ⟨.rule r, .inr (.inl rfl), hc⟩)
          (Or.imp_right hspace)
      . exact .inl ⟨e, .inr (.inr he), hc⟩
    . simp only [List.mem_append, or_and_right, exists_or, List.mem_singleton, exists_eq_left] at h
      cases h with
      | inl h =>
        have hfeed : c = '\n' → c ∈ scaffold := by
          rintro rfl
          decide
        exact (mem_text_terminate h).imp_right fun h => .inr (hfeed h)
      | inr h =>
        right
        have htext : (MakeElement.rule (phonyRule target)).text = phonyTarget ++ ": " ++ target ++ "\n" :=
          List.append_nil _
        rw [htext, List.mem_append, List.mem_append] at h
        unfold scaffold
        rw [List.mem_append]
        rcases h with (h | h) | h
        . exact .inr (.inl h)
        . exact .inl h
        . exact .inr (.inr h)

theorem PruneStep.mem_text {names : Text → Prop} {es es' : List MakeElement}
    (h : PruneStep names es es') {c : Char} (hc : ∃ e ∈ es', c ∈ e.text) : ∃ e ∈ es, c ∈ e.text := by
  obtain ⟨e, he, hc⟩ := hc
  cases h with
  | @drop before after r _ =>
    refine ⟨e, ?_, hc⟩
    cases List.mem_append.mp he with
    | inl he => simp [(closeGap_sublist _ _).subset he]
    | inr he => simp [he]
  | @edit before after r r' name _ _ _ h =>
    rw [List.mem_append, List.mem_cons] at he
    rcases he with he | rfl | he
    . exact ⟨e, by simp [he], hc⟩
    . refine ⟨.rule r, by simp, ?_⟩
      obtain ⟨front, l, l', behind, hr, hr', hloses⟩ := h.exists_headerLines
      have hl : c ∈ l' → c ∈ l := by
        intro hl'
        by_contra hl
        exact hloses.not_mem hl hl'
      simp only [MakeElement.text, Rule.text, Rule.lines, hr, hr', h.body_eq, List.flatten_append,
        List.flatten_cons, List.mem_append] at hc ⊢
      exact hc.imp_left (Or.imp_right (Or.imp_left hl))
    . exact ⟨e, by simp [he], hc⟩

theorem Prunes.mem_text {names : Text → Prop} {m m' : Makefile}
    (h : Prunes names m.elements m'.elements) {c : Char} (hc : c ∈ m'.text) : c ∈ m.text := by
  rw [mem_text_iff] at hc ⊢
  generalize m.elements = es, m'.elements = es' at h hc ⊢
  induction h with
  | refl => exact hc
  | tail _ hstep ih => exact ih (hstep.mem_text hc)

theorem mem_of_recipeOfLine? {l recipe : Text} (h : Rule.recipeOfLine? l = some recipe)
    (htab : MakeLine.isRecipe l = true) {c : Char} (hc : c ∈ recipe) : c ∈ l := by
  obtain ⟨l, rfl⟩ := Rule.exists_of_isRecipe htab
  rw [Rule.recipeOfLine?_tab] at h
  split at h
  . contradiction
  . cases h
    rw [List.mem_cons, ← dropNewline_append_newline l, List.mem_append]
    exact .inr (.inl hc)

theorem mem_mapRecipeLine {g : Text → Text} {l : Text} {c : Char} (h : c ∈ Rule.mapRecipeLine g l)
    : c ∈ l ∨ ∃ recipe, Rule.recipeOfLine? l = some recipe ∧ MakeLine.isRecipe l = true ∧
        c ∈ g recipe := by
  by_cases htab : MakeLine.isRecipe l = true
  . obtain ⟨l, rfl⟩ := Rule.exists_of_isRecipe htab
    rw [Rule.mapRecipeLine_tab] at h
    rw [Rule.recipeOfLine?_tab]
    split at h
    . exact .inl h
    . next hcomment =>
      rw [if_neg hcomment]
      have hline : c ∈ l ↔ c ∈ dropNewline l ∨ c ∈ newline l := by
        rw [← List.mem_append, dropNewline_append_newline]
      simp only [List.mem_cons, List.mem_append, Option.some.injEq, exists_eq_left'] at h ⊢
      tauto
  . rw [Bool.not_eq_true] at htab
    rw [Rule.mapRecipeLine_untabbed htab] at h
    exact .inl h

theorem mem_text_mapRecipes {g : Text → Text} {r : Rule} {c : Char} (h : c ∈ (r.mapRecipes g).text)
    : c ∈ r.text ∨ ∃ l ∈ r.body, ∃ recipe, Rule.recipeOfLine? l = some recipe ∧
        MakeLine.isRecipe l = true ∧ c ∈ g recipe := by
  have htext : (r.mapRecipes g).text
      = r.headerLines.flatten ++ (r.body.map (Rule.mapRecipeLine g)).flatten := List.flatten_append
  rw [htext, List.mem_append] at h
  unfold Rule.text Rule.lines
  rw [List.flatten_append, List.mem_append]
  cases h with
  | inl h => exact .inl (.inl h)
  | inr h =>
    obtain ⟨l', hl', hc⟩ := List.mem_flatten.mp h
    obtain ⟨l, hl, rfl⟩ := List.mem_map.mp hl'
    exact (mem_mapRecipeLine hc).imp (fun hc => .inr (List.mem_flatten.mpr ⟨l, hl, hc⟩))
      (fun h => ⟨l, hl, h⟩)

theorem mem_text_updateDhInvocations {m : Makefile} {f : Text → Text} {c : Char}
    (h : c ∈ (m.updateDhInvocations f).1.text)
    : c ∈ m.text ∨ ∃ recipe ∈ m.placedInvocations, recipe.isTabbed = true ∧ c ∈ f recipe.text := by
  change c ∈ (m.mapRecipes _).text at h
  rw [mem_text_iff] at h ⊢
  obtain ⟨e', he', hc⟩ := h
  obtain ⟨e, he, rfl⟩ := List.mem_map.mp he'
  cases e with
  | line t => exact .inl ⟨.line t, he, hc⟩
  | rule r =>
    rcases mem_text_mapRecipes hc with hc | ⟨l, hl, recipe, hrecipe, htab, hc⟩
    . exact .inl ⟨.rule r, he, hc⟩
    . split at hc
      . next hinvocation =>
        right
        refine ⟨⟨recipe, true⟩, ?_, rfl, hc⟩
        rw [mem_placedInvocations_iff rfl]
        exact ⟨hinvocation, r, mem_rules_iff.mpr he, l, hl, htab, hrecipe⟩
      . left
        refine ⟨.rule r, he, List.mem_flatten.mpr ⟨l, ?_, mem_of_recipeOfLine? hrecipe htab hc⟩⟩
        exact List.mem_append.mpr (.inr hl)

theorem mem_text_apply {m : Makefile} (hm : HasColons m.elements) {edit : Edit} {c : Char}
    (h : c ∈ (edit.apply m).1.text)
    : c ∈ m.text ∨ (∃ t ∈ edit.inserted m, c ∈ t) ∨ c ∈ scaffold := by
  cases edit with
  | addPhony target =>
    by_cases hphony : m.phonyTargets.contains target = true
    . have heq : (m.addPhony target).1 = m := by
        unfold addPhony
        rw [if_pos hphony]
      left
      rwa [← heq]
    . dsimp only [Edit.inserted]
      rw [if_neg hphony]
      simpa using mem_text_addPhony (by simpa using hphony) h
  | dropPhony target =>
    left
    have hrun := prunes_dropPhony (Eq.refl target) m hm
    exact hrun.mem_text h
  | updateDhInvocations f =>
    apply (mem_text_updateDhInvocations h).imp_right
    rintro ⟨recipe, hrecipe, htab, hc⟩
    left
    exact ⟨_, List.mem_map.mpr ⟨recipe, List.mem_filter.mpr ⟨hrecipe, htab⟩, rfl⟩, hc⟩
  | discardOverrides =>
    left
    exact (prunes_discardOverrides hm).1.mem_text h

theorem not_mem_text_run {m : Makefile} (hm : HasColons m.elements) {edits : List Edit}
    (hedits : m.InsertNoReturn edits) (h : '\r' ∉ m.text) : '\r' ∉ (m.run edits).text := by
  induction edits generalizing m with
  | nil => exact h
  | cons edit edits ih =>
    obtain ⟨hedit, hedits⟩ := hedits
    apply ih (hasColons_apply hm edit) hedits
    intro hmem
    rcases mem_text_apply hm hmem with hmem | ⟨t, ht, hmem⟩ | hmem
    . exact h hmem
    . exact hedit t ht hmem
    . revert hmem
      decide

end Character

end Makefile

end DebianPackaging
