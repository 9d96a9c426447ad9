import DebianPackaging.Proofs.Makefile.Invocation

/-!
This module contains what adding an add-on to the recipe lines that run `dh` does to the backslashes that
continue lines. An add-on that is put into the list of a `--with` flag leaves the end of its line alone,
while a new flag goes behind the backslash of a line that is continued.
-/

namespace DebianPackaging

open Text MakeLine MakeElement DhCommand

namespace Text

theorem getLast?_replaceFirst {edit : Text → Option (Text × Text)}
    (h : ∀ t new rest, edit t = some (new, rest) → (new ++ rest).getLast? = t.getLast?) (t : Text)
    : (replaceFirst edit t).getLast? = t.getLast? := by
  induction t with
  | nil =>
    unfold replaceFirst
    split
    . next heq => exact h _ _ _ heq
    . rfl
  | cons c t ih =>
    unfold replaceFirst
    split
    . next heq => exact h _ _ _ heq
    . rw [List.getLast?_cons, List.getLast?_cons, ih]

theorem dropNewline_append_newline_run {n : Text} (hn : ∀ c ∈ n, isNewline c = true) (l : Text)
    : dropNewline (l ++ n) = dropNewline l := by
  unfold dropNewline dropEndWhile
  rw [List.reverse_append, List.dropWhile_append_of_pos]
  intro c hc
  exact hn c (List.mem_reverse.mp hc)

theorem dropNewline_of_getLast? {l : Text} (h : ∀ c ∈ l.getLast?, isNewline c = false)
    : dropNewline l = l := by
  unfold dropNewline dropEndWhile
  rw [← List.head?_reverse] at h
  have hdrop := dropWhile_append_of_stopsAt (w := []) (by simp) h
  rw [List.nil_append] at hdrop
  rw [hdrop, List.reverse_reverse]

theorem not_isNewline_of_getLast?_dropNewline (l : Text)
    : ∀ c ∈ (dropNewline l).getLast?, isNewline c = false := by
  unfold dropNewline dropEndWhile
  rw [List.getLast?_reverse]
  exact stopsAt_dropWhile isNewline l.reverse

end Text

namespace DhCommand

def appendsFlag (addon line : Text) : Bool := !occursIn addon line && !occursIn " --with" line

theorem getLast?_prependAddon? {addon t new rest : Text} (h : prependAddon? addon t = some (new, rest))
    : (new ++ rest).getLast? = t.getLast? := by
  obtain ⟨flag, hflag, heq⟩ := Option.map_eq_some_iff.mp h
  cases heq
  unfold readList? at hflag
  rw [Option.filter_eq_some_iff] at hflag
  obtain ⟨hread, hlist⟩ := hflag
  have hrest : flag.list ++ flag.afterList = flag.rest := List.takeWhile_append_dropWhile
  have hne : flag.rest ≠ [] := by
    intro hnil
    unfold WithFlag.list at hlist
    rw [hnil] at hlist
    contradiction
  have hlast : ∀ front : Text, (front ++ flag.rest).getLast? = flag.rest.getLast? := by
    intro front
    exact List.getLast?_append_of_ne_nil front hne
  have happ : flag.gap :: ("--with" : Text) ++ flag.separator :: flag.rest = flag.text ++ flag.rest := by
    simp [WithFlag.text]
  rw [WithFlag.eq_of_read? hread, List.append_assoc, hrest, hlast, happ, hlast]

theorem getLast?_addWith {addon : Text} (hne : addon ≠ []) (line : Text)
    : (addWith line addon).getLast?
        =
      if appendsFlag addon line then addon.getLast? else line.getLast? := by
  unfold addWith appendsFlag
  by_cases hoccurs : occursIn addon line = true
  . simp [hoccurs]
  . by_cases hwith : occursIn " --with" line = true
    . rw [if_neg hoccurs, if_neg (by simpa using hwith)]
      simp only [hoccurs, hwith, Bool.not_true, Bool.and_false, Bool.false_eq_true, if_false]
      apply getLast?_replaceFirst
      intro t new rest h
      exact getLast?_prependAddon? h
    . rw [if_neg hoccurs, if_pos (by simpa using hwith)]
      simp only [hoccurs, hwith, Bool.not_false, Bool.and_true, if_true]
      exact List.getLast?_append_of_ne_nil _ hne

end DhCommand

namespace MakeLine

theorem isContinued_append_newline_run {n : Text} (hn : ∀ c ∈ n, isNewline c = true) (l : Text)
    : isContinued (l ++ n) = isContinued l := by
  unfold isContinued
  rw [dropNewline_append_newline_run hn]

theorem isContinued_tab (l : Text) : isContinued ('\t' :: l) = isContinued l := by
  unfold isContinued
  rw [dropNewline_cons rfl, List.getLast?_cons]
  cases (dropNewline l).getLast? with
  | none => rfl
  | some c => rfl

theorem isContinued_of_getLast? {l : Text} (h : ∀ c ∈ l.getLast?, isNewline c = false)
    : isContinued l = (l.getLast? == some '\\') := by
  unfold isContinued
  rw [dropNewline_of_getLast? h]

theorem isContinued_addWith_iff {addon line : Text} (hne : addon ≠ [])
    (haddon : ∀ c ∈ addon, isBlank c = false ∧ c ≠ '\\')
    (hline : ∀ c ∈ line.getLast?, isNewline c = false)
    : isContinued (addWith line addon) = isContinued line ↔
        (isContinued line = true → appendsFlag addon line = false) := by
  have hlast := getLast?_addWith hne line
  cases happends : appendsFlag addon line with
  | false =>
    rw [happends, if_neg (by simp)] at hlast
    rw [isContinued_of_getLast? (by rw [hlast]; exact hline), hlast, isContinued_of_getLast? hline]
    simp
  | true =>
    rw [happends, if_pos rfl] at hlast
    have hend : ∀ c ∈ (addWith line addon).getLast?, isNewline c = false ∧ c ≠ '\\' := by
      intro c hc
      rw [hlast] at hc
      obtain ⟨hblank, hbackslash⟩ := haddon c (List.mem_of_getLast? hc)
      exact ⟨not_isNewline_of_not_isBlank hblank, hbackslash⟩
    have hnot : isContinued (addWith line addon) = false := by
      rw [isContinued_of_getLast? fun c hc => (hend c hc).1, beq_eq_false_iff_ne]
      intro heq
      exact (hend '\\' heq).2 rfl
    rw [hnot]
    simp

end MakeLine

namespace Rule

theorem isContinued_mapRecipeLine_iff (g : Text → Text) (l : Text)
    : isContinued (mapRecipeLine g l) = isContinued l ↔
        ∀ recipe ∈ recipeOfLine? l, isRecipe l = true →
          isContinued (g recipe) = isContinued recipe := by
  by_cases htab : isRecipe l = true
  . obtain ⟨l, rfl⟩ := exists_of_isRecipe htab
    rw [mapRecipeLine_tab, recipeOfLine?_tab, isContinued_tab, isContinued_tab]
    by_cases hcomment : isComment (trim l) = true
    . simp [hcomment]
    . have hnewline : ∀ c ∈ newline l, isNewline c = true := by
        intro c hc
        exact isNewline_of_mem_newline hc
      have hline : isContinued l = isContinued (dropNewline l) := by
        conv => lhs; rw [← dropNewline_append_newline l]
        exact isContinued_append_newline_run hnewline _
      rw [if_neg hcomment, if_neg hcomment, isContinued_append_newline_run hnewline, hline]
      simp [htab]
  . rw [Bool.not_eq_true] at htab
    rw [mapRecipeLine_untabbed htab]
    simp [htab]

theorem not_isNewline_of_getLast?_recipe {l recipe : Text} (h : recipeOfLine? l = some recipe)
    (htab : isRecipe l = true) : ∀ c ∈ recipe.getLast?, isNewline c = false := by
  obtain ⟨l, rfl⟩ := exists_of_isRecipe htab
  rw [recipeOfLine?_tab] at h
  split at h
  . contradiction
  . cases h
    exact not_isNewline_of_getLast?_dropNewline l

end Rule

namespace MakeElement

theorem map_allLines_eq_iff {es : List MakeElement} {change : MakeElement → MakeElement} (sign : Text → β)
    (hlength : ∀ e ∈ es, (change e).lines.length = e.lines.length)
    : (allLines (es.map change)).map sign = (allLines es).map sign ↔
        ∀ e ∈ es, (change e).lines.map sign = e.lines.map sign := by
  induction es with
  | nil => simp
  | cons e es ih =>
    rw [List.forall_mem_cons] at hlength ⊢
    rw [← ih hlength.2, List.map_cons, allLines_cons, allLines_cons, List.map_append, List.map_append]
    constructor
    . intro h
      apply List.append_inj h
      rw [List.length_map, List.length_map, hlength.1]
    . rintro ⟨hhead, htail⟩
      rw [hhead, htail]

end MakeElement

namespace Makefile

theorem map_allLines_mapRecipes_iff (m : Makefile) (g : Text → Text) (sign : Text → β)
    : (allLines (m.mapRecipes g).elements).map sign = (allLines m.elements).map sign ↔
        ∀ r ∈ m.rules, ∀ l ∈ r.body, sign (Rule.mapRecipeLine g l) = sign l := by
  have hrule : ∀ r : Rule, (r.mapRecipes g).lines.map sign = r.lines.map sign ↔
      ∀ l ∈ r.body, sign (Rule.mapRecipeLine g l) = sign l := by
    intro r
    change (r.headerLines ++ r.body.map (Rule.mapRecipeLine g)).map sign =
      (r.headerLines ++ r.body).map sign ↔ _
    rw [List.map_append, List.map_append, List.append_cancel_left_eq, List.map_map, List.map_inj_left]
    rfl
  unfold mapRecipes
  rw [map_allLines_eq_iff]
  . constructor
    . intro h r hr
      exact (hrule r).mp (h _ (mem_rules_iff.mp hr))
    . intro h e he
      cases e with
      | line t => rfl
      | rule r => exact (hrule r).mpr (h r (mem_rules_iff.mpr he))
  . intro e _
    cases e with
    | line t => rfl
    | rule r => simp [MakeElement.lines, Rule.lines, Rule.mapRecipes, Rule.headerLines]

theorem mem_placedInvocations_iff {m : Makefile} {recipe : Rule.PlacedRecipe} (htab : recipe.isTabbed = true)
    : recipe ∈ m.placedInvocations ↔
        isInvocation recipe.text = true ∧
          ∃ r ∈ m.rules, ∃ l ∈ r.body,
            isRecipe l = true ∧ Rule.recipeOfLine? l = some recipe.text := by
  obtain ⟨line, tabbed⟩ := recipe
  cases htab
  unfold placedInvocations Rule.placedRecipes
  simp only [List.mem_filter, List.mem_flatMap, List.mem_append, List.mem_map, List.mem_filterMap,
    Option.map_eq_some_iff, Rule.PlacedRecipe.mk.injEq]
  grind

theorem isContinued_updateDhInvocations_iff (m : Makefile) (f : Text → Text)
    : (allLines (m.updateDhInvocations f).1.elements).map isContinued
          =
        (allLines m.elements).map isContinued ↔
      ∀ recipe ∈ m.placedInvocations, recipe.isTabbed = true →
        isContinued (f recipe.text) = isContinued recipe.text := by
  change (allLines (m.mapRecipes _).elements).map _ = _ ↔ _
  rw [map_allLines_mapRecipes_iff]
  constructor
  . intro h recipe hmem htab
    obtain ⟨hinvocation, r, hr, l, hl, hl', hrecipe⟩ := (mem_placedInvocations_iff htab).mp hmem
    have hsame := (Rule.isContinued_mapRecipeLine_iff _ l).mp (h r hr l hl) _ hrecipe hl'
    rwa [if_pos hinvocation] at hsame
  . intro h r hr l hl
    rw [Rule.isContinued_mapRecipeLine_iff]
    intro line hrecipe htab
    split
    . next hinvocation =>
      apply h ⟨line, true⟩ _ rfl
      rw [mem_placedInvocations_iff rfl]
      exact ⟨hinvocation, r, hr, l, hl, htab, hrecipe⟩
    . rfl

/-- Adding an add-on leaves each line of a makefile continued or not as it was if and only if no line that
is continued takes a new flag: one behind a tab that runs `dh`, has no `--with` and does not mention the
add-on. -/
theorem isContinued_addWith_updateDhInvocations_iff (t addon : Text) (hne : addon ≠ [])
    (haddon : ∀ c ∈ addon, isBlank c = false ∧ c ≠ ',' ∧ c ≠ '\\')
    : (allLines ((read t).updateDhInvocations (addWith · addon)).1.elements).map isContinued
          =
        (allLines (read t).elements).map isContinued ↔
      ∀ recipe ∈ (read t).placedInvocations, recipe.isTabbed = true →
        isContinued recipe.text = true → appendsFlag addon recipe.text = false := by
  rw [isContinued_updateDhInvocations_iff]
  apply forall₂_congr
  intro recipe hmem
  apply imp_congr_right
  intro htab
  obtain ⟨_, r, _, l, _, hl, hrecipe⟩ := (mem_placedInvocations_iff htab).mp hmem
  apply isContinued_addWith_iff hne
  . intro c hc
    exact ⟨(haddon c hc).1, (haddon c hc).2.2⟩
  . exact Rule.not_isNewline_of_getLast?_recipe hrecipe hl

/-- A command that goes on behind its flag still does when an add-on is put into the list of the flag. One
without a flag is cut off. -/
theorem isContinued_addWith_updateDhInvocations_cut
    : ∃ addon : Text, addon = "python3" ∧
        (∃ m, read "%:\n\tdh $@ --with quilt \\\n\t  --verbose\n" = m ∧
          (allLines (m.updateDhInvocations (addWith · addon)).1.elements).map isContinued =
            (allLines m.elements).map isContinued) ∧
        ∃ m, read "%:\n\tdh $@ \\\n\t  --verbose\n" = m ∧
          (allLines (m.updateDhInvocations (addWith · addon)).1.elements).map isContinued ≠
            (allLines m.elements).map isContinued := by
  have hne : ("python3" : Text) ≠ [] := by decide
  have haddon : ∀ c ∈ ("python3" : Text), isBlank c = false ∧ c ≠ ',' ∧ c ≠ '\\' :=
    List.all_iff_forall_prop.mp (by decide)
  refine ⟨_, rfl, ⟨_, rfl, ?_⟩, ⟨_, rfl, ?_⟩⟩
  . rw [isContinued_addWith_updateDhInvocations_iff _ _ hne haddon]
    decide +kernel
  . rw [Ne, isContinued_addWith_updateDhInvocations_iff _ _ hne haddon]
    decide +kernel

end Makefile

end DebianPackaging
