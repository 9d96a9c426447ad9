import DebianPackaging.Proofs.Makefile.Discard
import DebianPackaging.Proofs.Text.Split

/-!
This module contains the relation between the recipe lines that run `dh` as they are listed and as they
are changed: the change reaches those that stand on a line behind a tab, while the list also holds recipes
behind a semicolon and lines without a tab that continue others.
-/

namespace DebianPackaging

open Text MakeLine DhCommand

theorem isComment_of_isInvocation {l : Text} (h : isInvocation l = true)
    : isComment (trim l) = false := by
  rw [← Bool.not_eq_true]
  intro hcomment
  unfold isInvocation at h
  have happ := trimEnd_append_trail (trimStart l)
  change trim l ++ trail (trimStart l) = trimStart l at happ
  cases htrim : trim l with
  | nil => simp [htrim, isComment] at hcomment
  | cons c t =>
    have hc : c = '#' := by simpa [htrim, isComment] using hcomment
    rw [← happ, htrim, hc] at h
    contradiction

theorem trim_dropNewline (l : Text) : trim (dropNewline l) = trim l := by
  have hblank : IsBlankText (newline l) := by
    intro c hc
    exact isBlank_of_isLineEnd (isLineEnd_of_isNewline (isNewline_of_mem_newline hc))
  calc
    trim (dropNewline l) = trim (dropNewline l ++ newline l) := (trim_append_blank hblank _).symm
    _ = trim l := by rw [dropNewline_append_newline]

structure DhCommand.IsEdit (f : Text → Text) : Prop where
  isInvocation : ∀ l, isInvocation l = true → isInvocation (f l) = true
  noNewline : ∀ l, DhCommand.isInvocation l = true → ∀ c ∈ f l, isNewline c = true → c ∈ l

theorem isInvocation_iff {l : Text}
    : isInvocation l = true ↔ ∃ rest, trimStart l = "dh" ++ rest ∧ ∀ c ∈ rest.head?, isBlank c = true := by
  unfold isInvocation
  cases hafter : after? "dh" (trimStart l) with
  | none =>
    simp only [Bool.false_eq_true, false_iff, not_exists, not_and]
    intro rest hrest
    rw [← after?_eq_some_iff, hafter] at hrest
    contradiction
  | some rest =>
    rw [after?_eq_some_iff] at hafter
    rw [hafter]
    cases rest with
    | nil => simp
    | cons c rest => simp

theorem DhCommand.isEdit_append {arguments : Text} (hblank : ∀ c ∈ arguments.head?, isBlank c = true)
    (hline : ∀ c ∈ arguments, isNewline c = false) : IsEdit (· ++ arguments) := by
  constructor
  . intro l hl
    rw [isInvocation_iff] at hl ⊢
    obtain ⟨rest, htrim, hrest⟩ := hl
    refine ⟨rest ++ arguments, ?_, ?_⟩
    . unfold trimStart at htrim ⊢
      rw [List.dropWhile_append, htrim]
      simp
    . cases rest with
      | nil => exact hblank
      | cons c rest => exact hrest
  . intro l _ c hc hnewline
    rw [List.mem_append] at hc
    cases hc with
    | inl hc => exact hc
    | inr hc => simp [hline c hc] at hnewline

namespace Rule

structure IsRecipeEdit (g : Text → Text) : Prop where
  noNewline : ∀ l, (∀ c ∈ l, isNewline c = false) → ∀ c ∈ g l, isNewline c = false
  noComment : ∀ l, isComment (trim l) = false → isComment (trim (g l)) = false

theorem recipeOfLine?_tab (l : Text)
    : recipeOfLine? ('\t' :: l) = if isComment (trim l) then none else some (dropNewline l) := by
  have hdrop : dropNewline ('\t' :: l) = '\t' :: dropNewline l := dropNewline_cons rfl l
  unfold recipeOfLine?
  simp [isRecipe, hdrop, trim_dropNewline]

theorem mapRecipeLine_tab (g : Text → Text) (l : Text)
    : mapRecipeLine g ('\t' :: l)
        =
      '\t' :: if isComment (trim l) then l else g (dropNewline l) ++ newline l := by
  have hblank : IsBlankText ['\t'] := isBlankText_singleton (by decide)
  have htrim : trim ('\t' :: l) = trim l := trim_blank_append hblank l
  unfold mapRecipeLine
  rw [htrim]
  by_cases hcomment : isComment (trim l) = true
  . simp [hcomment]
  . simp [isRecipe, hcomment]

theorem mapRecipeLine_untabbed {g : Text → Text} {l : Text} (h : isRecipe l = false)
    : mapRecipeLine g l = l := by
  unfold mapRecipeLine
  simp [h]

theorem exists_of_isRecipe {l : Text} (h : isRecipe l = true) : ∃ l', l = '\t' :: l' := by
  unfold isRecipe at h
  rw [beq_iff_eq, List.head?_eq_some_iff] at h
  exact h

theorem isRecipe_mapRecipeLine (g : Text → Text) (l : Text)
    : isRecipe (mapRecipeLine g l) = isRecipe l := by
  by_cases h : isRecipe l = true
  . obtain ⟨l', rfl⟩ := exists_of_isRecipe h
    rw [mapRecipeLine_tab]
    rfl
  . rw [Bool.not_eq_true] at h
    rw [mapRecipeLine_untabbed h]

theorem recipeOfLine?_mapRecipeLine {g : Text → Text} (hg : IsRecipeEdit g) {l : Text}
    (h : ∀ c ∈ dropNewline l, isNewline c = false)
    : recipeOfLine? (mapRecipeLine g l)
        =
      (recipeOfLine? l).map (fun recipe => if isRecipe l then g recipe else recipe) := by
  by_cases htab : isRecipe l = true
  . obtain ⟨l, rfl⟩ := exists_of_isRecipe htab
    rw [dropNewline_cons rfl, List.forall_mem_cons] at h
    rw [mapRecipeLine_tab, recipeOfLine?_tab, recipeOfLine?_tab]
    by_cases hcomment : isComment (trim l) = true
    . simp [hcomment]
    . -- the line end is cut off again where it was put back, as the new recipe has none of its own
      rw [Bool.not_eq_true] at hcomment
      have hnew : dropNewline (g (dropNewline l) ++ newline l) = g (dropNewline l) := by
        apply dropNewline_append_newlines
        . exact hg.noNewline _ h.2
        . intro c hc
          exact isNewline_of_mem_newline hc
      have hnew' : isComment (trim (g (dropNewline l) ++ newline l)) = false := by
        rw [← trim_dropNewline, hnew]
        apply hg.noComment
        rw [trim_dropNewline, hcomment]
      simp [hcomment, hnew, hnew', htab]
  . rw [Bool.not_eq_true] at htab
    rw [mapRecipeLine_untabbed htab]
    simp [htab]

/-- A recipe and whether it stands on a line behind a tab. -/
structure PlacedRecipe where
  text : Text
  isTabbed : Bool
  deriving DecidableEq, Repr

def placedRecipes (r : Rule) : List PlacedRecipe :=
  r.inlineRecipe.map (⟨·, false⟩) ++
    r.body.filterMap fun l => (recipeOfLine? l).map (⟨·, isRecipe l⟩)

theorem map_text_placedRecipes (r : Rule) : r.placedRecipes.map (·.text) = r.recipes := by
  unfold placedRecipes recipes
  simp [List.map_filterMap, Function.comp_def]

def PlacedRecipe.edit (g : Text → Text) (recipe : PlacedRecipe) : PlacedRecipe :=
  if recipe.isTabbed then { recipe with text := g recipe.text } else recipe

theorem placedRecipes_mapRecipes {g : Text → Text} (hg : IsRecipeEdit g) {r : Rule}
    (h : ∀ l ∈ r.body, ∀ c ∈ dropNewline l, isNewline c = false)
    : (r.mapRecipes g).placedRecipes = r.placedRecipes.map (·.edit g) := by
  have hinline : (r.mapRecipes g).inlineRecipe = r.inlineRecipe := rfl
  unfold placedRecipes
  rw [hinline, List.map_append, List.map_map, List.map_filterMap]
  congr 1
  . change (r.body.map (mapRecipeLine g)).filterMap _ = _
    rw [List.filterMap_map]
    apply List.filterMap_congr
    intro l hl
    rw [Function.comp_apply, isRecipe_mapRecipeLine, recipeOfLine?_mapRecipeLine hg (h l hl)]
    by_cases htab : isRecipe l = true
    . simp [PlacedRecipe.edit, htab, Function.comp_def]
    . simp [PlacedRecipe.edit, htab, Function.comp_def]

end Rule

namespace Makefile

def placedInvocations (m : Makefile) : List Rule.PlacedRecipe :=
  (m.rules.flatMap (·.placedRecipes)).filter fun recipe => isInvocation recipe.text

theorem map_text_placedInvocations (m : Makefile)
    : m.placedInvocations.map (·.text) = m.dhInvocations := by
  have hrecipes : (m.rules.flatMap (·.placedRecipes)).map (·.text) = m.rules.flatMap (·.recipes) := by
    rw [List.map_flatMap]
    simp only [Rule.map_text_placedRecipes]
  unfold placedInvocations dhInvocations
  rw [← hrecipes, List.filter_map]
  rfl

theorem rules_mapRecipes (m : Makefile) (g : Text → Text)
    : (m.mapRecipes g).rules = m.rules.map (·.mapRecipes g) := by
  unfold rules mapRecipes
  rw [List.filterMap_map, List.map_filterMap]
  apply List.filterMap_congr
  intro e _
  cases e with
  | line t => rfl
  | rule r => rfl

theorem isRecipeEdit_of_isEdit {f : Text → Text} (hf : IsEdit f)
    : Rule.IsRecipeEdit fun l => if isInvocation l then f l else l := by
  constructor
  . intro l hl c hc
    split at hc
    . next h =>
      rw [← Bool.not_eq_true]
      intro hnewline
      have := hl c (hf.noNewline l h c hc hnewline)
      simp [hnewline] at this
    . exact hl c hc
  . intro l hl
    split
    . next h =>
      apply isComment_of_isInvocation
      exact hf.isInvocation l h
    . exact hl

theorem isInvocation_edit {f : Text → Text} (hf : IsEdit f) (recipe : Rule.PlacedRecipe)
    : isInvocation (recipe.edit fun l => if isInvocation l then f l else l).text
        =
      isInvocation recipe.text := by
  unfold Rule.PlacedRecipe.edit
  split
  . dsimp only
    split
    . next h => rw [h, hf.isInvocation _ h]
    . rfl
  . rfl

theorem placedInvocations_updateDhInvocations {t : Text} {f : Text → Text} (hf : IsEdit f)
    : ((read t).updateDhInvocations f).1.placedInvocations
        =
      (read t).placedInvocations.map (·.edit f) := by
  have hplaced : ((read t).updateDhInvocations f).1.rules.flatMap (·.placedRecipes)
      = ((read t).rules.flatMap (·.placedRecipes)).map
          (·.edit fun l => if isInvocation l then f l else l) := by
    change ((read t).mapRecipes _).rules.flatMap _ = _
    rw [rules_mapRecipes, List.flatMap_map, List.map_flatMap]
    apply List.flatMap_congr
    intro r hr
    apply Rule.placedRecipes_mapRecipes (isRecipeEdit_of_isEdit hf)
    intro l hl
    apply not_isNewline_of_mem_lines (t := t)
    apply mem_lines_of_mem_read (mem_rules_iff.mp hr)
    simp [Rule.lines, hl]
  -- a changed line is an invocation if and only if it was one, so the same places are listed
  unfold placedInvocations
  rw [hplaced, List.filter_map]
  simp only [Function.comp_def, isInvocation_edit hf]
  apply List.map_congr_left
  intro recipe hrecipe
  have hinvocation := (List.mem_filter.mp hrecipe).2
  simp [Rule.PlacedRecipe.edit, hinvocation]

/-- Listing after a change gives the changed lines if and only if the change does nothing to recipes
behind a semicolon and lines without a tab. -/
theorem dhInvocations_updateDhInvocations_iff (t : Text) {f : Text → Text} (hf : IsEdit f)
    : ((read t).updateDhInvocations f).1.dhInvocations = (read t).dhInvocations.map f ↔
        ∀ recipe ∈ (read t).placedInvocations, recipe.isTabbed = false → f recipe.text = recipe.text := by
  rw [← map_text_placedInvocations, ← map_text_placedInvocations,
    placedInvocations_updateDhInvocations hf, List.map_map, List.map_map, List.map_inj_left]
  apply forall₂_congr
  intro recipe _
  by_cases htab : recipe.isTabbed = true
  . simp [Rule.PlacedRecipe.edit, htab]
  . rw [Bool.not_eq_true] at htab
    simp only [Function.comp_apply, Rule.PlacedRecipe.edit, htab, Bool.false_eq_true, if_false,
      true_imp_iff]
    exact eq_comm

/-- A recipe behind a tab gets the new argument, a recipe behind a semicolon is listed without it. -/
theorem dhInvocations_updateDhInvocations_semicolon
    : ∃ f : Text → Text, f = (fun l => l ++ (" --x" : Text)) ∧
        (∃ m, read "%:\n\tdh $@\n" = m ∧
          (m.updateDhInvocations f).1.dhInvocations = m.dhInvocations.map f) ∧
        ∃ m, read "%: ; dh $@\n" = m ∧
          (m.updateDhInvocations f).1.dhInvocations ≠ m.dhInvocations.map f := by
  have hedit : IsEdit (· ++ " --x") := by
    apply isEdit_append
    . simp [isBlank]
    . simp [isNewline]
  refine ⟨_, rfl, ⟨_, rfl, ?_⟩, ⟨_, rfl, ?_⟩⟩
  . rw [dhInvocations_updateDhInvocations_iff _ hedit]
    decide +kernel
  . rw [Ne, dhInvocations_updateDhInvocations_iff _ hedit]
    decide +kernel

end Makefile

end DebianPackaging
