import DebianPackaging.Proofs.Makefile.NewRule

/-!
This module contains rules as an editor holds them: as lines and the number of those that are the header.
Nothing keeps that number and the lines from being wrong, so that looking at a held rule can fail. It does not
fail for a rule that was read, whatever has been removed from it since.
-/

namespace DebianPackaging

open Text

/-- The lines of a rule, the first `headerLength` of which are meant to be its header. -/
structure HeldRule where
  lines : List Text
  headerLength : Nat

namespace HeldRule

structure IsSound (h : HeldRule) : Prop where
  pos : 1 ≤ h.headerLength
  le_length : h.headerLength ≤ h.lines.length
  colon_mem : ∃ first ∈ h.lines.head?, ':' ∈ first

def headerLines (h : HeldRule) : List Text := h.lines.take h.headerLength

def body (h : HeldRule) : List Text := h.lines.drop h.headerLength

def header? (h : HeldRule) : Option RuleHeader :=
  let header := dropNewline (Rule.joinContinued h.headerLines.flatten)
  if header.contains ':' then some (Rule.splitHeader header) else none

def targets? (h : HeldRule) : Option (List Text) := do return (← h.header?).targets.words

def prerequisites? (h : HeldRule) : Option (List Text) := do
  return (← h.header?).prerequisites.words.filter (· != "|")

def recipes? (h : HeldRule) : Option (List Text) := do
  let inlineRecipe :=
    match (← h.header?).recipe.map trim with
    | some (c :: t) => [c :: t]
    | _ => []
  return inlineRecipe ++ h.body.filterMap Rule.recipeOfLine?

def isPointlessOverride? (h : HeldRule) : Option Bool := do
  match ← h.targets? with
  | [target] =>
    match after? overrideStart target with
    | none => return false
    | some command =>
      if (← h.prerequisites?).isEmpty then
        match ((← h.recipes?).map trim).filter (!·.isEmpty) with
        | [recipe] => return recipe == command
        | _ => return false
      else return false
  | _ => return false

def mapRecipes (f : Text → Text) (h : HeldRule) : HeldRule :=
  { h with lines := h.headerLines ++ h.body.map (Rule.mapRecipeLine f) }

def appendPrerequisite? (target : Text) (h : HeldRule) : Option HeldRule := do
  let first ← h.lines[0]?
  return { h with lines := h.lines.set 0 (first.dropNewline ++ " " ++ target ++ first.newline) }

def terminate? (h : HeldRule) : Option HeldRule := do
  let last ← h.lines.getLast?
  return { h with lines := h.lines.dropLast ++ Makefile.terminateLines [last] }

/-- Remove a word from the line at the position `i` if it is there. On the first line it is looked for behind
the first colon, which has to be there. -/
def removeFromLine? (name : Text) (i : Nat) (line : Text) : Option (Option Text) :=
  if i = 0 then
    if line.contains ':' then
      let rest := Rule.removeWord? name (line.dropWhile (· != ':'))
      some (rest.map (line.takeWhile (· != ':') ++ ·))
    else none
  else some (Rule.removeWord? name line)

def removeFromLines? (name : Text) (h : HeldRule) : (positions : List Nat) → Option (Option HeldRule)
  | [] => some none
  | i :: is => do
    match ← removeFromLine? name i (← h.lines[i]?) with
    | some line => return some { h with lines := h.lines.set i line }
    | none => removeFromLines? name h is

def removePrerequisite? (name : Text) (h : HeldRule) : Option (Option HeldRule) :=
  removeFromLines? name h (List.range h.headerLength)

/-- Remove a prerequisite for as long as it is there and can be found. This fails if it takes more than `n`
rounds, where the last one only finds that it is done. -/
def removeRounds? (name : Text) : (n : Nat) → HeldRule → Option HeldRule
  | 0, _ => none
  | n + 1, h => do
    if (← h.prerequisites?).contains name then
      match ← h.removePrerequisite? name with
      | some h => removeRounds? name n h
      | none => return h
    else return h

def removeAllPrerequisites? (name : Text) (h : HeldRule) : Option HeldRule :=
  removeRounds? name h.headerLines.flatten.length h

def ofRule (r : Rule) : HeldRule := ⟨r.lines, r.headerLines.length⟩

def rule (h : HeldRule) : Rule :=
  match h.headerLines with
  | [] => ⟨[], [], h.body⟩
  | first :: continued => ⟨first, continued, h.body⟩

section OfRule

variable (r : Rule)

@[simp]
theorem headerLines_ofRule : (ofRule r).headerLines = r.headerLines := List.take_left

@[simp]
theorem body_ofRule : (ofRule r).body = r.body := List.drop_left

@[simp]
theorem rule_ofRule : (ofRule r).rule = r := by
  unfold rule
  rw [headerLines_ofRule, body_ofRule]
  rfl

end OfRule

theorem isSound_ofRule {r : Rule} (h : ':' ∈ r.first) : (ofRule r).IsSound := by
  constructor
  . exact Nat.succ_pos _
  . exact (List.prefix_append r.headerLines r.body).length_le
  . exact ⟨r.first, rfl, h⟩

theorem IsSound.exists_ofRule {h : HeldRule} (hh : h.IsSound) : ∃ r, h = ofRule r ∧ ':' ∈ r.first := by
  obtain ⟨lines, length⟩ := h
  obtain ⟨hpos, hle, first, hfirst, hcolon⟩ := hh
  obtain ⟨n, rfl⟩ := Nat.exists_eq_add_one.mpr hpos
  cases lines with
  | nil => cases hfirst
  | cons l ls =>
    cases hfirst
    have hle : n ≤ ls.length := Nat.le_of_succ_le_succ hle
    refine ⟨⟨first, ls.take n, ls.drop n⟩, ?_, hcolon⟩
    simp [ofRule, Rule.lines, Rule.headerLines, Nat.min_eq_left hle]

section Look

variable {r : Rule} (hcolon : ':' ∈ r.first)

include hcolon

theorem header?_ofRule : (ofRule r).header? = some r.header := by
  have hmem : ':' ∈ dropNewline (Rule.joinContinued r.headerLines.flatten) := by
    obtain ⟨first, continued, body⟩ := r
    obtain ⟨front, rest, rfl, _⟩ := List.eq_append_cons_of_mem hcolon
    rw [Rule.joinContinued_of_colon, dropNewline_append_cons rfl]
    simp
  unfold header?
  rw [headerLines_ofRule]
  exact if_pos (List.contains_iff_mem.mpr hmem)

theorem targets?_ofRule : (ofRule r).targets? = some r.targets := by
  unfold targets?
  rw [header?_ofRule hcolon]
  rfl

theorem prerequisites?_ofRule : (ofRule r).prerequisites? = some r.prerequisites := by
  unfold prerequisites?
  rw [header?_ofRule hcolon]
  rfl

theorem recipes?_ofRule : (ofRule r).recipes? = some r.recipes := by
  unfold recipes?
  rw [header?_ofRule hcolon, body_ofRule]
  rfl

theorem isPointlessOverride?_ofRule : (ofRule r).isPointlessOverride? = some r.isPointlessOverride := by
  unfold isPointlessOverride? Rule.isPointlessOverride
  rw [targets?_ofRule hcolon, prerequisites?_ofRule hcolon, recipes?_ofRule hcolon]
  simp only [Option.bind_eq_bind, Option.bind_some, Option.pure_def]
  rcases r.targets with _ | ⟨target, _ | _⟩
  . rfl
  . dsimp only
    cases after? overrideStart target with
    | none => rfl
    | some command =>
      cases r.prerequisites.isEmpty with
      | false => rfl
      | true =>
        dsimp only
        rw [if_pos rfl, Bool.true_and]
        generalize List.filter _ _ = recipes
        rcases recipes with _ | ⟨recipe, _ | _⟩ <;> rfl
  . rfl

end Look

section Remove

variable {name : Text}

theorem removeFromLines?_eq (before after : List Text) (hbefore : before ≠ []) (ls : List Text) (n : Nat)
    : removeFromLines? name ⟨before ++ (ls ++ after), n⟩ (List.range' before.length ls.length)
        =
      some ((Rule.removeWordFromLines? name ls).map fun ls => ⟨before ++ (ls ++ after), n⟩) := by
  induction ls generalizing before with
  | nil => rfl
  | cons l ls ih =>
    have hpos : before.length ≠ 0 := by simpa using hbefore
    have hline : (before ++ (l :: ls ++ after))[before.length]? = some l := by simp
    specialize ih (before ++ [l]) (by simp)
    rw [List.length_append, List.length_singleton, List.append_assoc] at ih
    rw [List.length_cons, List.range'_succ]
    unfold removeFromLines? removeFromLine? Rule.removeWordFromLines?
    simp only [hline, if_neg hpos, Option.bind_eq_bind, Option.bind_some]
    cases Rule.removeWord? name l with
    | some l' => simp
    | none =>
      dsimp only
      rw [Option.map_map]
      simpa [Function.comp_def] using ih

theorem removePrerequisite?_ofRule {r : Rule} (hcolon : ':' ∈ r.first)
    : (ofRule r).removePrerequisite? name = some ((r.removePrerequisite? name).map ofRule) := by
  have hcontinued := @removeFromLines?_eq name [r.first] r.body (by simp) r.continued r.headerLines.length
  have hrange : List.range r.headerLines.length = 0 :: List.range' 1 r.continued.length := by
    rw [List.range_eq_range']
    rfl
  unfold removePrerequisite? Rule.removePrerequisite?
  dsimp only [ofRule]
  rw [hrange]
  unfold removeFromLines? removeFromLine?
  have hfirst : r.lines[0]? = some r.first := rfl
  rw [hfirst]
  simp only [Option.bind_eq_bind, Option.bind_some, List.contains_iff_mem.mpr hcolon, if_true]
  cases Rule.removeWord? name (r.first.dropWhile (· != ':')) with
  | some rest => rfl
  | none =>
    refine hcontinued.trans ?_
    cases hls : Rule.removeWordFromLines? name r.continued with
    | none => rfl
    | some ls =>
      obtain ⟨before, l, l', after, hcontinued, rfl, _⟩ := Rule.exists_of_removeWordFromLines? hls
      simp [ofRule, Rule.lines, Rule.headerLines, hcontinued]

theorem removeRounds?_ofRule {n : Nat} {r : Rule} (hcolon : ':' ∈ r.first)
    (hn : r.headerLines.flatten.length ≤ n)
    : (ofRule r).removeRounds? name n = some (ofRule (r.removeRounds name n)) := by
  induction n generalizing r with
  | zero =>
    rw [Nat.le_zero, List.length_eq_zero_iff] at hn
    have hmem : ':' ∈ r.headerLines.flatten := List.mem_append_left _ hcolon
    rw [hn] at hmem
    cases hmem
  | succ n ih =>
    unfold removeRounds? Rule.removeRounds
    rw [prerequisites?_ofRule hcolon, removePrerequisite?_ofRule hcolon]
    simp only [Option.bind_eq_bind, Option.bind_some]
    split
    . next hmem =>
      cases hr' : r.removePrerequisite? name with
      | none => rfl
      | some r' =>
        have hloses := Rule.losesPrerequisite_of_removePrerequisite? hr'
        have hword := Rule.isWord_of_mem_prerequisites (List.contains_iff_mem.mp hmem)
        have hlt := hloses.length_headerLines_lt hword.ne_nil
        exact ih (hloses.colon_mem hcolon) (by omega)
    . rfl

theorem removeAllPrerequisites?_ofRule {r : Rule} (hcolon : ':' ∈ r.first)
    : (ofRule r).removeAllPrerequisites? name = some (ofRule (r.removeAllPrerequisites name)) := by
  unfold removeAllPrerequisites?
  rw [headerLines_ofRule]
  exact removeRounds?_ofRule hcolon (Nat.le_refl _)

end Remove

theorem appendPrerequisite?_ofRule (r : Rule) (target : Text)
    : (ofRule r).appendPrerequisite? target = some (ofRule (Makefile.appendPrerequisite r target)) := rfl

theorem length_terminateLines (ls : List Text) : (Makefile.terminateLines ls).length = ls.length := by
  fun_induction Makefile.terminateLines ls with
  | case1 => rfl
  | case2 l => rfl
  | case3 l ls _ ih => rw [List.length_cons, List.length_cons, ih]

theorem length_headerLines_terminateRule (r : Rule)
    : (Makefile.terminateRule r).headerLines.length = r.headerLines.length := by
  obtain ⟨first, continued, heq, _⟩ := Makefile.terminateLines_cons r.first r.continued
  unfold Makefile.terminateRule
  split
  . rw [← length_terminateLines r.headerLines]
    unfold Rule.headerLines
    rw [heq]
  . rfl

theorem terminate?_ofRule (r : Rule) : (ofRule r).terminate? = some (ofRule (Makefile.terminateRule r)) := by
  have hne : r.lines ≠ [] := List.cons_ne_nil _ _
  obtain ⟨ls, l, hlines⟩ := (List.eq_nil_or_concat r.lines).resolve_left hne
  unfold terminate? ofRule
  rw [List.concat_eq_append] at hlines
  rw [Makefile.lines_terminateRule, length_headerLines_terminateRule, hlines,
    Makefile.terminateLines_append _ (List.cons_ne_nil l [])]
  simp

theorem mapRecipes_ofRule (f : Text → Text) (r : Rule)
    : (ofRule r).mapRecipes f = ofRule (r.mapRecipes f) := by
  unfold mapRecipes
  rw [headerLines_ofRule, body_ofRule]
  rfl

end HeldRule

end DebianPackaging
