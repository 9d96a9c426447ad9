import DebianPackaging.Makefile.DhCommand
import DebianPackaging.Proofs.Text.Replace
import DebianPackaging.Proofs.Text.Split

/-!
This module contains what dropping and replacing an argument does to the arguments of a line. Both take up
to two arguments, the last one and one in front of it, so an argument that is there more often is left over.
-/

namespace DebianPackaging

open Text

namespace DhCommand

/-- The arguments of a line: what stands behind its first space or tab, cut at each of them. An argument is
empty where two of them meet and where the line ends in one. -/
def arguments (line : Text) : List Text := (line.splitOnP isGap).tail

theorem isGap_of_isWord {x : Text} (hx : IsWord x) : ∀ c ∈ x, isGap c = false := by
  intro c hc
  rw [← Bool.not_eq_true]
  intro hgap
  have hblank := hx.notBlank c hc
  unfold isGap at hgap
  rw [Bool.or_eq_true, beq_iff_eq, beq_iff_eq] at hgap
  rcases hgap with rfl | rfl
  . contradiction
  . contradiction

theorem ne_of_isGap {gap : Char} (hgap : isGap gap = true) : gap ≠ '\n' := by
  rintro rfl
  contradiction

theorem not_mem_newline_of_isWord {x : Text} (hx : IsWord x) : '\n' ∉ x := by
  intro hmem
  have := hx.notBlank _ hmem
  contradiction

section Arguments

variable {gap : Char} (hgap : isGap gap = true)

include hgap

theorem arguments_append (front rest : Text)
    : arguments (front ++ gap :: rest) = arguments front ++ rest.splitOnP isGap := by
  unfold arguments
  rw [List.splitOnP_append_cons _ _ hgap, List.tail_append_of_ne_nil (List.splitOnP_ne_nil _ _)]

theorem arguments_append_word {x : Text} (hx : IsWord x) (front : Text)
    : arguments (front ++ gap :: x) = arguments front ++ [x] := by
  rw [arguments_append hgap, List.splitOnP_eq_singleton (isGap_of_isWord hx)]

theorem arguments_append_word_append {x : Text} (hx : IsWord x) {gap' : Char} (hgap' : isGap gap' = true)
    (front rest : Text)
    : arguments (front ++ gap :: (x ++ gap' :: rest)) = arguments front ++ x :: rest.splitOnP isGap := by
  rw [arguments_append hgap, List.splitOnP_append_cons _ _ hgap',
    List.splitOnP_eq_singleton (isGap_of_isWord hx)]
  rfl

end Arguments

theorem exists_of_getLast?_arguments {line x : Text} (h : (arguments line).getLast? = some x)
    : ∃ front gap, isGap gap = true ∧ line = front ++ gap :: x := by
  obtain ⟨ws, hws⟩ := List.getLast?_eq_some_iff.mp h
  obtain ⟨w, ws', hline⟩ := List.exists_cons_of_ne_nil (List.splitOnP_ne_nil isGap line)
  unfold arguments at hws
  rw [hline, List.tail_cons] at hws
  rw [hws, ← List.cons_append] at hline
  obtain ⟨front, gap, b, rfl, hgap, _, hb⟩ := exists_of_splitOnP_append (by simp) (by simp) hline
  exact ⟨front, gap, hgap, by rw [eq_of_splitOnP hb]⟩

theorem exists_of_mem_dropLast_arguments {line x : Text} (h : x ∈ (arguments line).dropLast)
    : ∃ front gap gap' rest, isGap gap = true ∧ isGap gap' = true ∧
        line = front ++ gap :: (x ++ gap' :: rest) := by
  obtain ⟨before, behind, hws⟩ := List.append_of_mem h
  obtain ⟨w, ws, hline⟩ := List.exists_cons_of_ne_nil (List.splitOnP_ne_nil isGap line)
  unfold arguments at hws
  rw [hline, List.tail_cons] at hws
  rcases List.eq_nil_or_concat ws with rfl | ⟨ws, last, rfl⟩
  . simp at hws
  have hparts : line.splitOnP isGap = (w :: before) ++ ([x] ++ (behind ++ [last])) := by
    have hws : ws = before ++ x :: behind := by simpa using hws
    rw [hline, hws]
    simp
  obtain ⟨front, gap, b, rfl, hgap, _, hb⟩ := exists_of_splitOnP_append (by simp) (by simp) hparts
  obtain ⟨x', gap', rest, rfl, hgap', hx', _⟩ := exists_of_splitOnP_append (by simp) (by simp) hb
  exact ⟨front, gap, gap', rest, hgap, hgap', by rw [eq_of_splitOnP hx']⟩

theorem mem_iff_dropLast {ws : List Text} {x : Text} : x ∈ ws ↔ ws.getLast? = some x ∨ x ∈ ws.dropLast := by
  cases List.eq_nil_or_concat ws with
  | inl h => simp [h]
  | inr h =>
    obtain ⟨ws', w, rfl⟩ := h
    simp [or_comm, eq_comm]

theorem isInfix_of_mem_arguments {line x : Text} (h : x ∈ arguments line) : x <:+: line := by
  cases mem_iff_dropLast.mp h with
  | inl h =>
    obtain ⟨front, gap, _, rfl⟩ := exists_of_getLast?_arguments h
    exact ⟨front ++ [gap], [], by simp⟩
  | inr h =>
    obtain ⟨front, gap, gap', rest, _, _, rfl⟩ := exists_of_mem_dropLast_arguments h
    exact ⟨front ++ [gap], gap' :: rest, by simp⟩

theorem readArgument?_eq_some_iff {x s rest : Text} {gap : Char}
    : readArgument? x s = some (gap, rest) ↔ isGap gap = true ∧ s = gap :: (x ++ rest) := by
  cases s with
  | nil => simp [readArgument?]
  | cons c s =>
    unfold readArgument?
    dsimp only
    split
    . next hc =>
      rw [Option.map_eq_some_iff]
      simp only [after?_eq_some_iff, Prod.mk.injEq, List.cons.injEq]
      constructor
      . rintro ⟨rest', rfl, rfl, rfl⟩
        exact ⟨hc, rfl, rfl⟩
      . rintro ⟨_, rfl, rfl⟩
        exact ⟨rest, rfl, rfl, rfl⟩
    . next hc =>
      constructor
      . intro h
        cases h
      . rintro ⟨hgap, heq⟩
        cases heq
        exact absurd hgap hc

inductive TurnsInner (x : Text) (new : List Text) : (ws ws' : List Text) → Prop where
  | none {ws : List Text} (h : x ∉ ws.dropLast) : TurnsInner x new ws ws
  | word {before behind : List Text} (h : behind ≠ [])
      : TurnsInner x new (before ++ x :: behind) (before ++ (new ++ behind))

inductive TurnsLast (x y : Text) : (ws ws' : List Text) → Prop where
  | none {ws : List Text} (h : ws.getLast? ≠ some x) : TurnsLast x y ws ws
  | word {ws : List Text} : TurnsLast x y (ws ++ [x]) (ws ++ [y])

inductive DropsLast (x : Text) : (ws ws' : List Text) → Prop where
  | none {ws : List Text} (h : ws.getLast? ≠ some x) : DropsLast x ws ws
  | word {ws empty : List Text} (hempty : ∀ w ∈ empty, w = []) (hws : ws.getLast? ≠ some [])
      : DropsLast x (ws ++ empty ++ [x]) ws

/-- What an edit of one argument makes of a line: its arguments become others as `turns` tells. -/
structure EditsArgument (turns : List Text → List Text → Prop) (x line line' : Text) : Prop where
  turns : turns (arguments line) (arguments line')
  eq_self : x ∉ arguments line → line' = line
  isLine : '\n' ∉ line → '\n' ∉ line'

theorem EditsArgument.guard {turns turns' : List Text → List Text → Prop} {x line line₁ line₂ : Text}
    (h : EditsArgument turns x line line₁) (h' : EditsArgument turns' x line₁ line₂)
    : EditsArgument turns' x line₁ (if !occursIn x line then line else line₂) := by
  split
  . next hnot =>
    have hmem : x ∉ arguments line := by
      intro hmem
      simp [occursIn_iff.mpr (isInfix_of_mem_arguments hmem)] at hnot
    have heq := h.eq_self hmem
    rw [heq] at h' ⊢
    rwa [h'.eq_self hmem] at h'
  . exact h'

section Inner

variable {x : Text} (hx : IsWord x)

section Turn

variable {edit : Text → Option (Text × Text)} (turn : Char → Char → Text)
  (hedit : ∀ s, edit s = match readArgument? x s with
    | some (gap, c :: rest) => if isGap c then some (turn gap c, rest) else none
    | _ => none)

include hedit

theorem inner_eq_some_iff (s t rest : Text)
    : edit s = some (t, rest) ↔
        ∃ gap gap', isGap gap = true ∧ isGap gap' = true ∧ s = gap :: (x ++ gap' :: rest) ∧
          t = turn gap gap' := by
  rw [hedit]
  constructor
  . intro h
    split at h
    . next gap gap' rest' hread =>
      obtain ⟨hgap, rfl⟩ := readArgument?_eq_some_iff.mp hread
      split at h
      . next hgap' =>
        cases h
        exact ⟨gap, gap', hgap, hgap', rfl, rfl⟩
      . contradiction
    . contradiction
  . rintro ⟨gap, gap', hgap, hgap', rfl, rfl⟩
    rw [readArgument?_eq_some_iff.mpr ⟨hgap, rfl⟩]
    simp [hgap']

include hx

theorem turnsInner_replaceFirst {new : List Text}
    (hturn : ∀ gap gap' front rest, isGap gap = true → isGap gap' = true →
      arguments (front ++ (turn gap gap' ++ rest)) = arguments front ++ (new ++ rest.splitOnP isGap))
    (hnewline : ∀ gap gap', isGap gap = true → isGap gap' = true → '\n' ∉ turn gap gap')
    (line : Text) : EditsArgument (TurnsInner x new) x line (line.replaceFirst edit) := by
  have hrun := replacesFirst_replaceFirst edit line
  generalize line.replaceFirst edit = line' at hrun
  cases hrun with
  | nowhere hnone =>
    refine ⟨.none ?_, fun _ => rfl, id⟩
    intro hmem
    obtain ⟨front, gap, gap', rest, hgap, hgap', rfl⟩ := exists_of_mem_dropLast_arguments hmem
    have happlies := (inner_eq_some_iff turn hedit _ _ rest).mpr ⟨gap, gap', hgap, hgap', rfl, rfl⟩
    rw [hnone _ (List.suffix_append front _)] at happlies
    contradiction
  | @place front s t rest hplace _ =>
    obtain ⟨gap, gap', hgap, hgap', rfl, rfl⟩ := (inner_eq_some_iff turn hedit _ _ _).mp hplace
    have hargs := arguments_append_word_append hgap hx hgap' front rest
    refine ⟨?_, ?_, ?_⟩
    . rw [hargs, hturn _ _ _ _ hgap hgap']
      exact .word (List.splitOnP_ne_nil _ _)
    . rw [hargs]
      intro hnot
      simp at hnot
    . have := hnewline gap gap' hgap hgap'
      simp_all

end Turn

include hx

theorem turnsInner_dropInner? (line : Text)
    : EditsArgument (TurnsInner x []) x line (line.replaceFirst (dropInner? x)) := by
  apply turnsInner_replaceFirst hx (fun gap _ => [gap]) (fun _ => rfl)
  . intro gap gap' front rest hgap _
    exact arguments_append hgap front rest
  . intro gap gap' hgap _
    simpa using (ne_of_isGap hgap).symm

theorem turnsInner_replaceInner? {y : Text} (hy : IsWord y) (line : Text)
    : EditsArgument (TurnsInner x [y]) x line (line.replaceFirst (replaceInner? x y)) := by
  apply turnsInner_replaceFirst hx (fun gap gap' => gap :: y ++ [gap']) (fun _ => rfl)
  . intro gap gap' front rest hgap hgap'
    have happend := arguments_append_word_append hgap hy hgap' front rest
    simpa using happend
  . intro gap gap' hgap hgap'
    have := not_mem_newline_of_isWord hy
    simp [(ne_of_isGap hgap).symm, (ne_of_isGap hgap').symm, this]

end Inner

section Gaps

variable {p : Text → Option β}

theorem exists_of_behindGaps? {t : Text} {b : β} (h : behindGaps? p t = some b)
    : ∃ gap gaps rest, t = gap :: (gaps ++ rest) ∧ isGap gap = true ∧ (∀ c ∈ gaps, isGap c = true) ∧
        p rest = some b := by
  induction t with
  | nil => cases h
  | cons c t ih =>
    unfold behindGaps? at h
    split at h
    . next hc =>
      rw [Option.or_eq_some_iff] at h
      rcases h with h | ⟨_, h⟩
      . obtain ⟨gap, gaps, rest, rfl, hgap, hgaps, hrest⟩ := ih h
        refine ⟨c, gap :: gaps, rest, rfl, hc, ?_, hrest⟩
        rw [List.forall_mem_cons]
        exact ⟨hgap, hgaps⟩
      . exact ⟨c, [], t, rfl, hc, by simp, h⟩
    . contradiction

theorem behindGaps?_ne_none {gap : Char} (hgap : isGap gap = true) {t : Text}
    (h : behindGaps? p t ≠ none ∨ p t ≠ none) : behindGaps? p (gap :: t) ≠ none := by
  unfold behindGaps?
  rw [if_pos hgap, Ne, Option.or_eq_none_iff]
  tauto

theorem exists_splitOnP_gaps {gaps x : Text} (hgaps : ∀ c ∈ gaps, isGap c = true) (hx : IsWord x)
    : ∃ empty, (gaps ++ x).splitOnP isGap = empty ++ [x] ∧ ∀ w ∈ empty, w = [] := by
  induction gaps with
  | nil => exact ⟨[], List.splitOnP_eq_singleton (isGap_of_isWord hx), by simp⟩
  | cons gap gaps ih =>
    rw [List.forall_mem_cons] at hgaps
    obtain ⟨empty, heq, hempty⟩ := ih hgaps.2
    refine ⟨[] :: empty, ?_, by simpa using hempty⟩
    rw [List.cons_append, List.splitOnP_cons_eq_if_modifyHead, if_pos hgaps.1, heq]
    rfl

end Gaps

section Last

variable {x : Text} (hx : IsWord x) {line : Text} (hline : '\n' ∉ line)

include hx hline

theorem turnsLast_replaceFinal? {y : Text} (hy : IsWord y)
    : EditsArgument (TurnsLast x y) x line (line.replaceFirst (replaceFinal? x y)) := by
  have hrun := replacesFirst_replaceFirst (replaceFinal? x y) line
  generalize line.replaceFirst (replaceFinal? x y) = line' at hrun
  cases hrun with
  | nowhere hnone =>
    refine ⟨.none ?_, fun _ => rfl, id⟩
    intro hlast
    obtain ⟨front, gap, hgap, rfl⟩ := exists_of_getLast?_arguments hlast
    specialize hnone _ (List.suffix_append front _)
    unfold replaceFinal? at hnone
    rw [readArgument?_eq_some_iff.mpr ⟨hgap, by rw [List.append_nil]⟩] at hnone
    contradiction
  | @place front s t rest hplace _ =>
    unfold replaceFinal? at hplace
    split at hplace
    . next gap rest' hread =>
      obtain ⟨hgap, rfl⟩ := readArgument?_eq_some_iff.mp hread
      split at hplace
      . next hend =>
        cases hplace
        rw [isEnd_iff (by simp_all)] at hend
        rw [hend, List.append_nil, List.append_nil]
        refine ⟨?_, ?_, ?_⟩
        . rw [arguments_append_word hgap hx, arguments_append_word hgap hy]
          exact .word
        . rw [arguments_append_word hgap hx]
          intro hnot
          simp at hnot
        . have := not_mem_newline_of_isWord hy
          simp_all
      . contradiction
    . contradiction

theorem dropsLast_dropFinal?
    : EditsArgument (DropsLast x) x line (line.replaceFirst (dropFinal? x)) := by
  have hrun := replacesFirst_replaceFirst (dropFinal? x) line
  generalize line.replaceFirst (dropFinal? x) = line' at hrun
  cases hrun with
  | nowhere hnone =>
    refine ⟨.none ?_, fun _ => rfl, id⟩
    intro hlast
    obtain ⟨front, gap, hgap, rfl⟩ := exists_of_getLast?_arguments hlast
    have happlies : ((after? x x).filter isEnd).map (fun rest => (([] : Text), rest)) ≠ none := by
      rw [after?_eq_some_iff.mpr (List.append_nil x).symm]
      simp [isEnd]
    exact behindGaps?_ne_none hgap (.inr happlies) (hnone _ (List.suffix_append front _))
  | @place front s t rest hplace hfirst =>
    obtain ⟨gap, gaps, behind, rfl, hgap, hgaps, hbehind⟩ := exists_of_behindGaps? hplace
    obtain ⟨rest', hafter, heq⟩ := Option.map_eq_some_iff.mp hbehind
    obtain ⟨hafter, hend⟩ := Option.filter_eq_some_iff.mp hafter
    cases heq
    obtain rfl := after?_eq_some_iff.mp hafter
    rw [isEnd_iff (by simp_all)] at hend
    obtain ⟨empty, hsplit, hempty⟩ := exists_splitOnP_gaps hgaps hx
    have hargs : arguments (front ++ gap :: (gaps ++ (x ++ rest))) = arguments front ++ empty ++ [x] := by
      rw [arguments_append hgap, hend, List.append_nil, hsplit, List.append_assoc]
    refine ⟨?_, ?_, ?_⟩
    . rw [hargs, hend, List.append_nil, List.append_nil]
      apply DropsLast.word hempty
      -- a gap in front of the place would have been a place itself
      intro hlast
      obtain ⟨front', gap', hgap', rfl⟩ := exists_of_getLast?_arguments hlast
      have happlies : dropFinal? x (gap :: (gaps ++ (x ++ rest))) ≠ none := by simp [hplace]
      exact behindGaps?_ne_none hgap' (.inl happlies) (hfirst front' [gap'] rfl (by simp))
    . rw [hargs]
      intro hnot
      simp at hnot
    . simp_all

theorem exists_editsArgument_dropArgument
    : ∃ line₁, EditsArgument (DropsLast x) x line line₁ ∧
        EditsArgument (TurnsInner x []) x line₁ (dropArgument line x) := by
  have hlast := dropsLast_dropFinal? hx hline
  exact ⟨_, hlast, hlast.guard (turnsInner_dropInner? hx _)⟩

theorem exists_editsArgument_replaceArgument {y : Text} (hy : IsWord y)
    : ∃ line₁, EditsArgument (TurnsLast x y) x line line₁ ∧
        EditsArgument (TurnsInner x [y]) x line₁ (replaceArgument line x y) := by
  have hlast := turnsLast_replaceFinal? hx hline hy
  exact ⟨_, hlast, hlast.guard (turnsInner_replaceInner? hx hy _)⟩

end Last

end DhCommand

end DebianPackaging
