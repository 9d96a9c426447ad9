import DebianPackaging.Proofs.DhCommand.Twice

/-!
This module contains what dropping and replacing an argument does to the words of a line. The edits work on
the gaps around an argument, where they join or leave empty arguments, but of the words only the one that was
asked for goes or turns into another one.
-/

namespace DebianPackaging

open Text

namespace DhCommand

def words (line : Text) : List Text := (line.splitOnP isGap).filter (!·.isEmpty)

def beforeGap (line : Text) : Text := line.takeWhile fun c => !isGap c

theorem splitOnP_eq_beforeGap_cons (line : Text)
    : line.splitOnP isGap = beforeGap line :: arguments line := by
  unfold beforeGap arguments
  induction line with
  | nil => rfl
  | cons c line ih =>
    rw [List.splitOnP_cons_eq_if_modifyHead]
    split
    . next hc => simp [hc]
    . next hc =>
      rw [ih]
      simp [hc]

theorem words_eq_append (line : Text)
    : words line = [beforeGap line].filter (!·.isEmpty) ++ (arguments line).filter (!·.isEmpty) := by
  unfold words
  rw [splitOnP_eq_beforeGap_cons, ← List.filter_append]
  rfl

theorem beforeGap_append {s : Text} (hs : StopsAt (fun c => !isGap c) s) (front : Text)
    : beforeGap (front ++ s) = beforeGap front := by
  have hnil : s.takeWhile (fun c => !isGap c) = [] := takeWhile_append_of_stopsAt (w := []) (by simp) hs
  unfold beforeGap
  rw [List.takeWhile_append, hnil, List.append_nil]
  split
  . next hlength => exact ((List.takeWhile_prefix _).eq_of_length hlength).symm
  . rfl

theorem beforeGap_replaceFirst {edit : Text → Option (Text × Text)} {line : Text}
    (h : ∀ s new rest, s <:+ line → edit s = some (new, rest) →
      StopsAt (fun c => !isGap c) s ∧ StopsAt (fun c => !isGap c) (new ++ rest))
    : beforeGap (line.replaceFirst edit) = beforeGap line := by
  have hrun := replacesFirst_replaceFirst edit line
  generalize line.replaceFirst edit = line' at hrun
  cases hrun with
  | nowhere _ => rfl
  | @place front s new rest hplace _ =>
    obtain ⟨hs, hnew⟩ := h s new rest (List.suffix_append front s) hplace
    rw [beforeGap_append hs, beforeGap_append hnew]

theorem stopsAt_gap {gap : Char} (hgap : isGap gap = true) (t : Text)
    : StopsAt (fun c => !isGap c) (gap :: t) := by
  rw [stopsAt_cons, hgap]
  rfl

section BeforeGap

variable (x line : Text)

theorem beforeGap_dropInner : beforeGap (line.replaceFirst (dropInner? x)) = beforeGap line := by
  apply beforeGap_replaceFirst
  intro s new rest _ h
  obtain ⟨gap, gap', hgap, _, rfl, rfl⟩ :=
    (inner_eq_some_iff (fun gap _ => [gap]) (fun _ => rfl) s new rest).mp h
  exact ⟨stopsAt_gap hgap _, stopsAt_gap hgap _⟩

theorem beforeGap_replaceInner (y : Text)
    : beforeGap (line.replaceFirst (replaceInner? x y)) = beforeGap line := by
  apply beforeGap_replaceFirst
  intro s new rest _ h
  obtain ⟨gap, gap', hgap, _, rfl, rfl⟩ :=
    (inner_eq_some_iff (fun gap gap' => gap :: y ++ [gap']) (fun _ => rfl) s new rest).mp h
  exact ⟨stopsAt_gap hgap _, stopsAt_gap hgap _⟩

theorem beforeGap_replaceFinal (y : Text)
    : beforeGap (line.replaceFirst (replaceFinal? x y)) = beforeGap line := by
  apply beforeGap_replaceFirst
  intro s new rest _ h
  unfold replaceFinal? at h
  split at h
  . next gap rest' hread =>
    obtain ⟨hgap, rfl⟩ := readArgument?_eq_some_iff.mp hread
    split at h
    . cases h
      exact ⟨stopsAt_gap hgap _, stopsAt_gap hgap _⟩
    . contradiction
  . contradiction

variable {line} in
theorem beforeGap_dropFinal (hline : '\n' ∉ line)
    : beforeGap (line.replaceFirst (dropFinal? x)) = beforeGap line := by
  apply beforeGap_replaceFirst
  intro s new rest hs h
  obtain ⟨gap, gaps, behind, rfl, hgap, _, hbehind⟩ := exists_of_behindGaps? h
  obtain ⟨rest', hafter, heq⟩ := Option.map_eq_some_iff.mp hbehind
  cases heq
  obtain ⟨hafter, hend⟩ := Option.filter_eq_some_iff.mp hafter
  obtain rfl := after?_eq_some_iff.mp hafter
  have hs' : '\n' ∉ gap :: (gaps ++ (x ++ rest)) := fun hmem => hline (hs.subset hmem)
  rw [isEnd_iff (by simp_all)] at hend
  rw [hend]
  exact ⟨stopsAt_gap hgap _, stopsAt_nil _⟩

end BeforeGap

theorem beforeGap_dropArgument {line : Text} (hline : '\n' ∉ line) (x : Text)
    : beforeGap (dropArgument line x) = beforeGap line := by
  unfold dropArgument
  split
  . rfl
  . exact (beforeGap_dropInner x _).trans (beforeGap_dropFinal x hline)

theorem beforeGap_replaceArgument (line x y : Text)
    : beforeGap (replaceArgument line x y) = beforeGap line := by
  unfold replaceArgument
  split
  . rfl
  . exact (beforeGap_replaceInner x _ y).trans (beforeGap_replaceFinal x line y)

inductive TurnsWord (x : Text) (new : List Text) : (ws ws' : List Text) → Prop where
  | none {ws : List Text} (h : x ∉ ws) : TurnsWord x new ws ws
  | word {before behind : List Text} (h : x ∉ before)
      : TurnsWord x new (before ++ x :: behind) (before ++ (new ++ behind))

namespace TurnsWord

variable {x : Text} {ws ws' : List Text}

theorem append {new : List Text} (h : TurnsWord x new ws ws') {front : List Text} (hfront : x ∉ front)
    : TurnsWord x new (front ++ ws) (front ++ ws') := by
  cases h with
  | none h => exact .none (by simp [hfront, h])
  | word h =>
    rw [← List.append_assoc, ← List.append_assoc front]
    exact .word (by simp [hfront, h])

theorem eq_erase (h : TurnsWord x [] ws ws') : ws' = ws.erase x := by
  cases h with
  | none h => rw [List.erase_of_not_mem h]
  | word h => rw [List.erase_append_right _ h, List.erase_cons_head, List.nil_append]

theorem eq_replace {y : Text} (h : TurnsWord x [y] ws ws') : ws' = ws.replace x y := by
  cases h with
  | none h => rw [List.replace_of_not_mem h]
  | word h => rw [List.replace_append_right h, List.replace_cons_self, List.singleton_append]

theorem self (x : Text) (ws : List Text) : TurnsWord x [x] ws ws := by
  by_cases hmem : x ∈ ws
  . obtain ⟨before, behind, rfl, hbefore⟩ := List.eq_append_cons_of_mem hmem
    exact .word hbefore
  . exact .none hmem

end TurnsWord

section Turns

variable {x : Text} (hx : x ≠ []) {new ws ws₁ ws₂ : List Text} (hnew : x ∉ new)

include hx hnew

theorem turnsWord_of_turns (hsolid : ∀ w ∈ new, w ≠ [])
    (hone : (ws.filter (!·.isEmpty)).count x ≤ 1)
    (hlast : ws₁ = ws ∧ ws.getLast? ≠ some x ∨ ∃ front, ws.filter (!·.isEmpty) = front ++ [x] ∧
      ws₁.filter (!·.isEmpty) = front ++ new)
    (hinner : TurnsInner x new ws₁ ws₂)
    : TurnsWord x new (ws.filter (!·.isEmpty)) (ws₂.filter (!·.isEmpty)) := by
  have hmem : ∀ {vs : List Text}, x ∈ vs.filter (!·.isEmpty) ↔ x ∈ vs := by simp [hx]
  rcases hlast with ⟨rfl, hlast⟩ | ⟨front, hws, hws₁⟩
  . cases hinner with
    | none h =>
      apply TurnsWord.none
      rw [hmem, mem_iff_dropLast]
      tauto
    | @word before behind _ =>
      have hkept : new.filter (!·.isEmpty) = new := by simpa using hsolid
      rw [List.filter_append, List.filter_cons_of_pos (by simpa using hx)] at hone ⊢
      rw [List.filter_append, List.filter_append, hkept]
      apply TurnsWord.word
      rw [← List.count_eq_zero]
      rw [List.count_append, List.count_cons_self] at hone
      omega
  . have hfront : x ∉ front := by
      rw [hws, List.count_append, List.count_singleton_self] at hone
      rw [← List.count_eq_zero]
      omega
    cases hinner with
    | none _ =>
      have hturns : TurnsWord x new (front ++ [x]) (front ++ (new ++ [])) := .word hfront
      rwa [List.append_nil, ← hws, ← hws₁] at hturns
    | @word before behind _ =>
      have hmem₁ : x ∈ front ++ new := by
        rw [← hws₁, hmem]
        simp
      simp [hfront, hnew] at hmem₁

end Turns

theorem DropsLast.words_cases {x : Text} {ws ws₁ : List Text} (hx : x ≠ []) (h : DropsLast x ws ws₁)
    : ws₁ = ws ∧ ws.getLast? ≠ some x ∨ ∃ front, ws.filter (!·.isEmpty) = front ++ [x] ∧
        ws₁.filter (!·.isEmpty) = front ++ [] := by
  cases h with
  | none h => exact .inl ⟨rfl, h⟩
  | @word _ empty hempty _ =>
    have hnil : empty.filter (!·.isEmpty) = [] := by
      rw [List.filter_eq_nil_iff]
      intro w hw
      simp [hempty w hw]
    refine .inr ⟨ws₁.filter (!·.isEmpty), ?_, (List.append_nil _).symm⟩
    simp [List.filter_append, hnil, hx]

theorem TurnsLast.words_cases {x y : Text} {ws ws₁ : List Text} (hx : x ≠ []) (hy : y ≠ [])
    (h : TurnsLast x y ws ws₁)
    : ws₁ = ws ∧ ws.getLast? ≠ some x ∨ ∃ front, ws.filter (!·.isEmpty) = front ++ [x] ∧
        ws₁.filter (!·.isEmpty) = front ++ [y] := by
  cases h with
  | none h => exact .inl ⟨rfl, h⟩
  | @word ws =>
    refine .inr ⟨ws.filter (!·.isEmpty), ?_, ?_⟩
    . simp [List.filter_append, hx]
    . simp [List.filter_append, hy]

section Edit

variable {line x : Text} (hline : '\n' ∉ line) (hx : IsWord x) (honce : (words line).count x ≤ 1)
  (hstart : beforeGap line ≠ x)

include hline hx honce hstart

theorem turnsWord_dropArgument : TurnsWord x [] (words line) (words (dropArgument line x)) := by
  have hbefore : x ∉ [beforeGap line].filter (!·.isEmpty) := by simp [Ne.symm hstart]
  rw [words_eq_append, List.count_append, List.count_eq_zero.mpr hbefore, Nat.zero_add] at honce
  obtain ⟨line₁, hlast, hinner⟩ := exists_editsArgument_dropArgument hx hline
  rw [words_eq_append, words_eq_append, beforeGap_dropArgument hline]
  apply TurnsWord.append _ hbefore
  exact turnsWord_of_turns hx.ne_nil (by simp) (by simp) honce (hlast.turns.words_cases hx.ne_nil)
    hinner.turns

theorem turnsWord_replaceArgument {y : Text} (hy : IsWord y)
    : TurnsWord x [y] (words line) (words (replaceArgument line x y)) := by
  by_cases hne : x = y
  . rw [← hne, replaceArgument_self]
    exact TurnsWord.self x _
  . have hbefore : x ∉ [beforeGap line].filter (!·.isEmpty) := by simp [Ne.symm hstart]
    rw [words_eq_append, List.count_append, List.count_eq_zero.mpr hbefore, Nat.zero_add] at honce
    obtain ⟨line₁, hlast, hinner⟩ := exists_editsArgument_replaceArgument hx hline hy
    rw [words_eq_append, words_eq_append, beforeGap_replaceArgument]
    apply TurnsWord.append _ hbefore
    exact turnsWord_of_turns hx.ne_nil (by simpa using hne) (by simpa using hy.ne_nil) honce
      (hlast.turns.words_cases hx.ne_nil hy.ne_nil) hinner.turns

/-- An argument that is a word of a line at most once, and not at the start of the line, goes from the words
of the line when it is dropped, and turns into the new word when it is replaced. A line of which it is no word
stays as it is. -/
theorem words_editArgument {y : Text} (hy : IsWord y)
    : words (dropArgument line x) = (words line).erase x ∧
        words (replaceArgument line x y) = (words line).replace x y ∧
        (x ∉ words line → dropArgument line x = line ∧ replaceArgument line x y = line) := by
  refine ⟨(turnsWord_dropArgument hline hx honce hstart).eq_erase,
    (turnsWord_replaceArgument hline hx honce hstart hy).eq_replace, ?_⟩
  intro hmem
  have hmem' : x ∉ arguments line := by
    rw [words_eq_append] at hmem
    simpa [hx.ne_nil, hstart.symm] using hmem
  refine ⟨(dropArgument_eq_self_iff hline hx).mpr hmem', ?_⟩
  by_cases hne : x = y
  . rw [← hne, replaceArgument_self]
  . exact (replaceArgument_eq_self_iff hline hx hy hne).mpr hmem'

end Edit

theorem words_editArgument_verbose
    : ∃ line line' x y : Text, line = "dh  --foo\t--foobar" ∧ line' = "dh --foobar" ∧ x = "--foo" ∧
        y = "--bar" ∧ words (dropArgument line x) = (words line).erase x ∧
        words (replaceArgument line x y) = (words line).replace x y ∧ x ∈ words line ∧
        dropArgument line' x = line' ∧ replaceArgument line' x y = line' := by
  have hx : IsWord ("--foo" : Text) := ⟨by decide, List.all_iff_forall_prop.mp (by decide)⟩
  have hy : IsWord ("--bar" : Text) := ⟨by decide, List.all_iff_forall_prop.mp (by decide)⟩
  have hline : '\n' ∉ ("dh  --foo\t--foobar" : Text) := by decide
  have hline' : '\n' ∉ ("dh --foobar" : Text) := by decide
  obtain ⟨hdrop, hreplace, _⟩ := words_editArgument hline hx (by decide +kernel) (by decide) hy
  obtain ⟨_, _, hself⟩ := words_editArgument hline' hx (by decide +kernel) (by decide) hy
  exact ⟨_, _, _, _, rfl, rfl, rfl, rfl, hdrop, hreplace, by decide +kernel, hself (by decide +kernel)⟩

end DhCommand

end DebianPackaging
