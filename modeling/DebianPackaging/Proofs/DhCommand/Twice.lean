import Mathlib.Data.Bool.AllAny
import DebianPackaging.Proofs.DhCommand.AddOn
import DebianPackaging.Proofs.DhCommand.Argument

/-!
This module contains the proof of what it takes for a second run of an edit of a line to change nothing. An
edit that finds more than it takes out in one run goes on with the next one.
-/

namespace DebianPackaging

open Text

namespace DhCommand

section Count

variable {x : Text} {ws ws' : List Text}

theorem TurnsInner.eq_or_count_lt {new : List Text} (h : TurnsInner x new ws ws') (hnew : x ∉ new)
    : ws' = ws ∧ x ∉ ws.dropLast ∨ ws'.count x < ws.count x := by
  cases h with
  | none h => exact .inl ⟨rfl, h⟩
  | word _ =>
    right
    simp [List.count_append, List.count_eq_zero.mpr hnew]

theorem TurnsLast.eq_or_count_lt {y : Text} (h : TurnsLast x y ws ws') (hne : x ≠ y)
    : ws' = ws ∧ ws.getLast? ≠ some x ∨ ws'.count x < ws.count x := by
  cases h with
  | none h => exact .inl ⟨rfl, h⟩
  | word =>
    right
    simp [List.count_append, Ne.symm hne]

theorem DropsLast.eq_or_count_lt (h : DropsLast x ws ws')
    : ws' = ws ∧ ws.getLast? ≠ some x ∨ ws'.count x < ws.count x := by
  cases h with
  | none h => exact .inl ⟨rfl, h⟩
  | word _ _ =>
    right
    simp only [List.count_append, List.count_singleton_self]
    omega

theorem TurnsInner.mem_iff {new : List Text} (h : TurnsInner x new ws ws') (hnew : x ∉ new)
    : x ∈ ws' ↔ ws.getLast? = some x ∨ 2 ≤ ws.dropLast.count x := by
  cases h with
  | none h =>
    rw [mem_iff_dropLast, List.count_eq_zero.mpr h]
    simp [h]
  | @word before behind h =>
    obtain ⟨middle, w, rfl⟩ := (List.eq_nil_or_concat behind).resolve_left h
    have hshape : before ++ x :: middle.concat w = before ++ x :: middle ++ [w] := by simp
    have hmem : x ∈ before ++ (new ++ middle.concat w) ↔ w = x ∨ x ∈ before ++ middle := by
      simp only [List.concat_eq_append, List.mem_append, List.mem_singleton, hnew, false_or]
      tauto
    rw [hshape, List.getLast?_concat, List.dropLast_concat, hmem, Option.some.injEq, ← List.count_pos_iff]
    apply or_congr_right
    simp only [List.count_append, List.count_cons_self]
    omega

theorem count_dropLast (h : ws.getLast? ≠ some x) : ws.dropLast.count x = ws.count x := by
  rcases List.eq_nil_or_concat ws with rfl | ⟨ws, w, rfl⟩
  . rfl
  . have hne : w ≠ x := by simpa using h
    simp [List.count_append, hne]

theorem getLast?_filter_iff (h : ws.getLast? ≠ some [])
    : (ws.filter (!·.isEmpty)).getLast? = some x ↔ ws.getLast? = some x := by
  rcases List.eq_nil_or_concat ws with rfl | ⟨ws, w, rfl⟩
  . simp
  . have hne : w ≠ [] := by simpa using h
    simp [hne]

theorem mem_dropped_iff {ws₁ ws₂ : List Text} (hx : x ≠ []) (hlast : DropsLast x ws ws₁)
    (hinner : TurnsInner x [] ws₁ ws₂)
    : x ∈ ws₂ ↔ 2 ≤ ws.dropLast.count x ∨ [x, x] <:+ ws.filter (!·.isEmpty) := by
  rw [hinner.mem_iff (by simp)]
  cases hlast with
  | none h =>
    have htwice : [x, x] <:+ ws.filter (!·.isEmpty) → 2 ≤ ws.dropLast.count x := by
      intro hsuffix
      have hcount := (hsuffix.sublist.trans List.filter_sublist).count_le x
      rw [count_dropLast h]
      simpa using hcount
    tauto
  | @word _ empty hempty hne =>
    have hcount : empty.count x = 0 := by
      rw [List.count_eq_zero]
      intro hmem
      exact hx (hempty x hmem)
    have hfilter : (ws₁ ++ empty ++ [x]).filter (!·.isEmpty) = ws₁.filter (!·.isEmpty) ++ [x] := by
      have hnil : empty.filter (!·.isEmpty) = [] := by
        rw [List.filter_eq_nil_iff]
        intro w hw
        simp [hempty w hw]
      simp [List.filter_append, hnil, hx]
    have hsuffix : [x, x] <:+ ws₁.filter (!·.isEmpty) ++ [x] ↔ ws₁.getLast? = some x := by
      rw [← getLast?_filter_iff hne, List.getLast?_eq_some_iff]
      constructor
      . rintro ⟨front, heq⟩
        have hcancel : ws₁.filter (!·.isEmpty) ++ [x] = front ++ [x] ++ [x] := by
          rw [← heq]
          simp
        exact ⟨front, List.append_cancel_right hcancel⟩
      . rintro ⟨front, heq⟩
        rw [heq]
        exact ⟨front, by simp⟩
    rw [hfilter, hsuffix, List.dropLast_concat, List.count_append, hcount, Nat.add_zero]
    by_cases hlast : ws₁.getLast? = some x
    . simp [hlast]
    . rw [count_dropLast hlast]
      simp [hlast]

theorem mem_replaced_iff {y : Text} {ws₁ ws₂ : List Text} (hne : x ≠ y) (hlast : TurnsLast x y ws ws₁)
    (hinner : TurnsInner x [y] ws₁ ws₂) : x ∈ ws₂ ↔ 2 ≤ ws.dropLast.count x := by
  rw [hinner.mem_iff (by simpa using hne)]
  cases hlast with
  | none h => simp [h]
  | word => simp [Ne.symm hne]

end Count

section Fixed

variable {x line line₁ line₂ : Text} {turns : List Text → List Text → Prop} {new : List Text}

theorem edits_eq_self_iff (hnew : x ∉ new)
    (hturns : ∀ ws ws', turns ws ws' → ws' = ws ∧ ws.getLast? ≠ some x ∨ ws'.count x < ws.count x)
    (hlast : EditsArgument turns x line line₁) (hinner : EditsArgument (TurnsInner x new) x line₁ line₂)
    : line₂ = line ↔ x ∉ arguments line := by
  constructor
  . rintro rfl
    have hlast := hturns _ _ hlast.turns
    have hinner := hinner.turns.eq_or_count_lt hnew
    rw [mem_iff_dropLast]
    rcases hlast with ⟨heq, hlast⟩ | hlast
    . rw [heq] at hinner
      rcases hinner with ⟨_, hinner⟩ | hinner
      . tauto
      . omega
    . rcases hinner with ⟨heq, _⟩ | hinner
      . rw [heq] at hlast
        omega
      . omega
  . intro hmem
    have heq := hlast.eq_self hmem
    rw [heq] at hinner
    exact hinner.eq_self hmem

end Fixed

theorem replaceArgument_self (line x : Text) : replaceArgument line x x = line := by
  have hfinal : ∀ s t rest, replaceFinal? x x s = some (t, rest) → t ++ rest = s := by
    intro s t rest h
    unfold replaceFinal? at h
    split at h
    . next gap rest' hread =>
      obtain ⟨_, rfl⟩ := readArgument?_eq_some_iff.mp hread
      split at h
      . cases h
        rfl
      . contradiction
    . contradiction
  have hinner : ∀ s t rest, replaceInner? x x s = some (t, rest) → t ++ rest = s := by
    intro s t rest h
    obtain ⟨gap, gap', _, _, rfl, rfl⟩ :=
      (inner_eq_some_iff (fun gap gap' => gap :: x ++ [gap']) (fun _ => rfl) s t rest).mp h
    simp
  unfold replaceArgument
  split
  . rfl
  . rw [replaceFirst_of_append hfinal, replaceFirst_of_append hinner]

section Twice

variable {line x : Text} (hline : '\n' ∉ line) (hx : IsWord x)

include hline hx

theorem dropArgument_eq_self_iff : dropArgument line x = line ↔ x ∉ arguments line := by
  obtain ⟨line₁, hlast, hinner⟩ := exists_editsArgument_dropArgument hx hline
  exact edits_eq_self_iff (by simp) (fun _ _ h => h.eq_or_count_lt) hlast hinner

theorem replaceArgument_eq_self_iff {y : Text} (hy : IsWord y) (hne : x ≠ y)
    : replaceArgument line x y = line ↔ x ∉ arguments line := by
  obtain ⟨line₁, hlast, hinner⟩ := exists_editsArgument_replaceArgument hx hline hy
  exact edits_eq_self_iff (by simpa using hne) (fun _ _ h => h.eq_or_count_lt hne) hlast hinner

theorem dropArgument_twice_iff
    : dropArgument (dropArgument line x) x = dropArgument line x ↔
        (arguments line).dropLast.count x ≤ 1 ∧
          ¬ [x, x] <:+ (arguments line).filter (!·.isEmpty) := by
  obtain ⟨line₁, hlast, hinner⟩ := exists_editsArgument_dropArgument hx hline
  have hline' := hinner.isLine (hlast.isLine hline)
  rw [dropArgument_eq_self_iff hline' hx, mem_dropped_iff hx.ne_nil hlast.turns hinner.turns, not_or,
    Nat.not_le, Nat.lt_succ_iff]

theorem replaceArgument_twice_iff {y : Text} (hy : IsWord y)
    : replaceArgument (replaceArgument line x y) x y = replaceArgument line x y ↔
        x = y ∨ (arguments line).dropLast.count x ≤ 1 := by
  by_cases hne : x = y
  . simp [hne, replaceArgument_self]
  . obtain ⟨line₁, hlast, hinner⟩ := exists_editsArgument_replaceArgument hx hline hy
    have hline' := hinner.isLine (hlast.isLine hline)
    rw [replaceArgument_eq_self_iff hline' hx hy hne, mem_replaced_iff hne hlast.turns hinner.turns,
      Nat.not_le, Nat.lt_succ_iff, or_iff_right hne]

end Twice

theorem addWith_of_occursIn {line addon : Text} (h : occursIn addon line = true)
    : addWith line addon = line := by
  unfold addWith
  rw [if_pos h]

theorem addWith_cases (line addon : Text)
    : addWith line addon = line ∨ occursIn addon (addWith line addon) = true := by
  rw [occursIn_iff]
  unfold addWith
  split
  . exact .inl rfl
  . split
    . exact .inr (List.suffix_append _ addon).isInfix
    . have hrun := replacesFirst_replaceFirst (prependAddon? addon) line
      generalize line.replaceFirst (prependAddon? addon) = line' at hrun
      cases hrun with
      | nowhere _ => exact .inl rfl
      | @place front s new rest hplace _ =>
        right
        obtain ⟨flag, _, heq⟩ := Option.map_eq_some_iff.mp hplace
        cases heq
        exact ⟨front ++ flag.gap :: ("--with=" : Text), "," ++ flag.list ++ flag.afterList, by simp⟩

theorem addWith_twice (line addon : Text)
    : addWith (addWith line addon) addon = addWith line addon := by
  cases addWith_cases line addon with
  | inl h => rw [h, h]
  | inr h => exact addWith_of_occursIn h

theorem isSeparator_of_isWord {addon : Text} (haddon : IsWord addon) (hcomma : ',' ∉ addon)
    (hequals : '=' ∉ addon) : ∀ c ∈ addon, isSeparator c = false := by
  intro c hc
  have hne : c ≠ ',' := by
    rintro rfl
    exact hcomma hc
  have hne' : c ≠ '=' := by
    rintro rfl
    exact hequals hc
  simp [isSeparator, haddon.notBlank c hc, hne, hne']

theorem dropWith_twice_of_standsOnce {line addon : Text} (haddon : IsWord addon) (hcomma : ',' ∉ addon)
    (hequals : '=' ∉ addon) (honce : StandsOnce addon line)
    : dropWith (dropWith line addon) addon = dropWith line addon := by
  rw [dropWith_eq, dropWith_eq]
  exact replaceEach_twice_of_standsOnce (fun _ h => isCut_of_mem_removals h) haddon.ne_nil
    (isSeparator_of_isWord haddon hcomma hequals) honce

/-- An edit of a line runs a second time without a change if an add-on is added; if one is dropped and is
listed nowhere after that, as when the line mentions it once; and if an argument is dropped or replaced that
the first run, which takes the last argument and one in front of it, did not leave over. -/
theorem edit_twice_iff {line x y : Text} (hline : '\n' ∉ line) (hx : IsWord x) (hy : IsWord y)
    : addWith (addWith line x) x = addWith line x ∧
        (dropWith (dropWith line x) x = dropWith line x ↔ ¬ ListsAddon x (dropWith line x)) ∧
        (',' ∉ x → '=' ∉ x → StandsOnce x line → dropWith (dropWith line x) x = dropWith line x) ∧
        (dropArgument (dropArgument line x) x = dropArgument line x ↔
          (arguments line).dropLast.count x ≤ 1 ∧
            ¬ [x, x] <:+ (arguments line).filter (!·.isEmpty)) ∧
        (replaceArgument (replaceArgument line x y) x y = replaceArgument line x y ↔
          x = y ∨ (arguments line).dropLast.count x ≤ 1) := by
  refine ⟨addWith_twice line x, ?_, ?_, dropArgument_twice_iff hline hx,
    replaceArgument_twice_iff hline hx hy⟩
  . exact dropWith_eq_self_iff (not_mem_newline_dropWith hline x) hx.ne_nil
  . exact dropWith_twice_of_standsOnce hx

theorem edit_twice_iff_repeated
    : (∃ line x y : Text, line = "dh foo foo foo --with=foo,foo" ∧ x = "foo" ∧ y = "bar" ∧
        addWith (addWith line x) x = addWith line x ∧ dropWith (dropWith line x) x ≠ dropWith line x ∧
        dropArgument (dropArgument line x) x ≠ dropArgument line x ∧
        replaceArgument (replaceArgument line x y) x y ≠ replaceArgument line x y) ∧
      ∃ line x : Text, line = "dh $@ --with=bar,foo" ∧ x = "foo" ∧
        dropWith (dropWith line x) x = dropWith line x := by
  have hx : IsWord ("foo" : Text) := ⟨by decide, List.all_iff_forall_prop.mp (by decide)⟩
  have hy : IsWord ("bar" : Text) := ⟨by decide, List.all_iff_forall_prop.mp (by decide)⟩
  constructor
  . have hline : '\n' ∉ ("dh foo foo foo --with=foo,foo" : Text) := by decide
    obtain ⟨hadd, hwith, _, hdrop, hreplace⟩ := edit_twice_iff hline hx hy
    refine ⟨_, _, _, rfl, rfl, rfl, hadd, ?_, ?_, ?_⟩
    . rw [Ne, hwith, not_not]
      have heq : dropWith "dh foo foo foo --with=foo,foo" "foo" = "dh foo foo foo --with=foo" := by decide +kernel
      rw [heq]
      exact ⟨" --with=foo", ⟨' ', '=', "foo"⟩, by decide, by decide, .sole⟩
    . rw [Ne, hdrop]
      decide +kernel
    . rw [Ne, hreplace]
      decide +kernel
  . have hline : '\n' ∉ ("dh $@ --with=bar,foo" : Text) := by decide
    obtain ⟨_, _, honce, _, _⟩ := edit_twice_iff hline hx hy
    exact ⟨_, _, rfl, rfl, honce (by decide) (by decide) (by decide +kernel)⟩

end DhCommand

end DebianPackaging
