import Mathlib.Data.Bool.AllAny
import DebianPackaging.Version.Project
import DebianPackaging.Proofs.Text.Blank
import DebianPackaging.Proofs.Text.Replace

/-!
This module contains what becomes of the letters and digits of a project's version when it is turned into
one that sorts well. The separators may change, and what stands behind the last stage is left out.
-/

namespace DebianPackaging.ProjectVersion

open Text

def shortStages : List Text := ["a", "b", "rc"]

/-- A text starts with a number behind a dot, a stage and the number of the stage, and goes on with
`rest`. -/
inductive StartsWithStage : (t rest : Text) → Prop where
  | mk {d : Char} {stage number rest : Text} (hd : d.isDigit = true) (hstage : stage ∈ shortStages)
    (hnumber : ∀ c ∈ number, c.isDigit = true) (hrest : StopsAt Char.isDigit rest)
    : StartsWithStage ('.' :: d :: (stage ++ (number ++ rest))) rest

def separate (version : Text) : Text :=
  let underscores := version.count '_'
  let dots := version.count '.'
  let version :=
    if underscores = 1 ∧ 1 < dots then version.filter (· != '_')
    else if 0 < underscores ∧ dots = 0 then version.map fun c => if c = '_' then '.' else c
    else version
  stages.foldl (fun v stage => tildeBefore stage v) version

theorem debianize_eq (version : Text)
    : debianize version
        =
      match cutLine? dottedStage? (separate version) with
      | some (front, digit, stage, number) => front ++ '.' :: digit :: '~' :: stage ++ number
      | none => separate version := rfl

section Stage

theorem dottedStage?_of_stage {d : Char} {stage number rest : Text} (hd : d.isDigit = true)
    (hstage : stage ∈ shortStages) (hnumber : ∀ c ∈ number, c.isDigit = true)
    (hrest : StopsAt Char.isDigit rest)
    : dottedStage? ('.' :: d :: (stage ++ (number ++ rest))) = some (d, stage, number) := by
  have htake := takeWhile_append_of_stopsAt hnumber hrest
  simp only [shortStages, List.mem_cons, List.not_mem_nil, or_false] at hstage
  rcases hstage with rfl | rfl | rfl <;> simp [dottedStage?, hd, after?, htake]

theorem StartsWithStage.isSome {t rest : Text} (h : StartsWithStage t rest)
    : ∃ b, dottedStage? t = some b := by
  cases h with
  | mk hd hstage hnumber hrest => exact ⟨_, dottedStage?_of_stage hd hstage hnumber hrest⟩

theorem StartsWithStage.eq_rest {t rest rest' : Text} (h : StartsWithStage t rest)
    (h' : StartsWithStage t rest') : rest = rest' := by
  cases h with
  | mk hd hstage hnumber hrest =>
    have hread := dottedStage?_of_stage hd hstage hnumber hrest
    generalize ht : '.' :: _ = t at h' hread
    cases h' with
    | mk hd' hstage' hnumber' hrest' =>
      rw [dottedStage?_of_stage hd' hstage' hnumber' hrest'] at hread
      cases hread
      simpa using ht

theorem exists_of_dottedStage? {t stage number : Text} {d : Char}
    (h : dottedStage? t = some (d, stage, number))
    : ∃ rest, t = '.' :: d :: (stage ++ (number ++ rest)) ∧ StartsWithStage t rest := by
  unfold dottedStage? at h
  split at h
  . next d' u =>
    split at h
    . cases h
    . next hd =>
      obtain ⟨stage', hstage, hread⟩ := List.exists_of_findSome?_eq_some h
      obtain ⟨rest, hafter, heq⟩ := Option.map_eq_some_iff.mp hread
      rw [after?_eq_some_iff] at hafter
      cases heq
      have hnumber : ∀ c ∈ rest.takeWhile Char.isDigit, c.isDigit = true := fun c => of_mem_takeWhile
      have hstage := StartsWithStage.mk (by simpa using hd) hstage hnumber (stopsAt_dropWhile _ rest)
      rw [List.takeWhile_append_dropWhile, ← hafter] at hstage
      refine ⟨_, ?_, hstage⟩
      rw [List.takeWhile_append_dropWhile, hafter]
  . cases h

theorem StartsWithStage.isSuffix {t rest : Text} (h : StartsWithStage t rest)
    : rest <:+ t ∧ rest.length < t.length := by
  cases h with
  | @mk d stage number rest _ _ _ _ =>
    constructor
    . exact ⟨'.' :: d :: (stage ++ number), by simp⟩
    . simp only [List.length_cons, List.length_append]
      omega

theorem StartsWithStage.suffix {t rest s : Text} (h : StartsWithStage t rest) (hs : s <:+ t) (hne : s ≠ t)
    (hdot : s.head? = some '.') : s <:+ rest := by
  cases h with
  | @mk d stage number rest hd hstage hnumber _ =>
    have hnotDot : ∀ c ∈ d :: (stage ++ number), (c != '.') = true := by
      have hdigit : ∀ c : Char, c.isDigit = true → (c != '.') = true := by
        rintro c hc
        rw [bne_iff_ne]
        rintro rfl
        cases hc
      simp only [shortStages, List.mem_cons, List.not_mem_nil, or_false] at hstage
      rw [List.forall_mem_cons, List.forall_mem_append]
      refine ⟨hdigit d hd, ?_, fun c hc => hdigit c (hnumber c hc)⟩
      rcases hstage with rfl | rfl | rfl
      all_goals exact List.all_iff_forall_prop.mp (by decide)
    rcases List.suffix_cons_iff.mp hs with heq | hs
    . contradiction
    . apply suffix_of_stopsAt hnotDot
      . intro c hc
        rw [hdot] at hc
        cases hc
        rfl
      . simpa using hs

end Stage

section Separate

theorem mem_tildeBefore {stage t : Text} {c : Char} (h : c ∈ tildeBefore stage t) : c ∈ t ∨ c = '~' := by
  induction t with
  | nil => cases h
  | cons d t ih =>
    unfold tildeBefore at h
    rw [List.mem_cons] at h ⊢
    cases h with
    | inl h =>
      split at h
      . exact .inr h
      . exact .inl (.inl h)
    | inr h => exact (ih h).imp_left .inr

theorem filter_tildeBefore (stage t : Text)
    : (tildeBefore stage t).filter Char.isAlphanum = t.filter Char.isAlphanum := by
  induction t with
  | nil => rfl
  | cons c t ih =>
    unfold tildeBefore
    split
    . next h =>
      rw [Bool.and_eq_true, decide_eq_true_eq] at h
      rw [h.1]
      exact ih
    . rw [List.filter_cons, ih, ← List.filter_cons]

theorem filter_foldl_tildeBefore (stages : List Text) (t : Text)
    : (stages.foldl (fun v stage => tildeBefore stage v) t).filter Char.isAlphanum
        =
      t.filter Char.isAlphanum := by
  induction stages generalizing t with
  | nil => rfl
  | cons stage stages ih =>
    rw [List.foldl_cons, ih, filter_tildeBefore]

theorem mem_foldl_tildeBefore {stages : List Text} {t : Text} {c : Char}
    (h : c ∈ stages.foldl (fun v stage => tildeBefore stage v) t) : c ∈ t ∨ c = '~' := by
  induction stages generalizing t with
  | nil => exact .inl h
  | cons stage stages ih =>
    rcases ih h with h | h
    . exact mem_tildeBefore h
    . exact .inr h

theorem filter_map_dot (t : Text)
    : (t.map fun c => if c = '_' then '.' else c).filter Char.isAlphanum
        =
      t.filter Char.isAlphanum := by
  induction t with
  | nil => rfl
  | cons c t ih =>
    by_cases hc : c = '_'
    . rw [hc]
      exact ih
    . rw [List.map_cons, if_neg hc, List.filter_cons, ih, ← List.filter_cons]

theorem filter_separate (version : Text)
    : (separate version).filter Char.isAlphanum = version.filter Char.isAlphanum := by
  unfold separate
  dsimp only
  rw [filter_foldl_tildeBefore]
  split
  . rw [List.filter_filter]
    apply List.filter_congr
    intro c _
    by_cases hc : c = '_'
    . rw [hc]
      rfl
    . simp [hc]
  . split
    . exact filter_map_dot version
    . rfl

theorem not_mem_separate {version : Text} (h : '\n' ∉ version) : '\n' ∉ separate version := by
  intro hmem
  unfold separate at hmem
  rcases mem_foldl_tildeBefore hmem with hmem | heq
  . split at hmem
    . exact h (List.mem_filter.mp hmem).1
    . split at hmem
      . obtain ⟨c, hc, heq⟩ := List.mem_map.mp hmem
        split at heq
        . cases heq
        . exact h (heq ▸ hc)
      . exact h hmem
  . cases heq

end Separate

theorem debianize_cases {version : Text} (h : '\n' ∉ version)
    : (debianize version = separate version ∧
          ∀ s rest, s <:+ separate version → ¬ StartsWithStage s rest) ∨
        ∃ front d stage number rest,
          debianize version = front ++ '.' :: d :: '~' :: stage ++ number ∧
            separate version = front ++ '.' :: d :: (stage ++ (number ++ rest)) ∧
            StartsWithStage ('.' :: d :: (stage ++ (number ++ rest))) rest ∧
            ∀ s rest', s <:+ separate version → StartsWithStage s rest' →
              ('.' :: d :: (stage ++ (number ++ rest))).length ≤ s.length := by
  have hline := not_mem_separate h
  rw [debianize_eq, cutLine?_eq_cutLast? hline]
  cases hcut : cutLast? dottedStage? (separate version) with
  | none =>
    left
    refine ⟨rfl, ?_⟩
    rintro s rest ⟨front, heq⟩ hstage
    obtain ⟨b, hb⟩ := hstage.isSome
    rw [← heq] at hline hcut
    obtain ⟨_, _, hcut', _⟩ := exists_cutLast? hline hb
    rw [hcut] at hcut'
    cases hcut'
  | some cut =>
    obtain ⟨front, d, stage, number⟩ := cut
    obtain ⟨s, heq, hs⟩ := exists_of_cutLast? hcut
    obtain ⟨rest, rfl, hstage⟩ := exists_of_dottedStage? hs
    right
    refine ⟨front, d, stage, number, rest, rfl, heq, hstage, ?_⟩
    rintro s rest' ⟨front', heq'⟩ hstage'
    obtain ⟨b, hb⟩ := hstage'.isSome
    have hlength := congrArg List.length (heq'.trans heq)
    rw [← heq'] at hline hcut
    have hle := length_le_of_cutLast? hline hb hcut
    rw [List.length_append, List.length_append] at hlength
    omega

/-- The letters and digits of a version stay in order, and some are lost from the end if and only if
letters or digits stand behind the last stage, that is, behind a stage that no other one follows. -/
theorem alphanumerics_debianize_iff (version : Text) (h : '\n' ∉ version)
    : (debianize version).filter Char.isAlphanum <+: version.filter Char.isAlphanum ∧
        ((debianize version).filter Char.isAlphanum = version.filter Char.isAlphanum ↔
          ∀ s rest, s <:+ separate version → StartsWithStage s rest →
            (∃ c ∈ rest, c.isAlphanum = true) →
              ∃ s' rest', s' <:+ rest ∧ StartsWithStage s' rest') := by
  rw [← filter_separate version]
  rcases debianize_cases h with ⟨heq, hnone⟩ | ⟨front, d, stage, number, rest, heq, hcut, hstage, hlast⟩
  . rw [heq]
    refine ⟨List.prefix_refl _, iff_of_true rfl ?_⟩
    intro s rest hs hstage
    exact absurd hstage (hnone s rest hs)
  . have hkept : (separate version).filter Char.isAlphanum
        = (debianize version).filter Char.isAlphanum ++ rest.filter Char.isAlphanum := by
      have htilde : Char.isAlphanum '~' = false := rfl
      rw [hcut, heq]
      cases hd : d.isAlphanum <;> simp [htilde, hd]
    rw [hkept]
    refine ⟨List.prefix_append _ _, ?_⟩
    rw [List.self_eq_append_right, List.filter_eq_nil_iff]
    generalize '.' :: d :: (stage ++ (number ++ rest)) = t at hcut hstage hlast
    have hsuffix : t <:+ separate version := ⟨front, hcut.symm⟩
    constructor
    . intro hrest s rest' hs hstage' hmem
      refine ⟨t, rest, ?_, hstage⟩
      apply hstage'.suffix (List.suffix_of_suffix_length_le hsuffix hs (hlast s rest' hs hstage'))
      . rintro rfl
        obtain ⟨c, hc, halnum⟩ := hmem
        rw [← hstage.eq_rest hstage'] at hc
        exact hrest c hc halnum
      . cases hstage
        rfl
    . intro hfollowed c hc halnum
      obtain ⟨s', rest', hs', hstage'⟩ := hfollowed t rest hsuffix hstage ⟨c, hc, halnum⟩
      have hrest := hstage.isSuffix
      have hle := hlast s' rest' (hs'.trans (hrest.1.trans hsuffix)) hstage'
      have := hs'.length_le
      have := hrest.2
      omega

/-- What is left of a long name behind the short one that it starts with is lost. -/
theorem alphanumerics_debianize_iff_alpha
    : '\n' ∉ ("1.0alpha1" : Text) ∧
        (debianize "1.0alpha1").filter Char.isAlphanum ≠ ("1.0alpha1" : Text).filter Char.isAlphanum := by
  refine ⟨by decide, ?_⟩
  rw [ne_eq, (alphanumerics_debianize_iff "1.0alpha1" (by decide)).2]
  intro hfollowed
  have hrest : StopsAt Char.isDigit ['l', 'p', 'h', 'a', '1'] := by
    rw [stopsAt_cons]
    rfl
  have hstage := @StartsWithStage.mk '0' ['a'] [] ['l', 'p', 'h', 'a', '1'] rfl (by decide) (by simp) hrest
  obtain ⟨s, rest, hs, hstage'⟩ := hfollowed _ _ ⟨['1'], rfl⟩ hstage ⟨'1', by simp, rfl⟩
  cases hstage' with
  | mk _ _ _ _ =>
    have := hs.subset List.mem_cons_self
    simp at this

end DebianPackaging.ProjectVersion
