import DebianPackaging.Text.Basic

/-!
This module contains what an edit of the first place at which it applies does to a text, and the last place
at which a text can be cut. A row of edits that take something out of a text leaves the text alone only if
none of them applies.
-/

namespace DebianPackaging

namespace Text

theorem startsWith_iff {t lit : Text} : startsWith t lit = true ↔ lit <+: t := by
  unfold startsWith
  rw [Option.isSome_iff_exists]
  simp only [after?_eq_some_iff]
  constructor
  . rintro ⟨rest, h⟩
    exact ⟨rest, h.symm⟩
  . rintro ⟨rest, h⟩
    exact ⟨rest, h.symm⟩

theorem occursIn_iff {sub t : Text} : occursIn sub t = true ↔ sub <:+: t := by
  induction t with
  | nil => simp [occursIn]
  | cons c t ih => rw [occursIn, Bool.or_eq_true, startsWith_iff, ih, List.infix_cons_iff]

theorem isEnd_iff {t : Text} (h : '\n' ∉ t) : isEnd t = true ↔ t = [] := by
  unfold isEnd
  rw [Bool.or_eq_true, beq_iff_eq, beq_iff_eq]
  constructor
  . rintro (rfl | rfl)
    . rfl
    . simp at h
  . exact .inl

inductive ReplacesFirst (edit : Text → Option (Text × Text)) : (t t' : Text) → Prop where
  | nowhere {t : Text} (h : ∀ s, s <:+ t → edit s = none) : ReplacesFirst edit t t
  | place {front s new rest : Text} (h : edit s = some (new, rest))
      (hfirst : ∀ a b, front = a ++ b → b ≠ [] → edit (b ++ s) = none)
      : ReplacesFirst edit (front ++ s) (front ++ (new ++ rest))

theorem replacesFirst_replaceFirst (edit : Text → Option (Text × Text)) (t : Text)
    : ReplacesFirst edit t (replaceFirst edit t) := by
  induction t with
  | nil =>
    unfold replaceFirst
    split
    . next h => exact @ReplacesFirst.place edit [] _ _ _ h (by simp)
    . next h =>
      apply ReplacesFirst.nowhere
      intro s hs
      rwa [List.suffix_nil.mp hs]
  | cons c t ih =>
    unfold replaceFirst
    split
    . next h => exact @ReplacesFirst.place edit [] _ _ _ h (by simp)
    . next h =>
      generalize replaceFirst edit t = t' at ih
      cases ih with
      | nowhere hnone =>
        apply ReplacesFirst.nowhere
        intro s hs
        cases List.suffix_cons_iff.mp hs with
        | inl hs => rwa [hs]
        | inr hs => exact hnone s hs
      | @place front s new rest hplace hfirst =>
        apply @ReplacesFirst.place edit (c :: front) _ _ _ hplace
        intro a b heq hb
        cases a with
        | nil =>
          rw [List.nil_append] at heq
          rw [← heq]
          exact h
        | cons d a =>
          cases heq
          exact hfirst a b rfl hb

theorem replaceFirst_of_forall {edit : Text → Option (Text × Text)} {t : Text}
    (h : ∀ s, s <:+ t → edit s = none) : replaceFirst edit t = t := by
  have hrun := replacesFirst_replaceFirst edit t
  generalize replaceFirst edit t = t' at hrun
  cases hrun with
  | nowhere _ => rfl
  | @place front s _ _ hplace _ =>
    rw [h s (List.suffix_append front s)] at hplace
    contradiction

theorem replaceFirst_of_append {edit : Text → Option (Text × Text)}
    (h : ∀ s new rest, edit s = some (new, rest) → new ++ rest = s) (t : Text)
    : replaceFirst edit t = t := by
  have hrun := replacesFirst_replaceFirst edit t
  generalize replaceFirst edit t = t' at hrun
  cases hrun with
  | nowhere _ => rfl
  | place hplace _ => rw [h _ _ _ hplace]

theorem replaceFirst_append {edit : Text → Option (Text × Text)} {front s new rest : Text}
    (hs : edit s = some (new, rest)) (h : ∀ a b, front = a ++ b → b ≠ [] → edit (b ++ s) = none)
    : replaceFirst edit (front ++ s) = front ++ (new ++ rest) := by
  induction front with
  | nil => cases s <;> simp [replaceFirst, hs]
  | cons c front ih =>
    have hnone : edit (c :: (front ++ s)) = none := h [] (c :: front) rfl (by simp)
    rw [List.cons_append]
    unfold replaceFirst
    rw [hnone, ih]
    . rfl
    . rintro a b rfl hb
      exact h (c :: a) b rfl hb

/-- A text loses a part that holds `x`. What comes together meets at a character that satisfies `p`, unless
the part was at the end. -/
inductive Cuts (p : Char → Bool) (x : Text) : (t t' : Text) → Prop where
  | mk {front gone behind : Text} (hgone : x <:+: gone)
      (hseam : behind = [] ∨ (∃ c ∈ behind.head?, p c = true) ∨ ∃ c ∈ front.getLast?, p c = true)
      : Cuts p x (front ++ gone ++ behind) (front ++ behind)

namespace Cuts

variable {p : Char → Bool} {x t t' : Text}

theorem append (h : Cuts p x t t') (front : Text) : Cuts p x (front ++ t) (front ++ t') := by
  cases h with
  | @mk before gone behind hgone hseam =>
    rw [List.append_assoc, ← List.append_assoc, ← List.append_assoc, ← List.append_assoc]
    apply Cuts.mk hgone
    apply hseam.imp_right
    apply Or.imp_right
    rintro ⟨c, hc, hp⟩
    refine ⟨c, ?_, hp⟩
    rw [Option.mem_def] at hc ⊢
    rw [List.getLast?_append, hc]
    rfl

theorem length_lt (h : Cuts p x t t') (hx : x ≠ []) : t'.length < t.length := by
  cases h with
  | mk hgone _ =>
    have hlength := hgone.length_le
    have := List.length_pos_iff.mpr hx
    simp only [List.length_append]
    omega

theorem sublist (h : Cuts p x t t') : t'.Sublist t := by
  cases h with
  | @mk front gone behind _ _ =>
    rw [List.append_assoc]
    apply List.Sublist.append_left
    exact List.sublist_append_right gone behind

theorem isInfix (h : Cuts p x t t') : x <:+: t := by
  cases h with
  | @mk front gone behind hgone _ => exact hgone.trans (List.infix_append front gone behind)

end Cuts

/-- There is at most one place at which `x` stands in a text. -/
def StandsOnce (x t : Text) : Prop :=
  ∀ a b a' b', t = a ++ x ++ b → t = a' ++ x ++ b' → a.length = a'.length

theorem standsOnce_iff {x t : Text}
    : StandsOnce x t ↔
      ∀ m ≤ t.length, ∀ n ≤ t.length, x <+: t.drop m → x <+: t.drop n → m = n := by
  constructor
  . rintro honce m hm n hn ⟨b, hb⟩ ⟨b', hb'⟩
    have heq : ∀ {k : Nat} {rest : Text}, x ++ rest = t.drop k → t = t.take k ++ x ++ rest := by
      intro k rest h
      rw [List.append_assoc, h, List.take_append_drop]
    have := honce _ _ _ _ (heq hb) (heq hb')
    rwa [List.length_take_of_le hm, List.length_take_of_le hn] at this
  . rintro h a b a' b' rfl heq
    have hdrop : ∀ {front behind : Text}, a ++ x ++ b = front ++ x ++ behind
        → front.length ≤ (a ++ x ++ b).length ∧ x <+: (a ++ x ++ b).drop front.length := by
      intro front behind h
      rw [h]
      simp
    exact h _ (hdrop rfl).1 _ (hdrop heq).1 (hdrop rfl).2 (hdrop heq).2

instance (x t : Text) : Decidable (StandsOnce x t) :=
  decidable_of_iff _ standsOnce_iff.symm

theorem StandsOnce.not_isInfix {x a b : Text} (hx : x ≠ []) (h : StandsOnce x (a ++ x ++ b))
    : ¬ x <:+: a ∧ ¬ x <:+: b := by
  have hlength := List.length_pos_iff.mpr hx
  constructor
  . rintro ⟨c, d, rfl⟩
    have := h (c ++ x ++ d) b c (d ++ x ++ b) rfl (by simp)
    simp only [List.length_append] at this
    omega
  . rintro ⟨c, d, rfl⟩
    have := h a (c ++ x ++ d) (a ++ x ++ c) d rfl (by simp)
    simp only [List.length_append] at this
    omega

theorem Cuts.not_isInfix {p : Char → Bool} {x t t' : Text} (h : Cuts p x t t') (hx : x ≠ [])
    (hp : ∀ c ∈ x, p c = false) (honce : StandsOnce x t) : ¬ x <:+: t' := by
  cases h with
  | @mk front gone behind hgone hseam =>
    obtain ⟨left, right, rfl⟩ := hgone
    have hparts : front ++ (left ++ x ++ right) ++ behind = (front ++ left) ++ x ++ (right ++ behind) := by
      simp
    rw [hparts] at honce
    have hnot := honce.not_isInfix hx
    have hfront : ¬ x <:+: front := fun h => hnot.1 (h.trans (List.prefix_append front left).isInfix)
    have hbehind : ¬ x <:+: behind := fun h => hnot.2 (h.trans (List.suffix_append right behind).isInfix)
    rw [List.infix_append_iff]
    rintro (h | h | ⟨x₁, x₂, rfl, h₁, h₂⟩)
    . exact hfront h
    . exact hbehind h
    . -- `x` would go on across the seam with its parts `x₁` and `x₂`
      have hne₁ : x₁ ≠ [] := by
        rintro rfl
        exact hbehind h₂.isInfix
      have hne₂ : x₂ ≠ [] := by
        rintro rfl
        rw [List.append_nil] at hfront
        exact hfront h₁.isInfix
      rcases hseam with rfl | ⟨c, hc, hpc⟩ | ⟨c, hc, hpc⟩
      . exact hne₂ (List.prefix_nil.mp h₂)
      . obtain ⟨d, x₂, rfl⟩ := List.exists_cons_of_ne_nil hne₂
        obtain ⟨b, rfl⟩ := h₂
        obtain rfl : d = c := by simpa using hc
        rw [hp d (by simp)] at hpc
        contradiction
      . obtain ⟨a, rfl⟩ := h₁
        have hc : x₁.getLast? = some c := by
          rwa [Option.mem_def, List.getLast?_append, List.getLast?_eq_some_getLast hne₁, Option.some_or,
            ← List.getLast?_eq_some_getLast hne₁] at hc
        rw [hp c (by simp [List.mem_of_getLast? hc])] at hpc
        contradiction

/-- An edit takes `x` out of each text to which it applies, with a seam that satisfies `p`. -/
def IsCut (p : Char → Bool) (x : Text) (edit : Text → Option (Text × Text)) : Prop :=
  ∀ s new rest, edit s = some (new, rest) → Cuts p x s (new ++ rest)

def replaceEach (edits : List (Text → Option (Text × Text))) (t : Text) : Text :=
  edits.foldl (fun t edit => replaceFirst edit t) t

section Cut

variable {p : Char → Bool} {x : Text}

theorem IsCut.replaceFirst_cases {edit : Text → Option (Text × Text)} (h : IsCut p x edit) (t : Text)
    : (replaceFirst edit t = t ∧ ∀ s, s <:+ t → edit s = none) ∨ Cuts p x t (replaceFirst edit t) := by
  have hrun := replacesFirst_replaceFirst edit t
  generalize replaceFirst edit t = t' at hrun
  cases hrun with
  | nowhere hnone => exact .inl ⟨rfl, hnone⟩
  | place hplace _ => exact .inr ((h _ _ _ hplace).append _)

variable {edits : List (Text → Option (Text × Text))} (hedits : ∀ edit ∈ edits, IsCut p x edit)

include hedits

theorem replaceEach_of_not_isInfix {t : Text} (h : ¬ x <:+: t) : replaceEach edits t = t := by
  induction edits with
  | nil => rfl
  | cons edit edits ih =>
    rw [List.forall_mem_cons] at hedits
    change replaceEach edits (replaceFirst edit t) = t
    cases hedits.1.replaceFirst_cases t with
    | inl heq => rw [heq.1, ih hedits.2]
    | inr hcut => exact absurd hcut.isInfix h

theorem replaceEach_sublist (t : Text) : (replaceEach edits t).Sublist t := by
  induction edits generalizing t with
  | nil => exact List.Sublist.refl t
  | cons edit edits ih =>
    rw [List.forall_mem_cons] at hedits
    apply (ih hedits.2 (replaceFirst edit t)).trans
    cases hedits.1.replaceFirst_cases t with
    | inl heq => simp [heq.1]
    | inr hcut => exact hcut.sublist

theorem replaceEach_eq_self_iff (hx : x ≠ []) (t : Text)
    : replaceEach edits t = t ↔ ∀ edit ∈ edits, ∀ s, s <:+ t → edit s = none := by
  induction edits with
  | nil => simp [replaceEach]
  | cons edit edits ih =>
    rw [List.forall_mem_cons] at hedits ⊢
    change replaceEach edits (replaceFirst edit t) = t ↔ _
    cases hedits.1.replaceFirst_cases t with
    | inl heq =>
      rw [heq.1, ih hedits.2]
      exact (and_iff_right heq.2).symm
    | inr hcut =>
      constructor
      . -- the text has got shorter, and no later edit makes it longer
        intro h
        have hlt := hcut.length_lt hx
        have hle := (replaceEach_sublist hedits.2 (replaceFirst edit t)).length_le
        rw [h] at hle
        omega
      . rintro ⟨hnone, _⟩
        rw [replaceFirst_of_forall hnone] at hcut
        exact absurd (hcut.length_lt hx) (Nat.lt_irrefl _)

theorem replaceEach_twice_of_standsOnce (hx : x ≠ []) (hp : ∀ c ∈ x, p c = false) {t : Text}
    (honce : StandsOnce x t) : replaceEach edits (replaceEach edits t) = replaceEach edits t := by
  -- the first cut takes the only `x` with it, so no later edit and no second run finds one
  have hcases : replaceEach edits t = t ∨ ¬ x <:+: replaceEach edits t := by
    induction edits with
    | nil => exact .inl rfl
    | cons edit edits ih =>
      rw [List.forall_mem_cons] at hedits
      change replaceEach edits (replaceFirst edit t) = t ∨ ¬ x <:+: replaceEach edits (replaceFirst edit t)
      cases hedits.1.replaceFirst_cases t with
      | inl heq =>
        rw [heq.1]
        exact ih hedits.2
      | inr hcut =>
        have hnot := hcut.not_isInfix hx hp honce
        right
        rwa [replaceEach_of_not_isInfix hedits.2 hnot]
  cases hcases with
  | inl heq => rw [heq, heq]
  | inr hnot => exact replaceEach_of_not_isInfix hedits hnot

end Cut

section Last

variable {p : Text → Option β}

theorem exists_of_cutLast? {t a : Text} {b : β} (h : cutLast? p t = some (a, b))
    : ∃ s, t = a ++ s ∧ p s = some b := by
  induction t generalizing a with
  | nil =>
    obtain ⟨b', hb', heq⟩ := Option.map_eq_some_iff.mp h
    cases heq
    exact ⟨[], rfl, hb'⟩
  | cons c t ih =>
    unfold cutLast? at h
    dsimp only at h
    rw [Option.or_eq_some_iff] at h
    rcases h with h | ⟨_, h⟩
    . split at h
      . contradiction
      . obtain ⟨⟨a', b'⟩, hcut, heq⟩ := Option.map_eq_some_iff.mp h
        cases heq
        obtain ⟨s, rfl, hs⟩ := ih hcut
        exact ⟨s, rfl, hs⟩
    . obtain ⟨b', hb', heq⟩ := Option.map_eq_some_iff.mp h
      cases heq
      exact ⟨c :: t, rfl, hb'⟩

theorem exists_cutLast? {front s : Text} {b : β} (hline : '\n' ∉ front ++ s) (h : p s = some b)
    : ∃ a b', cutLast? p (front ++ s) = some (a, b') ∧ front.length ≤ a.length := by
  induction front with
  | nil =>
    cases s with
    | nil => exact ⟨[], b, by simp [cutLast?, h], Nat.le_refl _⟩
    | cons c t =>
      rw [List.nil_append]
      unfold cutLast?
      dsimp only
      rw [h]
      generalize (if c = '\n' then none else (cutLast? p t).map _) = later
      cases later with
      | none => exact ⟨[], b, rfl, Nat.le_refl _⟩
      | some cut => exact ⟨cut.1, cut.2, rfl, Nat.zero_le _⟩
  | cons c front ih =>
    rw [List.cons_append, List.mem_cons, not_or] at hline
    obtain ⟨a, b', hcut, hle⟩ := ih hline.2
    refine ⟨c :: a, b', ?_, by simpa using hle⟩
    rw [List.cons_append]
    unfold cutLast?
    dsimp only
    rw [if_neg (Ne.symm hline.1), hcut]
    rfl

theorem length_le_of_cutLast? {front s a : Text} {b b' : β} (hline : '\n' ∉ front ++ s) (h : p s = some b')
    (hcut : cutLast? p (front ++ s) = some (a, b)) : front.length ≤ a.length := by
  obtain ⟨a', b'', hcut', hle⟩ := exists_cutLast? hline h
  rw [hcut] at hcut'
  cases hcut'
  exact hle

theorem cutLine?_of_cutLast? {t : Text} {cut : Text × β} (h : cutLast? p t = some cut)
    : cutLine? p t = some cut := by
  cases t with
  | nil => exact h
  | cons c t =>
    unfold cutLine?
    rw [h]
    rfl

theorem cutLine?_eq_cutLast? {t : Text} (hline : '\n' ∉ t) : cutLine? p t = cutLast? p t := by
  induction t with
  | nil => rfl
  | cons c t ih =>
    rw [List.mem_cons, not_or] at hline
    cases hcut : cutLast? p (c :: t) with
    | some cut => exact cutLine?_of_cutLast? hcut
    | none =>
      -- the line behind `c` cannot be cut either
      have hlater : cutLast? p t = none := by
        unfold cutLast? at hcut
        dsimp only at hcut
        rw [if_neg (Ne.symm hline.1), Option.or_eq_none_iff, Option.map_eq_none_iff] at hcut
        exact hcut.1
      unfold cutLine?
      rw [hcut, ih hline.2, hlater]
      rfl

end Last

end Text

end DebianPackaging
