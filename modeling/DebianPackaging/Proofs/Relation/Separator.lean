import DebianPackaging.Proofs.Relation.Canonical

/-!
This module contains the characters that separate entries and alternatives. They occur in the text that
spells a relation exactly where they occur in its name, its versions or its words, so it can be told
from a relation whether its text can stand in a field. Relations of the grammar without separators are
called writable.
-/

namespace DebianPackaging

open Text

namespace Relation

def isSeparator (c : Char) : Bool := c == ',' || c == '|'

def Mentions (r : Relation) (c : Char) : Prop :=
  c ∈ r.name ∨ (∃ q ∈ r.archqual, c ∈ q) ∨ (∃ k ∈ r.constraint, c ∈ k.version) ∨
    (∃ w ∈ r.archs, c ∈ w) ∨ ∃ group ∈ r.profiles, ∃ w ∈ group, c ∈ w

section Separator

variable {c : Char} (hc : isSeparator c = true)

include hc

theorem separator_cases : c = ',' ∨ c = '|' := by
  unfold isSeparator at hc
  simpa using hc

theorem separator_not_isBlank : isBlank c = false := by
  rcases separator_cases hc with rfl | rfl <;> decide

theorem separator_not_mem_operator {op : Text} (hop : op ∈ operators) : c ∉ op := by
  simp only [operators, List.mem_cons, List.not_mem_nil, or_false] at hop
  rcases separator_cases hc with rfl | rfl <;>
    rcases hop with rfl | rfl | rfl | rfl | rfl | rfl | rfl <;> decide

theorem separator_not_mem_blank {b : Text} (hb : IsBlankText b) : c ∉ b :=
  not_mem_of_isBlankText hb (separator_not_isBlank hc)

theorem separator_not_mem_end {e : Text} (he : isEnd e = true) : c ∉ e := by
  unfold isEnd at he
  rw [Bool.or_eq_true, beq_iff_eq, beq_iff_eq] at he
  rcases he with rfl | rfl
  . simp
  . rcases separator_cases hc with rfl | rfl <;> decide

theorem separator_mem_archqual_iff {q : Option Text} {u : Text} (h : SpellsArchqual q u)
    : c ∈ u ↔ ∃ q' ∈ q, c ∈ q' := by
  cases h with
  | none => simp
  | some hq =>
    have hne : c ≠ ':' := by
      rcases separator_cases hc with rfl | rfl <;> decide
    simp [hne]

theorem separator_mem_constraint_iff {k : Option Constraint} {u : Text} (h : SpellsConstraint k u)
    : c ∈ u ↔ ∃ k' ∈ k, c ∈ k'.version := by
  cases h with
  | none => simp
  | some hop hversion h₁ h₂ h₃ h₄ =>
    have hopen : c ≠ '(' := by
      rcases separator_cases hc with rfl | rfl <;> decide
    have hclose : c ≠ ')' := by
      rcases separator_cases hc with rfl | rfl <;> decide
    simp [hopen, hclose, separator_not_mem_blank hc h₁, separator_not_mem_blank hc h₂,
      separator_not_mem_blank hc h₃, separator_not_mem_blank hc h₄,
      separator_not_mem_operator hc hop]

theorem separator_mem_words_iff {opening closing : Char} {ws : List Text} {u : Text}
    (h : SpellsWords opening closing ws u) (hopening : c ≠ opening) (hclosing : c ≠ closing)
    : c ∈ u ↔ ∃ w ∈ ws, c ∈ w := by
  cases h with
  | mk hb hinner =>
    rw [mem_words_iff (separator_not_isBlank hc)]
    simp [hopening, hclosing, separator_not_mem_blank hc hb]

theorem separator_mem_archs_iff {archs : List Text} {u : Text} (h : SpellsArchs archs u)
    : c ∈ u ↔ ∃ w ∈ archs, c ∈ w := by
  cases h with
  | none => simp
  | some h =>
    apply separator_mem_words_iff hc h
    all_goals rcases separator_cases hc with rfl | rfl <;> decide

theorem separator_mem_profiles_iff {groups : List (List Text)} {u : Text}
    (h : SpellsProfiles groups u) : c ∈ u ↔ ∃ group ∈ groups, ∃ w ∈ group, c ∈ w := by
  induction h with
  | nil => simp
  | @cons group groups t u hgroup _ ih =>
    have hiff : c ∈ t ↔ ∃ w ∈ group, c ∈ w := by
      apply separator_mem_words_iff hc hgroup
      all_goals rcases separator_cases hc with rfl | rfl <;> decide
    rw [List.mem_append, ih, hiff]
    simp

theorem separator_mem_iff {r : Relation} {t : Text} (h : Spells r t) : c ∈ t ↔ r.Mentions c := by
  cases h with
  | mk hname hq hk ha hp he =>
    unfold Mentions
    simp only [List.mem_append, separator_mem_archqual_iff hc hq,
      separator_mem_constraint_iff hc hk, separator_mem_archs_iff hc ha,
      separator_mem_profiles_iff hc hp, separator_not_mem_end hc he, or_false]

end Separator

/-- A relation that can be written into a field. -/
structure IsWritable (r : Relation) : Prop where
  grammatical : r.IsGrammatical
  noSeparator : ∀ c, isSeparator c = true → ¬ r.Mentions c

end Relation

end DebianPackaging
