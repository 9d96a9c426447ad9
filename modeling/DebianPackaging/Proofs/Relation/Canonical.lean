import DebianPackaging.Proofs.Outcome
import DebianPackaging.Proofs.Relation.Grammar

/-!
This module contains the canonical form of relations. The relations that a text can spell are those
whose parts are of the grammar, and for these the canonical form is a spelling again, so it is read
back as the relation that it was written for.
-/

namespace DebianPackaging

open Text

namespace Relation

structure IsGrammatical (r : Relation) : Prop where
  name : IsName r.name
  archqual : ∀ q ∈ r.archqual, IsArchqual q
  constraint : ∀ c ∈ r.constraint, c.op ∈ operators ∧ IsConstraintVersion c.version
  archs : ∀ w ∈ r.archs, IsWord w ∧ ']' ∉ w
  profiles : ∀ group ∈ r.profiles, ∀ w ∈ group, IsWord w ∧ '>' ∉ w

theorem isWord_of_spellsWords {opening closing : Char} {ws : List Text} {t : Text}
    (h : SpellsWords opening closing ws t) (hclosing : isBlank closing = false)
    : ∀ w ∈ ws, IsWord w ∧ closing ∉ w := by
  cases h with
  | mk hb hinner =>
    intro w hw
    refine ⟨isWord_of_mem_words hw, ?_⟩
    intro hmem
    apply hinner
    exact (mem_words_iff hclosing).mp ⟨w, hw, hmem⟩

theorem isWord_of_spellsArchs {archs : List Text} {t : Text} (h : SpellsArchs archs t)
    : ∀ w ∈ archs, IsWord w ∧ ']' ∉ w := by
  cases h with
  | none => simp
  | some h => exact isWord_of_spellsWords h (by decide)

theorem isWord_of_spellsProfiles {groups : List (List Text)} {t : Text} (h : SpellsProfiles groups t)
    : ∀ group ∈ groups, ∀ w ∈ group, IsWord w ∧ '>' ∉ w := by
  induction h with
  | nil => simp
  | cons hgroup _ ih =>
    intro group hmem
    cases List.mem_cons.mp hmem with
    | inl h =>
      rw [h]
      exact isWord_of_spellsWords hgroup (by decide)
    | inr h => exact ih group h

theorem isGrammatical_of_spells {r : Relation} {t : Text} (h : Spells r t) : r.IsGrammatical := by
  cases h with
  | mk hname hq hc ha hp he =>
    refine ⟨hname, ?_, ?_, isWord_of_spellsArchs ha, isWord_of_spellsProfiles hp⟩
    . intro q hmem
      rw [Option.mem_def.mp hmem] at hq
      cases hq with
      | some hq => exact hq
    . intro c hmem
      rw [Option.mem_def.mp hmem] at hc
      cases hc with
      | some hop hversion => exact ⟨hop, hversion⟩

theorem spellsWords_join {opening closing : Char} {ws : List Text}
    (h : ∀ w ∈ ws, IsWord w ∧ closing ∉ w) (hclosing : closing ≠ ' ')
    : SpellsWords opening closing ws (' ' :: opening :: (join " " ws ++ [closing])) := by
  have hinner : closing ∉ join " " ws := by
    intro hmem
    cases mem_join hmem with
    | inl hmem => exact hclosing (by simpa using hmem)
    | inr hmem =>
      obtain ⟨w, hw, hmem⟩ := hmem
      exact (h w hw).2 hmem
  have hspells := @SpellsWords.mk opening closing [' '] _ isBlankText_space hinner
  rw [words_join fun w hw => (h w hw).1] at hspells
  exact hspells

theorem spellsArchqual_render {q : Option Text} (h : ∀ q' ∈ q, IsArchqual q')
    : SpellsArchqual q (renderArchqual q) := by
  cases q with
  | none => exact .none
  | some q =>
    have hq := h q rfl
    cases hq with
    | mk hc hw => exact .some (.mk hc hw)

theorem spellsConstraint_render {c : Option Constraint}
    (h : ∀ c' ∈ c, c'.op ∈ operators ∧ IsConstraintVersion c'.version)
    : SpellsConstraint c ((c.map renderConstraint).getD []) := by
  cases c with
  | none => exact .none
  | some c =>
    have ⟨hop, hversion⟩ := h c rfl
    have hspells := SpellsConstraint.some hop hversion isBlankText_space isBlankText_nil
      isBlankText_space isBlankText_nil
    have heq : renderConstraint c =
        [' '] ++ '(' :: ([] ++ (c.op ++ ([' '] ++ (c.version ++ ([] ++ [')']))))) := by
      unfold renderConstraint
      simp
    rw [Option.map_some, Option.getD_some, heq]
    exact hspells

theorem spellsArchs_render {archs : List Text} (h : ∀ w ∈ archs, IsWord w ∧ ']' ∉ w)
    : SpellsArchs archs (renderArchs archs) := by
  cases archs with
  | nil => exact .none
  | cons w ws => exact .some (spellsWords_join h (by decide))

theorem spellsProfiles_render {groups : List (List Text)}
    (h : ∀ group ∈ groups, ∀ w ∈ group, IsWord w ∧ '>' ∉ w)
    : SpellsProfiles groups (renderAllProfiles groups) := by
  induction groups with
  | nil => exact .nil
  | cons group groups ih =>
    have hgroup : SpellsWords '<' '>' group (' ' :: renderProfiles group) :=
      spellsWords_join (h group (by simp)) (by decide)
    specialize ih (fun g hg => h g (by simp [hg]))
    cases groups with
    | nil =>
      unfold renderAllProfiles join
      simpa using SpellsProfiles.cons hgroup .nil
    | cons group' groups =>
      have hspells := SpellsProfiles.cons hgroup ih
      unfold renderAllProfiles join at hspells ⊢
      simpa using hspells

theorem spells_render {r : Relation} (h : r.IsGrammatical) : Spells r r.render := by
  have hspells := Spells.mk h.name (spellsArchqual_render h.archqual)
    (spellsConstraint_render h.constraint) (spellsArchs_render h.archs)
    (spellsProfiles_render h.profiles) (e := []) rfl
  unfold render
  simpa using hspells

theorem read?_render {r : Relation} (h : r.IsGrammatical) : read? r.render = some r :=
  read?_of_spells (spells_render h)

theorem stopsAt_reverse_append {p : Char → Bool} {t u : Text} (ht : StopsAt p t.reverse)
    (hu : StopsAt p u.reverse) : StopsAt p (t ++ u).reverse := by
  rw [List.reverse_append]
  cases h : u.reverse with
  | nil => exact ht
  | cons c u' =>
    rw [h] at hu
    simpa using hu

theorem stopsAt_reverse_of_forall {p : Char → Bool} {t : Text} (h : ∀ c ∈ t, p c = false)
    : StopsAt p t.reverse := by
  intro c hc
  apply h
  exact List.mem_reverse.mp (List.mem_of_mem_head? hc)

theorem stopsAt_reverse_concat {p : Char → Bool} {c : Char} (h : p c = false) (t : Text)
    : StopsAt p (t ++ [c]).reverse := by
  rw [List.reverse_append]
  simpa using h

theorem isBlank_of_isNameChar {c : Char} (h : isNameChar c = true) : isBlank c = false := by
  cases hb : isBlank c with
  | false => rfl
  | true =>
    rw [isNameChar_of_isBlank hb] at h
    contradiction

theorem isBlank_of_isArchqualChar {c : Char} (h : isArchqualChar c = true) : isBlank c = false := by
  cases hb : isBlank c with
  | false => rfl
  | true =>
    rw [isArchqualChar_of_isBlank hb] at h
    contradiction

theorem isTrimmed_name {n : Text} (h : IsName n) : IsTrimmed n := by
  cases h with
  | @plain c w hc hw =>
    constructor
    . simpa using isBlank_of_isAlphanum hc
    . apply stopsAt_reverse_of_forall
      intro d hd
      cases List.mem_cons.mp hd with
      | inl hd =>
        rw [hd]
        exact isBlank_of_isAlphanum hc
      | inr hd => exact isBlank_of_isNameChar (hw d hd)
  | @braced w hne hw =>
    constructor
    . rw [stopsAt_cons]
      decide
    . exact stopsAt_reverse_concat (by decide) ('$' :: '{' :: w)

theorem name_ne_nil {n : Text} (h : IsName n) : n ≠ [] := by
  cases h <;> simp

theorem stopsAt_reverse_archqual {q : Option Text} {u : Text} (h : SpellsArchqual q u)
    : StopsAt isBlank u.reverse := by
  cases h with
  | none => apply stopsAt_nil
  | some hq =>
    cases hq with
    | @mk c w hc hw =>
      apply stopsAt_reverse_of_forall
      intro d hd
      simp only [List.mem_cons] at hd
      rcases hd with rfl | rfl | hd
      . decide
      . exact isBlank_of_isAlphanum hc
      . exact isBlank_of_isArchqualChar (hw d hd)

theorem stopsAt_reverse_constraint {c : Option Constraint} {u : Text} (h : SpellsConstraint c u)
    : StopsAt isBlank u.reverse := by
  cases h with
  | none => apply stopsAt_nil
  | @some c b₁ b₂ b₃ b₄ =>
    have := stopsAt_reverse_concat (p := isBlank) (c := ')') (by decide)
      (b₁ ++ '(' :: (b₂ ++ (c.op ++ (b₃ ++ (c.version ++ b₄)))))
    simpa using this

theorem stopsAt_reverse_words {opening closing : Char} {ws : List Text} {u : Text}
    (h : SpellsWords opening closing ws u) (hclosing : isBlank closing = false)
    : StopsAt isBlank u.reverse := by
  cases h with
  | @mk b inner =>
    have := stopsAt_reverse_concat (p := isBlank) hclosing (b ++ opening :: inner)
    simpa using this

theorem stopsAt_reverse_archs {archs : List Text} {u : Text} (h : SpellsArchs archs u)
    : StopsAt isBlank u.reverse := by
  cases h with
  | none => apply stopsAt_nil
  | some h => exact stopsAt_reverse_words h (by decide)

theorem stopsAt_reverse_profiles {groups : List (List Text)} {u : Text}
    (h : SpellsProfiles groups u) : StopsAt isBlank u.reverse := by
  induction h with
  | nil => apply stopsAt_nil
  | cons hgroup _ ih => exact stopsAt_reverse_append (stopsAt_reverse_words hgroup (by decide)) ih

theorem isTrimmed_render {r : Relation} (h : r.IsGrammatical) : IsTrimmed r.render := by
  have hname := isTrimmed_name h.name
  unfold render
  constructor
  . simp only [List.append_assoc]
    exact hname.start.append (name_ne_nil h.name) _
  -- a part that is there ends with a bracket or a character of a word, and the name is always there
  . apply stopsAt_reverse_append
    . apply stopsAt_reverse_append
      . apply stopsAt_reverse_append
        . apply stopsAt_reverse_append hname.finish
          exact stopsAt_reverse_archqual (spellsArchqual_render h.archqual)
        . exact stopsAt_reverse_constraint (spellsConstraint_render h.constraint)
      . exact stopsAt_reverse_archs (spellsArchs_render h.archs)
    . exact stopsAt_reverse_profiles (spellsProfiles_render h.profiles)

theorem render_ne_nil {r : Relation} (h : r.IsGrammatical) : r.render ≠ [] := by
  unfold render
  simp [name_ne_nil h.name]

end Relation

namespace SpelledRelation

theorem read_of_spells {r : Relation} {t : Text} (h : Relation.Spells r t)
    : SpelledRelation.read t = .ok ⟨r, some t⟩ := by
  unfold SpelledRelation.read
  rw [Relation.read?_of_spells h]

theorem spells_of_read {s : SpelledRelation} {t : Text}
    (h : SpelledRelation.read t = .ok s) : Relation.Spells s.relation t := by
  unfold SpelledRelation.read at h
  split at h
  . next r hr =>
    cases h
    exact Relation.spells_of_read? hr
  . cases h

/-- A relation that was read and is given another constraint is read back as just that, with its other parts
as they were, if and only if the constraint is of the grammar. -/
theorem read_setConstraint_iff (t : Text) (s : SpelledRelation) (h : SpelledRelation.read t = .ok s)
    (c : Option Constraint)
    : SpelledRelation.read (s.setConstraint c).text =
          .ok ⟨{ s.relation with constraint := c }, some (s.setConstraint c).text⟩ ↔
        ∀ k ∈ c, k.op ∈ Relation.operators ∧ Relation.IsConstraintVersion k.version := by
  have hgrammatical := Relation.isGrammatical_of_spells (spells_of_read h)
  constructor
  . intro hread
    exact (Relation.isGrammatical_of_spells (spells_of_read hread)).constraint
  . intro hc
    apply read_of_spells
    apply Relation.spells_render
    exact ⟨hgrammatical.name, hgrammatical.archqual, hc, hgrammatical.archs, hgrammatical.profiles⟩

theorem read_setConstraint_brackets
    : ∃ s, SpelledRelation.read "$\x7ba (>=1)\x7d:any(>=1)[ x<\t!y(]<> <p[ q>\n" = .ok s ∧
        (s.setConstraint (some ⟨"<<", "$v"⟩)).text =
          "$\x7ba (>=1)\x7d:any (<< $v) [x< !y(] <> <p[ q>".toList ∧
        SpelledRelation.read "$\x7ba (>=1)\x7d:any (<< $v) [x< !y(] <> <p[ q>" =
          .ok ⟨{ s.relation with constraint := some ⟨"<<", "$v"⟩ },
            some "$\x7ba (>=1)\x7d:any (<< $v) [x< !y(] <> <p[ q>"⟩ ∧
        SpelledRelation.read (s.setConstraint (some ⟨"<<", "1)"⟩)).text ≠
          .ok ⟨{ s.relation with constraint := some ⟨"<<", "1)"⟩ },
            some (s.setConstraint (some ⟨"<<", "1)"⟩)).text⟩ := by
  have hrun : (SpelledRelation.read "$\x7ba (>=1)\x7d:any(>=1)[ x<\t!y(]<> <p[ q>\n").map (fun s =>
      (s.setConstraint (some ⟨"<<", "$v"⟩)).text) =
      .ok "$\x7ba (>=1)\x7d:any (<< $v) [x< !y(] <> <p[ q>" := by
    decide +kernel
  obtain ⟨s, hs, htext⟩ := map_eq_ok.mp hrun
  refine ⟨s, hs, htext, ?_, ?_⟩
  . have hgrammar : ∀ k ∈ some (⟨"<<", "$v"⟩ : Constraint),
        k.op ∈ Relation.operators ∧ Relation.IsConstraintVersion k.version := by
      intro k hk
      cases hk
      exact ⟨by decide, .mk (c := '$') rfl (List.all_eq_true.mp (by decide))⟩
    have hread := (read_setConstraint_iff _ s hs _).mpr hgrammar
    rwa [htext] at hread
  . intro hread
    have hversion := ((read_setConstraint_iff _ s hs _).mp hread _ rfl).2
    cases hversion with
    | mk hc hw => exact absurd (hw ')' (by decide)) (by decide)

end SpelledRelation

end DebianPackaging
