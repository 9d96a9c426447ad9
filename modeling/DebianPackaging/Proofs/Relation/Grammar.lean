import DebianPackaging.Relation.Reader
import DebianPackaging.Proofs.Text.Basic
import DebianPackaging.Proofs.Text.Blank

/-!
This module contains the grammar of relations: which texts spell a name, a qualifier, a version
constraint, a list of words in brackets, and how a relation is spelled by the texts of its parts. The
main statement is that the reader of relations accepts exactly what the grammar spells and reads it as
the relation that is spelled.
-/

namespace DebianPackaging

open Text

namespace Relation

inductive IsName : Text → Prop where
  | plain {c : Char} {w : Text} (hc : c.isAlphanum = true) (hw : ∀ d ∈ w, isNameChar d = true)
    : IsName (c :: w)
  | braced {w : Text} (hne : w ≠ []) (hw : '}' ∉ w) : IsName ('$' :: '{' :: (w ++ ['}']))

inductive IsArchqual : Text → Prop where
  | mk {c : Char} {w : Text} (hc : c.isAlphanum = true) (hw : ∀ d ∈ w, isArchqualChar d = true)
    : IsArchqual (c :: w)

inductive IsConstraintVersion : Text → Prop where
  | mk {c : Char} {w : Text} (hc : (c.isAlphanum || c == '$') = true)
    (hw : ∀ d ∈ w, isConstraintChar d = true) : IsConstraintVersion (c :: w)

inductive SpellsArchqual : Option Text → Text → Prop where
  | none : SpellsArchqual none []
  | some {q : Text} (hq : IsArchqual q) : SpellsArchqual (some q) (':' :: q)

inductive SpellsConstraint : Option Constraint → Text → Prop where
  | none : SpellsConstraint none []
  | some {c : Constraint} {b₁ b₂ b₃ b₄ : Text} (hop : c.op ∈ operators)
    (hversion : IsConstraintVersion c.version) (h₁ : IsBlankText b₁) (h₂ : IsBlankText b₂)
    (h₃ : IsBlankText b₃) (h₄ : IsBlankText b₄)
    : SpellsConstraint (some c) (b₁ ++ '(' :: (b₂ ++ (c.op ++ (b₃ ++ (c.version ++ (b₄ ++ [')']))))))

inductive SpellsWords (opening closing : Char) : List Text → Text → Prop where
  | mk {b inner : Text} (hb : IsBlankText b) (hinner : closing ∉ inner)
    : SpellsWords opening closing (words inner) (b ++ opening :: (inner ++ [closing]))

inductive SpellsArchs : List Text → Text → Prop where
  | none : SpellsArchs [] []
  | some {archs : List Text} {t : Text} (h : SpellsWords '[' ']' archs t) : SpellsArchs archs t

inductive SpellsProfiles : List (List Text) → Text → Prop where
  | nil : SpellsProfiles [] []
  | cons {group : List Text} {groups : List (List Text)} {t u : Text}
    (hgroup : SpellsWords '<' '>' group t) (hgroups : SpellsProfiles groups u)
    : SpellsProfiles (group :: groups) (t ++ u)

inductive Spells : Relation → Text → Prop where
  | mk {r : Relation} {q c a p e : Text} (hname : IsName r.name)
    (hq : SpellsArchqual r.archqual q) (hc : SpellsConstraint r.constraint c)
    (ha : SpellsArchs r.archs a) (hp : SpellsProfiles r.profiles p) (he : isEnd e = true)
    : Spells r (r.name ++ (q ++ (c ++ (a ++ (p ++ e)))))

def isOperatorChar (c : Char) : Bool := ['<', '=', '>'].contains c

def GoesOnWith (cs : List Char) (t : Text) : Prop := ∀ c ∈ (trimStart t).head?, c ∈ cs

theorem GoesOnWith.mono {cs ds : List Char} {t : Text} (h : GoesOnWith cs t) (hsub : cs ⊆ ds)
    : GoesOnWith ds t := by
  intro c hc
  exact hsub (h c hc)

theorem goesOnWith_blank_append {cs : List Char} {b t : Text} (hb : IsBlankText b)
    (ht : StopsAt isBlank t) (h : ∀ c ∈ t.head?, c ∈ cs) : GoesOnWith cs (b ++ t) := by
  unfold GoesOnWith
  rw [trimStart_blank_append hb ht]
  exact h

theorem GoesOnWith.stopsAt {cs : List Char} {t : Text} {p : Char → Bool} (h : GoesOnWith cs t)
    (hblank : ∀ c, isBlank c = true → p c = false) (hp : cs.any p = false) : StopsAt p t := by
  cases t with
  | nil => apply stopsAt_nil
  | cons c t =>
    rw [stopsAt_cons]
    cases hc : isBlank c with
    | true => exact hblank c hc
    | false =>
      rw [List.any_eq_false] at hp
      have hmem : c ∈ cs := by
        apply h
        unfold trimStart
        simp [hc]
      simpa using hp c hmem

theorem readName?_append {n t : Text} (hn : IsName n) (ht : StopsAt isNameChar t)
    : readName? (n ++ t) = some (n, t) := by
  cases hn with
  | @plain c w hc hw =>
    have hne : c ≠ '$' := by
      intro h
      rw [h] at hc
      contradiction
    rw [List.cons_append]
    unfold readName?
    split
    . next heq =>
      injection heq with hc'
      contradiction
    . next heq =>
      cases heq
      rw [if_pos hc, takeWhile_append_of_stopsAt hw ht, dropWhile_append_of_stopsAt hw ht]
    . next heq => cases heq
  | @braced w hne hw =>
    obtain ⟨c, w, rfl⟩ := List.exists_cons_of_ne_nil hne
    have hcut : cut? '}' ((c :: w) ++ ['}'] ++ t) = some (c :: w, t) := by
      rw [List.append_assoc]
      apply cut?_append hw
    simp only [List.cons_append] at hcut ⊢
    simp only [readName?]
    rw [hcut]
    simp

theorem spells_of_readName? {n t rest : Text} (h : readName? t = some (n, rest))
    : IsName n ∧ t = n ++ rest := by
  unfold readName? at h
  split at h
  . split at h
    . next c inner rest' hcut =>
      cases h
      have hnot := not_mem_of_cut? hcut
      rw [eq_append_of_cut? hcut]
      exact ⟨.braced (by simp) hnot, by simp⟩
    . cases h
  . split at h
    . next hc =>
      cases h
      refine ⟨.plain hc fun d hd => of_mem_takeWhile hd, ?_⟩
      rw [List.cons_append, List.takeWhile_append_dropWhile]
    . cases h
  . cases h

theorem readArchqual?_append {q t : Text} (hq : IsArchqual q) (ht : StopsAt isArchqualChar t)
    : readArchqual? (':' :: (q ++ t)) = some (q, t) := by
  cases hq with
  | mk hc hw =>
    simp only [readArchqual?, List.cons_append]
    rw [if_pos hc, takeWhile_append_of_stopsAt hw ht, dropWhile_append_of_stopsAt hw ht]

theorem spells_of_readArchqual? {q t rest : Text} (h : readArchqual? t = some (q, rest))
    : IsArchqual q ∧ t = ':' :: (q ++ rest) := by
  unfold readArchqual? at h
  split at h
  . split at h
    . next hc =>
      cases h
      refine ⟨.mk hc fun d hd => of_mem_takeWhile hd, ?_⟩
      rw [List.cons_append, List.takeWhile_append_dropWhile]
    . cases h
  . cases h

theorem readConstraintVersion?_append {v t : Text} (hv : IsConstraintVersion v)
    (ht : StopsAt isConstraintChar t) : readConstraintVersion? (v ++ t) = some (v, t) := by
  cases hv with
  | mk hc hw =>
    simp only [readConstraintVersion?, List.cons_append]
    rw [if_pos hc, takeWhile_append_of_stopsAt hw ht, dropWhile_append_of_stopsAt hw ht]

theorem spells_of_readConstraintVersion? {v t rest : Text}
    (h : readConstraintVersion? t = some (v, rest)) : IsConstraintVersion v ∧ t = v ++ rest := by
  unfold readConstraintVersion? at h
  split at h
  . split at h
    . next hc =>
      cases h
      refine ⟨.mk hc fun d hd => of_mem_takeWhile hd, ?_⟩
      rw [List.cons_append, List.takeWhile_append_dropWhile]
    . cases h
  . cases h

theorem spells_of_readOperator? {op t rest : Text} (h : readOperator? t = some (op, rest))
    : op ∈ operators ∧ t = op ++ rest := by
  unfold readOperator? at h
  obtain ⟨op', hop, h⟩ := List.exists_of_findSome?_eq_some h
  obtain ⟨rest', hafter, heq⟩ := Option.map_eq_some_iff.mp h
  cases heq
  exact ⟨hop, after?_eq_some_iff.mp hafter⟩

theorem readOperator?_append {op t : Text} (hop : op ∈ operators)
    (ht : StopsAt isOperatorChar t) : readOperator? (op ++ t) = some (op, t) := by
  -- `<` and `>` start longer operators as well, which must not be read in their place
  have hlt : '<' ∉ t.head? := fun h => absurd (ht _ h) (by decide)
  have heq : '=' ∉ t.head? := fun h => absurd (ht _ h) (by decide)
  have hgt : '>' ∉ t.head? := fun h => absurd (ht _ h) (by decide)
  cases t with
  | nil =>
    simp only [operators, List.mem_cons, List.not_mem_nil, or_false] at hop
    rcases hop with rfl | rfl | rfl | rfl | rfl | rfl | rfl <;> rfl
  | cons c t =>
    simp only [List.head?_cons, Option.mem_def, Option.some.injEq] at hlt heq hgt
    simp only [operators, List.mem_cons, List.not_mem_nil, or_false] at hop
    rcases hop with rfl | rfl | rfl | rfl | rfl | rfl | rfl <;>
      simp [readOperator?, operators, after?, Ne.symm hlt, Ne.symm heq, Ne.symm hgt]

theorem spells_of_readConstraint? {c : Constraint} {t rest : Text}
    (h : readConstraint? t = some (c, rest)) : ∃ u, SpellsConstraint (some c) u ∧ t = u ++ rest := by
  unfold readConstraint? at h
  split at h
  . next t₁ ht₁ =>
    simp only [Option.bind_eq_bind, Option.bind_eq_some_iff, Prod.exists] at h
    obtain ⟨op, t₂, hop, version, t₃, hversion, h⟩ := h
    split at h
    . next t₄ ht₄ =>
      cases h
      have ⟨hop, hop'⟩ := spells_of_readOperator? hop
      have ⟨hversion, hversion'⟩ := spells_of_readConstraintVersion? hversion
      refine ⟨_, .some (c := ⟨op, version⟩) hop hversion (isBlankText_lead t) (isBlankText_lead t₁)
        (isBlankText_lead t₂) (isBlankText_lead t₃), ?_⟩
      have ht := lead_append_trimStart t
      have ht₁' := lead_append_trimStart t₁
      have ht₂ := lead_append_trimStart t₂
      have ht₃ := lead_append_trimStart t₃
      rw [ht₁, ← ht₁', hop', ← ht₂, hversion', ← ht₃, ht₄] at ht
      simpa using ht.symm
    . cases h
  . cases h

theorem isBlank_of_isAlphanum {c : Char} (h : c.isAlphanum = true) : isBlank c = false := by
  have := toNat_of_isAlphanum h
  simp only [isBlank, Bool.or_eq_false_iff, Bool.and_eq_false_iff, decide_eq_false_iff_not,
    beq_eq_false_iff_ne, ne_eq]
  omega

theorem isOperatorChar_of_class {p : Char → Bool} (hp : ['<', '=', '>'].all (fun c => !p c) = true)
    {c : Char} (h : p c = true) : isOperatorChar c = false := by
  cases hop : isOperatorChar c with
  | false => rfl
  | true =>
    rw [List.all_eq_true] at hp
    have := hp c (List.contains_iff_mem.mp hop)
    rw [h] at this
    cases this

theorem stopsAt_operator {op : Text} (h : op ∈ operators) (t : Text) : StopsAt isBlank (op ++ t) := by
  simp only [operators, List.mem_cons, List.not_mem_nil, or_false] at h
  rcases h with rfl | rfl | rfl | rfl | rfl | rfl | rfl <;> exact (stopsAt_cons ..).mpr (by decide)

theorem stopsAt_constraintVersion {p : Char → Bool} {v : Text} (h : IsConstraintVersion v)
    (halnum : ∀ c, c.isAlphanum = true → p c = false) (hdollar : p '$' = false) (t : Text)
    : StopsAt p (v ++ t) := by
  cases h with
  | @mk c w hc hw =>
    rw [List.cons_append, stopsAt_cons]
    cases Bool.or_eq_true_iff.mp hc with
    | inl hc => exact halnum c hc
    | inr hc =>
      rw [beq_iff_eq] at hc
      rw [hc]
      exact hdollar

theorem stopsAt_blank_append {p : Char → Bool} {b t : Text} (hb : IsBlankText b)
    (hblank : ∀ c, isBlank c = true → p c = false) (ht : StopsAt p t) : StopsAt p (b ++ t) := by
  cases b with
  | nil => simpa using ht
  | cons c b =>
    rw [List.cons_append, stopsAt_cons]
    apply hblank
    apply hb
    simp

theorem stopsAt_operatorChar {b v : Text} (hb : IsBlankText b) (hv : IsConstraintVersion v) (t : Text)
    : StopsAt isOperatorChar (b ++ (v ++ t)) := by
  apply stopsAt_blank_append hb
  . intro c hc
    exact isOperatorChar_of_class (by decide) hc
  . apply stopsAt_constraintVersion hv
    . intro c hc
      exact isOperatorChar_of_class (by decide) hc
    . decide

theorem isConstraintChar_of_isBlank {c : Char} (h : isBlank c = true) : isConstraintChar c = false := by
  unfold isConstraintChar
  simp [h]

theorem readConstraint?_append {c : Constraint} {u t : Text} (h : SpellsConstraint (some c) u)
    : readConstraint? (u ++ t) = some (c, t) := by
  cases h with
  | some hop hversion h₁ h₂ h₃ h₄ =>
    simp only [List.append_assoc, List.cons_append, List.nil_append]
    unfold readConstraint?
    rw [trimStart_blank_append h₁ (by simp; decide)]
    simp only [Option.bind_eq_bind]
    rw [trimStart_blank_append h₂ (stopsAt_operator hop _), readOperator?_append hop]
    . simp only [Option.bind_some]
      rw [trimStart_blank_append h₃, readConstraintVersion?_append hversion]
      . simp only [Option.bind_some]
        rw [trimStart_blank_append h₄ (by simp; decide)]
        rfl
      . apply stopsAt_blank_append h₄
        . intro c hc
          exact isConstraintChar_of_isBlank hc
        . simp [isConstraintChar]
      . apply stopsAt_constraintVersion hversion
        . intro c hc
          exact isBlank_of_isAlphanum hc
        . decide
    . exact stopsAt_operatorChar h₃ hversion _

theorem readConstraint?_of_goesOnWith {t : Text} (h : GoesOnWith ['[', '<'] t)
    : readConstraint? t = none := by
  unfold readConstraint?
  split
  . next t' ht =>
    unfold GoesOnWith at h
    rw [ht] at h
    simp at h
  . rfl

theorem spells_of_readWords? {opening closing : Char} {ws : List Text} {t rest : Text}
    (h : readWords? opening closing t = some (ws, rest))
    : ∃ u, SpellsWords opening closing ws u ∧ t = u ++ rest := by
  unfold readWords? at h
  split at h
  . next c t' ht =>
    split at h
    . next hc =>
      obtain ⟨⟨inner, rest'⟩, hcut, heq⟩ := Option.map_eq_some_iff.mp h
      cases heq
      refine ⟨_, .mk (isBlankText_lead t) (not_mem_of_cut? hcut), ?_⟩
      have happ := lead_append_trimStart t
      rw [ht, hc, eq_append_of_cut? hcut] at happ
      simpa using happ.symm
    . cases h
  . cases h

theorem readWords?_append {opening closing : Char} {ws : List Text} {u : Text}
    (h : SpellsWords opening closing ws u) (hopening : isBlank opening = false) (t : Text)
    : readWords? opening closing (u ++ t) = some (ws, t) := by
  cases h with
  | mk hb hinner =>
    simp only [List.append_assoc, List.cons_append, List.nil_append]
    unfold readWords?
    rw [trimStart_blank_append hb (by simpa using hopening)]
    dsimp
    rw [if_pos rfl, cut?_append hinner]
    rfl

theorem readWords?_of_goesOnWith {opening closing : Char} {cs : List Char} {t : Text}
    (h : GoesOnWith cs t) (hopening : opening ∉ cs) : readWords? opening closing t = none := by
  unfold readWords?
  split
  . next c t' ht =>
    unfold GoesOnWith at h
    rw [ht] at h
    rw [if_neg]
    intro hc
    apply hopening
    apply h
    simp [hc]
  . rfl

theorem spells_of_readAllProfiles (t : Text)
    : ∃ u, SpellsProfiles (readAllProfiles t).1 u ∧ t = u ++ (readAllProfiles t).2 := by
  fun_induction readAllProfiles t with
  | case1 t => exact ⟨[], .nil, rfl⟩
  | case2 t group rest hgroup hlt groups rest' heq ih =>
    rw [heq] at ih
    obtain ⟨u, hu, ht⟩ := spells_of_readWords? hgroup
    obtain ⟨v, hv, hrest⟩ := ih
    refine ⟨u ++ v, .cons hu hv, ?_⟩
    rw [ht, hrest, List.append_assoc]

theorem readAllProfiles_append {groups : List (List Text)} {u t : Text}
    (h : SpellsProfiles groups u) (ht : GoesOnWith [] t)
    : readAllProfiles (u ++ t) = (groups, t) := by
  induction h with
  | nil =>
    rw [List.nil_append, readAllProfiles]
    split
    . rfl
    . next hgroup =>
      unfold readProfiles? at hgroup
      rw [readWords?_of_goesOnWith ht (by simp)] at hgroup
      cases hgroup
  | @cons group groups v w hgroup _ ih =>
    have happ := readWords?_append hgroup (by decide) (w ++ t)
    rw [List.append_assoc, readAllProfiles]
    split
    . next hnone =>
      unfold readProfiles? at hnone
      rw [happ] at hnone
      cases hnone
    . next hsome =>
      unfold readProfiles? at hsome
      rw [happ] at hsome
      cases hsome
      rw [ih]

theorem goesOnWith_of_isEnd {e : Text} (h : isEnd e = true) : GoesOnWith [] e := by
  unfold isEnd at h
  rw [Bool.or_eq_true, beq_iff_eq, beq_iff_eq] at h
  rcases h with rfl | rfl
  . intro c hc
    cases hc
  . intro c hc
    cases hc

theorem goesOnWith_words {opening closing : Char} {ws : List Text} {u : Text}
    (h : SpellsWords opening closing ws u) (hopening : isBlank opening = false) (t : Text)
    : GoesOnWith [opening] (u ++ t) := by
  cases h with
  | mk hb _ =>
    rw [List.append_assoc]
    apply goesOnWith_blank_append hb
    . simpa using hopening
    . simp

theorem goesOnWith_profiles {groups : List (List Text)} {p t : Text} (h : SpellsProfiles groups p)
    (ht : GoesOnWith [] t) : GoesOnWith ['<'] (p ++ t) := by
  cases h with
  | nil => exact ht.mono (by simp)
  | cons hgroup _ =>
    rw [List.append_assoc]
    exact goesOnWith_words hgroup (by decide) _

theorem goesOnWith_archs {archs : List Text} {a t : Text} (h : SpellsArchs archs a)
    (ht : GoesOnWith ['<'] t) : GoesOnWith ['[', '<'] (a ++ t) := by
  cases h with
  | none => exact ht.mono (by simp)
  | some h => exact (goesOnWith_words h (by decide) _).mono (by simp)

theorem goesOnWith_constraint {c : Option Constraint} {u t : Text} (h : SpellsConstraint c u)
    (ht : GoesOnWith ['[', '<'] t) : GoesOnWith ['(', '[', '<'] (u ++ t) := by
  cases h with
  | none => exact ht.mono (by simp)
  | some _ _ hb _ _ _ =>
    rw [List.append_assoc]
    apply goesOnWith_blank_append hb
    . rw [List.cons_append, stopsAt_cons]
      decide
    . simp

theorem goesOnWith_archqual {q : Option Text} {u t : Text} (h : SpellsArchqual q u)
    (ht : GoesOnWith ['(', '[', '<'] t) : GoesOnWith [':', '(', '[', '<'] (u ++ t) := by
  cases h with
  | none => exact ht.mono (by simp)
  | some hq =>
    rw [List.cons_append]
    apply goesOnWith_blank_append isBlankText_nil
    . rw [stopsAt_cons]
      decide
    . simp

theorem isNameChar_of_isBlank {c : Char} (h : isBlank c = true) : isNameChar c = false := by
  cases hn : isNameChar c with
  | false => rfl
  | true =>
    simp only [isNameChar, List.contains_cons, List.contains_nil, Bool.or_eq_true, beq_iff_eq,
      Bool.or_false] at hn
    rcases hn with hn | rfl | rfl | rfl
    . rw [isBlank_of_isAlphanum hn] at h
      contradiction
    all_goals contradiction

theorem isArchqualChar_of_isBlank {c : Char} (h : isBlank c = true) : isArchqualChar c = false := by
  cases hn : isArchqualChar c with
  | false => rfl
  | true =>
    simp only [isArchqualChar, Bool.or_eq_true, beq_iff_eq] at hn
    rcases hn with hn | rfl
    . rw [isBlank_of_isAlphanum hn] at h
      contradiction
    . contradiction

theorem readOptional_readArchqual?_append {q : Option Text} {u t : Text} (h : SpellsArchqual q u)
    (ht : GoesOnWith ['(', '[', '<'] t) : readOptional readArchqual? (u ++ t) = (q, t) := by
  cases h with
  | none =>
    have hnone : readArchqual? t = none := by
      unfold readArchqual?
      split
      . have hcolon := ht ':' (by rw [trimStart_of_stopsAt (by simp; decide)]; simp)
        simp at hcolon
      . rfl
    unfold readOptional
    rw [List.nil_append, hnone]
  | some hq =>
    have hstop : StopsAt isArchqualChar t :=
      ht.stopsAt (fun _ => isArchqualChar_of_isBlank) (by decide)
    unfold readOptional
    rw [List.cons_append, readArchqual?_append hq hstop]

theorem readOptional_readConstraint?_append {c : Option Constraint} {u t : Text}
    (h : SpellsConstraint c u) (ht : GoesOnWith ['[', '<'] t)
    : readOptional readConstraint? (u ++ t) = (c, t) := by
  unfold readOptional
  cases c with
  | none =>
    cases h
    rw [List.nil_append, readConstraint?_of_goesOnWith ht]
  | some c => rw [readConstraint?_append h]

theorem readOptional_readArchs?_append {archs : List Text} {u t : Text} (h : SpellsArchs archs u)
    (ht : GoesOnWith ['<'] t)
    : ((readOptional readArchs? (u ++ t)).1.getD [], (readOptional readArchs? (u ++ t)).2) =
      (archs, t) := by
  unfold readOptional readArchs?
  cases h with
  | none => rw [List.nil_append, readWords?_of_goesOnWith ht (by simp), Option.getD_none]
  | some h => rw [readWords?_append h (by decide), Option.getD_some]

theorem read?_of_spells {r : Relation} {t : Text} (h : Spells r t) : read? t = some r := by
  cases h with
  | mk hname hq hc ha hp he =>
    -- from the end: a part is optional, and what is behind it starts with none of its own characters
    have hpe := goesOnWith_profiles hp (goesOnWith_of_isEnd he)
    have hape := goesOnWith_archs ha hpe
    have hcape := goesOnWith_constraint hc hape
    have hqcape := goesOnWith_archqual hq hcape
    have harchs := readOptional_readArchs?_append ha hpe
    unfold read?
    rw [readName?_append hname]
    . simp only [Option.bind_eq_bind, Option.bind_some]
      rw [readOptional_readArchqual?_append hq hcape]
      dsimp
      rw [readOptional_readConstraint?_append hc hape]
      dsimp
      rw [Prod.mk.injEq] at harchs
      rw [harchs.1, harchs.2, readAllProfiles_append hp (goesOnWith_of_isEnd he)]
      dsimp
      rw [if_pos he]
    . apply hqcape.stopsAt
      . intro c hc
        exact isNameChar_of_isBlank hc
      . decide

theorem readOptional_cases (read? : Text → Option (α × Text)) (t : Text)
    : (∃ a rest, readOptional read? t = (some a, rest) ∧ read? t = some (a, rest)) ∨
      readOptional read? t = (none, t) := by
  unfold readOptional
  cases read? t with
  | none => exact .inr rfl
  | some result => exact .inl ⟨result.1, result.2, rfl, rfl⟩

theorem spells_of_readOptional_readArchqual? (t : Text)
    : ∃ u, SpellsArchqual (readOptional readArchqual? t).1 u ∧
        t = u ++ (readOptional readArchqual? t).2 := by
  obtain ⟨q, rest, heq, hread⟩ | heq := readOptional_cases readArchqual? t
  . rw [heq]
    have ⟨hq, ht⟩ := spells_of_readArchqual? hread
    exact ⟨_, .some hq, ht⟩
  . rw [heq]
    exact ⟨[], .none, rfl⟩

theorem spells_of_readOptional_readConstraint? (t : Text)
    : ∃ u, SpellsConstraint (readOptional readConstraint? t).1 u ∧
        t = u ++ (readOptional readConstraint? t).2 := by
  obtain ⟨c, rest, heq, hread⟩ | heq := readOptional_cases readConstraint? t
  . rw [heq]
    exact spells_of_readConstraint? hread
  . rw [heq]
    exact ⟨[], .none, rfl⟩

theorem spells_of_readOptional_readArchs? (t : Text)
    : ∃ u, SpellsArchs ((readOptional readArchs? t).1.getD []) u ∧
        t = u ++ (readOptional readArchs? t).2 := by
  obtain ⟨archs, rest, heq, hread⟩ | heq := readOptional_cases readArchs? t
  . rw [heq]
    have ⟨u, hu, ht⟩ := spells_of_readWords? hread
    exact ⟨u, .some hu, ht⟩
  . rw [heq]
    exact ⟨[], .none, rfl⟩

theorem spells_of_read? {r : Relation} {t : Text} (h : read? t = some r) : Spells r t := by
  unfold read? at h
  simp only [Option.bind_eq_bind, Option.bind_eq_some_iff, Prod.exists] at h
  obtain ⟨name, t₁, hname, h⟩ := h
  split at h
  . next he =>
    have ⟨hname, ht⟩ := spells_of_readName? hname
    obtain ⟨q, hq, ht₁⟩ := spells_of_readOptional_readArchqual? t₁
    generalize readOptional readArchqual? t₁ = q' at *
    obtain ⟨c, hc, ht₂⟩ := spells_of_readOptional_readConstraint? q'.2
    generalize readOptional readConstraint? q'.2 = c' at *
    obtain ⟨a, ha, ht₃⟩ := spells_of_readOptional_readArchs? c'.2
    generalize readOptional readArchs? c'.2 = a' at *
    obtain ⟨p, hp, ht₄⟩ := spells_of_readAllProfiles a'.2
    generalize readAllProfiles a'.2 = p' at *
    cases h
    rw [ht, ht₁, ht₂, ht₃, ht₄]
    exact .mk hname hq hc ha hp he
  . cases h

theorem read?_eq_some_iff {r : Relation} {t : Text} : read? t = some r ↔ Spells r t :=
  ⟨spells_of_read?, read?_of_spells⟩

end Relation

end DebianPackaging
