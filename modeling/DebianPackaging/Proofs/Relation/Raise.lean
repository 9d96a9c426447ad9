import DebianPackaging.Proofs.Relation.Floor
import DebianPackaging.Proofs.Relation.Order
import DebianPackaging.Proofs.Relation.ReadBack

/-!
This module contains what raising the bounds of a package does to the text of a field. A bound that is
raised shows: the canonical form with the new bound is never the text that stood there before. So the text
of a field changes if and only if some bound is raised, also where a bound that is no version ends the
raising half way.
-/

namespace DebianPackaging

open Text

namespace Relation

theorem eq_renderArchqual {q : Option Text} {u : Text} (h : SpellsArchqual q u)
    : u = renderArchqual q := by
  cases h with
  | none => rfl
  | some hq =>
    cases hq
    rfl

theorem eq_of_blank_append {b b' t t' : Text} (hb : IsBlankText b) (hb' : IsBlankText b')
    (ht : StopsAt isBlank t) (ht' : StopsAt isBlank t') (h : b ++ t = b' ++ t') : t = t' := by
  rw [← trimStart_blank_append hb ht, h, trimStart_blank_append hb' ht']

theorem IsConstraintVersion.isTrimmed {v : Text} (h : IsConstraintVersion v) : IsTrimmed v := by
  constructor
  . rw [← List.append_nil v]
    exact stopsAt_constraintVersion h (fun _ => isBlank_of_isAlphanum) (by decide) []
  . cases h with
    | mk hc hw =>
      apply stopsAt_reverse_of_forall
      intro d hd
      cases List.mem_cons.mp hd with
      | inl hd =>
        rw [hd]
        cases Bool.or_eq_true_iff.mp hc with
        | inl hc => exact isBlank_of_isAlphanum hc
        | inr hc =>
          rw [beq_iff_eq.mp hc]
          decide
      | inr hd =>
        have := hw d hd
        unfold isConstraintChar at this
        simp only [Bool.and_eq_true, Bool.not_eq_true'] at this
        exact this.2

theorem IsConstraintVersion.not_mem {v : Text} (h : IsConstraintVersion v) : ')' ∉ v := by
  cases h with
  | mk hc hw =>
    intro hmem
    cases List.mem_cons.mp hmem with
    | inl hmem =>
      rw [← hmem] at hc
      exact absurd hc (by decide)
    | inr hmem => exact absurd (hw _ hmem) (by decide)

theorem constraint_of_append {c : Option Constraint} {k : Constraint} {u rest rest' : Text}
    (hop : k.op ∈ operators) (hversion : ')' ∉ k.version) (h : SpellsConstraint c u)
    (hrest : GoesOnWith ['[', '<'] rest) (heq : u ++ rest = renderConstraint k ++ rest')
    : ∃ k', c = some k' ∧ k'.op = k.op ∧ k'.version = trim k.version := by
  have hrender : renderConstraint k ++ rest' =
      (" " : Text) ++ '(' :: (k.op ++ ((" " ++ k.version) ++ ')' :: rest')) := by
    unfold renderConstraint
    simp
  have hopen : ∀ t, StopsAt isBlank ('(' :: t) := fun t => (stopsAt_cons ..).mpr (by decide)
  rw [hrender] at heq
  cases h with
  | none =>
    -- without a constraint the text goes on with other brackets
    have hmem := hrest '('
    rw [← List.nil_append rest, heq, trimStart_blank_append isBlankText_space (hopen _)] at hmem
    simp at hmem
  | @some k' b₁ b₂ b₃ b₄ hop' hversion' h₁ h₂ h₃ h₄ =>
    refine ⟨k', rfl, ?_⟩
    simp only [List.append_assoc, List.cons_append] at heq
    have hops := (List.cons.inj (eq_of_blank_append h₁ isBlankText_space (hopen _) (hopen _) heq)).2
    have hops := eq_of_blank_append h₂ isBlankText_nil (stopsAt_operator hop' _)
      (stopsAt_operator hop _) hops
    have hspace : ∀ t, StopsAt isOperatorChar ((" " : Text) ++ t) :=
      fun t => (stopsAt_cons ..).mpr (by decide)
    have hread := congrArg readOperator? hops
    rw [readOperator?_append hop' (stopsAt_operatorChar h₃ hversion' _),
      readOperator?_append hop (hspace _), Option.some.injEq, Prod.mk.injEq] at hread
    obtain ⟨hsame, hinner⟩ := hread
    -- no text within the brackets has the closing one, so the brackets hold the same text
    have hclose : ')' ∉ b₃ ++ (k'.version ++ b₄) := by
      simp [not_mem_of_isBlankText h₃, not_mem_of_isBlankText h₄, hversion'.not_mem, isBlank]
    have hclose' : ')' ∉ " " ++ k.version := by
      simp [hversion]
    have hcut := congrArg (cut? ')') hinner
    rw [← List.append_assoc k'.version, ← List.append_assoc b₃, ← List.append_assoc (" " : Text),
      cut?_append hclose, cut?_append hclose', Option.some.injEq, Prod.mk.injEq] at hcut
    refine ⟨hsame, ?_⟩
    rw [← hversion'.isTrimmed.trim_eq, ← trim_blank_append_blank h₃ h₄, hcut.1,
      trim_blank_append isBlankText_space]

theorem constraint_of_spells_render {r : Relation} {k : Constraint} (hop : k.op ∈ operators)
    (hversion : ')' ∉ k.version) (h : Spells r ({ r with constraint := some k } : Relation).render)
    : ∃ k', r.constraint = some k' ∧ k'.op = k.op ∧ k'.version = trim k.version := by
  generalize ht : ({ r with constraint := some k } : Relation).render = t at h
  cases h with
  | @mk q c a p e hname hq hc ha hp he =>
    unfold render at ht
    rw [eq_renderArchqual hq] at ht
    simp only [List.append_assoc, List.append_cancel_left_eq, Option.map_some, Option.getD_some] at ht
    have hpe := goesOnWith_profiles hp (goesOnWith_of_isEnd he)
    exact constraint_of_append hop hversion hc (goesOnWith_archs ha hpe) ht.symm

theorem render_raised_ne {r : Relation} {minimum : Version} {t : Text}
    (hread : Version.read minimum.text = .ok minimum) (hfloor : r.hasFloor minimum = .ok false)
    (h : Spells r t)
    : ({ r with constraint := some (r.raisedConstraint minimum) } : Relation).render ≠ t := by
  intro ht
  rw [← ht] at h
  have hkept := r.op_raisedConstraint minimum
  have hversion := r.version_raisedConstraint minimum
  obtain ⟨hbody, htrim⟩ := Version.isBody_trim (Version.read_eq_ok.mp hread)
  have hclose : ')' ∉ (r.raisedConstraint minimum).version := by
    rw [hversion, ← mem_trim_iff (by decide)]
    exact hbody.not_mem (by decide) (by decide)
  obtain ⟨k, hk, hop, hk'⟩ :=
    constraint_of_spells_render (keptOperators_subset_operators hkept) hclose h
  -- the bound that stood there would have been high enough
  have hfloor' := keptOperators_subset_floorOperators hkept
  rw [← hop] at hfloor'
  rw [hversion] at hk'
  have htrue : Clause.hasFloor minimum [r] = .ok true := by
    rw [Clause.hasFloor_iff]
    refine ⟨r, k, { minimum with text := trim minimum.text }, rfl, hk, hfloor', ?_,
      Version.atLeast_self minimum⟩
    rw [hk', Version.read_eq_ok, htrim]
  have hfalse : Clause.hasFloor minimum [r] = .ok false := hfloor
  rw [htrue] at hfalse
  cases hfalse

theorem mem_render_constraint {c : Char} {r : Relation} {k : Constraint}
    (h : c ∈ ({ r with constraint := some k } : Relation).render)
    : c ∈ ({ r with constraint := none } : Relation).render ∨ c ∈ renderConstraint k := by
  unfold render at h ⊢
  simp only [List.mem_append, Option.map_some, Option.map_none, Option.getD_some, Option.getD_none,
    List.not_mem_nil, or_false] at h ⊢
  tauto

theorem separator_not_mem_render_raised {c : Char} (hc : isSeparator c = true) {r : Relation}
    (hr : r.IsWritable) {minimum : Version} (hread : Version.read minimum.text = .ok minimum)
    : c ∉ ({ r with constraint := some (r.raisedConstraint minimum) } : Relation).render := by
  intro hmem
  cases mem_render_constraint hmem with
  | inl hmem =>
    have hg := hr.grammatical
    have hspells := spells_render (r := { r with constraint := none })
      ⟨hg.name, hg.archqual, by simp, hg.archs, hg.profiles⟩
    apply hr.noSeparator c hc
    rcases (separator_mem_iff hc hspells).mp hmem with h | h | ⟨k, hk, _⟩ | h
    . exact .inl h
    . exact .inr (.inl h)
    . cases hk
    . exact .inr (.inr (.inr h))
  | inr hmem =>
    have hop := keptOperators_subset_operators (r.op_raisedConstraint minimum)
    have hoperator := separator_not_mem_operator hc hop
    have hversion := (Version.text_of_read hread).2 c hc
    rw [← r.version_raisedConstraint minimum] at hversion
    unfold renderConstraint at hmem
    rcases separator_cases hc with rfl | rfl <;> simp [hoperator, hversion] at hmem

end Relation

namespace Entry

def raised (name : Text) (minimum : Version) (e : Entry) : Entry :=
  if Clause.isBelow name minimum e.relations then e.raise minimum else e

inductive Raises (name : Text) (minimum : Version) : Entry → Entry → Prop where
  | other {e : Entry} (h : e.isOnly name = false) : Raises name minimum e e
  | high {e : Entry} (h : Clause.IsBounded floorOperators minimum e.relations) : Raises name minimum e e
  /-- Any other entry gets the version, and keeps the operator if that is `>=` or `=`. -/
  | low {a : Alternative} {k : Constraint} (hname : a.name = name)
    (h : ¬ Clause.IsBounded floorOperators minimum [a.spelled.relation])
    (hkept : ∀ old ∈ a.spelled.relation.constraint, old.op ∈ keptOperators → k.op = old.op)
    (hother : (∀ old ∈ a.spelled.relation.constraint, old.op ∉ keptOperators) → k.op = ">=")
    (hversion : k.version = minimum.text)
    : Raises name minimum ⟨a, []⟩ ⟨{ a with spelled := a.spelled.setConstraint (some k) }, []⟩

theorem eq_of_isOnly {e : Entry} {name : Text} (h : e.isOnly name = true)
    : e = ⟨e.first, []⟩ ∧ e.first.name = name := by
  obtain ⟨first, others⟩ := e
  unfold isOnly names alternatives at h
  rw [beq_iff_eq, List.map_cons] at h
  obtain ⟨hname, hothers⟩ := List.cons.inj h
  rw [List.map_eq_nil_iff] at hothers
  subst hothers
  exact ⟨rfl, hname⟩

theorem isBounded_iff {e : Entry} {name : Text} (honly : e.isOnly name = true) {minimum : Version}
    : Clause.IsBounded floorOperators minimum e.relations ↔
        e.first.spelled.relation.hasFloor minimum = .ok true := by
  obtain ⟨he, _⟩ := eq_of_isOnly honly
  rw [he]
  exact Clause.hasFloor_iff.symm

theorem raises_raise {name : Text} {minimum : Version} {a : Alternative} (hname : a.name = name)
    (hfloor : a.spelled.relation.hasFloor minimum = .ok false)
    : Raises name minimum ⟨a, []⟩ (raise ⟨a, []⟩ minimum) := by
  refine .low hname ?_ ?_ ?_ (Relation.version_raisedConstraint ..)
  . rw [← Clause.hasFloor_iff]
    intro htrue
    have hfalse : Clause.hasFloor minimum [a.spelled.relation] = .ok false := hfloor
    rw [htrue] at hfalse
    cases hfalse
  . intro old hold hkept
    unfold Relation.raisedConstraint
    rw [Option.mem_def.mp hold]
    exact if_pos (List.contains_iff_mem.mpr hkept)
  . intro hother
    unfold Relation.raisedConstraint
    split
    . next old hold =>
      apply if_neg
      rw [List.contains_iff_mem]
      exact hother old hold
    . rfl

theorem raises_raised {name : Text} {minimum : Version} {e : Entry}
    (h : e.isOnly name = true → ∃ enough, e.first.spelled.relation.hasFloor minimum = .ok enough)
    : Raises name minimum e (e.raised name minimum) := by
  unfold raised Clause.isBelow
  rw [isOnly_relations]
  cases honly : e.isOnly name with
  | false => exact .other honly
  | true =>
    obtain ⟨enough, henough⟩ := h honly
    have hfloor : Clause.hasFloor minimum e.relations = .ok enough := henough
    rw [hfloor]
    cases enough with
    | true => exact .high ((isBounded_iff honly).mpr henough)
    | false =>
      obtain ⟨he, hname⟩ := eq_of_isOnly honly
      rw [he]
      exact raises_raise hname henough

/-- A bound of the package can be compared with the version `minimum`: it is a version. -/
def Compares (name : Text) (minimum : Version) (e : Entry) : Prop :=
  e.isOnly name = true → ∃ enough, e.first.spelled.relation.hasFloor minimum = .ok enough

theorem exists_error_of_not_compares {name : Text} {minimum : Version} {e : Entry}
    (h : ¬ e.Compares name minimum)
    : e.isOnly name = true ∧ ∃ err, e.first.spelled.relation.hasFloor minimum = .error err := by
  unfold Compares at h
  rw [Classical.not_imp] at h
  refine ⟨h.1, ?_⟩
  cases hfloor : e.first.spelled.relation.hasFloor minimum with
  | error err => exact ⟨err, rfl⟩
  | ok enough => exact absurd ⟨enough, hfloor⟩ h.2

theorem isBelow_iff {name : Text} {minimum : Version} {e : Entry}
    : Clause.isBelow name minimum e.relations = true ↔
        e.isOnly name = true ∧ e.first.spelled.relation.hasFloor minimum = .ok false := by
  have hfloor : Clause.hasFloor minimum e.relations = e.first.spelled.relation.hasFloor minimum := rfl
  unfold Clause.isBelow
  rw [isOnly_relations, hfloor, Bool.and_eq_true]
  apply and_congr_right
  intro _
  split
  . next h => simp [h]
  . next h => simpa using h

theorem text_single (a : Alternative) : text ⟨a, []⟩ = a.lead ++ (a.spelled.text ++ a.trail) := by
  unfold text Text.join alternatives
  rw [List.map_singleton, List.intercalate_singleton]
  exact List.append_assoc ..

theorem text_raise_single (a : Alternative) (minimum : Version)
    : (raise ⟨a, []⟩ minimum).text = a.lead ++
        (({ a.spelled.relation with
            constraint := some (a.spelled.relation.raisedConstraint minimum) } : Relation).render ++
          a.trail) :=
  text_single _

section Text

variable {name : Text} {minimum : Version} (hread : Version.read minimum.text = .ok minimum) {e : Entry}
  (he : e.IsHonest) (hw : e.IsWritable)

include hread he hw

theorem text_raised_ne (hbelow : Clause.isBelow name minimum e.relations = true)
    : (e.raised name minimum).text ≠ e.text := by
  unfold raised
  rw [if_pos hbelow]
  obtain ⟨honly, hfloor⟩ := isBelow_iff.mp hbelow
  obtain ⟨heq, _⟩ := eq_of_isOnly honly
  have hfirst := he e.first List.mem_cons_self
  have hr := (hw _ (relation_mem List.mem_cons_self)).grammatical
  rw [heq, text_raise_single, text_single]
  intro htext
  rw [List.append_cancel_left_eq, List.append_cancel_right_eq] at htext
  exact Relation.render_raised_ne hread hfloor (SpelledRelation.spells_text hfirst.spelled hr).1 htext

theorem raised_eq_self_iff
    : e.raised name minimum = e ↔ Clause.isBelow name minimum e.relations = false := by
  constructor
  . intro heq
    rw [← Bool.not_eq_true]
    intro hbelow
    exact text_raised_ne hread he hw hbelow (congrArg text heq)
  . intro hbelow
    rw [raised, if_neg (by simp [hbelow])]

theorem comma_not_mem_text_raised : ',' ∉ (e.raised name minimum).text := by
  unfold raised
  split
  . next hbelow =>
    obtain ⟨heq, _⟩ := eq_of_isOnly (isBelow_iff.mp hbelow).1
    have hfirst := he e.first List.mem_cons_self
    have hr := hw _ (relation_mem List.mem_cons_self)
    rw [heq, text_raise_single]
    simp only [List.mem_append, not_or]
    exact ⟨Relation.separator_not_mem_blank (by decide) hfirst.lead,
      Relation.separator_not_mem_render_raised (by decide) hr hread,
      Relation.separator_not_mem_blank (by decide) hfirst.trail⟩
  . exact comma_not_mem_text he hw

end Text

end Entry

namespace Segment

def raised (name : Text) (minimum : Version) : Segment → Segment
  | .blank t => .blank t
  | .entry lead e trail => .entry lead (e.raised name minimum) trail

inductive Raises (name : Text) (minimum : Version) : Segment → Segment → Prop where
  | blank (t : Text) : Raises name minimum (.blank t) (.blank t)
  | entry {lead trail : Text} {e e' : Entry} (h : Entry.Raises name minimum e e')
    : Raises name minimum (.entry lead e trail) (.entry lead e' trail)

theorem entries_map_raised (name : Text) (minimum : Version) (ss : List Segment)
    : entries (ss.map (raised name minimum)) = (entries ss).map (Entry.raised name minimum) := by
  induction ss with
  | nil => rfl
  | cons s ss ih =>
    cases s with
    | blank t => exact ih
    | entry lead e trail => exact congrArg (_ :: ·) ih

theorem raises_map_raised {name : Text} {minimum : Version} {ss : List Segment}
    (h : ∀ e ∈ entries ss, e.Compares name minimum)
    : List.Forall₂ (Raises name minimum) ss (ss.map (raised name minimum)) := by
  rw [List.forall₂_map_right_iff, List.forall₂_same]
  intro s hs
  cases s with
  | blank t => exact .blank t
  | entry lead e trail =>
    apply Raises.entry
    apply Entry.raises_raised
    apply h
    exact List.mem_filterMap.mpr ⟨_, hs, rfl⟩

section Text

variable {name : Text} {minimum : Version} (hread : Version.read minimum.text = .ok minimum) {s : Segment}
  (hs : s.IsHonest) (hw : ∀ e ∈ s.content?, e.IsWritable)

include hread hs hw

theorem comma_not_mem_text_raised : ',' ∉ (s.raised name minimum).text := by
  cases hs with
  | blank ht => exact Relation.separator_not_mem_blank (by decide) ht
  | entry hlead he htrail =>
    unfold raised Segment.text
    simp only [List.mem_append, not_or]
    exact ⟨⟨Relation.separator_not_mem_blank (by decide) hlead,
      Entry.comma_not_mem_text_raised hread he (hw _ rfl)⟩,
      Relation.separator_not_mem_blank (by decide) htrail⟩

theorem text_raised_eq_iff
    : (s.raised name minimum).text = s.text ↔
        ∀ e ∈ s.content?, Clause.isBelow name minimum e.relations = false := by
  cases hs with
  | @blank t ht =>
    simp [raised, content?]
  | @entry lead trail e hlead he htrail =>
    have hne : Clause.isBelow name minimum e.relations = true →
        (e.raised name minimum).text ≠ e.text := Entry.text_raised_ne hread he (hw _ rfl)
    simp only [raised, Segment.text, content?, Option.mem_def, Option.some.injEq, forall_eq',
      List.append_cancel_left_eq, List.append_cancel_right_eq]
    constructor
    . intro htext
      rw [← Bool.not_eq_true]
      intro hbelow
      exact hne hbelow htext
    . intro hbelow
      rw [Entry.raised, if_neg (by simp [hbelow])]

end Text

end Segment

namespace RelationField

theorem raise_entry_of_compares {name : Text} {minimum : Version} {e : Entry}
    (h : e.Compares name minimum) (lead trail : Text) (ss : List Segment)
    : ∃ change : Raised → Raised, raise name minimum (.entry lead e trail :: ss) =
        (.entry lead (e.raised name minimum) trail :: (raise name minimum ss).1,
          (raise name minimum ss).2.map change) := by
  unfold Entry.raised
  rw [raise]
  split
  . next honly =>
    obtain ⟨enough, henough⟩ := h honly
    rw [henough]
    cases enough with
    | true =>
      have hbelow : ¬ Clause.isBelow name minimum e.relations = true := by
        simp [Entry.isBelow_iff, henough]
      rw [if_neg hbelow]
      exact ⟨_, rfl⟩
    | false =>
      rw [if_pos (Entry.isBelow_iff.mpr ⟨honly, henough⟩)]
      exact ⟨_, rfl⟩
  . next honly =>
    have hbelow : ¬ Clause.isBelow name minimum e.relations = true := by
      simp [Entry.isBelow_iff, honly]
    rw [if_neg hbelow]
    refine ⟨id, ?_⟩
    cases h : raise name minimum ss with
    | mk us result => cases result <;> rfl

theorem raise_entry_of_error {name : Text} {minimum : Version} {e : Entry} {err : Error}
    (honly : e.isOnly name = true) (h : e.first.spelled.relation.hasFloor minimum = .error err)
    (lead trail : Text) (ss : List Segment)
    : raise name minimum (.entry lead e trail :: ss) = (.entry lead e trail :: ss, .error err) := by
  rw [raise, if_pos honly, h]

theorem raise_cases (name : Text) (minimum : Version) (ss : List Segment)
    : (∀ e ∈ Segment.entries ss, e.Compares name minimum) ∧
        (∃ r, raise name minimum ss = (ss.map (Segment.raised name minimum), .ok r)) ∨
      ∃ front lead e trail back err, ss = front ++ .entry lead e trail :: back ∧
        (∀ o ∈ Segment.entries front, o.Compares name minimum) ∧ e.isOnly name = true ∧
        e.first.spelled.relation.hasFloor minimum = .error err ∧
        raise name minimum ss =
          (front.map (Segment.raised name minimum) ++ .entry lead e trail :: back, .error err) := by
  induction ss with
  | nil =>
    left
    exact ⟨by simp, {}, rfl⟩
  | cons s ss ih =>
    cases s with
    | blank t =>
      rw [raise]
      rcases ih with ⟨hall, r, hr⟩ | ⟨front, lead, e, trail, back, err, rfl, hfront, honly, herr, hraise⟩
      . rw [hr]
        exact .inl ⟨hall, r, rfl⟩
      . rw [hraise]
        exact .inr ⟨.blank t :: front, lead, e, trail, back, err, rfl, hfront, honly, herr, rfl⟩
    | entry lead o trail =>
      by_cases ho : o.Compares name minimum
      . obtain ⟨change, hstep⟩ := raise_entry_of_compares ho lead trail ss
        rw [hstep]
        rcases ih with
          ⟨hall, r, hr⟩ | ⟨front, lead', e, trail', back, err, rfl, hfront, honly, herr, hraise⟩
        . rw [hr]
          exact .inl ⟨List.forall_mem_cons.mpr ⟨ho, hall⟩, change r, rfl⟩
        . rw [hraise]
          exact .inr ⟨.entry lead o trail :: front, lead', e, trail', back, err, rfl,
            List.forall_mem_cons.mpr ⟨ho, hfront⟩, honly, herr, rfl⟩
      . obtain ⟨honly, err, herr⟩ := Entry.exists_error_of_not_compares ho
        exact .inr ⟨[], lead, o, trail, ss, err, rfl, by simp, honly, herr,
          raise_entry_of_error honly herr lead trail ss⟩

theorem text_map_raised_append_iff (name : Text) {minimum : Version}
    (hread : Version.read minimum.text = .ok minimum) (front back : List Segment)
    (hhonest : ∀ s ∈ front ++ back, s.IsHonest)
    (hw : ∀ s ∈ front ++ back, ∀ e ∈ s.content?, e.IsWritable)
    : text ⟨front.map (Segment.raised name minimum) ++ back⟩ = text ⟨front ++ back⟩ ↔
        ∀ e ∈ Segment.entries front, Clause.isBelow name minimum e.relations = false := by
  rw [List.forall_mem_append] at hhonest hw
  have hparts : text ⟨front.map (Segment.raised name minimum) ++ back⟩ = text ⟨front ++ back⟩ ↔
      ∀ s ∈ front, (s.raised name minimum).text = s.text := by
    unfold RelationField.text
    dsimp only
    rw [List.map_append, List.map_append, List.map_map]
    constructor
    . intro htext
      have hback : ∀ t ∈ back.map (·.text), ',' ∉ t := by
        rw [List.forall_mem_map]
        exact fun s hs => Segment.comma_not_mem_text (hhonest.2 s hs) (hw.2 s hs)
      have hmap := eq_of_intercalate_eq (c := ',') ?_ ?_ (by simp) htext
      . exact List.map_inj_left.mp (List.append_cancel_right hmap)
      . refine List.forall_mem_append.mpr ⟨List.forall_mem_map.mpr fun s hs => ?_, hback⟩
        exact Segment.comma_not_mem_text_raised hread (hhonest.1 s hs) (hw.1 s hs)
      . refine List.forall_mem_append.mpr ⟨List.forall_mem_map.mpr fun s hs => ?_, hback⟩
        exact Segment.comma_not_mem_text (hhonest.1 s hs) (hw.1 s hs)
    . intro hall
      have hmap := List.map_inj_left.mpr hall
      rw [← hmap]
      rfl
  rw [hparts]
  constructor
  . intro hall e he
    obtain ⟨s, hs, hcontent⟩ := List.mem_filterMap.mp he
    exact (Segment.text_raised_eq_iff hread (hhonest.1 s hs) (hw.1 s hs)).mp (hall s hs) e hcontent
  . intro hall s hs
    rw [Segment.text_raised_eq_iff hread (hhonest.1 s hs) (hw.1 s hs)]
    intro e he
    exact hall e (List.mem_filterMap.mpr ⟨s, hs, he⟩)

end RelationField

end DebianPackaging
