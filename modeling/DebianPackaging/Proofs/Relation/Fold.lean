import DebianPackaging.Proofs.Relation.Edit
import DebianPackaging.Proofs.Text.Fold

/-!
This module contains the line ends of relationship fields. What holds of the lines of a text, such as that
they are folded, holds of those of the field that is read from it, and still does after an edit that brings
in no line end.
-/

namespace DebianPackaging

open Text

namespace Text

theorem head?_trim_cons {c : Char} (hc : isBlank c = false) (t : Text) : (trim (c :: t)).head? = some c := by
  have happend := lead_append_trim_append_trail (c :: t)
  have hlead : lead (c :: t) = [] := by simp [lead, hc]
  have hne : trim (c :: t) ≠ [] := by
    intro hnil
    have := trim_eq_nil_iff.mp hnil c List.mem_cons_self
    rw [hc] at this
    cases this
  rw [hlead, List.nil_append] at happend
  rw [← List.head?_append_of_ne_nil _ hne, happend]
  rfl

theorem exists_splitOn_cons {c d : Char} (h : d ≠ c) (t : Text)
    : ∃ w ws, (d :: t).splitOn c = (d :: w) :: ws := by
  obtain ⟨w, ws, hsplit⟩ := List.exists_cons_of_ne_nil (List.splitOn_ne_nil c t)
  refine ⟨w, ws, ?_⟩
  unfold List.splitOn at hsplit ⊢
  rw [List.splitOnP_cons_eq_if_modifyHead, if_neg (by simpa using h), hsplit]
  rfl

end Text

namespace Relation

theorem not_spells_of_head? {r : Relation} {t : Text} (h : Spells r t) : t.head? ≠ some '#' := by
  intro hhead
  obtain ⟨u, rfl⟩ := List.head?_eq_some_iff.mp hhead
  have := read?_of_spells h
  cases this

section Render

variable {c : Char} (hc : isBlank c = true)

include hc

theorem blank_not_mem {w : Text} (hw : ∀ d ∈ w, isBlank d = false) : c ∉ w := by
  intro hmem
  have := hw c hmem
  rw [hc] at this
  cases this

theorem blank_not_mem_archqual {q : Option Text} (hq : ∀ q' ∈ q, IsArchqual q') : c ∉ renderArchqual q := by
  cases q with
  | none => simp [renderArchqual]
  | some q =>
    cases hq q rfl with
    | @mk d w hd hw =>
      have hblank : ∀ e ∈ ':' :: d :: w, isBlank e = false := by
        rw [List.forall_mem_cons, List.forall_mem_cons]
        refine ⟨by decide, isBlank_of_isAlphanum hd, ?_⟩
        intro e he
        cases Bool.or_eq_true_iff.mp (hw e he) with
        | inl halphanum => exact isBlank_of_isAlphanum halphanum
        | inr hdash =>
          rw [beq_iff_eq.mp hdash]
          decide
      exact blank_not_mem hc hblank

theorem blank_not_mem_version {v : Text} (hv : IsConstraintVersion v) : c ∉ v := by
  cases hv with
  | @mk d w hd hw =>
    have hblank : ∀ e ∈ d :: w, isBlank e = false := by
      rw [List.forall_mem_cons]
      constructor
      . cases Bool.or_eq_true_iff.mp hd with
        | inl halphanum => exact isBlank_of_isAlphanum halphanum
        | inr hdollar =>
          rw [beq_iff_eq.mp hdollar]
          decide
      . intro e he
        have := hw e he
        unfold isConstraintChar at this
        simp only [Bool.and_eq_true, Bool.not_eq_true'] at this
        exact this.2
    exact blank_not_mem hc hblank

theorem blank_not_mem_render (hne : c ≠ ' ') {r : Relation} (hr : r.IsGrammatical) (hname : c ∉ r.name)
    : c ∉ r.render := by
  have hbracket {d : Char} (hd : isBlank d = false) : c ≠ d := by
    rintro rfl
    rw [hc] at hd
    cases hd
  have hjoin {ws : List Text} (hws : ∀ w ∈ ws, c ∉ w) : c ∉ join [' '] ws := by
    intro hmem
    rcases mem_join hmem with hmem | ⟨w, hw, hmem⟩
    . exact hne (by simpa using hmem)
    . exact hws w hw hmem
  have hconstraint : c ∉ (r.constraint.map renderConstraint).getD [] := by
    cases hk : r.constraint with
    | none => simp
    | some k =>
      obtain ⟨hop, hversion⟩ := hr.constraint k hk
      have hoperator : operators.all (fun op => op.all fun d => !isBlank d) = true := by decide
      have hop : c ∉ k.op := by
        apply blank_not_mem hc
        intro d hd
        simpa using List.all_eq_true.mp (List.all_eq_true.mp hoperator k.op hop) d hd
      simp [renderConstraint, hop, blank_not_mem_version hc hversion, hne, hbracket (d := '(') (by decide),
        hbracket (d := ')') (by decide)]
  have harchs : c ∉ renderArchs r.archs := by
    have := hjoin fun w hw => blank_not_mem hc (hr.archs w hw).1.notBlank
    unfold renderArchs
    split
    . simp
    . simp [this, hne, hbracket (d := '[') (by decide), hbracket (d := ']') (by decide)]
  have hprofiles : c ∉ renderAllProfiles r.profiles := by
    have hgroup : ∀ group ∈ r.profiles, c ∉ renderProfiles group := by
      intro group hgroup
      have := hjoin fun w hw => blank_not_mem hc (hr.profiles group hgroup w hw).1.notBlank
      simp [renderProfiles, this, hbracket (d := '<') (by decide), hbracket (d := '>') (by decide)]
    have := hjoin (List.forall_mem_map.mpr hgroup)
    unfold renderAllProfiles
    split
    . simp
    . simp [this, hne]
  unfold render
  simp [hname, blank_not_mem_archqual hc hr.archqual, hconstraint, harchs, hprofiles]

end Render

theorem not_ends_render {ends : Char → Bool} (hends : ∀ c, ends c = true → isLineEnd c = true) {r : Relation}
    (hr : r.IsGrammatical) (hname : ∀ c ∈ r.name, ends c = false) : ∀ c ∈ r.render, ends c = false := by
  intro c hc
  rw [← Bool.not_eq_true]
  intro hend
  have hne : c ≠ ' ' := by
    rintro rfl
    cases hends _ hend
  apply blank_not_mem_render (isBlank_of_isLineEnd (hends c hend)) hne hr ?_ hc
  intro hmem
  rw [hname c hmem] at hend
  cases hend

end Relation

namespace Entry

theorem not_ends_ofFloor {ends : Char → Bool} (hends : ∀ c, ends c = true → isLineEnd c = true) {name : Text}
    {minimum : Version} (hname : Relation.IsName name) (hfree : ∀ c ∈ name, ends c = false)
    (hversion : Relation.IsConstraintVersion minimum.text)
    : ∀ c ∈ (ofFloor name minimum).text, ends c = false := by
  have hgrammatical : ({ name, constraint := some ⟨">=", minimum.text⟩ } : Relation).IsGrammatical := by
    refine ⟨hname, by simp, ?_, by simp, by simp⟩
    intro c hc
    cases hc
    exact ⟨Relation.ge_mem_operators, hversion⟩
  have htext : (ofFloor name minimum).text =
      ({ name, constraint := some ⟨">=", minimum.text⟩ } : Relation).render := by
    simp [ofFloor, Entry.text, Entry.alternatives, Text.join, Alternative.text, SpelledRelation.text]
  rw [htext]
  exact Relation.not_ends_render hends hgrammatical hfree

end Entry

namespace Segment

/-- The parts of a segment satisfy `P`, also once there is something else in front of its entry. -/
inductive Obeys (P : Text → Prop) : Segment → Prop where
  | blank {t : Text} (ht : P t) : Obeys P (.blank t)
  | entry {lead trail : Text} {e : Entry} (hlead : P lead) (he : P (e.text ++ trail))
    (hjoint : '\n' ∉ Text.lead (e.text ++ trail))
    : Obeys P (.entry lead e trail)

section Obeys

variable {ends : Char → Bool} {P : Text → Prop} (hP : LineClosed ends P)

include hP

theorem Obeys.text {s : Segment} (h : s.Obeys P) : P s.text := by
  cases h with
  | blank ht => exact ht
  | entry hlead he hjoint =>
    unfold Segment.text
    dsimp only
    rw [List.append_assoc]
    exact hP.append hlead he hjoint

theorem obeys_of_read {t : Text} {s : Segment} (h : Segment.read t = .ok s) (ht : P t) : s.Obeys P := by
  have htext := text_of_read h
  unfold Segment.read at h
  split at h
  . cases h
    exact .blank ht
  . next hne =>
    obtain ⟨e, he, h⟩ := bind_eq_ok.mp h
    cases h
    unfold Segment.text at htext
    dsimp only at htext
    rw [← htext, List.append_assoc] at ht
    have hstops : StopsAt isBlank (e.text ++ t.trimStart.trail) := by
      rw [Entry.text_of_read he]
      exact (isTrimmed_trim t).start.append hne _
    exact .entry (hP.left ht hstops) (hP.right ht) (not_mem_lead_of_stopsAt hstops _)

theorem obeys_entry {lead : Text} (hlead : P lead) {e : Entry} (he : ∀ c ∈ e.text, ends c = false)
    : Obeys P (.entry lead e []) := by
  refine .entry hlead ?_ ?_
  . rw [List.append_nil]
    exact hP.free he
  . rw [List.append_nil]
    intro hmem
    exact hP.feed_not_mem he ((List.takeWhile_prefix _).subset hmem)

section Raise

variable {minimum : Version} (hversion : Relation.IsConstraintVersion minimum.text)
  (hsep : ∀ c, Relation.isSeparator c = true → c ∉ minimum.text)

include hversion hsep

theorem obeys_raise {lead trail : Text} {e : Entry} (h : Obeys P (.entry lead e trail)) (he : e.IsHonest)
    (hw : e.IsWritable) {name : Text} (honly : e.isOnly name = true) (hname : ∀ c ∈ name, ends c = false)
    : Obeys P (.entry lead (e.raise minimum) trail) := by
  obtain ⟨first, others⟩ := e
  unfold Entry.isOnly Entry.names Entry.alternatives at honly
  rw [beq_iff_eq, List.map_cons, List.cons.injEq, List.map_eq_nil_iff] at honly
  obtain ⟨rfl, rfl⟩ := honly
  have htext (a : Alternative) : Entry.text ⟨a, []⟩ = a.lead ++ (a.spelled.text ++ a.trail) := by
    simp [Entry.text, Entry.alternatives, Text.join, Alternative.text]
  have hfirst := he first (by simp [Entry.alternatives])
  have hw := hw first.spelled.relation (by simp [Entry.relations, Entry.alternatives])
  obtain ⟨hspells, htrimmed⟩ := SpelledRelation.spells_text hfirst.spelled hw.grammatical
  have hwritable := Relation.isWritable_raised hversion hsep hw
  have hrender := Relation.not_ends_render hP.lineEnd hwritable.grammatical hname
  have htrimmed' := Relation.isTrimmed_render hwritable.grammatical
  have hne : first.spelled.text ≠ [] := by
    intro hnil
    rw [hnil] at hspells
    exact Relation.not_spells_nil _ hspells
  have hstops := htrimmed.start.append hne (first.trail ++ trail)
  have hstops' := htrimmed'.start.append (Relation.render_ne_nil hwritable.grammatical)
    (first.trail ++ trail)
  cases h with
  | entry hlead hobeys hjoint =>
    rw [htext] at hobeys hjoint
    simp only [List.append_assoc] at hobeys hjoint
    have hnone : '\n' ∉ first.lead := by
      intro hmem
      apply hjoint
      unfold Text.lead
      rw [List.takeWhile_append_of_pos hfirst.lead]
      exact List.mem_append_left _ hmem
    have hrest : P (first.trail ++ trail) := hP.right (hP.right hobeys)
    unfold Entry.raise
    dsimp only
    refine .entry hlead ?_ ?_
    . rw [htext, List.append_assoc, List.append_assoc]
      apply hP.append (hP.left hobeys hstops) ?_ (not_mem_lead_of_stopsAt hstops' _)
      apply hP.solid hrender ?_ hrest
      rw [← List.head?_reverse]
      exact htrimmed'.finish
    . rw [htext, List.append_assoc, List.append_assoc]
      intro hmem
      rcases mem_lead_append hmem with hmem | hmem
      . exact hnone ((List.takeWhile_prefix _).subset hmem)
      . exact not_mem_lead_of_stopsAt hstops' _ hmem

end Raise

theorem Displaces.obeys {sep : Text} {e : Entry} {back back' : List Segment}
    (h : Displaces sep e back back') (hsep : P sep) (he : ∀ c ∈ e.text, ends c = false)
    (hback : ∀ s ∈ back, s.Obeys P) : ∀ s ∈ back', s.Obeys P := by
  cases h with
  | last _ => exact List.forall_mem_cons.mpr ⟨obeys_entry hP hsep he, hback⟩
  | before lead trail o back =>
    obtain ⟨ho, hback⟩ := List.forall_mem_cons.mp hback
    rw [List.forall_mem_cons, List.forall_mem_cons]
    cases ho with
    | entry hlead ho hjoint => exact ⟨obeys_entry hP hlead he, .entry hsep ho hjoint, hback⟩

end Obeys

end Segment

namespace RelationField

theorem head?_ne_of_read {t : Text} {f : RelationField} (h : RelationField.read t = .ok f)
    : t.head? ≠ some '#' := by
  intro hhead
  obtain ⟨u, rfl⟩ := List.head?_eq_some_iff.mp hhead
  have hblank : isBlank '#' = false := by decide
  obtain ⟨w, ws, hparts⟩ := exists_splitOn_cons (c := ',') (d := '#') (by decide) u
  obtain ⟨v, vs, halternatives⟩ := exists_splitOn_cons (c := '|') (d := '#') (by decide) w
  have hpart : '#' :: w ∈ parts ('#' :: u) := by
    unfold parts
    rw [hparts, List.mem_filter]
    refine ⟨List.mem_cons_self, ?_⟩
    rw [decide_eq_true_eq]
    intro hnil
    have := head?_trim_cons hblank w
    rw [hnil] at this
    cases this
  obtain ⟨c, _, hmeans⟩ := exists_of_mem_forall₂_left (means_of_read h) hpart
  unfold Entry.Means at hmeans
  rw [halternatives] at hmeans
  obtain ⟨r, _, hspells, _⟩ := List.forall₂_cons_left_iff.mp hmeans
  exact Relation.not_spells_of_head? hspells (head?_trim_cons hblank v)

def Obeys (P : Text → Prop) (f : RelationField) : Prop := ∀ s ∈ f.segments, s.Obeys P

section Obeys

variable {ends : Char → Bool} {P : Text → Prop} (hP : LineClosed ends P)

include hP

theorem Obeys.text {f : RelationField} (h : f.Obeys P) : P f.text := by
  unfold RelationField.text
  rw [hP.join_iff, List.forall_mem_map]
  intro s hs
  exact (h s hs).text hP

theorem obeys_of_read {t : Text} {f : RelationField} (h : RelationField.read t = .ok f) (ht : P t)
    : f.Obeys P := by
  obtain ⟨_, rfl⟩ | ⟨_, hss⟩ := segments_of_read h
  . intro s hs
    cases hs
  . have hparts : ∀ part ∈ t.splitOn ',', P part := by
      rw [← hP.join_iff]
      unfold Text.join
      rwa [show (",".toList : Text) = [','] from rfl, List.intercalate_splitOn]
    intro s hs
    obtain ⟨part, hpart, hread⟩ := exists_of_mem_forall₂ hss hs
    exact Segment.obeys_of_read hP hread (hparts part hpart)

theorem obeys_separator {ss : List Segment} (h : ∀ s ∈ ss, s.Obeys P) : P (separator ss) := by
  rcases separator_eq_or_mem ss with heq | hmem
  . rw [heq]
    apply hP.free
    intro c hc
    rw [List.mem_singleton.mp hc]
    exact hP.not_ends (by decide)
  . obtain ⟨s, hs, heq⟩ := List.mem_filterMap.mp hmem
    cases h s hs with
    | blank => cases heq
    | entry hlead _ _ =>
      cases heq
      exact hlead

theorem obeys_add {f : RelationField} {e : Entry} (hf : f.Obeys P) (he : ∀ c ∈ e.text, ends c = false)
    : (f.add e).1.Obeys P := by
  by_cases hne : f.entries = []
  . rw [add_of_no_entries hne]
    intro s hs
    rw [List.mem_singleton.mp hs]
    exact Segment.obeys_entry hP (hP.free (t := []) (by simp)) he
  . obtain ⟨front, back, back', hss, hadd, hdisplaces, _⟩ := exists_add hne e
    have hsep := obeys_separator hP hf
    unfold Obeys at hf ⊢
    rw [hss, List.forall_mem_append] at hf
    rw [hadd, List.forall_mem_append]
    exact ⟨hf.1, hdisplaces.obeys hP hsep he hf.2⟩

theorem obeys_ensure {f : RelationField} {e : Entry} (hf : f.Obeys P) (he : ∀ c ∈ e.text, ends c = false)
    : (f.ensure e).1.Obeys P := by
  unfold RelationField.ensure
  split
  . exact hf
  . exact obeys_add hP hf he

section Raise

variable {name : Text} (hname : ∀ c ∈ name, ends c = false) {minimum : Version}
  (hversion : Relation.IsConstraintVersion minimum.text)
  (hsep : ∀ c, Relation.isSeparator c = true → c ∉ minimum.text)

include hname hversion hsep

theorem obeys_raise {ss : List Segment} (h : ∀ s ∈ ss, s.Obeys P) (hhonest : ∀ s ∈ ss, s.IsHonest)
    (hw : ∀ s ∈ ss, ∀ e ∈ s.content?, e.IsWritable) : ∀ s ∈ (raise name minimum ss).1, s.Obeys P := by
  induction ss with
  | nil => exact h
  | cons s ss ih =>
    obtain ⟨hs, hss⟩ := List.forall_mem_cons.mp h
    obtain ⟨hhonest', hhonests⟩ := List.forall_mem_cons.mp hhonest
    obtain ⟨hw', hws⟩ := List.forall_mem_cons.mp hw
    specialize ih hss hhonests hws
    cases s with
    | blank t => exact List.forall_mem_cons.mpr ⟨hs, ih⟩
    | entry lead e trail =>
      unfold raise
      split
      . next honly =>
        split
        . exact h
        . exact List.forall_mem_cons.mpr ⟨hs, ih⟩
        . have hraised := Segment.obeys_raise hP hversion hsep hs (hhonest'.of_content rfl) (hw' e rfl)
            honly hname
          exact List.forall_mem_cons.mpr ⟨hraised, ih⟩
      . exact List.forall_mem_cons.mpr ⟨hs, ih⟩

theorem obeys_ensureVersion {f : RelationField} (hf : f.Obeys P) (hhonest : f.IsHonest)
    (hw : f.IsWritable) (hname' : Relation.IsName name) : (f.ensureVersion name minimum).1.Obeys P := by
  have hraise := obeys_raise hP hname hversion hsep hf hhonest (isWritable_segments hw)
  unfold RelationField.ensureVersion
  rcases h : raise name minimum f.segments with ⟨ss, result⟩
  rw [h] at hraise
  cases result with
  | error err => exact hraise
  | ok r =>
    dsimp
    split
    . exact hraise
    . exact obeys_add hP hraise (Entry.not_ends_ofFloor hP.lineEnd hname' hname hversion)

end Raise

end Obeys

end RelationField

end DebianPackaging
