import DebianPackaging.Proofs.Relation.Raise

/-!
This module contains what it means for a field to ask for a package in at least some version, and the proof
that a field that is made to does so, that nothing else in it changes, and that it says so if and only if
its text changes. Where a bound of the package is no version, the bounds in front of it have been raised
when this is noticed, so a failure leaves the field as it was if and only if those were high enough.
-/

namespace DebianPackaging

open Text

namespace RelationField

/-- The field `g`, which `f` has become, asks for a package in at least the version `minimum`. -/
structure EnsuresVersion (name : Text) (minimum : Version) (f g : RelationField) (changed : Bool) : Prop where
  raises : (∃ e ∈ f.entries, e.isOnly name = true) →
    List.Forall₂ (Segment.Raises name minimum) f.segments g.segments
  adds : (∀ e ∈ f.entries, e.isOnly name = false) →
    ∃ front back, f.entries = front ++ back ∧ g.entries = front ++ Entry.ofFloor name minimum :: back
  found : ∃ e ∈ g.entries, e.isOnly name = true
  enough : ∀ e ∈ g.entries, e.isOnly name = true → Clause.IsBounded floorOperators minimum e.relations
  changed_iff : changed = true ↔ g.text ≠ f.text

/-- Raising the bounds of a package in `f` ends at the entry `e`, whose bound is no version, and leaves
`g`. -/
structure StopsAt (name : Text) (minimum : Version) (err : Error) (front : List Segment) (e : Entry)
    (f g : RelationField) : Prop where
  only : e.isOnly name = true
  fails : ∃ k ∈ e.first.spelled.relation.constraint, k.op ∈ floorOperators ∧
    Version.read k.version = .error err
  compares : ∀ o ∈ Segment.entries front, o.Compares name minimum
  raises : ∃ front' lead trail back, f.segments = front ++ .entry lead e trail :: back ∧
    g.segments = front' ++ .entry lead e trail :: back ∧
    List.Forall₂ (Segment.Raises name minimum) front front'
  text_iff : g.text = f.text ↔ ∀ o ∈ Segment.entries front,
    o.isOnly name = true → Clause.IsBounded floorOperators minimum o.relations
  entries_iff : g.entries = f.entries ↔ ∀ o ∈ Segment.entries front,
    o.isOnly name = true → Clause.IsBounded floorOperators minimum o.relations

end RelationField

namespace Relation

theorem hasFloor_eq_error {r : Relation} {minimum : Version} {err : Error}
    : r.hasFloor minimum = .error err ↔
        ∃ k ∈ r.constraint, k.op ∈ floorOperators ∧ Version.read k.version = .error err := by
  unfold hasFloor
  split
  . next h => simp [h]
  . next k hk =>
    simp only [hk, Option.mem_def, Option.some.injEq, exists_eq_left', List.contains_iff_mem]
    split
    . next hop =>
      cases Version.read k.version <;> simp [hop, bind, Except.bind, pure, Except.pure]
    . next hop => simp [hop]

end Relation

namespace Entry

theorem compares_of_versions {name : Text} {minimum : Version} {e : Entry}
    (h : e.isOnly name = true → ∀ k ∈ e.first.spelled.relation.constraint, k.op ∈ floorOperators →
      ∃ v, Version.read k.version = .ok v) : e.Compares name minimum := by
  by_contra hnot
  obtain ⟨honly, err, herr⟩ := exists_error_of_not_compares hnot
  obtain ⟨k, hk, hop, hversion⟩ := Relation.hasFloor_eq_error.mp herr
  obtain ⟨v, hv⟩ := h honly k hk hop
  rw [hv] at hversion
  cases hversion

theorem not_isBelow_iff {name : Text} {minimum : Version} {e : Entry} (h : e.Compares name minimum)
    : Clause.isBelow name minimum e.relations = false ↔
        (e.isOnly name = true → Clause.IsBounded floorOperators minimum e.relations) := by
  rw [← Bool.not_eq_true, isBelow_iff, not_and]
  apply forall_congr'
  intro honly
  obtain ⟨enough, henough⟩ := h honly
  rw [isBounded_iff honly, henough]
  cases enough <;> simp

theorem compares_of_isBounded {name : Text} {minimum : Version} {e : Entry}
    (h : e.isOnly name = true → Clause.IsBounded floorOperators minimum e.relations)
    : e.Compares name minimum := by
  intro honly
  exact ⟨true, (isBounded_iff honly).mp (h honly)⟩

theorem relations_raised (name : Text) (minimum : Version) (e : Entry)
    : (e.raised name minimum).relations = Clause.raised name minimum e.relations := by
  unfold raised Clause.raised
  split <;> rfl

theorem isOnly_raised (name : Text) (minimum : Version) (e : Entry)
    : (e.raised name minimum).isOnly name = e.isOnly name := by
  rw [← isOnly_relations, relations_raised, Clause.isOnly_raised, isOnly_relations]

theorem isBounded_raised {name : Text} {minimum : Version}
    (hread : Version.read minimum.text = .ok minimum) {e : Entry} (h : e.Compares name minimum)
    (honly : e.isOnly name = true)
    : Clause.IsBounded floorOperators minimum (e.raised name minimum).relations := by
  obtain ⟨enough, henough⟩ := h honly
  have honly' : Clause.isOnly (e.raised name minimum).relations name = true := by
    rw [isOnly_relations, isOnly_raised, honly]
  apply Clause.isBounded_of_hasFloor honly'
  rw [relations_raised]
  rw [← isOnly_relations] at honly
  exact Clause.hasFloor_raised hread honly henough

theorem isBounded_ofFloor {minimum : Version} (hread : Version.read minimum.text = .ok minimum)
    (name : Text) : Clause.IsBounded floorOperators minimum (ofFloor name minimum).relations :=
  ⟨_, ⟨">=", minimum.text⟩, minimum, rfl, rfl, List.mem_cons_self, hread, Version.atLeast_self minimum⟩

end Entry

namespace RelationField

section Raise

variable {name : Text} {minimum : Version}

theorem raise_of_compares {ss : List Segment} (h : ∀ e ∈ Segment.entries ss, e.Compares name minimum)
    : raise name minimum ss = (ss.map (Segment.raised name minimum),
        .ok ⟨(Segment.entries ss).any (·.isOnly name),
          (Segment.entries ss).any fun e => Clause.isBelow name minimum e.relations⟩) := by
  rcases raise_cases name minimum ss with
    ⟨_, r, hr⟩ | ⟨front, lead, e, trail, back, err, rfl, _, honly, herr, _⟩
  . -- what was found and changed does not depend on how the entries are written
    have hclauses := (clauses_raise name minimum ss).2
    rw [hr] at hclauses
    obtain ⟨_, hfound, hchanged⟩ := Clause.raise_of_ok hclauses.symm
    have hss : Segment.clauses ss = (Segment.entries ss).map (·.relations) := rfl
    have honly : ((·.isOnly name) : Clause → Bool) ∘ Entry.relations = (·.isOnly name) :=
      funext fun e => e.isOnly_relations name
    rw [hss, List.any_map] at hfound hchanged
    rw [honly] at hfound
    obtain ⟨found, changed⟩ := r
    subst hfound hchanged
    exact hr
  . obtain ⟨enough, henough⟩ := h e (by simp) honly
    rw [henough] at herr
    cases herr

theorem map_raised_of_not_isBelow {ss : List Segment}
    (h : ∀ e ∈ Segment.entries ss, Clause.isBelow name minimum e.relations = false)
    : ss.map (Segment.raised name minimum) = ss := by
  rw [← List.map_id' ss, List.map_map, List.map_inj_left]
  intro s hs
  cases s with
  | blank t => rfl
  | entry lead e trail =>
    have := h e (List.mem_filterMap.mpr ⟨_, hs, rfl⟩)
    simp [Segment.raised, Entry.raised, this]

theorem ensureVersion_of_found {f : RelationField} (h : ∀ e ∈ f.entries, e.Compares name minimum)
    (hfound : ∃ e ∈ f.entries, e.isOnly name = true)
    : f.ensureVersion name minimum = (⟨f.segments.map (Segment.raised name minimum)⟩,
        .ok (f.entries.any fun e => Clause.isBelow name minimum e.relations)) := by
  unfold RelationField.ensureVersion
  rw [raise_of_compares h]
  have hany : (Segment.entries f.segments).any (·.isOnly name) = true := List.any_eq_true.mpr hfound
  dsimp only
  rw [if_pos hany]
  rfl

theorem ensureVersion_of_not_found {f : RelationField} (h : ∀ e ∈ f.entries, e.isOnly name = false)
    : f.ensureVersion name minimum = ((f.add (Entry.ofFloor name minimum)).1, .ok true) := by
  have hcompares : ∀ e ∈ Segment.entries f.segments, e.Compares name minimum := by
    intro e he honly
    rw [h e he] at honly
    cases honly
  have hbelow : ∀ e ∈ Segment.entries f.segments, Clause.isBelow name minimum e.relations = false := by
    intro e he
    rw [Entry.not_isBelow_iff (hcompares e he), h e he]
    exact fun honly => Bool.noConfusion honly
  have hfound : (Segment.entries f.segments).any (·.isOnly name) = false := by
    rw [List.any_eq_false]
    intro e he
    simp [h e he]
  unfold RelationField.ensureVersion
  rw [raise_of_compares hcompares, map_raised_of_not_isBelow hbelow]
  dsimp only
  rw [hfound]
  rfl

theorem ensureVersion_of_enough {f : RelationField} (hfound : ∃ e ∈ f.entries, e.isOnly name = true)
    (henough : ∀ e ∈ f.entries, e.isOnly name = true → Clause.IsBounded floorOperators minimum e.relations)
    : f.ensureVersion name minimum = (f, .ok false) := by
  have hcompares : ∀ e ∈ f.entries, e.Compares name minimum :=
    fun e he => Entry.compares_of_isBounded (henough e he)
  have hbelow : ∀ e ∈ f.entries, Clause.isBelow name minimum e.relations = false :=
    fun e he => (Entry.not_isBelow_iff (hcompares e he)).mpr (henough e he)
  have hany : (f.entries.any fun e => Clause.isBelow name minimum e.relations) = false := by
    rw [List.any_eq_false]
    intro e he
    simp [hbelow e he]
  rw [ensureVersion_of_found hcompares hfound, hany, map_raised_of_not_isBelow hbelow]

end Raise

theorem text_ofFloor (name : Text) (minimum : Version)
    : (Entry.ofFloor name minimum).text = name ++ (" (>= " ++ (minimum.text ++ ")")) := by
  rw [Entry.ofFloor, Entry.text_single]
  simp [SpelledRelation.text, Relation.render, Relation.renderArchqual, Relation.renderConstraint,
    Relation.renderArchs, Relation.renderAllProfiles]

theorem text_add_ofFloor_ne {f : RelationField} (hf : f.IsHonest) (name : Text) (minimum : Version)
    : (f.add (Entry.ofFloor name minimum)).1.text ≠ f.text := by
  intro htext
  by_cases hne : f.entries = []
  . apply not_mem_text_of_no_entries hf hne (c := '(') (by decide) (by decide)
    rw [← htext, add_of_no_entries hne]
    unfold RelationField.text join
    rw [List.map_singleton, List.intercalate_singleton]
    unfold Segment.text
    dsimp only
    rw [text_ofFloor]
    simp
  . have := length_text_lt_add hne (Entry.ofFloor name minimum)
    rw [htext] at this
    exact Nat.lt_irrefl _ this

theorem ensuresVersion_of_found {f : RelationField} {name : Text} {minimum : Version} (hf : f.IsHonest)
    (hw : f.IsWritable) (hread : Version.read minimum.text = .ok minimum)
    (hcompares : ∀ e ∈ f.entries, e.Compares name minimum)
    (hfound : ∃ e ∈ f.entries, e.isOnly name = true)
    : EnsuresVersion name minimum f ⟨f.segments.map (Segment.raised name minimum)⟩
        (f.entries.any fun e => Clause.isBelow name minimum e.relations) := by
  have hentries : (RelationField.mk (f.segments.map (Segment.raised name minimum))).entries =
      f.entries.map (Entry.raised name minimum) := Segment.entries_map_raised name minimum f.segments
  constructor
  . intro _
    exact Segment.raises_map_raised hcompares
  . intro hnone
    obtain ⟨e, he, honly⟩ := hfound
    rw [hnone e he] at honly
    cases honly
  . obtain ⟨e, he, honly⟩ := hfound
    refine ⟨e.raised name minimum, ?_, ?_⟩
    . rw [hentries]
      exact List.mem_map_of_mem he
    . rw [Entry.isOnly_raised, honly]
  . rw [hentries, List.forall_mem_map]
    intro e he honly
    rw [Entry.isOnly_raised] at honly
    exact Entry.isBounded_raised hread (hcompares e he) honly
  . have hsegments : f.segments ++ [] = f.segments := List.append_nil _
    have htext := text_map_raised_append_iff name hread f.segments [] (by rwa [hsegments])
      (by simpa only [hsegments] using isWritable_segments hw)
    rw [hsegments, List.append_nil] at htext
    rw [ne_eq, htext, List.any_eq_true]
    simp [entries_eq]

theorem ensuresVersion_of_not_found {f : RelationField} {name : Text} {minimum : Version}
    (hf : f.IsHonest) (hread : Version.read minimum.text = .ok minimum)
    (hnone : ∀ e ∈ f.entries, e.isOnly name = false)
    : EnsuresVersion name minimum f (f.add (Entry.ofFloor name minimum)).1 true := by
  obtain ⟨front, back, hold, hnew, _⟩ := exists_entries_add f (Entry.ofFloor name minimum)
  have hself : (Entry.ofFloor name minimum).isOnly name = true := beq_self_eq_true _
  constructor
  . rintro ⟨e, he, honly⟩
    rw [hnone e he] at honly
    cases honly
  . intro _
    exact ⟨front, back, hold, hnew⟩
  . rw [hnew]
    exact ⟨_, by simp, hself⟩
  . intro e he honly
    rw [hnew, List.mem_append, List.mem_cons, or_left_comm, ← List.mem_append, ← hold] at he
    cases he with
    | inl he =>
      rw [he]
      exact Entry.isBounded_ofFloor hread name
    | inr he =>
      rw [hnone e he] at honly
      cases honly
  . rw [eq_self_iff_true, true_iff]
    exact text_add_ofFloor_ne hf name minimum

/-- Wherever the bounds of the package are versions, a field that was read is made to ask for at least the
version, and a second attempt finds nothing to do. -/
theorem ensuresVersion_ensureMinimum (t : Text) (f : RelationField) (h : RelationField.read t = .ok f)
    (name minimum : Text) (version : Version) (hversion : Version.read minimum = .ok version)
    (hbounds : ∀ e ∈ f.entries, e.isOnly name = true → ∀ k ∈ e.first.spelled.relation.constraint,
      k.op ∈ floorOperators → ∃ v, Version.read k.version = .ok v)
    : version.text = minimum ∧
        ∃ g changed, f.ensureMinimum name minimum = (g, .ok changed) ∧
          EnsuresVersion name version f g changed ∧ g.ensureMinimum name minimum = (g, .ok false) := by
  have hread := Version.read_text hversion
  have hhonest := isHonest_of_read h
  have hcompares : ∀ e ∈ f.entries, e.Compares name version :=
    fun e he => Entry.compares_of_versions (hbounds e he)
  refine ⟨(Version.text_of_read hversion).1, ?_⟩
  unfold RelationField.ensureMinimum
  rw [hversion]
  dsimp only
  have hagain : ∀ g changed, EnsuresVersion name version f g changed →
      g.ensureVersion name version = (g, .ok false) :=
    fun g changed hg => ensureVersion_of_enough hg.found hg.enough
  by_cases hfound : ∃ e ∈ f.entries, e.isOnly name = true
  . have hensures := ensuresVersion_of_found hhonest (isWritable_of_read h) hread hcompares hfound
    exact ⟨_, _, ensureVersion_of_found hcompares hfound, hensures, hagain _ _ hensures⟩
  . have hnone : ∀ e ∈ f.entries, e.isOnly name = false := by
      simpa using hfound
    have hensures := ensuresVersion_of_not_found hhonest hread hnone
    exact ⟨_, _, ensureVersion_of_not_found hnone, hensures, hagain _ _ hensures⟩

theorem ensuresVersion_ensureMinimum_foo
    : ∃ f g version, RelationField.read "foo,, foo(<<1)|bar ,\n foo:any (=1) [x] , foo (>>2:0)" = .ok f ∧
        Version.read "1:2" = .ok version ∧
        f.ensureMinimum "foo" "1:2" = (g, .ok true) ∧ EnsuresVersion "foo" version f g true ∧
        g.text = "foo (>= 1:2),, foo(<<1)|bar ,\n foo:any (= 1:2) [x] , foo (>>2:0)".toList := by
  have hrun : (do
      let f ← RelationField.read "foo,, foo(<<1)|bar ,\n foo:any (=1) [x] , foo (>>2:0)"
      let version ← Version.read "1:2"
      let changed ← (f.ensureMinimum "foo" "1:2").2
      return (changed, (f.ensureMinimum "foo" "1:2").1.text,
        f.entries.all fun e => e.first.spelled.relation.constraint.all fun (k : Constraint) =>
          (Version.read k.version).isOk)) =
      .ok (true, "foo (>= 1:2),, foo(<<1)|bar ,\n foo:any (= 1:2) [x] , foo (>>2:0)".toList, true) := by
    decide +kernel
  obtain ⟨f, hf, hrun⟩ := bind_eq_ok.mp hrun
  obtain ⟨version, hversion, hrun⟩ := bind_eq_ok.mp hrun
  obtain ⟨changed, hchanged, hrun⟩ := bind_eq_ok.mp hrun
  obtain ⟨rfl, htext, hbounds⟩ : changed = true ∧ (f.ensureMinimum "foo" "1:2").1.text =
      "foo (>= 1:2),, foo(<<1)|bar ,\n foo:any (= 1:2) [x] , foo (>>2:0)".toList ∧
      (f.entries.all fun e => e.first.spelled.relation.constraint.all fun k : Constraint =>
        (Version.read k.version).isOk) = true := by
    simpa only [Prod.mk.injEq] using Except.ok.inj hrun
  have hversions : ∀ e ∈ f.entries, e.isOnly "foo" = true →
      ∀ k ∈ e.first.spelled.relation.constraint, k.op ∈ floorOperators →
        ∃ v, Version.read k.version = .ok v := by
    intro e he _ k hk _
    have hok := List.all_eq_true.mp hbounds e he
    rw [Option.mem_def.mp hk, Option.all_some] at hok
    cases hread : Version.read k.version with
    | ok v => exact ⟨v, rfl⟩
    | error err =>
      rw [hread] at hok
      cases hok
  obtain ⟨_, g, changed, hg, hensures, _⟩ :=
    ensuresVersion_ensureMinimum _ f hf "foo" "1:2" version hversion hversions
  rw [hg] at hchanged htext
  cases hchanged
  exact ⟨f, g, version, hf, hversion, hg, hensures, htext⟩

theorem stopsAt_of_fails {name : Text} {minimum : Version} {front back : List Segment}
    {lead trail : Text} {e : Entry} {err : Error}
    (hf : IsHonest ⟨front ++ .entry lead e trail :: back⟩)
    (hw : IsWritable ⟨front ++ .entry lead e trail :: back⟩)
    (hread : Version.read minimum.text = .ok minimum)
    (hfront : ∀ o ∈ Segment.entries front, o.Compares name minimum) (honly : e.isOnly name = true)
    (hfails : e.first.spelled.relation.hasFloor minimum = .error err)
    : StopsAt name minimum err front e ⟨front ++ .entry lead e trail :: back⟩
        ⟨front.map (Segment.raised name minimum) ++ .entry lead e trail :: back⟩ := by
  have hlow : (∀ o ∈ Segment.entries front, Clause.isBelow name minimum o.relations = false) ↔
      ∀ o ∈ Segment.entries front, o.isOnly name = true →
        Clause.IsBounded floorOperators minimum o.relations :=
    forall₂_congr fun o ho => Entry.not_isBelow_iff (hfront o ho)
  refine ⟨honly, Relation.hasFloor_eq_error.mp hfails, hfront,
    ⟨_, lead, trail, back, rfl, rfl, Segment.raises_map_raised hfront⟩, ?_, ?_⟩
  . rw [← hlow]
    exact text_map_raised_append_iff name hread _ _ hf (isWritable_segments hw)
  . -- the entry that stops the raising and all behind it are the same, so the front decides
    have hself : ∀ o ∈ Segment.entries front, o.raised name minimum = o ↔
        Clause.isBelow name minimum o.relations = false := by
      intro o ho
      have hmem : o ∈ entries ⟨front ++ .entry lead e trail :: back⟩ := by
        rw [entries_eq, Segment.entries_append]
        exact List.mem_append_left _ ho
      exact Entry.raised_eq_self_iff hread (isHonest_of_mem_entries hf hmem) (hw o hmem)
    rw [← hlow, ← forall₂_congr hself, entries_eq, entries_eq, Segment.entries_append,
      Segment.entries_append, List.append_cancel_right_eq, Segment.entries_map_raised,
      ← List.map_inj_left, List.map_id']

/-- Where the bounds of a package cannot be raised, either the version that is asked for is none, and the
field stays, or one of the bounds is none. Then those in front of it are raised all the same, so the field
stays if and only if they were high enough. -/
theorem ensureMinimum_of_error (t : Text) (f : RelationField) (h : RelationField.read t = .ok f)
    (name minimum : Text) (err : Error) (herr : (f.ensureMinimum name minimum).2 = .error err)
    : Version.read minimum = .error err ∧ (f.ensureMinimum name minimum).1 = f ∨
      ∃ version front e, Version.read minimum = .ok version ∧
        StopsAt name version err front e f (f.ensureMinimum name minimum).1 := by
  unfold RelationField.ensureMinimum at herr ⊢
  cases hversion : Version.read minimum with
  | error err' =>
    rw [hversion] at herr
    cases herr
    exact .inl ⟨rfl, rfl⟩
  | ok version =>
    rw [hversion] at herr
    right
    dsimp only at herr ⊢
    unfold RelationField.ensureVersion at herr ⊢
    rcases raise_cases name version f.segments with
      ⟨_, r, hr⟩ | ⟨front, lead, e, trail, back, err', hss, hfront, honly, hfails, hraise⟩
    . rw [hr] at herr
      dsimp only at herr
      split at herr <;> cases herr
    . rw [hraise] at herr ⊢
      cases herr
      refine ⟨version, front, e, rfl, ?_⟩
      have hf : f = ⟨front ++ .entry lead e trail :: back⟩ := by
        rw [← hss]
      have hhonest := isHonest_of_read h
      have hwritable := isWritable_of_read h
      rw [hf] at hhonest hwritable ⊢
      exact stopsAt_of_fails hhonest hwritable (Version.read_text hversion) hfront honly hfails

/-- The first of two bounds on foo is raised before the second one turns out to be a variable. -/
theorem ensureMinimum_of_error_variable
    : ∃ f version front e, RelationField.read "foo, foo (>= $\x7bv\x7d)" = .ok f ∧
        (f.ensureMinimum "foo" "2").2 = .error (.invalidVersion "$\x7bv\x7d") ∧
        StopsAt "foo" version (.invalidVersion "$\x7bv\x7d") front e f (f.ensureMinimum "foo" "2").1 ∧
        (f.ensureMinimum "foo" "2").1.text = "foo (>= 2), foo (>= $\x7bv\x7d)".toList ∧
        (f.ensureMinimum "foo" "2").1.entries ≠ f.entries := by
  have hrun : (RelationField.read "foo, foo (>= $\x7bv\x7d)").map (fun f =>
      ((f.ensureMinimum "foo" "2").2, (f.ensureMinimum "foo" "2").1.text)) =
      .ok (.error (.invalidVersion "$\x7bv\x7d"), "foo (>= 2), foo (>= $\x7bv\x7d)".toList) := by
    decide +kernel
  obtain ⟨f, hf, hrun⟩ := map_eq_ok.mp hrun
  obtain ⟨herr, htext⟩ := Prod.mk.inj hrun
  rcases ensureMinimum_of_error _ f hf "foo" "2" _ herr with ⟨hversion, _⟩ | ⟨version, front, e, _, hstops⟩
  . exact absurd hversion (by decide)
  . refine ⟨f, version, front, e, hf, herr, hstops, htext, ?_⟩
    rw [ne_eq, hstops.entries_iff, ← hstops.text_iff, htext, text_of_read hf]
    decide

end RelationField

end DebianPackaging
