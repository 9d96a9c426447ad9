import DebianPackaging.Proofs.Relation.Clause
import DebianPackaging.Proofs.Version.Basic

/-!
This module contains what raising the bounds of a package does to clauses: the clauses that are a single
relation on the package without a bound that is high enough get one, and all others stay.
-/

namespace DebianPackaging

namespace Relation

theorem keptOperators_subset_operators : keptOperators ⊆ operators := by decide

theorem keptOperators_subset_floorOperators : keptOperators ⊆ floorOperators := by decide

theorem op_raisedConstraint (r : Relation) (minimum : Version)
    : (r.raisedConstraint minimum).op ∈ keptOperators := by
  unfold raisedConstraint
  split
  . dsimp
    split
    . next hkept => exact List.contains_iff_mem.mp hkept
    . exact List.mem_cons_self
  . exact List.mem_cons_self

theorem version_raisedConstraint (r : Relation) (minimum : Version)
    : (r.raisedConstraint minimum).version = minimum.text := by
  unfold raisedConstraint
  split <;> rfl

end Relation

namespace Clause

theorem isOnly_iff {c : Clause} {name : Text}
    : c.isOnly name = true ↔ ∃ r : Relation, c = [r] ∧ r.name = name := by
  unfold isOnly
  rw [beq_iff_eq, List.map_eq_singleton_iff]

theorem mem_insertSorted {c d : Clause} {cs : List Clause}
    : d ∈ insertSorted c cs ↔ d = c ∨ d ∈ cs := by
  induction cs with
  | nil => simp [insertSorted]
  | cons e cs ih =>
    unfold insertSorted
    split
    . rw [List.mem_cons, ih, List.mem_cons]
      exact or_left_comm
    . rw [List.mem_cons]

@[simp]
theorem mem_add {c d : Clause} {cs : List Clause} : d ∈ add cs c ↔ d = c ∨ d ∈ cs := by
  unfold add
  split
  . exact mem_insertSorted
  . rw [List.mem_append, List.mem_singleton]
    exact or_comm

def IsBounded (ops : List Text) (minimum : Version) (c : Clause) : Prop :=
  ∃ r k v, c = [r] ∧ r.constraint = some k ∧ k.op ∈ ops ∧ Version.read k.version = .ok v ∧
    v.atLeast minimum = true

theorem hasFloor_iff {r : Relation} {minimum : Version}
    : hasFloor minimum [r] = .ok true ↔ IsBounded floorOperators minimum [r] := by
  unfold hasFloor IsBounded Relation.hasFloor
  dsimp
  constructor
  . intro h
    split at h
    . cases h
    . next k hk =>
      split at h
      . next hop =>
        obtain ⟨v, hv, h⟩ := bind_eq_ok.mp h
        exact ⟨r, k, v, rfl, hk, List.contains_iff_mem.mp hop, hv, Except.ok.inj h⟩
      . cases h
  . rintro ⟨r', k, v, hr, hk, hop, hv, hleast⟩
    cases hr
    rw [hk]
    dsimp
    rw [if_pos (List.contains_iff_mem.mpr hop), hv, ← hleast]
    rfl

theorem hasFloor_raiseFirst {minimum : Version} (hread : Version.read minimum.text = .ok minimum)
    (r : Relation) : hasFloor minimum (raiseFirst minimum [r]) = .ok true := by
  have hop := Relation.keptOperators_subset_floorOperators (r.op_raisedConstraint minimum)
  apply hasFloor_iff.mpr
  refine ⟨_, r.raisedConstraint minimum, minimum, rfl, rfl, hop, ?_, Version.atLeast_self minimum⟩
  rw [r.version_raisedConstraint]
  exact hread

def isBelow (name : Text) (minimum : Version) (c : Clause) : Bool :=
  c.isOnly name && c.hasFloor minimum matches .ok false

def raised (name : Text) (minimum : Version) (c : Clause) : Clause :=
  if c.isBelow name minimum then c.raiseFirst minimum else c

theorem isOnly_raised {name : Text} {minimum : Version} {c : Clause}
    : (raised name minimum c).isOnly name = c.isOnly name := by
  unfold raised
  split
  . next hbelow =>
    obtain ⟨r, rfl, _⟩ := isOnly_iff.mp (Bool.and_eq_true_iff.mp hbelow).1
    rfl
  . rfl

theorem hasFloor_raised {minimum : Version} (hread : Version.read minimum.text = .ok minimum) {c : Clause}
    {name : Text} (honly : c.isOnly name = true) {enough : Bool} (h : c.hasFloor minimum = .ok enough)
    : (raised name minimum c).hasFloor minimum = .ok true := by
  unfold raised isBelow
  rw [honly, h]
  cases enough with
  | true => exact h
  | false =>
    obtain ⟨r, rfl, _⟩ := isOnly_iff.mp honly
    exact hasFloor_raiseFirst hread r

theorem isBounded_of_hasFloor {minimum : Version} {c : Clause} {name : Text}
    (honly : c.isOnly name = true) (h : c.hasFloor minimum = .ok true)
    : c.IsBounded floorOperators minimum := by
  obtain ⟨r, rfl, _⟩ := isOnly_iff.mp honly
  exact hasFloor_iff.mp h

theorem mem_raise {name : Text} {minimum : Version} {cs : List Clause} {d : Clause}
    (h : d ∈ (raise name minimum cs).1) : d ∈ cs ∨ ∃ c ∈ cs, d = raised name minimum c := by
  induction cs with
  | nil => cases h
  | cons c cs ih =>
    have hcons : ∀ d', d' = c ∨ d' = raised name minimum c →
        d ∈ d' :: (raise name minimum cs).1 →
          d ∈ c :: cs ∨ ∃ c' ∈ c :: cs, d = raised name minimum c' := by
      intro d' hd' h
      cases List.mem_cons.mp h with
      | inl h =>
        subst h
        cases hd' with
        | inl hd' => exact .inl (by simp [hd'])
        | inr hd' => exact .inr ⟨c, by simp, hd'⟩
      | inr h =>
        cases ih h with
        | inl h => exact .inl (by simp [h])
        | inr h =>
          obtain ⟨c', hc', heq⟩ := h
          exact .inr ⟨c', by simp [hc'], heq⟩
    unfold raise at h
    split at h
    . next honly =>
      split at h
      . exact .inl h
      . exact hcons c (.inl rfl) h
      . next hfloor =>
        apply hcons (c.raiseFirst minimum) (.inr _) h
        simp [raised, isBelow, honly, hfloor]
    . exact hcons c (.inl rfl) h

theorem raise_of_ok {name : Text} {minimum : Version} {cs : List Clause} {r : Raised}
    (h : (raise name minimum cs).2 = .ok r)
    : (raise name minimum cs).1 = cs.map (raised name minimum) ∧
      r.found = cs.any (·.isOnly name) ∧ r.changed = cs.any (·.isBelow name minimum) := by
  induction cs generalizing r with
  | nil =>
    cases h
    exact ⟨rfl, rfl, rfl⟩
  | cons c cs ih =>
    unfold raise at h ⊢
    split at h
    . next honly =>
      rw [if_pos honly]
      split at h
      . cases h
      . next hfloor =>
        obtain ⟨r', hr', rfl⟩ := map_eq_ok.mp h
        obtain ⟨hcs, hfound, hchanged⟩ := ih hr'
        simp [hcs, hchanged, raised, isBelow, honly, hfloor]
      . next hfloor =>
        obtain ⟨r', hr', rfl⟩ := map_eq_ok.mp h
        obtain ⟨hcs, hfound, hchanged⟩ := ih hr'
        simp [hcs, raised, isBelow, honly, hfloor]
    . next honly =>
      rw [if_neg honly]
      obtain ⟨hcs, hfound, hchanged⟩ := ih h
      simp [hcs, hfound, hchanged, raised, isBelow, honly]

theorem map_raised_of_not_only {name : Text} {minimum : Version} {cs : List Clause}
    (h : cs.any (·.isOnly name) = false) : cs.map (raised name minimum) = cs := by
  rw [List.any_eq_false] at h
  have heq : ∀ c ∈ cs, raised name minimum c = c := by
    intro c hc
    simp [raised, isBelow, h c hc]
  rw [List.map_congr_left heq, List.map_id']

theorem ensureVersion_of_ok {name : Text} {minimum : Version} {cs : List Clause} {changed : Bool}
    (h : (ensureVersion cs name minimum).2 = .ok changed)
    : cs.any (·.isOnly name) = true ∧ changed = cs.any (·.isBelow name minimum) ∧
        (ensureVersion cs name minimum).1 = cs.map (raised name minimum) ∨
      cs.any (·.isOnly name) = false ∧ changed = true ∧
        (ensureVersion cs name minimum).1 = add cs (ofFloor name minimum) := by
  unfold ensureVersion at h ⊢
  rcases hraise : raise name minimum cs with ⟨ds, result⟩
  rw [hraise] at h
  cases result with
  | error err => cases h
  | ok r =>
    obtain ⟨hds, hfound, hchanged⟩ := raise_of_ok (congrArg Prod.snd hraise)
    rw [hraise] at hds
    dsimp at h hds ⊢
    subst hds
    cases hr : r.found with
    | true =>
      rw [hr] at h
      cases h
      exact .inl ⟨by rw [← hfound, hr], hchanged, rfl⟩
    | false =>
      rw [hr] at h
      cases h
      -- without a single relation on the package there was nothing to raise
      have hnone : cs.any (·.isOnly name) = false := by rw [← hfound, hr]
      refine .inr ⟨hnone, rfl, ?_⟩
      rw [map_raised_of_not_only hnone]
      rfl

theorem mem_ensureVersion {name : Text} {minimum : Version} {cs : List Clause} {d : Clause}
    (h : d ∈ (ensureVersion cs name minimum).1)
    : d ∈ cs ∨ (∃ c ∈ cs, d = raised name minimum c) ∨
      d = ofFloor name minimum ∧ (ensureVersion cs name minimum).2 = .ok true := by
  have hmem := @mem_raise name minimum cs d
  unfold ensureVersion at h ⊢
  rcases hraise : raise name minimum cs with ⟨ds, result⟩
  rw [hraise] at h hmem
  cases result with
  | error err =>
    cases hmem h with
    | inl h => exact .inl h
    | inr h => exact .inr (.inl h)
  | ok r =>
    dsimp at h hmem ⊢
    cases hr : r.found with
    | true =>
      rw [hr] at h
      cases hmem h with
      | inl h => exact .inl h
      | inr h => exact .inr (.inl h)
    | false =>
      rw [hr] at h
      cases mem_add.mp h with
      | inl h => exact .inr (.inr ⟨h, rfl⟩)
      | inr h =>
        cases hmem h with
        | inl h => exact .inl h
        | inr h => exact .inr (.inl h)

theorem exists_of_changed {name : Text} {minimum : Version} {cs : List Clause}
    (h : (ensureVersion cs name minimum).2 = .ok true)
    : ∃ r c, [r] ∈ (ensureVersion cs name minimum).1 ∧ r.name = name ∧ r.constraint = some c ∧
        c.version = minimum.text := by
  rcases ensureVersion_of_ok h with ⟨_, hbelow, hcs⟩ | ⟨_, _, hcs⟩
  . rw [hcs]
    obtain ⟨c, hc, hbelow⟩ := List.any_eq_true.mp hbelow.symm
    have honly := (Bool.and_eq_true_iff.mp hbelow).1
    obtain ⟨r, rfl, hname⟩ := isOnly_iff.mp honly
    refine ⟨{ r with constraint := some (r.raisedConstraint minimum) }, _, ?_, hname, rfl, ?_⟩
    . apply List.mem_map.mpr
      refine ⟨[r], hc, ?_⟩
      unfold raised
      rw [if_pos hbelow]
      rfl
    . exact Relation.version_raisedConstraint r minimum
  . rw [hcs]
    exact ⟨_, ⟨">=", minimum.text⟩, mem_add.mpr (.inl rfl), rfl, rfl, rfl⟩

theorem exists_hasFloor_of_raise {name : Text} {minimum : Version} {cs : List Clause} {r : Raised}
    (h : (raise name minimum cs).2 = .ok r)
    : ∀ c ∈ cs, c.isOnly name = true → ∃ enough, c.hasFloor minimum = .ok enough := by
  induction cs generalizing r with
  | nil =>
    intro c hc
    cases hc
  | cons c cs ih =>
    rw [List.forall_mem_cons]
    unfold raise at h
    split at h
    . split at h
      . cases h
      . next hfloor =>
        obtain ⟨r', hr', _⟩ := map_eq_ok.mp h
        exact ⟨fun _ => ⟨true, hfloor⟩, ih hr'⟩
      . next hfloor =>
        obtain ⟨r', hr', _⟩ := map_eq_ok.mp h
        exact ⟨fun _ => ⟨false, hfloor⟩, ih hr'⟩
    . next honly =>
      exact ⟨fun h => absurd h honly, ih h⟩

theorem exists_hasFloor_of_ensureVersion {name : Text} {minimum : Version} {cs : List Clause}
    {changed : Bool} (h : (ensureVersion cs name minimum).2 = .ok changed)
    : ∀ c ∈ cs, c.isOnly name = true → ∃ enough, c.hasFloor minimum = .ok enough := by
  unfold ensureVersion at h
  rcases hraise : raise name minimum cs with ⟨ds, result⟩
  rw [hraise] at h
  cases result with
  | error err => cases h
  | ok r => exact exists_hasFloor_of_raise (congrArg Prod.snd hraise)

theorem raise_of_hasFloor {name : Text} {minimum : Version} {cs : List Clause}
    (h : ∀ c ∈ cs, c.isOnly name = true → c.hasFloor minimum = .ok true)
    : raise name minimum cs = (cs, .ok ⟨cs.any (·.isOnly name), false⟩) := by
  induction cs with
  | nil => rfl
  | cons c cs ih =>
    rw [List.forall_mem_cons] at h
    unfold raise
    rw [ih h.2]
    split
    . next honly =>
      rw [h.1 honly, List.any_cons, honly]
      rfl
    . next honly =>
      rw [Bool.not_eq_true] at honly
      rw [List.any_cons, honly]
      rfl

theorem ensureVersion_of_hasFloor {name : Text} {minimum : Version} {cs : List Clause}
    (hany : cs.any (·.isOnly name) = true)
    (h : ∀ c ∈ cs, c.isOnly name = true → c.hasFloor minimum = .ok true)
    : ensureVersion cs name minimum = (cs, .ok false) := by
  unfold ensureVersion
  rw [raise_of_hasFloor h, hany]
  rfl

theorem exists_add (cs : List Clause) (c : Clause)
    : ∃ front back, cs = front ++ back ∧ add cs c = front ++ c :: back := by
  unfold add
  split
  . clear * -
    induction cs with
    | nil => exact ⟨[], [], rfl, rfl⟩
    | cons d cs ih =>
      unfold insertSorted
      split
      . obtain ⟨front, back, hcs, hinsert⟩ := ih
        exact ⟨d :: front, back, by rw [hcs]; rfl, by rw [hinsert]; rfl⟩
      . exact ⟨[], d :: cs, rfl, rfl⟩
  . exact ⟨cs, [], by rw [List.append_nil], rfl⟩

end Clause

end DebianPackaging
