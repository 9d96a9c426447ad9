import DebianPackaging.Debhelper.Dependency
import DebianPackaging.Proofs.Relation.Floor
import DebianPackaging.Proofs.Version.Basic

/-!
This module contains the edit of the dependency on debhelper on clauses: what it asks of the clauses of
the compat level, what it leaves behind, and that a second edit finds nothing to do.
-/

namespace DebianPackaging

namespace Clause

def compatSuffices (minimum : Version) : List Clause → Except Error Bool
  | [] => .ok false
  | c :: cs =>
    if !(c.map (·.name)).contains compatPackage then compatSuffices minimum cs
    else
      match c with
      | [r] =>
        match r.constraint with
        | none => .error .compatWithoutVersion
        | some k =>
          if k.op != ("=" : Text) then .error .complexCompatRule
          else do
            if (← Version.read k.version).atLeast minimum then return true
            compatSuffices minimum cs
      | _ => .error .complexCompatRule

def ensureDebhelper (minimum : Version) (cs : List Clause) : Except Error (Option (List Clause)) := do
  if ← compatSuffices minimum cs then return none
  let (cs, result) := ensureVersion cs debhelperPackage minimum
  return if ← result then some cs else none

def IsKept (c d : Clause) : Prop :=
  d = c ∨ ∃ r k, c = [r] ∧ r.name = debhelperPackage ∧ d = [{ r with constraint := some k }]

/-- The clauses `ds`, which `cs` have become, ask for debhelper in at least the version `minimum`. -/
structure EnsuresDebhelper (minimum : Version) (cs ds : List Clause) (changed : Bool) : Prop where
  /-- The compat level makes up for debhelper, or there are bounds on debhelper and all are high
  enough. -/
  enough : changed = false ∧
      (∃ c ∈ ds, c.isOnly compatPackage = true ∧ c.IsBounded ["="] minimum) ∨
    (∃ c ∈ ds, c.isOnly debhelperPackage = true) ∧
      ∀ c ∈ ds, c.isOnly debhelperPackage = true → c.IsBounded floorOperators minimum
  /-- Every clause is kept at its place, and no clause comes in but one on debhelper. -/
  kept : ∃ front new back, ds = front ++ new ++ back ∧ List.Forall₂ IsKept cs (front ++ back) ∧
    (new = [] ∨ new = [ofFloor debhelperPackage minimum])
  changed_iff : changed = true ↔ ds ≠ cs

theorem isKept_raised (minimum : Version) (c : Clause)
    : IsKept c (raised debhelperPackage minimum c) := by
  unfold raised
  split
  . next hbelow =>
    obtain ⟨r, rfl, hname⟩ := isOnly_iff.mp (Bool.and_eq_true_iff.mp hbelow).1
    exact .inr ⟨r, r.raisedConstraint minimum, rfl, hname, rfl⟩
  . exact .inl rfl

theorem contains_compatPackage_of_isOnly {c : Clause} (h : c.isOnly debhelperPackage = true)
    : (c.map (·.name)).contains compatPackage = false := by
  unfold isOnly at h
  rw [beq_iff_eq.mp h]
  decide

theorem compatSuffices_cons_of_isOnly {minimum : Version} {c : Clause}
    (h : c.isOnly debhelperPackage = true) (cs : List Clause)
    : compatSuffices minimum (c :: cs) = compatSuffices minimum cs := by
  have hcontains := contains_compatPackage_of_isOnly h
  obtain ⟨r, rfl, _⟩ := isOnly_iff.mp h
  rw [compatSuffices, hcontains]
  rfl

theorem compatSuffices_cons_congr {minimum : Version} {cs ds : List Clause}
    (h : compatSuffices minimum cs = compatSuffices minimum ds) (c : Clause)
    : compatSuffices minimum (c :: cs) = compatSuffices minimum (c :: ds) := by
  unfold compatSuffices
  rw [h]

theorem compatSuffices_map_raised (minimum : Version) (cs : List Clause)
    : compatSuffices minimum (cs.map (raised debhelperPackage minimum)) =
        compatSuffices minimum cs := by
  induction cs with
  | nil => rfl
  | cons c cs ih =>
    rw [List.map_cons]
    by_cases honly : c.isOnly debhelperPackage = true
    . rw [compatSuffices_cons_of_isOnly honly, compatSuffices_cons_of_isOnly, ih]
      rw [isOnly_raised]
      exact honly
    . have hraised : raised debhelperPackage minimum c = c := by
        simp [raised, isBelow, honly]
      rw [hraised]
      exact compatSuffices_cons_congr ih c

theorem compatSuffices_insert {c : Clause} (h : c.isOnly debhelperPackage = true) (minimum : Version)
    (front back : List Clause)
    : compatSuffices minimum (front ++ c :: back) = compatSuffices minimum (front ++ back) := by
  induction front with
  | nil => exact compatSuffices_cons_of_isOnly h back
  | cons d front ih => exact compatSuffices_cons_congr ih d

theorem exists_of_compatSuffices {minimum : Version} {cs : List Clause}
    (h : compatSuffices minimum cs = .ok true)
    : ∃ c ∈ cs, c.isOnly compatPackage = true ∧ c.IsBounded ["="] minimum := by
  induction cs with
  | nil => cases h
  | cons c cs ih =>
    -- a clause that does not make up for debhelper is passed over
    have hmore : compatSuffices minimum cs = .ok true →
        ∃ d ∈ c :: cs, d.isOnly compatPackage = true ∧ d.IsBounded ["="] minimum := by
      intro h
      obtain ⟨d, hd, hdone⟩ := ih h
      exact ⟨d, List.mem_cons_of_mem c hd, hdone⟩
    unfold compatSuffices at h
    split at h
    . exact hmore h
    . next hcontains =>
      split at h
      . next r =>
        split at h
        . cases h
        . next k hk =>
          split at h
          . cases h
          . next hop =>
            obtain ⟨v, hv, h⟩ := bind_eq_ok.mp h
            split at h
            . next hleast =>
              have hname : compatPackage = r.name := by simpa using hcontains
              refine ⟨[r], List.mem_cons_self, isOnly_iff.mpr ⟨r, rfl, hname.symm⟩, r, k, v, rfl, hk,
                ?_, hv, hleast⟩
              simpa using hop
            . exact hmore h
      . cases h

theorem ensureDebhelper_eq_ok {minimum : Version} {cs : List Clause} {result : Option (List Clause)}
    : ensureDebhelper minimum cs = .ok result ↔
        compatSuffices minimum cs = .ok true ∧ result = none ∨
        compatSuffices minimum cs = .ok false ∧
          ∃ changed, (ensureVersion cs debhelperPackage minimum).2 = .ok changed ∧
            result = if changed then some (ensureVersion cs debhelperPackage minimum).1 else none := by
  unfold ensureDebhelper
  rw [bind_eq_ok]
  constructor
  . rintro ⟨enough, henough, h⟩
    cases enough with
    | true =>
      cases h
      exact .inl ⟨henough, rfl⟩
    | false =>
      obtain ⟨changed, hchanged, h⟩ := bind_eq_ok.mp h
      cases h
      exact .inr ⟨henough, changed, hchanged, rfl⟩
  . rintro (⟨henough, rfl⟩ | ⟨henough, changed, hchanged, rfl⟩)
    . exact ⟨true, henough, rfl⟩
    . refine ⟨false, henough, ?_⟩
      exact bind_eq_ok.mpr ⟨changed, hchanged, rfl⟩

theorem ensuresDebhelper_of_none {minimum : Version} {cs : List Clause}
    (h : ensureDebhelper minimum cs = .ok none) : EnsuresDebhelper minimum cs cs false := by
  have hkept : List.Forall₂ IsKept cs cs := List.forall₂_same.mpr fun _ _ => .inl rfl
  refine ⟨?_, ⟨cs, [], [], by simp, by simpa using hkept, .inl rfl⟩, by simp⟩
  rcases ensureDebhelper_eq_ok.mp h with ⟨henough, _⟩ | ⟨_, changed, hchanged, hnone⟩
  . exact .inl ⟨rfl, exists_of_compatSuffices henough⟩
  . rcases ensureVersion_of_ok hchanged with ⟨hany, hbelow, _⟩ | ⟨_, rfl, _⟩
    . refine .inr ⟨List.any_eq_true.mp hany, ?_⟩
      intro c hc honly
      apply isBounded_of_hasFloor honly
      obtain ⟨enough, henough⟩ := exists_hasFloor_of_ensureVersion hchanged c hc honly
      cases enough with
      | true => exact henough
      | false =>
        have : cs.any (·.isBelow debhelperPackage minimum) = true :=
          List.any_eq_true.mpr ⟨c, hc, by simp [isBelow, honly, henough]⟩
        rw [← hbelow] at this
        rw [this] at hnone
        cases hnone
    . cases hnone

structure HasFloors (minimum : Version) (cs : List Clause) : Prop where
  compat : compatSuffices minimum cs = .ok false
  found : cs.any (·.isOnly debhelperPackage) = true
  floors : ∀ c ∈ cs, c.isOnly debhelperPackage = true → c.hasFloor minimum = .ok true

theorem HasFloors.isBounded {minimum : Version} {cs : List Clause} (h : HasFloors minimum cs)
    : (∃ c ∈ cs, c.isOnly debhelperPackage = true) ∧
      ∀ c ∈ cs, c.isOnly debhelperPackage = true → c.IsBounded floorOperators minimum :=
  ⟨List.any_eq_true.mp h.found, fun c hc honly => isBounded_of_hasFloor honly (h.floors c hc honly)⟩

theorem HasFloors.ensureDebhelper {minimum : Version} {cs : List Clause} (h : HasFloors minimum cs)
    : ensureDebhelper minimum cs = .ok none := by
  have hensure := ensureVersion_of_hasFloor h.found h.floors
  rw [ensureDebhelper_eq_ok]
  exact .inr ⟨h.compat, false, congrArg Prod.snd hensure, rfl⟩

section Changed

variable {minimum : Version} (hread : Version.read minimum.text = .ok minimum) {cs : List Clause}
  (hcompat : compatSuffices minimum cs = .ok false)

include hread hcompat

theorem hasFloors_map_raised (hfound : cs.any (·.isOnly debhelperPackage) = true)
    (h : ∀ c ∈ cs, c.isOnly debhelperPackage = true → ∃ enough, c.hasFloor minimum = .ok enough)
    : HasFloors minimum (cs.map (raised debhelperPackage minimum)) := by
  constructor
  . rw [compatSuffices_map_raised]
    exact hcompat
  . rw [List.any_map, ← hfound]
    congr 1
    funext c
    exact isOnly_raised
  . intro d hd honly
    obtain ⟨c, hc, rfl⟩ := List.mem_map.mp hd
    rw [isOnly_raised] at honly
    obtain ⟨enough, henough⟩ := h c hc honly
    exact hasFloor_raised hread honly henough

theorem hasFloors_insert {front back : List Clause} (hcs : cs = front ++ back)
    (hnone : cs.any (·.isOnly debhelperPackage) = false)
    : HasFloors minimum (front ++ ofFloor debhelperPackage minimum :: back) := by
  have honly : (ofFloor debhelperPackage minimum).isOnly debhelperPackage = true := rfl
  constructor
  . rw [compatSuffices_insert honly, ← hcs]
    exact hcompat
  . simp [honly]
  . intro c hc hc'
    rw [List.any_eq_false, hcs] at hnone
    rw [List.mem_append, List.mem_cons, or_left_comm, ← List.mem_append] at hc
    cases hc with
    | inl hc =>
      rw [hc]
      exact hasFloor_iff.mpr ⟨_, ⟨">=", minimum.text⟩, minimum, rfl, rfl, List.mem_cons_self, hread,
        Version.atLeast_self minimum⟩
    | inr hc => exact absurd hc' (hnone c hc)

end Changed

theorem map_raised_ne {minimum : Version} (hread : Version.read minimum.text = .ok minimum) {name : Text}
    {cs : List Clause} (h : cs.any (·.isBelow name minimum) = true)
    : cs.map (raised name minimum) ≠ cs := by
  obtain ⟨c, hc, hbelow⟩ := List.any_eq_true.mp h
  intro heq
  -- a clause that stays when it is raised would be below the version and not below it
  have hc' : raised name minimum c = c := by
    rw [← List.map_id cs, List.map_map, List.map_inj_left] at heq
    exact heq c hc
  unfold isBelow at hbelow
  rw [Bool.and_eq_true] at hbelow
  obtain ⟨honly, hfloor⟩ := hbelow
  split at hfloor
  . next hfalse =>
    have htrue := hasFloor_raised hread honly hfalse
    rw [hc', hfalse] at htrue
    cases htrue
  . cases hfloor

theorem ensuresDebhelper_of_some {minimum : Version} (hread : Version.read minimum.text = .ok minimum)
    {cs ds : List Clause} (h : ensureDebhelper minimum cs = .ok (some ds))
    : EnsuresDebhelper minimum cs ds true ∧ ensureDebhelper minimum ds = .ok none := by
  rcases ensureDebhelper_eq_ok.mp h with ⟨_, hsome⟩ | ⟨hcompat, changed, hchanged, hsome⟩
  . cases hsome
  cases changed with
  | false => cases hsome
  | true =>
    cases hsome
    rcases ensureVersion_of_ok hchanged with ⟨hany, hbelow, hds⟩ | ⟨hnone, _, hds⟩
    . have hfloors := hasFloors_map_raised hread hcompat hany
        (exists_hasFloor_of_ensureVersion hchanged)
      have hkept : List.Forall₂ IsKept cs (cs.map (raised debhelperPackage minimum)) := by
        rw [List.forall₂_map_right_iff, List.forall₂_same]
        intro c _
        exact isKept_raised minimum c
      rw [← List.append_nil (cs.map _)] at hkept
      rw [hds]
      refine ⟨⟨.inr hfloors.isBounded,
        ⟨cs.map (raised debhelperPackage minimum), [], [], by simp, hkept, .inl rfl⟩, ?_⟩,
        hfloors.ensureDebhelper⟩
      simpa using map_raised_ne hread hbelow.symm
    . obtain ⟨front, back, hcs, hadd⟩ := exists_add cs (ofFloor debhelperPackage minimum)
      have hfloors := hasFloors_insert hread hcompat hcs hnone
      rw [hds, hadd]
      refine ⟨⟨.inr hfloors.isBounded,
        ⟨front, [ofFloor debhelperPackage minimum], back, by simp, ?_, .inr rfl⟩, ?_⟩,
        hfloors.ensureDebhelper⟩
      . rw [← hcs]
        exact List.forall₂_same.mpr fun _ _ => .inl rfl
      . simp only [true_iff]
        intro heq
        have := congrArg List.length heq
        rw [hcs, List.length_append, List.length_append, List.length_cons] at this
        omega

theorem EnsuresDebhelper.mem {minimum : Version} {cs ds : List Clause} {changed : Bool}
    (h : EnsuresDebhelper minimum cs ds changed) {c : Clause} (hc : c ∈ cs)
    (hnot : c.isOnly debhelperPackage = false) : c ∈ ds := by
  obtain ⟨front, new, back, rfl, hkept, _⟩ := h.kept
  obtain ⟨d, hd, hcd⟩ := exists_of_mem_forall₂_left hkept hc
  rcases hcd with rfl | ⟨r, _, rfl, hname, _⟩
  . rcases List.mem_append.mp hd with hd | hd <;> simp [hd]
  . rw [isOnly_iff.mpr ⟨r, rfl, hname⟩] at hnot
    cases hnot

theorem eq_of_isKept {cs ds : List Clause} (h : List.Forall₂ IsKept cs ds)
    (hnone : cs.any (·.isOnly debhelperPackage) = false) : ds = cs := by
  rw [List.any_eq_false] at hnone
  induction h with
  | nil => rfl
  | cons hc _ ih =>
    rw [List.forall_mem_cons] at hnone
    rcases hc with rfl | ⟨r, k, rfl, hname, _⟩
    . rw [ih hnone.2]
    . exact absurd (isOnly_iff.mpr ⟨r, rfl, hname⟩) hnone.1

theorem eq_of_sublist_of_ensuresDebhelper {minimum : Version} {cs ds es : List Clause}
    (h : ensureDebhelper minimum cs = .ok (some ds)) (hsublist : es.Sublist ds)
    (hes : EnsuresDebhelper minimum cs es true) : es = ds := by
  obtain ⟨front, new, back, heq, hkept, hnew⟩ := hes.kept
  have hlength : es.length = cs.length + new.length := by
    rw [hkept.length_eq, heq]
    simp only [List.length_append]
    omega
  rcases ensureDebhelper_eq_ok.mp h with ⟨_, hsome⟩ | ⟨_, changed, hchanged, hsome⟩
  . cases hsome
  cases changed with
  | false => cases hsome
  | true =>
    cases hsome
    apply hsublist.eq_of_length_le
    rcases ensureVersion_of_ok hchanged with ⟨_, _, hds⟩ | ⟨hnone, _, hds⟩
    . rw [hds, hlength, List.length_map]
      omega
    . obtain ⟨front', back', hcs, hadd⟩ := exists_add cs (ofFloor debhelperPackage minimum)
      rw [hds, hadd, hlength, hcs]
      cases hnew with
      | inr hnew => simp [hnew, Nat.add_assoc]
      | inl hnew =>
        -- without a new clause, and with no single relation on debhelper to raise, nothing has changed
        have hsame : es = cs := by
          rw [heq, hnew, List.append_nil]
          exact eq_of_isKept hkept hnone
        exact absurd hsame (hes.changed_iff.mp rfl)

end Clause

end DebianPackaging
