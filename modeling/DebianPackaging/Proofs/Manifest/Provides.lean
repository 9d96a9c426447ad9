import Mathlib.Data.Bool.AllAny
import DebianPackaging.Manifest.Binary
import DebianPackaging.Proofs.Relation.Order
import DebianPackaging.Proofs.Relation.Wrap
import DebianPackaging.Proofs.Text.Case

/-!
This module contains the packages that the library package of a crate provides: one for each way to ask for
a version and a feature. Their field is read as relations on these packages, unless the name of a
feature has a character that no package name can have.
-/

namespace DebianPackaging

open Text

theorem pairwise_eraseDups {α : Type} [BEq α] [LawfulBEq α] {r : α → α → Prop}
    : ∀ {as : List α}, as.Pairwise r → as.eraseDups.Pairwise fun a b => r a b ∧ a ≠ b
  | [], _ => .nil
  | a :: as, h => by
    rw [List.pairwise_cons] at h
    rw [List.eraseDups_cons, List.pairwise_cons]
    constructor
    . intro b hb
      rw [List.mem_eraseDups, List.mem_filter] at hb
      refine ⟨h.1 b hb.1, ?_⟩
      rintro rfl
      simp at hb
    . have hlength : (as.filter fun b => !b == a).length < as.length + 1 :=
        Nat.lt_succ_of_le (List.length_filter_le _ _)
      exact pairwise_eraseDups (h.2.filter _)
termination_by as => as.length

namespace Crate

def isCrateChar (c : Char) : Bool := c.isAlphanum || ['_', '-'].contains c

def isPackageChar (c : Char) : Bool := c.isAlphanum || ['-', '.'].contains c

theorem isNameChar_of_isPackageChar {c : Char} (h : isPackageChar c = true)
    : Relation.isNameChar c = true := by
  unfold isPackageChar at h
  unfold Relation.isNameChar
  simp only [List.contains_cons, List.contains_nil, Bool.or_false, Bool.or_eq_true, beq_iff_eq] at h ⊢
  tauto

theorem isPackageChar_lower {c : Char} (hc : IsAscii c)
    : isCrateChar c = true → isPackageChar (if c.toLower = '_' then '-' else c.toLower) = true := by
  revert hc
  apply forall_isAscii
  decide

theorem isPackageChar_packagePart {name : Text} (h : ∀ c ∈ name, isCrateChar c = true)
    : ∀ c ∈ packagePart name, isPackageChar c = true := by
  have hascii : ∀ c ∈ name, IsAscii c := by
    intro c hc
    have := h c hc
    simp only [isCrateChar, List.contains_cons, List.contains_nil, Bool.or_eq_true, beq_iff_eq,
      Bool.or_false] at this
    rcases this with halnum | rfl | rfl
    . exact isAscii_of_isAlphanum halnum
    . decide
    . decide
  unfold packagePart
  rw [lower_of_isAscii hascii, List.map_map, List.forall_mem_map]
  intro c hc
  exact isPackageChar_lower (hascii c hc) (h c hc)

theorem isPackageChar_ofNat (n : Nat) : ∀ c ∈ ofNat n, isPackageChar c = true := by
  intro c hc
  unfold isPackageChar Char.isAlphanum
  unfold ofNat Nat.repr at hc
  rw [String.toList_ofList] at hc
  simp [Nat.isDigit_of_mem_toDigits (by decide) (by decide) hc]

theorem forall_mem_libraryPackage {p : Char → Prop} {name suffix : Text}
    (hlit : ∀ c ∈ ("librust--dev" : Text), p c)
    (hname : ∀ c ∈ packagePart name, p c) (hsuffix : ∀ c ∈ suffix, p c)
    : ∀ c ∈ libraryPackage name suffix, p c := by
  unfold libraryPackage
  rw [List.forall_mem_append, List.forall_mem_append, List.forall_mem_append]
  refine ⟨⟨⟨?_, hname⟩, hsuffix⟩, ?_⟩
  all_goals
    intro c hc
    apply hlit
    revert c
    exact List.all_iff_forall_prop.mp (by decide)

end Crate

namespace Manifest

inductive IsVersionEnding (hasSuffix : Bool) (v : CrateVersion) : Text → Prop where
  | any (h : hasSuffix = false) : IsVersionEnding hasSuffix v []
  | major : IsVersionEnding hasSuffix v ('-' :: ofNat v.major)
  | minor : IsVersionEnding hasSuffix v ('-' :: (ofNat v.major ++ '.' :: ofNat v.minor))
  | patch : IsVersionEnding hasSuffix v
      ('-' :: (ofNat v.major ++ '.' :: (ofNat v.minor ++ '.' :: ofNat v.patch)))

inductive IsFeatureEnding (features : List Text) : Text → Prop where
  | none : IsFeatureEnding features []
  | default : IsFeatureEnding features "+default"
  | feature {feature : Text} (h : feature ∈ features) : IsFeatureEnding features ('+' :: feature)

/-- The names are in order, each of them once, those by which a version and a feature of the crate can be
asked for. The package's own name is not among them. -/
structure AreProvided (b : CrateBinary) (hasSuffix : Bool) (v : CrateVersion) (features : List Text)
    (names : List Text) : Prop where
  inOrder : names.Pairwise fun a b => Text.le a b = true ∧ a ≠ b
  mem_iff : ∀ name, name ∈ names ↔ name ≠ b.name ∧ ∃ version feature,
    IsVersionEnding hasSuffix v version ∧ IsFeatureEnding features feature ∧
      name = Crate.libraryPackage b.crate (version ++ feature)

theorem mem_versionEndings_iff {hasSuffix : Bool} {v : CrateVersion} {t : Text}
    : t ∈ versionEndings hasSuffix v ↔ IsVersionEnding hasSuffix v t := by
  have hpair : '-' :: v.numbers
      = '-' :: (ofNat v.major ++ '.' :: (ofNat v.minor ++ '.' :: ofNat v.patch)) := by
    simp [CrateVersion.numbers, CrateVersion.pair]
  unfold versionEndings
  rw [hpair]
  constructor
  . intro h
    simp only [List.mem_append, List.mem_cons, List.not_mem_nil, or_false] at h
    rcases h with h | rfl | rfl | rfl
    . cases hasSuffix with
      | false =>
        obtain rfl : t = [] := by simpa using h
        exact .any rfl
      | true => cases h
    . exact .major
    . exact .minor
    . exact .patch
  . intro h
    cases h with
    | any h => simp [h]
    | major => simp
    | minor => simp [CrateVersion.pair]
    | patch => simp

theorem mem_featureEndings_iff {features : List Text} {t : Text}
    : t ∈ featureEndings features ↔ IsFeatureEnding features t := by
  unfold featureEndings
  constructor
  . intro h
    simp only [List.mem_cons, List.mem_map] at h
    rcases h with rfl | rfl | ⟨feature, h, rfl⟩
    . exact .none
    . exact .default
    . exact .feature h
  . intro h
    cases h with
    | none => simp
    | default => simp
    | feature h => simp [h]

theorem areProvided_providedNames (b : CrateBinary) (hasSuffix : Bool) (v : CrateVersion)
    (features : List Text)
    : AreProvided b hasSuffix v features (providedNames b hasSuffix v features) := by
  unfold providedNames
  dsimp only
  constructor
  . apply pairwise_eraseDups
    apply List.pairwise_mergeSort
    . intro s t u
      exact Text.le_trans
    . intro s t
      simpa using Text.le_total s t
  . intro name
    rw [List.mem_eraseDups, List.mem_mergeSort, List.mem_filter, bne_iff_ne, and_comm]
    simp only [List.mem_flatMap, List.mem_map, mem_versionEndings_iff, mem_featureEndings_iff]
    apply and_congr_right
    intro _
    constructor
    . rintro ⟨version, hversion, feature, hfeature, rfl⟩
      exact ⟨version, feature, hversion, hfeature, rfl⟩
    . rintro ⟨version, feature, hversion, hfeature, rfl⟩
      exact ⟨version, hversion, feature, hfeature, rfl⟩

theorem IsVersionEnding.isPackageChar {hasSuffix : Bool} {v : CrateVersion} {t : Text}
    (h : IsVersionEnding hasSuffix v t) : ∀ c ∈ t, Crate.isPackageChar c = true := by
  have hdash : Crate.isPackageChar '-' = true := by decide
  have hdot : Crate.isPackageChar '.' = true := by decide
  have hnumber := Crate.isPackageChar_ofNat
  cases h with
  | any _ => simp
  | major =>
    rw [List.forall_mem_cons]
    exact ⟨hdash, hnumber v.major⟩
  | minor =>
    rw [List.forall_mem_cons, List.forall_mem_append, List.forall_mem_cons]
    exact ⟨hdash, hnumber v.major, hdot, hnumber v.minor⟩
  | patch =>
    rw [List.forall_mem_cons, List.forall_mem_append, List.forall_mem_cons, List.forall_mem_append,
      List.forall_mem_cons]
    exact ⟨hdash, hnumber v.major, hdot, hnumber v.minor, hdot, hnumber v.patch⟩

def isFeatureChar (c : Char) : Bool := Relation.isNameChar c || c == '_'

theorem IsFeatureEnding.isFeatureChar {features : List Text}
    (hfeatures : ∀ feature ∈ features, ∀ c ∈ feature, isFeatureChar c = true) {t : Text}
    (h : IsFeatureEnding features t) : ∀ c ∈ t, isFeatureChar c = true := by
  cases h with
  | none => simp
  | default => exact List.all_iff_forall_prop.mp (by decide)
  | feature h =>
    rw [List.forall_mem_cons]
    exact ⟨by decide, hfeatures _ h⟩

def sameBuildOf (name : Text) : Relation where
  name := name
  constraint := some ⟨"=", "$\x7bbinary:Version\x7d"⟩

theorem render_sameBuildOf (name : Text) : (sameBuildOf name).render = sameBuild name := by
  unfold Relation.render sameBuildOf sameBuild
  simp [Relation.renderArchqual, Relation.renderConstraint, Relation.renderArchs,
    Relation.renderAllProfiles]

theorem spells_sameBuild {name : Text} (h : Relation.IsName name)
    : Relation.Spells (sameBuildOf name) (sameBuild name) := by
  have hversion : Relation.IsConstraintVersion "$\x7bbinary:Version\x7d" :=
    .mk (c := '$') (by decide) (List.all_iff_forall_prop.mp (by decide))
  rw [← render_sameBuildOf]
  apply Relation.spells_render
  constructor
  . exact h
  . simp [sameBuildOf]
  . rintro c hc
    cases hc
    exact ⟨by decide, hversion⟩
  . simp [sameBuildOf]
  . simp [sameBuildOf]

theorem read?_underscore {name rest : Text} (h : Relation.IsName name)
    : Relation.read? (name ++ '_' :: rest) = none := by
  have hname := Relation.readName?_append h (t := '_' :: rest) (by
    rw [stopsAt_cons]
    decide)
  have htrim : trimStart ('_' :: rest) = '_' :: rest := trimStart_of_stopsAt (by
    rw [stopsAt_cons]
    decide)
  have hgoesOn : Relation.GoesOnWith ['_'] ('_' :: rest) := by
    unfold Relation.GoesOnWith
    rw [htrim]
    simp
  have harchqual : Relation.readArchqual? ('_' :: rest) = none := rfl
  have hconstraint : Relation.readConstraint? ('_' :: rest) = none := by
    unfold Relation.readConstraint?
    rw [htrim]
    rfl
  have harchs : Relation.readArchs? ('_' :: rest) = none :=
    Relation.readWords?_of_goesOnWith hgoesOn (by decide)
  have hprofiles : Relation.readAllProfiles ('_' :: rest) = ([], '_' :: rest) := by
    rw [Relation.readAllProfiles]
    split
    . rfl
    . next hgroup =>
      unfold Relation.readProfiles? at hgroup
      rw [Relation.readWords?_of_goesOnWith hgoesOn (by decide)] at hgroup
      cases hgroup
  unfold Relation.read? Relation.readOptional
  rw [hname]
  simp [harchqual, hconstraint, harchs, hprofiles, isEnd]

theorem not_spells_sameBuild {c : Char} {name : Text} (hc : c.isAlphanum = true)
    (hname : ∀ c ∈ name, isFeatureChar c = true) (hmem : '_' ∈ name) (r : Relation)
    : ¬ Relation.Spells r (sameBuild (c :: name)) := by
  obtain ⟨front, back, rfl, hfront⟩ := List.eq_append_cons_of_mem hmem
  have hchars : ∀ c ∈ front, Relation.isNameChar c = true := by
    intro c hc
    have := hname c (by simp [hc])
    unfold isFeatureChar at this
    rw [Bool.or_eq_true, beq_iff_eq] at this
    apply this.resolve_right
    rintro rfl
    exact hfront hc
  have happ : sameBuild (c :: (front ++ '_' :: back)) = c :: front ++ '_' :: sameBuild back := by
    simp [sameBuild]
  rw [← Relation.read?_eq_some_iff, happ, read?_underscore (.plain hc hchars)]
  simp

inductive IsFeatureName : Text → Prop where
  | mk {c : Char} {name : Text} (hc : c.isAlphanum = true) (hname : ∀ c ∈ name, isFeatureChar c = true)
    : IsFeatureName (c :: name)

theorem isFeatureChar_of_isAlphanum {c : Char} (h : c.isAlphanum = true) : isFeatureChar c = true := by
  simp [isFeatureChar, Relation.isNameChar, h]

theorem isBlank_of_isFeatureChar {c : Char} (h : isFeatureChar c = true) : isBlank c = false := by
  unfold isFeatureChar at h
  rw [Bool.or_eq_true, beq_iff_eq] at h
  rcases h with h | rfl
  . exact Relation.isBlank_of_isNameChar h
  . decide

namespace IsFeatureName

variable {name : Text} (h : IsFeatureName name)

include h

theorem isFeatureChar : ∀ c ∈ name, isFeatureChar c = true := by
  cases h with
  | mk hc hname =>
    rw [List.forall_mem_cons]
    exact ⟨isFeatureChar_of_isAlphanum hc, hname⟩

theorem not_mem_sameBuild {c : Char} (hc : Relation.isSeparator c = true) : c ∉ sameBuild name := by
  unfold sameBuild
  rw [List.mem_append, not_or]
  constructor
  . intro hmem
    have := h.isFeatureChar c hmem
    rcases Relation.separator_cases hc with rfl | rfl
    all_goals
      revert this
      decide
  . rcases Relation.separator_cases hc with rfl | rfl
    all_goals decide

theorem isTrimmed_sameBuild : IsTrimmed (sameBuild name) ∧ sameBuild name ≠ [] := by
  cases h with
  | @mk c name hc hname =>
    refine ⟨⟨(stopsAt_cons ..).mpr (Relation.isBlank_of_isAlphanum hc), ?_⟩, by simp [sameBuild]⟩
    apply Relation.stopsAt_reverse_append
    . apply Relation.stopsAt_reverse_of_forall
      rw [List.forall_mem_cons]
      exact ⟨Relation.isBlank_of_isAlphanum hc, fun d hd => isBlank_of_isFeatureChar (hname d hd)⟩
    . exact (stopsAt_cons ..).mpr (by decide)

theorem isName (hmem : '_' ∉ name) : Relation.IsName name := by
  cases h with
  | mk hc hname =>
    apply Relation.IsName.plain hc
    intro c hc
    have := hname c hc
    unfold Manifest.isFeatureChar at this
    rw [Bool.or_eq_true, beq_iff_eq] at this
    apply this.resolve_right
    rintro rfl
    exact hmem (List.mem_cons_of_mem _ hc)

theorem means_sameBuild_iff {clause : Clause}
    : Entry.Means (sameBuild name) clause ↔ '_' ∉ name ∧ clause = [sameBuildOf name] := by
  unfold Entry.Means
  rw [splitOn_of_not_mem (h.not_mem_sameBuild (by decide)), List.forall₂_cons_left_iff]
  simp only [List.forall₂_nil_left_iff, h.isTrimmed_sameBuild.1.trim_eq]
  constructor
  . rintro ⟨r, _, hspells, rfl, rfl⟩
    have hmem : '_' ∉ name := by
      cases h with
      | @mk c name hc hname =>
        intro hmem
        rcases List.mem_cons.mp hmem with rfl | hmem
        . revert hc
          decide
        . exact not_spells_sameBuild hc hname hmem r hspells
    refine ⟨hmem, ?_⟩
    have hread := Relation.read?_of_spells hspells
    rw [Relation.read?_of_spells (spells_sameBuild (h.isName hmem))] at hread
    cases hread
    rfl
  . rintro ⟨hmem, rfl⟩
    exact ⟨_, [], spells_sameBuild (h.isName hmem), rfl, rfl⟩

end IsFeatureName

theorem means_lines_iff {names : List Text} (h : ∀ name ∈ names, IsFeatureName name) {clauses : List Clause}
    : RelationField.Means ('\n' :: join ",\n " (names.map sameBuild)) clauses ↔
        (∀ name ∈ names, '_' ∉ name) ∧ clauses = names.map fun name => [sameBuildOf name] := by
  have hblank : IsBlankText "\n " := List.all_iff_forall_prop.mp (by decide)
  -- the line end in front of the first relation is one of the blanks around it
  have hlead : RelationField.Means ('\n' :: join ",\n " (names.map sameBuild)) clauses ↔
      RelationField.Means (join ",\n " (names.map sameBuild)) clauses := by
    have htrim := trim_blank_append (b := "\n") (isBlankText_singleton (by decide))
      (join ",\n " (names.map sameBuild))
    refine RelationField.means_trim_iff.symm.trans (.trans ?_ RelationField.means_trim_iff)
    exact iff_of_eq (congrArg (RelationField.Means · clauses) htrim)
  have hjoin := @RelationField.means_join_iff [] "\n " isBlankText_nil hblank (names.map sameBuild) (by
    rw [List.forall_mem_map]
    intro name hname
    exact ⟨(h name hname).isTrimmed_sameBuild, (h name hname).not_mem_sameBuild (by decide)⟩) clauses
  have hnames : List.Forall₂ Entry.Means (names.map sameBuild) clauses ↔
      (∀ name ∈ names, '_' ∉ name) ∧ clauses = names.map fun name => [sameBuildOf name] := by
    clear hlead hjoin
    induction names generalizing clauses with
    | nil => simp
    | cons name names ih =>
      rw [List.forall_mem_cons] at h
      rw [List.map_cons, List.forall₂_cons_left_iff, List.forall_mem_cons, List.map_cons]
      simp only [h.1.means_sameBuild_iff]
      constructor
      . rintro ⟨clause, clauses, ⟨hname, rfl⟩, hclauses, rfl⟩
        obtain ⟨hnames, rfl⟩ := (ih h.2).mp hclauses
        exact ⟨⟨hname, hnames⟩, rfl⟩
      . rintro ⟨⟨hname, hnames⟩, rfl⟩
        exact ⟨_, _, ⟨hname, rfl⟩, (ih h.2).mpr ⟨hnames, rfl⟩, rfl⟩
  exact hlead.trans (hjoin.trans hnames)

theorem isFeatureChar_of_isPackageChar {c : Char} (h : Crate.isPackageChar c = true)
    : isFeatureChar c = true := by
  simp [isFeatureChar, Crate.isNameChar_of_isPackageChar h]

theorem AreProvided.mem_of_feature {b : CrateBinary} {hasSuffix : Bool} {v : CrateVersion}
    {features names : List Text} (h : AreProvided b hasSuffix v features names)
    (hname : ∀ c ∈ b.name, Crate.isPackageChar c = true) {feature : Text}
    (hfeature : IsFeatureEnding features feature) (hplus : '+' ∈ feature)
    : Crate.libraryPackage b.crate ('-' :: ofNat v.major ++ feature) ∈ names := by
  rw [h.mem_iff]
  refine ⟨?_, _, feature, .major, hfeature, rfl⟩
  intro heq
  have hmem : '+' ∈ b.name := by
    rw [← heq]
    unfold Crate.libraryPackage
    simp [hplus]
  have := hname _ hmem
  revert this
  decide

structure HasCrate (m : Manifest) (crate : Text) (v : CrateVersion) (features : List Text) : Prop where
  name_eq : m.crateName? = .ok (some crate)
  name_chars : ∀ c ∈ crate, Crate.isCrateChar c = true
  version_eq : m.crateVersion? = .ok (some v)
  features_eq : m.features = .ok features
  features_chars : ∀ feature ∈ features, ∀ c ∈ feature, isFeatureChar c = true

namespace HasCrate

variable {m : Manifest} {crate : Text} {v : CrateVersion} {features : List Text}
  (h : m.HasCrate crate v features)

include h

theorem library_of_binaries {bs : List CrateBinary} (hbs : m.binaries = .ok bs) {b : CrateBinary}
    (hb : b ∈ bs) (hkind : b.kind = .library)
    : b.crate = crate ∧ ∃ version, IsVersionEnding false v version ∧
        b.name = Crate.libraryPackage crate version := by
  have hsuffix : ∃ version, IsVersionEnding false v version ∧ m.versionSuffix? = .ok (some version) := by
    unfold versionSuffix?
    cases m.hasVersionSuffix with
    | false => exact ⟨[], .any rfl, rfl⟩
    | true =>
      rw [h.version_eq]
      exact ⟨_, .minor, rfl⟩
  obtain ⟨version, hversion, hsuffix⟩ := hsuffix
  unfold binaries at hbs
  rw [h.name_eq, hsuffix] at hbs
  have hlibrary : b = ⟨.library, Crate.libraryPackage crate version, crate⟩ := by
    simp only [bind, Except.bind] at hbs
    split at hbs
    . cases hbs
      rcases List.mem_cons.mp hb with hb | hb
      . exact hb
      . rw [List.mem_singleton.mp hb] at hkind
        cases hkind
    . cases hbs
      exact List.mem_singleton.mp hb
  rw [hlibrary]
  exact ⟨rfl, version, hversion, rfl⟩

theorem isFeatureName {hasSuffix : Bool} {version feature : Text}
    (hversion : IsVersionEnding hasSuffix v version) (hfeature : IsFeatureEnding features feature)
    : IsFeatureName (Crate.libraryPackage crate (version ++ feature)) := by
  have hchars : ∀ c ∈ Crate.libraryPackage crate (version ++ feature), isFeatureChar c = true := by
    apply Crate.forall_mem_libraryPackage
    . exact List.all_iff_forall_prop.mp (by decide)
    . intro c hc
      exact isFeatureChar_of_isPackageChar (Crate.isPackageChar_packagePart h.name_chars c hc)
    . rw [List.forall_mem_append]
      refine ⟨?_, hfeature.isFeatureChar h.features_chars⟩
      intro c hc
      exact isFeatureChar_of_isPackageChar (hversion.isPackageChar c hc)
  unfold Crate.libraryPackage at hchars ⊢
  have hlit : ("librust-" : Text) = 'l' :: "ibrust-" := rfl
  rw [hlit, List.cons_append, List.cons_append, List.cons_append] at hchars ⊢
  rw [List.forall_mem_cons] at hchars
  exact .mk (by decide) hchars.2

theorem isPackageChar_name {version : Text} (hversion : IsVersionEnding hasSuffix v version)
    : ∀ c ∈ Crate.libraryPackage crate version, Crate.isPackageChar c = true :=
  Crate.forall_mem_libraryPackage (List.all_iff_forall_prop.mp (by decide))
    (Crate.isPackageChar_packagePart h.name_chars) hversion.isPackageChar

theorem not_mem_names_iff {b : CrateBinary} {names : List Text} (hb : b.crate = crate)
    (hname : ∀ c ∈ b.name, Crate.isPackageChar c = true)
    (hnames : AreProvided b m.hasVersionSuffix v features names)
    : (∀ name ∈ names, '_' ∉ name) ↔ ∀ feature ∈ features, '_' ∉ feature := by
  have hchar : ∀ c, Crate.isPackageChar c = true → c ≠ '_' := by
    rintro c hc rfl
    revert hc
    decide
  constructor
  . intro hnot feature hfeature hmem
    apply hnot _ (hnames.mem_of_feature hname (.feature hfeature) List.mem_cons_self)
    unfold Crate.libraryPackage
    simp [hmem]
  . intro hnot name hmem
    obtain ⟨_, version, feature, hversion, hfeature, rfl⟩ := (hnames.mem_iff name).mp hmem
    have hne : ∀ c ∈ Crate.libraryPackage b.crate (version ++ feature), c ≠ '_' := by
      apply Crate.forall_mem_libraryPackage
      . exact List.all_iff_forall_prop.mp (by decide)
      . intro c hc
        rw [hb] at hc
        exact hchar c (Crate.isPackageChar_packagePart h.name_chars c hc)
      . rw [List.forall_mem_append]
        refine ⟨fun c hc => hchar c (hversion.isPackageChar c hc), ?_⟩
        cases hfeature with
        | none => simp
        | default => exact List.all_iff_forall_prop.mp (by decide)
        | feature hfeature =>
          rintro c hc rfl
          exact hnot _ hfeature (by simpa using hc)
    intro hmem
    exact hne _ hmem rfl

end HasCrate

/-- The library package of a crate provides a field, which is read if and only if no feature has an
underscore in its name. What is read is one relation on the same build for each way to ask for the
crate. -/
theorem read_provides?_iff (m : Manifest) {crate : Text} {v : CrateVersion} {features : List Text}
    (h : m.HasCrate crate v features) {bs : List CrateBinary} (hbs : m.binaries = .ok bs)
    {b : CrateBinary} (hb : b ∈ bs) (hkind : b.kind = .library)
    : ∃ t, m.provides? b = .ok (some t) ∧
        ((∃ f, RelationField.read t = .ok f) ↔ ∀ feature ∈ features, '_' ∉ feature) ∧
        ∀ f, RelationField.read t = .ok f →
          ∃ names, AreProvided b m.hasVersionSuffix v features names ∧
            f.clauses = names.map fun name => [sameBuildOf name] := by
  obtain ⟨hcrate, version, hversion, hname⟩ := h.library_of_binaries hbs hb hkind
  have hchars : ∀ c ∈ b.name, Crate.isPackageChar c = true := by
    rw [hname]
    exact h.isPackageChar_name hversion
  have hprovided := areProvided_providedNames b m.hasVersionSuffix v features
  generalize hnames : providedNames b m.hasVersionSuffix v features = names at hprovided
  have hprovides : m.provides? b = .ok (some ('\n' :: join ",\n " (names.map sameBuild))) := by
    have hmem := hprovided.mem_of_feature hchars .default (by decide)
    unfold provides?
    rw [h.version_eq, h.features_eq, hkind]
    simp only [bind, Except.bind, hnames]
    cases names with
    | nil => cases hmem
    | cons name names => rfl
  have hfeature : ∀ name ∈ names, IsFeatureName name := by
    intro name hmem
    obtain ⟨_, version, feature, hversion, hfeature, rfl⟩ := (hprovided.mem_iff name).mp hmem
    rw [hcrate]
    exact h.isFeatureName hversion hfeature
  refine ⟨_, hprovides, ?_, ?_⟩
  . rw [← h.not_mem_names_iff hcrate hchars hprovided]
    constructor
    . rintro ⟨f, hf⟩
      exact ((means_lines_iff hfeature).mp (RelationField.means_of_read hf)).1
    . intro hnot
      obtain ⟨f, hf, _⟩ := RelationField.exists_read_of_means ((means_lines_iff hfeature).mpr ⟨hnot, rfl⟩)
      exact ⟨f, hf⟩
  . intro f hf
    exact ⟨names, hprovided, ((means_lines_iff hfeature).mp (RelationField.means_of_read hf)).2⟩

theorem exists_hasCrate {name text : Text} {cargo : Option Text} {crate : Text} {v : CrateVersion}
    {features : List Text} {bs : List CrateBinary}
    (hrun : (do
      let m ← Manifest.read name text cargo
      return (← m.crateName?, ← m.crateVersion?, ← m.features, ← m.binaries)) =
        .ok (some crate, some v, features, bs))
    (hname : crate.all Crate.isCrateChar = true)
    (hfeatures : features.all (·.all isFeatureChar) = true)
    : ∃ m, Manifest.read name text cargo = .ok m ∧ m.HasCrate crate v features ∧
        m.binaries = .ok bs := by
  obtain ⟨m, hm, hrun⟩ := bind_eq_ok.mp hrun
  obtain ⟨crate', hcrate, hrun⟩ := bind_eq_ok.mp hrun
  obtain ⟨v', hv, hrun⟩ := bind_eq_ok.mp hrun
  obtain ⟨features', hfeatures', hrun⟩ := bind_eq_ok.mp hrun
  obtain ⟨bs', hbs, hrun⟩ := bind_eq_ok.mp hrun
  cases hrun
  refine ⟨m, hm, ⟨hcrate, ?_, hv, hfeatures', ?_⟩, hbs⟩
  . simpa using hname
  . simpa using hfeatures

theorem read_provides?_iff_words
    : (∃ m b t, Manifest.read "debian/debcargo.toml" ""
          (some "[package]\nname = \"A_b\"\nversion = \"1.2.3\"\n[features]\nx-y = []\n") = .ok m ∧
          m.provides? b = .ok (some t) ∧ ∃ f, RelationField.read t = .ok f) ∧
        ∃ m b t, Manifest.read "debian/debcargo.toml" ""
          (some "[package]\nname = \"a\"\nversion = \"1.2.3\"\n[features]\nx_y = []\n") = .ok m ∧
          m.provides? b = .ok (some t) ∧ ¬ ∃ f, RelationField.read t = .ok f := by
  constructor
  . obtain ⟨m, hm, hcrate, hbs⟩ := @exists_hasCrate "debian/debcargo.toml" ""
      (some "[package]\nname = \"A_b\"\nversion = \"1.2.3\"\n[features]\nx-y = []\n") "A_b"
      ⟨1, 2, 3, none, none⟩ ["x-y"]
      [⟨.library, "librust-a-b-dev", "A_b"⟩, ⟨.programs, "A_b", "A_b"⟩] (by decide +kernel)
      (by decide) (by decide)
    obtain ⟨t, ht, hiff, _⟩ := read_provides?_iff m hcrate hbs List.mem_cons_self rfl
    exact ⟨m, _, t, hm, ht, hiff.mpr (by decide)⟩
  . obtain ⟨m, hm, hcrate, hbs⟩ := @exists_hasCrate "debian/debcargo.toml" ""
      (some "[package]\nname = \"a\"\nversion = \"1.2.3\"\n[features]\nx_y = []\n") "a"
      ⟨1, 2, 3, none, none⟩ ["x_y"]
      [⟨.library, "librust-a-dev", "a"⟩, ⟨.programs, "a", "a"⟩] (by decide +kernel)
      (by decide) (by decide)
    obtain ⟨t, ht, hiff, _⟩ := read_provides?_iff m hcrate hbs List.mem_cons_self rfl
    refine ⟨m, _, t, hm, ht, ?_⟩
    rw [hiff]
    decide

end Manifest

end DebianPackaging
