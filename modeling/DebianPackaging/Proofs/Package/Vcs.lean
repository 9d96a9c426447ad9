import DebianPackaging.Package.Metadata
import DebianPackaging.Proofs.Manifest.Vcs

/-!
This module contains the proof that the repository addresses of a package are a table from types to
addresses, be the package described by a control file or by a manifest.
-/

namespace DebianPackaging

namespace PackageMetadata

/-- A package can be given an address of any type: a control file has a paragraph of the source package,
and a manifest has nothing in place of its tables and arrays. -/
def TakesVcsUrls : PackageMetadata → Prop
  | control d => ∃ p, d.sourceParagraph? = some p ∧ p.HasFieldNames
  | manifest m => m.HasLines

theorem takesVcsUrls_of_readLines? {ls : List Text} {d : ControlDocument} {p : Paragraph}
    (h : ControlDocument.readLines? ls = some d) (hp : d.sourceParagraph? = some p)
    : (control d).TakesVcsUrls := by
  obtain ⟨_, ps, hps⟩ := ControlDocument.exists_paragraphs_of_sourceParagraph? hp
  refine ⟨p, hp, ControlDocument.hasFieldNames_of_readLines? h p ?_⟩
  rw [hps]
  simp

theorem vcsUrl?_control {d : ControlDocument} {p : Paragraph} (h : d.sourceParagraph? = some p)
    (type : Text) : (control d).vcsUrl? type = .ok (p.vcsUrl? type) := by
  unfold vcsUrl? ControlDocument.source
  dsimp only
  rw [h]
  rfl

theorem setVcsUrl_control {d : ControlDocument} {p q : Paragraph} (h : d.sourceParagraph? = some p)
    {type url : Text} (hq : p.setVcsUrl type url = .ok q)
    : (control d).setVcsUrl type url = .ok (control (d.setParagraph 0 q)) := by
  unfold setVcsUrl editSource ControlDocument.editSource ControlDocument.source
  dsimp only
  rw [h]
  dsimp only [bind, Except.bind]
  rw [hq]
  rfl

theorem setVcsUrl_manifest {m m' : Manifest} {type url : Text} (h : m.setVcsUrl type url = .ok m')
    : (manifest m).setVcsUrl type url = .ok (manifest m') := by
  unfold setVcsUrl editSource
  dsimp only
  rw [h]
  rfl

theorem sameName_fieldName_source {type : Text} (h : Vcs.IsType type)
    : sameName (Vcs.fieldName type) "Source" = false := by
  have hsource : Text.lower "Source" = "source" := by decide +kernel
  rw [← Bool.not_eq_true, sameName_iff, Vcs.lower_fieldName h.isTypeChar, hsource]
  intro heq
  cases heq

structure HasVcsUrl (p : PackageMetadata) (type url : Text) (q : PackageMetadata) : Prop where
  takesVcsUrls : q.TakesVcsUrls
  vcsUrl?_eq : ∀ other, Vcs.IsType other →
    q.vcsUrl? other = if other.lower = type.lower then .ok (some url) else p.vcsUrl? other
  again : q.setVcsUrl type url = .ok q
  keepsOtherLines : ∀ m, p = manifest m →
    ∃ m', q = manifest m' ∧ m.KeepsOtherLines m' (Vcs.fieldName type)

/-- An address that is given to a type is that of the type in whatever case, and the addresses of all other
types stay; giving it again changes nothing. In a manifest the lines that are not for the type stay where
they are. -/
theorem exists_hasVcsUrl {p : PackageMetadata} (hp : p.TakesVcsUrls) {type url : Text}
    (htype : Vcs.IsType type) (hurl : Vcs.IsAddress url)
    : ∃ q, p.setVcsUrl type url = .ok q ∧ p.HasVcsUrl type url q := by
  cases p with
  | control d =>
    obtain ⟨p, hsource, hnames⟩ := hp
    obtain ⟨q, hset, hnames', hagain, hself, hother⟩ := Paragraph.exists_setVcsUrl hnames htype hurl
    have hhas : q.has "Source" = true := by
      unfold Paragraph.has
      rw [hother "Source"]
      . exact (ControlDocument.exists_paragraphs_of_sourceParagraph? hsource).1
      . exact sameName_fieldName_source htype
    have hsource' := ControlDocument.sourceParagraph?_setParagraph hsource hhas
    refine ⟨_, setVcsUrl_control hsource hset, ⟨q, hsource', hnames'⟩, ?_, ?_, ?_⟩
    . intro other hother'
      rw [vcsUrl?_control hsource', vcsUrl?_control hsource]
      split
      . next hlower =>
        unfold Paragraph.vcsUrl? at hself ⊢
        rw [Vcs.fieldName_eq_of_lower hlower, hself]
      . next hlower =>
        have hfield : sameName (Vcs.fieldName type) (Vcs.fieldName other) = false := by
          rw [← Bool.not_eq_true, Vcs.sameName_fieldName htype.isTypeChar hother'.isTypeChar]
          exact hlower
        unfold Paragraph.vcsUrl? Paragraph.get?
        rw [hother _ hfield]
    . obtain ⟨_, ps, hps⟩ := ControlDocument.exists_paragraphs_of_sourceParagraph? hsource'
      rw [setVcsUrl_control hsource' hagain, ControlDocument.setParagraph_self hps]
    . intro m hm
      cases hm
  | manifest m =>
    obtain ⟨m', hset, h⟩ := Manifest.exists_setVcsUrl_of_hasLines hp htype hurl
    refine ⟨manifest m', setVcsUrl_manifest hset, h.hasLines, ?_, setVcsUrl_manifest h.again, ?_⟩
    . intro other hother
      split
      . next hlower => exact h.self other hlower
      . next hlower => exact h.other other hother hlower
    . intro m₀ hm
      cases hm
      exact ⟨m', rfl, h.keepsOtherLines⟩

/-- A line is put in place of the one for the type in another case, between an item that is no line and the
line for a longer type; a field keeps its spelling. -/
theorem exists_hasVcsUrl_hg
    : (∃ m q, Manifest.read "debian/debcargo.toml"
          "[source]\nextra_lines = [3, \"vcs-hg: a\", \"Vcs-Hgx: b\"]\n" none = .ok m ∧
        (manifest m).setVcsUrl "HG" "https://c" = .ok q ∧ q.vcsUrl? "hg" = .ok (some "https://c") ∧
        q.vcsUrl? "hgx" = .ok (some "b") ∧ q.setVcsUrl "HG" "https://c" = .ok q ∧
        q.text = "[source]\nextra_lines = [3, \"Vcs-Hg: https://c\", \"Vcs-Hgx: b\"]\n") ∧
      ∃ d q, ControlDocument.readLines? ["Source: x\n", "VCS-hg: a\n", "Vcs-Hgx: b\n"] = some d ∧
        (control d).setVcsUrl "HG" "https://c" = .ok q ∧ q.vcsUrl? "hg" = .ok (some "https://c") ∧
        q.vcsUrl? "hgx" = .ok (some "b") ∧ q.setVcsUrl "HG" "https://c" = .ok q ∧
        q.text = "Source: x\nVCS-hg: https://c\nVcs-Hgx: b\n" := by
  have htype : Vcs.IsType "HG" := ⟨by decide, List.all_eq_true.mp (by decide)⟩
  have hlower : Vcs.IsType "hg" := ⟨by decide, List.all_eq_true.mp (by decide)⟩
  have hlonger : Vcs.IsType "hgx" := ⟨by decide, List.all_eq_true.mp (by decide)⟩
  have htrimmed : Text.IsTrimmed "https://c" :=
    ⟨by simp [Text.StopsAt]; decide, by simp [Text.StopsAt]; decide⟩
  have hurl : Vcs.IsAddress "https://c" :=
    ⟨by decide, List.all_iff_forall_prop.mp (by decide), htrimmed⟩
  constructor
  . have hrun : (do
        let m ← Manifest.read "debian/debcargo.toml"
          "[source]\nextra_lines = [3, \"vcs-hg: a\", \"Vcs-Hgx: b\"]\n" none
        let q ← (manifest m).setVcsUrl "HG" "https://c"
        let url ← (manifest m).vcsUrl? "hgx"
        let x ← m.sourceKey Manifest.extraLinesKey
        return (!m.document.isLeaf [Manifest.sourceTable] &&
          decide ([Manifest.sourceTable] ∉ m.document.elements) && (Manifest.cells? x).isSome, url, q.text)) =
        .ok (true, some "b",
          "[source]\nextra_lines = [3, \"Vcs-Hg: https://c\", \"Vcs-Hgx: b\"]\n") := by
      decide +kernel
    obtain ⟨m, hm, hrun⟩ := bind_eq_ok.mp hrun
    obtain ⟨q, hq, hrun⟩ := bind_eq_ok.mp hrun
    obtain ⟨b, hb, hrun⟩ := bind_eq_ok.mp hrun
    obtain ⟨x, hx, hrun⟩ := bind_eq_ok.mp hrun
    obtain ⟨hlines, hrun⟩ := Prod.mk.inj (Except.ok.inj hrun)
    obtain ⟨rfl, htext⟩ := Prod.mk.inj hrun
    rw [Bool.and_eq_true, Bool.and_eq_true, Bool.not_eq_true', decide_eq_true_eq] at hlines
    obtain ⟨⟨hleaf, hmem⟩, hcells⟩ := hlines
    obtain ⟨cells, hcells⟩ := Option.isSome_iff_exists.mp hcells
    rw [Manifest.eq_of_cells? hcells] at hx
    obtain ⟨q', hq', h⟩ := exists_hasVcsUrl (p := manifest m)
      ⟨⟨(Toml.Document.isOpen_iff _ _).mpr hleaf, hmem⟩, .inr ⟨cells, hx⟩⟩ htype hurl
    rw [hq] at hq'
    cases hq'
    refine ⟨m, q, hm, hq, ?_, ?_, h.again, htext⟩
    . rw [h.vcsUrl?_eq _ hlower, if_pos (by decide +kernel)]
    . rw [h.vcsUrl?_eq _ hlonger, if_neg (by decide +kernel), hb]
  . have hrun : (ControlDocument.readLines? ["Source: x\n", "VCS-hg: a\n", "Vcs-Hgx: b\n"]).map (fun d =>
        (d.sourceParagraph?.isSome, ((control d).setVcsUrl "HG" "https://c").map (·.text),
          (control d).vcsUrl? "hgx")) =
        some (true, .ok "Source: x\nVCS-hg: https://c\nVcs-Hgx: b\n", .ok (some "b")) := by
      decide +kernel
    obtain ⟨d, hd, hrun⟩ := Option.map_eq_some_iff.mp hrun
    obtain ⟨hsource, hrun⟩ := Prod.mk.inj hrun
    obtain ⟨hset, hb⟩ := Prod.mk.inj hrun
    obtain ⟨p, hp⟩ := Option.isSome_iff_exists.mp hsource
    obtain ⟨q, hq, htext⟩ := map_eq_ok.mp hset
    obtain ⟨q', hq', h⟩ := exists_hasVcsUrl (takesVcsUrls_of_readLines? hd hp) htype hurl
    rw [hq] at hq'
    cases hq'
    refine ⟨d, q, hd, hq, ?_, ?_, h.again, htext⟩
    . rw [h.vcsUrl?_eq _ hlower, if_pos (by decide +kernel)]
    . rw [h.vcsUrl?_eq _ hlonger, if_neg (by decide +kernel), hb]

end PackageMetadata

end DebianPackaging
