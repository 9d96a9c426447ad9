import DebianPackaging.Proofs.Control.Vcs
import DebianPackaging.Proofs.Manifest.Texts
import DebianPackaging.Proofs.Toml.Frame

/-!
This module contains the proof that the repository addresses of a manifest are a table, though two of them
have keys of their own and the others stand in lines that are searched for the name of a field.
-/

namespace DebianPackaging

open Text
open Toml (Document Found Value Cell)

namespace Manifest

def extraLinesKey : Text := "extra_lines"

def isLineOf (field : Text) (v : Value) : Bool := (v.string?.bind (extraValue? field)).isSome

theorem isLineOf_iff {field : Text} {v : Value}
    : isLineOf field v = true ↔ ∃ t, v.string? = some t ∧ (extraValue? field t).isSome = true := by
  unfold isLineOf
  cases v.string? <;> simp

theorem extraValue?_line {url : Text} (h : Vcs.IsAddress url) (field : Text)
    : extraValue? field (field ++ ": " ++ url) = some url := by
  have hsplit : field ++ ": " ++ url = (field ++ [':']) ++ ' ' :: url := by simp
  have htrim : trimStart (' ' :: url) = url := trimStart_blank_append isBlankText_space h.isTrimmed.start
  have hline : url.takeWhile (· != '\n') = url := by
    have hstop := takeWhile_append_of_stopsAt (p := (· != '\n')) (w := url) (t := []) (by
      intro c hc
      rw [bne_iff_ne]
      rintro rfl
      cases h.not_isLineEnd _ hc) (stopsAt_nil _)
    rwa [List.append_nil] at hstop
  unfold extraValue?
  rw [hsplit, afterFolded?_append]
  dsimp
  rw [htrim, hline, List.drop_length]
  rfl

theorem extraValue?_eq_none_of_other {type other : Text} (htype : Vcs.IsType type)
    (hother : Vcs.IsType other) (hne : other.lower ≠ type.lower) {line : Text}
    (h : (extraValue? (Vcs.fieldName type) line).isSome = true)
    : extraValue? (Vcs.fieldName other) line = none := by
  have hchars : ∀ {type : Text}, Vcs.IsType type → ∀ c ∈ Vcs.fieldName type, IsAscii c ∧ c ≠ ':' := by
    intro type htype c hc
    have hchar := Vcs.isTypeChar_of_mem_fieldName htype.isTypeChar c hc
    refine ⟨Vcs.isAscii_of_isTypeChar hchar, ?_⟩
    rintro rfl
    cases hchar
  obtain ⟨url, hurl⟩ := Option.isSome_iff_exists.mp h
  obtain ⟨rest, hrest, _⟩ := Option.bind_eq_some_iff.mp hurl
  unfold extraValue?
  cases hrest' : afterFolded? (Vcs.fieldName other ++ [':']) line with
  | none => rfl
  | some rest' =>
    have hlower := map_toLower_eq_of_afterFolded? (hchars hother) (hchars htype) hrest' hrest
    rw [Vcs.map_toLower_fieldName hother.isTypeChar, Vcs.map_toLower_fieldName htype.isTypeChar,
      List.append_cancel_left_eq] at hlower
    exact absurd hlower hne

/-- The items of an array after a line was put in place of the first one for its field, or at the end. -/
inductive PutsLine (field line : Text) : List Value → List Value → Prop where
  | new {vs : List Value} (h : ∀ v ∈ vs, isLineOf field v = false)
    : PutsLine field line vs (vs ++ [.ofText line])
  | old {before behind : List Value} {v w : Value} (h : ∀ u ∈ before, isLineOf field u = false)
    (hv : isLineOf field v = true) (hw : w.string? = some line)
    : PutsLine field line (before ++ v :: behind) (before ++ w :: behind)

theorem exists_of_findIdx? {p : α → Bool} {as : List α} {i : Nat} (h : as.findIdx? p = some i)
    : ∃ before a behind, as = before ++ a :: behind ∧ before.length = i ∧
        (∀ b ∈ before, p b = false) ∧ p a = true := by
  obtain ⟨hlt, hp, hbefore⟩ := List.findIdx?_eq_some_iff_getElem.mp h
  refine ⟨as.take i, as[i], as.drop (i + 1), by simp, by simp [Nat.le_of_lt hlt], ?_, hp⟩
  intro b hb
  obtain ⟨j, hj, rfl⟩ := List.mem_take_iff_getElem.mp hb
  have := hbefore j (by omega)
  simpa using this

theorem putsLine_putLine (field line : Text) (cells : List (Cell Value))
    : PutsLine field line (Cell.items cells) (Cell.items (putLine field line cells)) := by
  unfold putLine
  dsimp
  split
  . next h =>
    rw [Cell.items_insert, List.take_length, List.drop_length]
    apply PutsLine.new
    simpa [isLineOf] using h
  . next i h =>
    obtain ⟨before, v, behind, heq, rfl, hbefore, hv⟩ := exists_of_findIdx? h
    rw [heq, List.getElem?_append_right (Nat.le_refl _), Nat.sub_self, List.getElem?_cons_zero]
    split
    . next hsame =>
      rw [heq]
      exact .old hbefore hv hsame
    . rw [Cell.items_assign, heq, List.set_append_right _ _ (Nat.le_refl _), Nat.sub_self]
      exact .old hbefore hv rfl

theorem PutsLine.putLine_eq {field line : Text} {vs : List Value} {cells : List (Cell Value)}
    (h : PutsLine field line vs (Cell.items cells)) (hline : (extraValue? field line).isSome = true)
    : putLine field line cells = cells := by
  obtain ⟨before, w, behind, heq, hbefore, hw⟩ : ∃ before w behind,
      Cell.items cells = before ++ w :: behind ∧ (∀ u ∈ before, isLineOf field u = false) ∧
        w.string? = some line := by
    generalize Cell.items cells = ws at h
    cases h with
    | new h => exact ⟨vs, _, [], rfl, h, rfl⟩
    | old h _ hw => exact ⟨_, _, _, rfl, h, hw⟩
  have hfirst : (Cell.items cells).findIdx? (isLineOf field) = some before.length := by
    rw [heq, List.findIdx?_append, List.findIdx?_eq_none_iff.mpr hbefore, List.findIdx?_cons,
      isLineOf_iff.mpr ⟨line, hw, hline⟩]
    simp
  unfold isLineOf at hfirst
  unfold putLine
  dsimp
  rw [hfirst]
  dsimp
  rw [if_pos]
  rw [heq, List.getElem?_append_right (Nat.le_refl _), Nat.sub_self, List.getElem?_cons_zero]
  exact hw

theorem findSome?_texts_of_not_isLineOf {field : Text} {vs : List Value}
    (h : ∀ v ∈ vs, isLineOf field v = false) : (texts vs).findSome? (extraValue? field) = none := by
  rw [List.findSome?_eq_none_iff]
  intro t ht
  obtain ⟨v, hv, htext⟩ := List.mem_filterMap.mp ht
  have := h v hv
  unfold isLineOf at this
  rw [htext] at this
  simpa using this

namespace PutsLine

variable {field line : Text} {vs ws : List Value} (h : PutsLine field line vs ws)

include h

theorem findSome?_self {url : Text} (hline : extraValue? field line = some url)
    : (texts ws).findSome? (extraValue? field) = some url := by
  cases h with
  | new h =>
    rw [texts_append, List.findSome?_append, findSome?_texts_of_not_isLineOf h]
    exact List.findSome?_singleton.trans hline
  | @old before behind v w h _ hw =>
    rw [texts_append, List.findSome?_append, findSome?_texts_of_not_isLineOf h, Option.none_or, texts,
      List.filterMap_cons_some hw, List.findSome?_cons, hline]

theorem findSome?_other {other : Text}
    (hother : ∀ line, (extraValue? field line).isSome = true → extraValue? other line = none)
    (hline : (extraValue? field line).isSome = true)
    : (texts ws).findSome? (extraValue? other) = (texts vs).findSome? (extraValue? other) := by
  cases h with
  | new h =>
    rw [texts_append, List.findSome?_append]
    have hnew : (texts [Value.ofText line]).findSome? (extraValue? other) = none :=
      List.findSome?_singleton.trans (hother line hline)
    rw [hnew, Option.or_none]
  | @old before behind v w _ hv hw =>
    obtain ⟨t, ht, hvalue⟩ := isLineOf_iff.mp hv
    rw [texts_append, texts_append, List.findSome?_append, List.findSome?_append]
    unfold texts
    rw [List.filterMap_cons_some hw, List.filterMap_cons_some ht, List.findSome?_cons, List.findSome?_cons,
      hother line hline, hother t hvalue]

theorem getElem?_of_other {i : Nat} {v : Value} (hv : vs[i]? = some v) (hnot : isLineOf field v = false)
    : ws[i]? = some v := by
  cases h with
  | new h =>
    rw [List.getElem?_append_left]
    . exact hv
    . exact (List.getElem?_eq_some_iff.mp hv).1
  | @old before behind u w _ hu _ =>
    rcases Nat.lt_trichotomy i before.length with hi | rfl | hi
    . rw [List.getElem?_append_left hi] at hv ⊢
      exact hv
    . rw [List.getElem?_append_right (Nat.le_refl _), Nat.sub_self, List.getElem?_cons_zero] at hv
      cases hv
      rw [hu] at hnot
      cases hnot
    . obtain ⟨j, rfl⟩ := Nat.exists_eq_add_of_lt hi
      rw [List.getElem?_append_right (by omega)] at hv ⊢
      have hj : before.length + j + 1 - before.length = j + 1 := by omega
      rw [hj, List.getElem?_cons_succ] at hv ⊢
      exact hv

theorem filter_eq (hline : (extraValue? field line).isSome = true)
    : ws.filter (fun v => !isLineOf field v) = vs.filter fun v => !isLineOf field v := by
  cases h with
  | new h =>
    rw [List.filter_append, List.filter_singleton]
    have hnew : isLineOf field (Value.ofText line) = true := isLineOf_iff.mpr ⟨line, rfl, hline⟩
    simp [hnew]
  | @old before behind v w _ hv hw =>
    have hnew : isLineOf field w = true := isLineOf_iff.mpr ⟨line, hw, hline⟩
    rw [List.filter_append, List.filter_append, List.filter_cons, List.filter_cons, hv, hnew]
    rfl

end PutsLine

structure HasLines (m : Manifest) : Prop where
  hasTable : m.document.HasTable sourceTable
  lines : m.sourceKey extraLinesKey = .ok .nothing ∨
    ∃ cells, m.sourceKey extraLinesKey = .ok (.value (.array cells))

structure KeepsOtherLines (m m' : Manifest) (field : Text) : Prop where
  getElem?_eq : ∀ (i : Nat) (v : Value), (m.sourceItems extraLinesKey)[i]? = some v →
    isLineOf field v = false → (m'.sourceItems extraLinesKey)[i]? = some v
  filter_eq : (m'.sourceItems extraLinesKey).filter (fun v => !isLineOf field v) =
    (m.sourceItems extraLinesKey).filter fun v => !isLineOf field v

structure Sets (m : Manifest) (key : Text) (m' : Manifest) : Prop where
  cargo : m'.cargo = m.cargo
  hasTable : m'.document.HasTable sourceTable
  other : ∀ other, other ≠ key → m'.sourceKey other = m.sourceKey other

theorem sourceKey_of_hasTable {m : Manifest} (h : m.document.HasTable sourceTable) (key : Text)
    : m.sourceKey key = .ok (m.document.lookUp [sourceTable, key]) :=
  Document.get_eq_ok.mpr ⟨h.isOpen, rfl⟩

theorem exists_sets {m : Manifest} (h : m.document.HasTable sourceTable) (key : Text) (v : Value)
    : ∃ m', m.setSourceKey key v = .ok m' ∧ m.Sets key m' ∧ m'.sourceKey key = .ok (.value v) := by
  obtain ⟨d, hd⟩ := Document.exists_set_of_get (sourceKey_of_hasTable h key) v
  have hset : m.setSourceKey key v = .ok { m with document := d } := by
    unfold setSourceKey
    rw [hd]
    rfl
  exact ⟨_, hset, ⟨rfl, h.set hd, fun other hother => Document.get_set_of_ne hd hother⟩,
    sourceKey_setSourceKey hset⟩

theorem setSourceKey_setSourceKey {m m' : Manifest} (h : m.HasLines) {v : Value}
    (hset : m.setSourceKey extraLinesKey v = .ok m') : m'.setSourceKey extraLinesKey v = .ok m' := by
  have hfound : m.document.lookUp [sourceTable, extraLinesKey] = .nothing ∨
      ∃ w, m.document.lookUp [sourceTable, extraLinesKey] = .value w := by
    rcases h.lines with hlines | ⟨cells, hlines⟩
    . exact .inl (Document.get_eq_ok.mp hlines).2
    . exact .inr ⟨_, (Document.get_eq_ok.mp hlines).2⟩
  unfold setSourceKey at hset ⊢
  obtain ⟨d, hd, hset⟩ := bind_eq_ok.mp hset
  cases hset
  rw [bind_eq_ok]
  exact ⟨d, Document.set_set h.hasTable hfound hd, rfl⟩

theorem exists_setSourceText {m : Manifest} (h : m.document.HasTable sourceTable) (key t : Text)
    : ∃ m', m.setSourceText key t = .ok m' ∧ m.Sets key m' ∧ m'.sourceText? key = .ok (some t) ∧
        m'.setSourceText key t = .ok m' := by
  have hself : ∀ {m' : Manifest}, m'.document.HasTable sourceTable →
      (m'.document.lookUp [sourceTable, key]).string? = some t →
        m'.sourceText? key = .ok (some t) ∧ m'.setSourceText key t = .ok m' := by
    intro m' htable hfound
    constructor
    . unfold sourceText?
      rw [sourceKey_of_hasTable htable]
      exact congrArg Except.ok hfound
    . exact if_pos hfound
  by_cases hsame : (m.document.lookUp [sourceTable, key]).string? = some t
  . obtain ⟨htext, hset⟩ := hself h hsame
    exact ⟨m, hset, ⟨rfl, h, fun _ _ => rfl⟩, htext, hset⟩
  . obtain ⟨m', hset, hsets, hkey⟩ := exists_sets h key (.ofText t)
    have hfound := (Document.get_eq_ok.mp hkey).2
    obtain ⟨htext, hset'⟩ := hself hsets.hasTable (by rw [hfound]; rfl)
    exact ⟨m', (if_neg hsame).trans hset, hsets, htext, hset'⟩

theorem exists_setExtraField {m : Manifest} (h : m.HasLines) {field value : Text}
    (hline : extraValue? field (field ++ ": " ++ value) = some value)
    : ∃ m', m.setExtraField field value = .ok m' ∧ m.Sets extraLinesKey m' ∧ m'.HasLines ∧
        PutsLine field (field ++ ": " ++ value) (m.sourceItems extraLinesKey)
          (m'.sourceItems extraLinesKey) ∧
        m'.setExtraField field value = .ok m' := by
  have hsome : (extraValue? field (field ++ ": " ++ value)).isSome = true := by rw [hline]; rfl
  -- setting the array once more is setting it to the cells that it has
  have hagain : ∀ {m' : Manifest} {cells : List (Cell Value)} {vs : List Value},
      m.setSourceKey extraLinesKey (.array cells) = .ok m' →
        m'.sourceKey extraLinesKey = .ok (.value (.array cells)) →
        PutsLine field (field ++ ": " ++ value) vs (Cell.items cells) →
          m'.setExtraField field value = .ok m' := by
    intro m' cells vs hset hkey hputs
    have hcells := congrArg (fun cells => m'.setSourceKey extraLinesKey (.array cells))
      (hputs.putLine_eq hsome)
    unfold setExtraField
    exact bind_eq_ok.mpr ⟨_, hkey, hcells.trans (setSourceKey_setSourceKey h hset)⟩
  rcases h.lines with hlines | ⟨cells, hlines⟩
  . obtain ⟨m', hset, hsets, hkey⟩ :=
      exists_sets h.hasTable extraLinesKey (.ofTexts [field ++ ": " ++ value])
    have hputs : PutsLine field (field ++ ": " ++ value) [] (Cell.items (Cell.ofItems
        ([field ++ ": " ++ value].map Value.ofText))) := by
      rw [Cell.items_ofItems]
      exact .new (List.forall_mem_nil _)
    refine ⟨m', ?_, hsets, ⟨hsets.hasTable, .inr ⟨_, hkey⟩⟩, ?_, hagain hset hkey hputs⟩
    . unfold setExtraField
      exact bind_eq_ok.mpr ⟨_, hlines, hset⟩
    . rw [sourceItems_of_other hlines (by simp), sourceItems_of_array hkey]
      exact hputs
  . obtain ⟨m', hset, hsets, hkey⟩ := exists_sets h.hasTable extraLinesKey
      (.array (putLine field (field ++ ": " ++ value) cells))
    have hputs := putsLine_putLine field (field ++ ": " ++ value) cells
    refine ⟨m', ?_, hsets, ⟨hsets.hasTable, .inr ⟨_, hkey⟩⟩, ?_, hagain hset hkey hputs⟩
    . unfold setExtraField
      exact bind_eq_ok.mpr ⟨_, hlines, hset⟩
    . rw [sourceItems_of_array hlines, sourceItems_of_array hkey]
      exact hputs

theorem HasLines.of_sets {m m' : Manifest} {key : Text} (h : m.HasLines) (hsets : m.Sets key m')
    (hkey : extraLinesKey ≠ key) : m'.HasLines := by
  refine ⟨hsets.hasTable, ?_⟩
  rw [hsets.other _ hkey]
  exact h.lines

theorem repository?_congr {m m' : Manifest} (hcargo : m'.cargo = m.cargo) {key : Text}
    (hkey : m'.sourceKey key = m.sourceKey key) (before behind : Text)
    : m'.repository? key before behind = m.repository? key before behind := by
  unfold repository? sourceText? crateName? packageText?
  rw [hkey, hcargo]

theorem vcsUrl?_congr {m m' : Manifest} {type : Text} (hcargo : m'.cargo = m.cargo)
    (hgit : type.lower = "git" → m'.sourceKey "vcs_git" = m.sourceKey "vcs_git")
    (hbrowser : type.lower = "browser" → m'.sourceKey "vcs_browser" = m.sourceKey "vcs_browser")
    (hfield : m'.extraField? (Vcs.fieldName type) = m.extraField? (Vcs.fieldName type))
    : m'.vcsUrl? type = m.vcsUrl? type := by
  unfold vcsUrl?
  dsimp only
  split
  . next h => exact repository?_congr hcargo (hgit (beq_iff_eq.mp h)) _ _
  . split
    . next h => exact repository?_congr hcargo (hbrowser (beq_iff_eq.mp h)) _ _
    . exact hfield

theorem extraField?_eq {m : Manifest} (h : m.HasLines) (field : Text)
    : m.extraField? field = .ok ((texts (m.sourceItems extraLinesKey)).findSome? (extraValue? field)) := by
  unfold extraField? extraLines
  rcases h.lines with hlines | ⟨cells, hlines⟩
  . rw [sourceItems_of_other hlines (by simp)]
    have htexts : m.sourceTexts? extraLinesKey = .ok none := bind_eq_ok.mpr ⟨_, hlines, rfl⟩
    exact bind_eq_ok.mpr ⟨_, bind_eq_ok.mpr ⟨_, htexts, rfl⟩, rfl⟩
  . rw [sourceItems_of_array hlines]
    exact bind_eq_ok.mpr ⟨_, bind_eq_ok.mpr ⟨_, sourceTexts?_of_array hlines, rfl⟩, rfl⟩

theorem sourceItems_congr {m m' : Manifest} {key : Text} (h : m'.sourceKey key = m.sourceKey key)
    : m'.sourceItems key = m.sourceItems key := by
  unfold sourceItems
  rw [h]

/-- The manifest `m'` has an address for a type that `m` may not have; nothing else is different. -/
structure HasVcsUrl (m : Manifest) (type url : Text) (m' : Manifest) : Prop where
  hasLines : m'.HasLines
  again : m'.setVcsUrl type url = .ok m'
  self : ∀ other, other.lower = type.lower → m'.vcsUrl? other = .ok (some url)
  other : ∀ other, Vcs.IsType other → other.lower ≠ type.lower → m'.vcsUrl? other = m.vcsUrl? other
  keepsOtherLines : m.KeepsOtherLines m' (Vcs.fieldName type)

theorem hasVcsUrl_of_sets {m m' : Manifest} {key type url : Text} (h : m.HasLines) (hsets : m.Sets key m')
    (hkey : extraLinesKey ≠ key) (hagain : m'.setVcsUrl type url = .ok m')
    (hself : ∀ other, other.lower = type.lower → m'.vcsUrl? other = .ok (some url))
    (hgit : type.lower ≠ "git" → ("vcs_git" : Text) ≠ key)
    (hbrowser : type.lower ≠ "browser" → ("vcs_browser" : Text) ≠ key) : m.HasVcsUrl type url m' := by
  have hlines := h.of_sets hsets hkey
  have hitems := sourceItems_congr (hsets.other _ hkey)
  refine ⟨hlines, hagain, hself, ?_, ?_⟩
  . intro other _ hne
    apply vcsUrl?_congr hsets.cargo
    . intro hother
      rw [hother] at hne
      exact hsets.other _ (hgit (Ne.symm hne))
    . intro hother
      rw [hother] at hne
      exact hsets.other _ (hbrowser (Ne.symm hne))
    . rw [extraField?_eq hlines, extraField?_eq h, hitems]
  . constructor
    . intro i v hv _
      rw [hitems]
      exact hv
    . rw [hitems]

theorem repository?_of_sourceText? {m : Manifest} {key url : Text} (h : m.sourceText? key = .ok (some url))
    (before behind : Text) : m.repository? key before behind = .ok (some url) := by
  unfold repository?
  rw [h]
  rfl

theorem exists_setVcsUrl_of_hasLines {m : Manifest} (h : m.HasLines) {type url : Text}
    (htype : Vcs.IsType type) (hurl : Vcs.IsAddress url)
    : ∃ m', m.setVcsUrl type url = .ok m' ∧ m.HasVcsUrl type url m' := by
  by_cases hgit : type.lower = "git"
  . have hset : ∀ m : Manifest, m.setVcsUrl type url = m.setSourceText "vcs_git" url := by
      intro m
      unfold setVcsUrl
      dsimp only
      rw [if_pos (beq_iff_eq.mpr hgit)]
    obtain ⟨m', hm', hsets, htext, hagain⟩ := exists_setSourceText h.hasTable "vcs_git" url
    rw [← hset] at hm' hagain
    refine ⟨m', hm', hasVcsUrl_of_sets h hsets (by decide) hagain ?_ (absurd hgit) fun _ => by decide⟩
    intro other hother
    unfold vcsUrl?
    dsimp only
    rw [hother, if_pos (beq_iff_eq.mpr hgit)]
    exact repository?_of_sourceText? htext _ _
  . by_cases hbrowser : type.lower = "browser"
    . have hset : ∀ m : Manifest, m.setVcsUrl type url = m.setSourceText "vcs_browser" url := by
        intro m
        unfold setVcsUrl
        dsimp only
        rw [if_neg (mt beq_iff_eq.mp hgit), if_pos (beq_iff_eq.mpr hbrowser)]
      obtain ⟨m', hm', hsets, htext, hagain⟩ := exists_setSourceText h.hasTable "vcs_browser" url
      rw [← hset] at hm' hagain
      refine ⟨m', hm', hasVcsUrl_of_sets h hsets (by decide) hagain ?_ (fun _ => by decide)
        (absurd hbrowser)⟩
      intro other hother
      unfold vcsUrl?
      dsimp only
      rw [hother, if_neg (mt beq_iff_eq.mp hgit), if_pos (beq_iff_eq.mpr hbrowser)]
      exact repository?_of_sourceText? htext _ _
    . have hset : ∀ m : Manifest, m.setVcsUrl type url = m.setExtraField (Vcs.fieldName type) url := by
        intro m
        unfold setVcsUrl
        dsimp only
        rw [if_neg (mt beq_iff_eq.mp hgit), if_neg (mt beq_iff_eq.mp hbrowser)]
      have hline := extraValue?_line hurl (Vcs.fieldName type)
      have hsome : (extraValue? (Vcs.fieldName type) (Vcs.fieldName type ++ ": " ++ url)).isSome = true := by
        rw [hline]
        rfl
      obtain ⟨m', hm', hsets, hlines, hputs, hagain⟩ := exists_setExtraField h hline
      rw [← hset] at hm' hagain
      refine ⟨m', hm', hlines, hagain, ?_, ?_, ?_, hputs.filter_eq hsome⟩
      . intro other hother
        unfold vcsUrl?
        dsimp only
        rw [hother, if_neg (mt beq_iff_eq.mp hgit), if_neg (mt beq_iff_eq.mp hbrowser),
          extraField?_eq hlines, Vcs.fieldName_eq_of_lower hother, hputs.findSome?_self hline]
      . intro other hother hne
        apply vcsUrl?_congr hsets.cargo
        . exact fun _ => hsets.other _ (by decide)
        . exact fun _ => hsets.other _ (by decide)
        . rw [extraField?_eq hlines, extraField?_eq h, hputs.findSome?_other _ hsome]
          intro line hline
          exact extraValue?_eq_none_of_other htype hother hne hline
      . intro i v hv hnot
        exact hputs.getElem?_of_other hv hnot

end Manifest

end DebianPackaging
