import DebianPackaging.Proofs.Control.Store
import DebianPackaging.Proofs.Text.Basic
import DebianPackaging.Proofs.Text.Case
import DebianPackaging.Proofs.Text.Line

/-!
This module contains what the fields of paragraphs are like that were read, and what it takes to store a
field of one or several lines in a paragraph.
-/

namespace DebianPackaging

open Text

def IsFieldName (name : Text) : Prop :=
  ∃ c t, name = c :: t ∧ ControlDocument.isNameStart c = true ∧
    t.all ControlDocument.isNameChar = true

theorem IsFieldName.isNameChar {name : Text} (h : IsFieldName name)
    : ∀ c ∈ name, ControlDocument.isNameChar c = true := by
  obtain ⟨c, t, rfl, hc, ht⟩ := h
  unfold ControlDocument.isNameStart at hc
  simp only [Bool.and_eq_true] at hc
  rw [List.forall_mem_cons]
  exact ⟨hc.1.1.1, List.all_eq_true.mp ht⟩

theorem isAscii_of_isNameChar {c : Char} (h : ControlDocument.isNameChar c = true) : IsAscii c := by
  unfold ControlDocument.isNameChar at h
  rw [Bool.and_eq_true, Bool.and_eq_true, decide_eq_true_eq, decide_eq_true_eq] at h
  have hle : c.toNat ≤ 127 := h.1.2
  unfold IsAscii
  omega

theorem not_isBlank_of_isNameChar {c : Char} (h : ControlDocument.isNameChar c = true)
    : isBlank c = false ∧ c ≠ ':' :=
  forall_isAscii (p := fun c => ControlDocument.isNameChar c = true → isBlank c = false ∧ c ≠ ':')
    (by decide +kernel) (isAscii_of_isNameChar h) h

theorem IsFieldName.not_isLineEnd {name : Text} (h : IsFieldName name)
    : ∀ c ∈ name, isLineEnd c = false := by
  intro c hc
  rw [← Bool.not_eq_true]
  intro hend
  have := isBlank_of_isLineEnd hend
  rw [(not_isBlank_of_isNameChar (h.isNameChar c hc)).1] at this
  cases this

theorem IsFieldName.lines_append {name : Text} (h : IsFieldName name) {raw first : Text} {rest : List Text}
    (hraw : lines raw = first :: rest)
    : lines (name ++ ':' :: raw) = (name ++ ':' :: first) :: rest := by
  have happend := lines_append_of_not_isLineEnd (s := name ++ [':']) (by
    rw [List.forall_mem_append, List.forall_mem_singleton]
    exact ⟨h.not_isLineEnd, by decide⟩) hraw
  simpa using happend

def Paragraph.HasFieldNames (p : Paragraph) : Prop := ∀ f ∈ p.fields, IsFieldName f.name

namespace ControlDocument

theorem isFieldName_of_readFieldLine? {line name rest : Text}
    (h : readFieldLine? line = some (name, rest)) : IsFieldName name := by
  unfold readFieldLine? at h
  split at h
  . next c t rest' _ =>
    split at h
    . next hname =>
      cases h
      rw [Bool.and_eq_true] at hname
      exact ⟨c, t, rfl, hname⟩
    . cases h
  . cases h

theorem eq_append_of_readFieldLine? {line name rest : Text}
    (h : readFieldLine? line = some (name, rest)) : line = name ++ ':' :: rest := by
  unfold readFieldLine? at h
  split at h
  . next hcut =>
    split at h
    . cases h
      exact eq_append_of_cut? hcut
    . cases h
  . cases h

theorem readFieldLine?_of_isFieldName {name : Text} (h : IsFieldName name) (rest : Text)
    : readFieldLine? (name ++ ':' :: rest) = some (name, rest) := by
  have hcolon : ':' ∉ name := by
    intro hmem
    exact (not_isBlank_of_isNameChar (h.isNameChar _ hmem)).2 rfl
  unfold readFieldLine?
  rw [cut?_append hcolon]
  obtain ⟨c, t, rfl, hc, ht⟩ := h
  dsimp
  rw [hc, ht]
  rfl

theorem exists_lines_of_readParts? {comments ls : List Text} {parts : List ControlPart}
    (h : readParts? comments ls = some parts)
    : ∀ p ∈ parts.filterMap (·.paragraph?), ∀ f ∈ p.fields, ∃ line rest, line :: rest <:+ ls ∧
        readFieldLine? line = some (f.name, f.first) ∧ f.more = (takeContinuation rest).1 := by
  fun_induction readParts? comments ls generalizing parts with
  | case1 comments =>
    cases h
    split <;> simp [ControlPart.paragraph?]
  | case2 comments l ls _ ih =>
    obtain ⟨parts, hparts, rfl⟩ := Option.map_eq_some_iff.mp h
    have hcomments : (if comments.isEmpty then [] else [ControlPart.comment comments]).filterMap
        (·.paragraph?) = [] := by
      split <;> rfl
    rw [List.filterMap_append, hcomments, List.nil_append, List.filterMap_cons_none rfl]
    intro p hp f hf
    obtain ⟨line, rest, hsuffix, hread⟩ := ih hparts p hp f hf
    exact ⟨line, rest, hsuffix.trans (List.suffix_cons l ls), hread⟩
  | case3 comments l ls _ _ ih =>
    intro p hp f hf
    obtain ⟨line, rest, hsuffix, hread⟩ := ih h p hp f hf
    exact ⟨line, rest, hsuffix.trans (List.suffix_cons l ls), hread⟩
  | case4 => cases h
  | case5 comments l ls _ _ _ name first hline ih =>
    obtain ⟨parts, hparts, rfl⟩ := Option.map_eq_some_iff.mp h
    have hbehind : ∀ p ∈ parts.filterMap (·.paragraph?), ∀ f ∈ p.fields, ∃ line rest,
        line :: rest <:+ l :: ls ∧ readFieldLine? line = some (f.name, f.first) ∧
          f.more = (takeContinuation rest).1 := by
      intro p hp f hf
      obtain ⟨line, rest, hsuffix, hread⟩ := ih hparts p hp f hf
      refine ⟨line, rest, (hsuffix.trans ?_).trans (List.suffix_cons l ls), hread⟩
      exact ⟨_, takeContinuation_append ls⟩
    have hself : ∃ line rest, line :: rest <:+ l :: ls ∧ readFieldLine? line = some (name, first) ∧
        (takeContinuation ls).1 = (takeContinuation rest).1 :=
      ⟨l, ls, List.suffix_refl _, hline, rfl⟩
    unfold ControlPart.consField
    split
    . next p parts =>
      rw [List.filterMap_cons_some (f := ControlPart.paragraph?) rfl, List.forall_mem_cons] at hbehind
      rw [List.filterMap_cons_some (f := ControlPart.paragraph?) rfl, List.forall_mem_cons]
      refine ⟨?_, hbehind.2⟩
      rw [List.forall_mem_cons]
      exact ⟨hself, hbehind.1⟩
    . rw [List.filterMap_cons_some (f := ControlPart.paragraph?) rfl, List.forall_mem_cons]
      refine ⟨?_, hbehind⟩
      rw [List.forall_mem_singleton]
      exact hself

theorem exists_lines_of_readLines? {ls : List Text} {d : ControlDocument} (h : readLines? ls = some d)
    : ∀ p ∈ d.paragraphs, hasDistinctNames p.names = true ∧ ∀ f ∈ p.fields, ∃ line rest,
        line :: rest <:+ ls.map terminateLine ∧ readFieldLine? line = some (f.name, f.first) ∧
          f.more = (takeContinuation rest).1 := by
  obtain ⟨parts, hparts, h⟩ := Option.bind_eq_some_iff.mp h
  split at h
  . next hdistinct =>
    cases h
    intro p hp
    exact ⟨List.all_eq_true.mp hdistinct p hp, exists_lines_of_readParts? hparts p hp⟩
  . cases h

theorem hasFieldNames_of_readLines? {ls : List Text} {d : ControlDocument} (h : readLines? ls = some d)
    : ∀ p ∈ d.paragraphs, p.HasFieldNames := by
  intro p hp f hf
  obtain ⟨line, rest, _, hread, _⟩ := (exists_lines_of_readLines? h p hp).2 f hf
  exact isFieldName_of_readFieldLine? hread

theorem map_terminateLine {ls : List Text} (h : ∀ l ∈ ls, l.getLast? = some '\n')
    : ls.map terminateLine = ls := by
  conv => rhs; rw [← List.map_id ls]
  apply List.map_congr_left
  intro l hl
  unfold terminateLine
  rw [if_pos (h l hl)]
  rfl

theorem readParts?_of_isFieldName {name : Text} (h : IsFieldName name) (comments : List Text) (first : Text)
    (rest : List Text)
    : readParts? comments ((name ++ ':' :: first) :: rest) =
        (readParts? [] (takeContinuation rest).2).map
          (ControlPart.consField ⟨comments, name, first, (takeContinuation rest).1⟩) := by
  have hblank : (name ++ ':' :: first).all isBlank = false := by
    rw [List.all_eq_false]
    exact ⟨':', by simp, by decide⟩
  have hcomment : isComment (name ++ ':' :: first) = false := by
    obtain ⟨c, t, rfl, hc, _⟩ := h
    unfold isNameStart at hc
    unfold isComment
    simp only [Bool.and_eq_true, bne_iff_ne] at hc
    simp [hc.1.1.2]
  rw [readParts?, if_neg (by simp [hblank]), if_neg (by simp [hcomment])]
  simp only [readFieldLine?_of_isFieldName h]

theorem readLines?_of_isFieldName {name : Text} (h : IsFieldName name) (value : Text)
    : readLines? [name ++ ':' :: (value ++ ['\n'])] =
        some { parts := [.paragraph { fields := [⟨[], name, value ++ ['\n'], []⟩] }] } := by
  have htake : takeContinuation [] = ([], []) := by
    unfold takeContinuation
    rfl
  unfold readLines?
  rw [map_terminateLine (by simp [List.getLast?_append, List.getLast?_cons]), readParts?_of_isFieldName h]
  simp [htake, readParts?, ControlPart.consField, ControlPart.paragraph?, hasDistinctNames, Paragraph.names]

end ControlDocument

namespace Paragraph

theorem isFieldName_spelled {p : Paragraph} (hp : p.HasFieldNames) {name : Text}
    (hname : p.find? name = none → IsFieldName name)
    : IsFieldName (((p.find? name).map (·.name)).getD name) ∧
        sameName (((p.find? name).map (·.name)).getD name) name = true := by
  cases hfind : p.find? name with
  | none => exact ⟨hname hfind, sameName_iff.mpr rfl⟩
  | some f => exact ⟨hp f (List.mem_of_find?_eq_some hfind), sameName_of_find? hfind⟩

theorem setRaw_line {p : Paragraph} (hp : p.HasFieldNames) {name value : Text} (hname : IsFieldName name)
    (hvalue : ∀ c ∈ value, isLineEnd c = false)
    : p.setRaw name (value ++ ['\n']) =
        .ok (p.put ⟨[], ((p.find? name).map (·.name)).getD name, value ++ ['\n'], []⟩) := by
  have hspelled := (isFieldName_spelled hp fun _ => hname).1
  unfold setRaw
  dsimp
  generalize ((p.find? name).map (·.name)).getD name = name at hspelled ⊢
  have hlines : lines (name ++ ':' :: (value ++ ['\n'])) = [name ++ ':' :: (value ++ ['\n'])] := by
    have hline : IsLine (name ++ ':' :: (value ++ ['\n'])) := by
      rw [← List.cons_append, ← List.append_assoc, isLine_append (by simp)]
      refine ⟨?_, by simp [IsLine]⟩
      simp only [List.forall_mem_append, List.forall_mem_cons]
      exact ⟨hspelled.not_isLineEnd, by decide, hvalue⟩
    have hcr : '\r' ∉ name ++ ':' :: (value ++ ['\n']) := by
      intro hmem
      simp only [List.mem_append, List.mem_cons, List.not_mem_nil, or_false] at hmem
      rcases hmem with hmem | hmem | hmem | hmem
      . cases hspelled.not_isLineEnd _ hmem
      . cases hmem
      . cases hvalue _ hmem
      . cases hmem
    have happend := lines_append (t := []) hline (by simp) hcr (by simp)
    rwa [List.append_nil] at happend
  rw [hlines, ControlDocument.readLines?_of_isFieldName hspelled]
  simp [areFieldLines, List.getLast?_cons, ControlDocument.paragraphs, ControlPart.paragraph?, find?,
    sameName]

theorem find?_congr {name other : Text} (h : sameName name other = true) (p : Paragraph)
    : p.find? name = p.find? other := by
  unfold find? sameName
  rw [sameName_iff.mp h]

theorem find?_put_self (p : Paragraph) (new : ControlField) {name : Text}
    (h : sameName new.name name = true)
    : ∃ comments, (p.put new).find? name = some { new with comments } := by
  rw [← find?_congr h]
  have hself : sameName new.name new.name = true := sameName_iff.mpr rfl
  unfold put has find?
  cases hfind : p.fields.find? (fun f => sameName f.name new.name) with
  | none =>
    rw [if_neg (by simp)]
    dsimp
    rw [List.find?_append, hfind, Option.none_or, List.find?_singleton]
    dsimp
    rw [hself]
    exact ⟨[], rfl⟩
  | some f =>
    refine ⟨f.comments, ?_⟩
    rw [Option.isSome_some, if_pos rfl]
    dsimp
    generalize p.fields = fields at hfind
    induction fields with
    | nil => cases hfind
    | cons g gs ih =>
      rw [List.find?_cons] at hfind
      rw [List.map_cons, List.find?_cons]
      cases hg : sameName g.name new.name with
      | true =>
        rw [hg] at hfind
        cases hfind
        dsimp
        rw [hself]
      | false =>
        rw [hg] at hfind
        rw [if_neg (by simp), hg]
        exact ih hfind

theorem hasFieldNames_put {p : Paragraph} (hp : p.HasFieldNames) {new : ControlField}
    (hnew : IsFieldName new.name) : (p.put new).HasFieldNames := by
  unfold put HasFieldNames
  split
  . intro f hf
    obtain ⟨g, hg, rfl⟩ := List.mem_map.mp hf
    split
    . exact hnew
    . exact hp g hg
  . rw [List.forall_mem_append, List.forall_mem_singleton]
    exact ⟨hp, hnew⟩

theorem hasFieldNames_of_setRaw {p q : Paragraph} (hp : p.HasFieldNames) {name raw : Text}
    (h : p.setRaw name raw = .ok q) : q.HasFieldNames := by
  unfold setRaw at h
  dsimp only at h
  split at h
  . cases h
  . split at h
    . cases h
    . next d hd =>
      have hd := ControlDocument.hasFieldNames_of_readLines? hd
      split at h
      . cases h
      . next r rs hparagraphs =>
        split at h
        . cases h
        . next f hf =>
          cases h
          apply hasFieldNames_put hp
          exact hd r (by simp [hparagraphs]) f (List.mem_of_find?_eq_some hf)

theorem hasFieldNames_of_setKeepingComments {p q : Paragraph} (hp : p.HasFieldNames) {name value : Text}
    (h : p.setKeepingComments name value = .ok q) : q.HasFieldNames := by
  unfold setKeepingComments at h
  split at h
  . exact hasFieldNames_of_setRaw hp h
  . unfold setValue at h
    split at h
    . exact hasFieldNames_of_setRaw hp h
    . exact hasFieldNames_of_setRaw hp h

end Paragraph

namespace ControlDocument

theorem readFieldLine?_of_isGap {l : Text} (h : l.head?.any isGap = true) : readFieldLine? l = none := by
  unfold readFieldLine?
  split
  . next c t rest hcut =>
    rw [eq_append_of_cut? hcut, List.cons_append, List.head?_cons, Option.any_some] at h
    have hname : isNameStart c = false := by
      unfold isGap at h
      rw [Bool.or_eq_true, beq_iff_eq, beq_iff_eq] at h
      rcases h with rfl | rfl <;> decide
    rw [hname]
    rfl
  . rfl

theorem isBlank_or_isComment_of_readParts? {comments ls : List Text} {parts : List ControlPart}
    (h : readParts? comments ls = some parts)
    (hls : ∀ l ∈ ls, l.head?.any isGap = true ∨ isComment l = true)
    : ∀ l ∈ ls, l.all isBlank = true ∨ isComment l = true := by
  induction ls generalizing comments parts with
  | nil => simp
  | cons l ls ih =>
    rw [List.forall_mem_cons] at hls ⊢
    unfold readParts? at h
    split at h
    . next hblank =>
      obtain ⟨parts, hparts, _⟩ := Option.map_eq_some_iff.mp h
      exact ⟨.inl hblank, ih hparts hls.2⟩
    . split at h
      . next hcomment => exact ⟨.inr hcomment, ih h hls.2⟩
      . next hcomment =>
        have hgap := hls.1.resolve_right hcomment
        simp only [readFieldLine?_of_isGap hgap] at h
        cases h

theorem mem_takeContinuation {ls : List Text} {l : Text}
    (h : l ∈ (takeContinuation ls).1 ∨ l ∈ (takeContinuation ls).2) : l ∈ ls := by
  rw [← takeContinuation_append ls]
  exact List.mem_append.mpr h

theorem not_isComment_of_getLast?_takeContinuation (ls : List Text)
    : ∀ l ∈ (takeContinuation ls).1.getLast?, isComment l = false := by
  fun_induction takeContinuation ls with
  | case1 => simp
  | case2 ls l rest _ hl _ more behind hrest ih =>
    rw [hrest] at ih
    intro l' hl'
    rw [List.getLast?_append, Option.or_of_isSome (by simp), List.getLast?_cons] at hl'
    cases hmore : more.getLast? with
    | none =>
      rw [hmore] at hl'
      cases hl'
      unfold isContinuation at hl
      split at hl
      . next c t =>
        rw [Bool.and_eq_true] at hl
        unfold isGap at hl
        rw [Bool.or_eq_true, beq_iff_eq, beq_iff_eq] at hl
        unfold isComment
        rcases hl.1 with rfl | rfl <;> rfl
      . cases hl
    | some m =>
      rw [hmore] at hl'
      cases hl'
      exact ih m hmore
  | case3 => simp

theorem exists_paragraphs_of_readLines? {name first : Text} (hname : IsFieldName name) {rest : List Text}
    (hfeed : ∀ l ∈ (name ++ ':' :: first) :: rest, l.getLast? = some '\n')
    (hrest : ∀ l ∈ rest, l.head?.any isGap = true ∨ isComment l = true) {d : ControlDocument}
    (h : readLines? ((name ++ ':' :: first) :: rest) = some d)
    : (∃ fields ps, d.paragraphs =
        { fields := ⟨[], name, first, (takeContinuation rest).1⟩ :: fields } :: ps) ∧
      ∀ l ∈ (takeContinuation rest).2, l.all isBlank = true ∨ isComment l = true := by
  unfold readLines? at h
  rw [map_terminateLine hfeed] at h
  obtain ⟨parts, hparts, h⟩ := Option.bind_eq_some_iff.mp h
  rw [readParts?_of_isFieldName hname] at hparts
  obtain ⟨parts', hparts', rfl⟩ := Option.map_eq_some_iff.mp hparts
  split at h
  . cases h
    constructor
    . cases parts' with
      | nil => exact ⟨[], [], rfl⟩
      | cons part parts =>
        cases part with
        | paragraph p => exact ⟨p.fields, parts.filterMap (·.paragraph?), rfl⟩
        | blank line => exact ⟨[], (ControlPart.blank line :: parts).filterMap (·.paragraph?), rfl⟩
        | comment ls => exact ⟨[], (ControlPart.comment ls :: parts).filterMap (·.paragraph?), rfl⟩
    . apply isBlank_or_isComment_of_readParts? hparts'
      intro l hl
      exact hrest l (mem_takeContinuation (.inr hl))
  . cases h

end ControlDocument

namespace Paragraph

/-- What a text is like that was stored behind the colon of a field, and what is left of it: the lines up
to the last one that continues the value. -/
structure StoresLines (q : Paragraph) (name : Text) (first : Text) (rest : List Text) : Prop where
  find? : ∃ comments spelled, q.find? name =
    some ⟨comments, spelled, first, (ControlDocument.takeContinuation rest).1⟩
  dropped : ∀ l ∈ (ControlDocument.takeContinuation rest).2,
    l.all isBlank = true ∨ ControlDocument.isComment l = true

theorem storesLines_of_setRaw {p q : Paragraph} (hp : p.HasFieldNames) {name raw first : Text}
    {rest : List Text} (hname : p.find? name = none → IsFieldName name)
    (hraw : lines raw = first :: rest) (h : p.setRaw name raw = .ok q) : q.StoresLines name first rest := by
  obtain ⟨hspelled, hsame⟩ := isFieldName_spelled hp hname
  unfold setRaw at h
  dsimp only at h
  generalize ((p.find? name).map (·.name)).getD name = spelled at h hspelled hsame
  rw [hspelled.lines_append hraw] at h
  split at h
  . cases h
  . next hfield =>
    rw [Bool.not_eq_true, Bool.not_eq_false'] at hfield
    unfold areFieldLines at hfield
    rw [Bool.and_eq_true, Bool.and_eq_true, List.all_eq_true, List.all_eq_true] at hfield
    have hfeed : ∀ l ∈ (spelled ++ ':' :: first) :: rest, l.getLast? = some '\n' := by
      intro l hl
      exact beq_iff_eq.mp (hfield.1.1 l hl)
    have hrest : ∀ l ∈ rest, l.head?.any isGap = true ∨ ControlDocument.isComment l = true := by
      intro l hl
      exact Bool.or_eq_true_iff.mp (hfield.1.2 l hl)
    split at h
    . cases h
    . next d hd =>
      obtain ⟨⟨fields, ps, hparagraphs⟩, hdropped⟩ :=
        ControlDocument.exists_paragraphs_of_readLines? hspelled hfeed hrest hd
      rw [hparagraphs] at h
      have hself : sameName spelled spelled = true := sameName_iff.mpr rfl
      dsimp only [find?] at h
      rw [List.find?_cons, hself] at h
      cases h
      obtain ⟨comments, hfind⟩ := find?_put_self p
        ⟨[], spelled, first, (ControlDocument.takeContinuation rest).1⟩ hsame
      exact ⟨⟨comments, spelled, hfind⟩, hdropped⟩

end Paragraph

end DebianPackaging
