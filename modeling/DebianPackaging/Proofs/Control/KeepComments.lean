import DebianPackaging.Proofs.Control.CommentBlock

/-!
This module contains what becomes of the comment lines inside of a value when the value changes. The ones
survive that are put in front of a line that continues the new value.
-/

namespace DebianPackaging

open Text
open ControlDocument (isComment isContinuation takeContinuation)

namespace ControlField

/-- A new value takes two lines or more, and each comment inside of the old one goes in front of a line
that continues the new one. -/
def HasPlaceFor (f : ControlField) (value : Text) : Prop :=
  2 ≤ (lines (value ++ ['\n'])).length ∧
    ∀ b ∈ CommentBlock.ofLines 0 [] f.rawValue.lines, b.hasPlace (lines (value ++ ['\n'])) = true

instance (f : ControlField) (value : Text) : Decidable (f.HasPlaceFor value) :=
  inferInstanceAs (Decidable (_ ∧ _))

theorem ofLines_rawValue {f : ControlField} (hf : f.IsPlain)
    : CommentBlock.ofLines 0 [] f.rawValue.lines = CommentBlock.ofLines 1 [] f.more := by
  have hlines : f.rawValue.lines = f.first :: f.more := lines_flatten_of_isFeedLine hf.isFeedLine
  rw [hlines]
  conv => lhs; unfold CommentBlock.ofLines
  rw [if_neg (by simp [hf.first])]
  rfl

theorem flatMap_lines_ofLines {f : ControlField} (hf : f.IsPlain)
    : (CommentBlock.ofLines 1 [] f.more).flatMap (·.lines) = f.innerComments :=
  CommentBlock.flatMap_lines_ofLines hf.last (.inl rfl)

theorem isLineEnd_of_isGap {c : Char} (h : isGap c = true) : isLineEnd c = false := by
  unfold isGap at h
  rw [Bool.or_eq_true, beq_iff_eq, beq_iff_eq] at h
  rcases h with rfl | rfl <;> decide

def newLines (f : ControlField) (value : Text) : List Text :=
  let gap := ((f.rawValue.lines.find? fun l => !isComment l).getD []).takeWhile isGap
  let indent : Text := if gap.isEmpty then " " else gap
  lines ((if value.head? = some '\n' then value else indent ++ value) ++ ['\n'])

theorem withComments?_eq (f : ControlField) (value : Text)
    : f.withComments? value =
        if (CommentBlock.ofLines 0 [] f.rawValue.lines).isEmpty then none
        else if (f.newLines value).length < 2 then none
        else some (CommentBlock.insertAll (CommentBlock.ofLines 0 [] f.rawValue.lines)
          (f.newLines value)).flatten := rfl

theorem exists_newLines (f : ControlField) {value l : Text} {rest : List Text}
    (hlines : lines (value ++ ['\n']) = l :: rest)
    : ∃ indent, (∀ c ∈ indent, isGap c = true) ∧ (indent = [] → value.head? = some '\n') ∧
        f.newLines value = (indent ++ l) :: rest := by
  unfold newLines
  dsimp only
  by_cases hhead : value.head? = some '\n'
  . refine ⟨[], by simp, fun _ => hhead, ?_⟩
    rw [if_pos hhead]
    exact hlines
  . rw [if_neg hhead, List.append_assoc]
    have hgap : ∀ c ∈ ((f.rawValue.lines.find? fun l => !isComment l).getD []).takeWhile isGap,
        isGap c = true := fun c hc => of_mem_takeWhile hc
    generalize ((f.rawValue.lines.find? fun l => !isComment l).getD []).takeWhile isGap = gap at hgap ⊢
    have hindent : (∀ c ∈ (if gap.isEmpty then " " else gap : Text), isGap c = true) ∧
        (if gap.isEmpty then " " else gap : Text) ≠ [] := by
      split
      . exact ⟨List.all_iff_forall_prop.mp (by decide), by decide⟩
      . next hne => exact ⟨hgap, by simpa using hne⟩
    refine ⟨_, hindent.1, fun hnil => absurd hnil hindent.2, ?_⟩
    exact lines_append_of_not_isLineEnd (fun c hc => isLineEnd_of_isGap (hindent.1 c hc)) hlines

theorem exists_withComments? {f : ControlField} (hf : f.IsPlain) (hne : f.innerComments ≠ []) (value : Text)
    : ∃ indent first rest, (∀ c ∈ indent, isLineEnd c = false) ∧
        lines (value ++ ['\n']) = first :: rest ∧
        f.withComments? value =
          if rest.isEmpty then none
          else some (CommentBlock.insertAll (CommentBlock.ofLines 1 [] f.more)
            ((indent ++ first) :: rest)).flatten := by
  cases hlines : lines (value ++ ['\n']) with
  | nil =>
    have hnil := eq_nil_of_lines hlines
    simp at hnil
  | cons first rest =>
    have hblocks : (CommentBlock.ofLines 1 [] f.more).isEmpty = false := by
      rw [List.isEmpty_eq_false_iff]
      intro hnil
      rw [← flatMap_lines_ofLines hf, hnil] at hne
      exact hne rfl
    obtain ⟨indent, hindent, _, hnew⟩ := f.exists_newLines hlines
    refine ⟨indent, first, rest, fun c hc => isLineEnd_of_isGap (hindent c hc), rfl, ?_⟩
    rw [withComments?_eq, ofLines_rawValue hf, if_neg (by simp [hblocks]), hnew]
    cases rest with
    | nil => rfl
    | cons l rest => simp

end ControlField

namespace CommentBlock

theorem hasPlace_congr {b : CommentBlock} {l l' : Text} {ls : List Text} (h : 1 ≤ b.target (l :: ls))
    : b.hasPlace (l :: ls) = b.hasPlace (l' :: ls) := by
  have htarget : b.target (l' :: ls) = b.target (l :: ls) := rfl
  obtain ⟨k, hk⟩ := Nat.exists_eq_add_of_le' h
  unfold hasPlace
  rw [htarget, hk, List.getElem?_cons_succ, List.getElem?_cons_succ]

end CommentBlock

namespace Paragraph

def innerComments (p : Paragraph) (name : Text) : List Text :=
  ((p.find? name).map (·.innerComments)).getD []

def KeepsComments (p q : Paragraph) (name : Text) : Prop :=
  ∀ l ∈ p.innerComments name, (q.innerComments name).count l = (p.innerComments name).count l

theorem innerComments_of_find? {p : Paragraph} {name : Text} {f : ControlField} (h : p.find? name = some f)
    : p.innerComments name = f.innerComments := by
  unfold innerComments
  rw [h]
  rfl

theorem innerComments_congr {p q : Paragraph} {name : Text} (h : q.find? name = p.find? name)
    : q.innerComments name = p.innerComments name := by
  unfold innerComments
  rw [h]

theorem keepsComments_of_nil {p q : Paragraph} {name : Text} (h : p.innerComments name = [])
    : p.KeepsComments q name := by
  unfold KeepsComments
  rw [h]
  simp

theorem not_keepsComments_of_nil {p q : Paragraph} {name : Text} (hp : p.innerComments name ≠ [])
    (hq : q.innerComments name = []) : ¬ p.KeepsComments q name := by
  intro h
  obtain ⟨l, hl⟩ := List.exists_mem_of_ne_nil _ hp
  have hcount := h l hl
  rw [hq, List.count_nil] at hcount
  have := List.count_pos_iff.mpr hl
  omega

end Paragraph

namespace Paragraph

theorem innerComments_of_setRaw {p q : Paragraph} (hp : p.HasFieldNames) {name raw : Text}
    (hname : p.find? name = none → IsFieldName name) (hne : raw ≠ []) (hraw : IsFreeOfComments raw)
    (h : p.setRaw name raw = .ok q) : q.innerComments name = [] := by
  cases hlines : lines raw with
  | nil =>
    exact absurd (eq_nil_of_lines hlines) hne
  | cons first rest =>
    obtain ⟨comments, spelled, hfind⟩ := (storesLines_of_setRaw hp hname hlines h).find?
    rw [innerComments_of_find? hfind]
    unfold ControlField.innerComments
    rw [List.filter_eq_nil_iff]
    intro l hl
    rw [not_isComment_of_mem_lines hraw]
    . simp
    . rw [hlines]
      exact ControlDocument.mem_takeContinuation (.inl hl)

theorem terminateLine_ne_nil (l : Text) : ControlDocument.terminateLine l ≠ [] := by
  unfold ControlDocument.terminateLine
  split
  . next h =>
    rintro rfl
    cases h
  . simp

theorem innerComments_of_setValue {p q : Paragraph} (hp : p.HasFieldNames) {name value : Text}
    (hname : p.find? name = none → IsFieldName name) (hvalue : IsFreeOfComments value)
    (h : p.setValue name value = .ok q) : q.innerComments name = [] := by
  unfold setValue set at h
  split at h
  . exact innerComments_of_setRaw hp hname (by simp) (isFreeOfComments_append_feed hvalue) h
  . refine innerComments_of_setRaw hp hname ?_ (isFreeOfComments_layOut hvalue) h
    unfold layOut
    split
    . split
      . simp
      . simp
    . apply terminateLine_ne_nil

theorem takeWhile_eq_filter {p : α → Bool} {xs : List α} (h : ∀ x ∈ xs.dropWhile p, p x = false)
    : xs.takeWhile p = xs.filter p := by
  conv => rhs; rw [← List.takeWhile_append_dropWhile (p := p) (l := xs)]
  rw [List.filter_append, List.filter_eq_self.mpr, List.filter_eq_nil_iff.mpr, List.append_nil]
  . intro x hx
    simp [h x hx]
  . exact List.all_eq_true.mp List.all_takeWhile

theorem StoresLines.innerComments {q : Paragraph} {name first : Text} {rows : List (List Text × Text)}
    (h : q.StoresLines name first (CommentBlock.joinRows rows))
    (hrows : ∀ r ∈ rows, (∀ c ∈ r.1, isComment c = true) ∧ isComment r.2 = false)
    : q.innerComments name = (rows.filter fun r => isContinuation r.2).flatMap (·.1) := by
  obtain ⟨comments, spelled, hfind⟩ := h.find?
  have hdropped := h.dropped
  rw [ControlDocument.takeContinuation_joinRows hrows] at hfind hdropped
  rw [innerComments_of_find? hfind]
  unfold ControlField.innerComments
  rw [ControlDocument.filter_isComment_joinRows, takeWhile_eq_filter]
  . intro r hr
    -- the lines that are left out are blank
    have hmem : r ∈ rows := (List.dropWhile_suffix _).subset hr
    have hline := hdropped r.2 (List.mem_flatMap.mpr ⟨r, hr, by simp⟩)
    rw [(hrows r hmem).2] at hline
    have hblank := hline.resolve_right (by simp)
    unfold isContinuation
    cases hr2 : r.2 with
    | nil => rfl
    | cons c t =>
      rw [hr2] at hblank
      simp [hblank]
  . intro r hr
    exact hrows r ((List.takeWhile_sublist _).subset hr)

theorem perm_innerComments_of_setRaw {p q : Paragraph} (hp : p.HasFieldNames) {name : Text}
    (hname : p.find? name = none → IsFieldName name) {blocks : List CommentBlock}
    (hblocks : ∀ c ∈ blocks.flatMap (·.lines), IsFeedLine c ∧ isComment c = true) {t first : Text}
    {rest : List Text} (hlines : lines t = first :: rest) (hrest : ∀ l ∈ rest, isComment l = false)
    (htarget : ∀ b ∈ blocks, 1 ≤ b.target (first :: rest))
    (hset : p.setRaw name (CommentBlock.insertAll blocks (first :: rest)).flatten = .ok q)
    : (q.innerComments name).Perm
        ((blocks.filter (CommentBlock.hasPlace (first :: rest))).flatMap (·.lines)) := by
  have hmap := CommentBlock.map_rows blocks first rest
  have hfeed : ∀ r ∈ CommentBlock.rows blocks (first :: rest), ∀ c ∈ r.1,
      IsFeedLine c ∧ isComment c = true := by
    intro r hr c hc
    exact hblocks c (CommentBlock.mem_of_mem_rows hr hc)
  have hrows : ∀ r ∈ CommentBlock.rows blocks (first :: rest),
      (∀ c ∈ r.1, isComment c = true) ∧ isComment r.2 = false := by
    intro r hr
    refine ⟨fun c hc => (hfeed r hr c hc).2, ?_⟩
    apply hrest
    rw [← hmap]
    exact List.mem_map_of_mem hr
  rw [CommentBlock.insertAll_cons htarget] at hset
  have hjoined := lines_flatten_joinRows (fun r hr c hc => (hfeed r hr c hc).imp_left (·.isWholeLine))
    (hlines.trans (by rw [hmap]))
  rw [(storesLines_of_setRaw hp hname hjoined hset).innerComments hrows]
  exact CommentBlock.perm_comments_rows htarget

/-- The comments inside of a value survive a new value if and only if there is a place for them. -/
theorem keepsComments_setKeepingComments_iff {p q : Paragraph} (hp : p.HasFieldNames) {name value : Text}
    {f : ControlField} (hfind : p.find? name = some f) (hf : f.IsPlain) (hne : f.innerComments ≠ [])
    (hvalue : IsFreeOfComments value) (hset : p.setKeepingComments name value = .ok q)
    : p.KeepsComments q name ↔ f.HasPlaceFor value := by
  have hname : p.find? name = none → IsFieldName name := by
    rw [hfind]
    intro h
    cases h
  have hcomments := innerComments_of_find? hfind
  obtain ⟨indent, first, rest, hindent, hlines, hwith⟩ := ControlField.exists_withComments? hf hne value
  unfold setKeepingComments at hset
  rw [hfind, Option.bind_some, hwith] at hset
  unfold ControlField.HasPlaceFor
  rw [ControlField.ofLines_rawValue hf, hlines]
  by_cases hrest : rest = []
  . rw [hrest, List.isEmpty_nil, if_pos rfl] at hset
    have hnil := innerComments_of_setValue hp hname hvalue hset
    rw [← hcomments] at hne
    simp [hrest, not_keepsComments_of_nil hne hnil]
  . rw [if_neg (by simpa using hrest)] at hset
    have hlength : 2 ≤ (first :: rest).length := by
      have := List.length_pos_iff.mpr hrest
      rw [List.length_cons]
      omega
    have hblocks := ControlField.flatMap_lines_ofLines hf
    have hmem : ∀ b ∈ CommentBlock.ofLines 1 [] f.more, 1 ≤ b.position ∧ b.lines ≠ [] :=
      fun b hb => CommentBlock.of_mem_ofLines hb
    generalize CommentBlock.ofLines 1 [] f.more = blocks at *
    have htarget : ∀ b ∈ blocks, 1 ≤ b.target ((indent ++ first) :: rest) :=
      fun b hb => (CommentBlock.target_bounds (hmem b hb).1 hlength).1
    have hfree : ∀ l ∈ rest, isComment l = false := by
      intro l hl
      apply not_isComment_of_mem_lines (isFreeOfComments_append_feed hvalue)
      rwa [hlines, List.drop_one, List.tail_cons]
    have hperm := perm_innerComments_of_setRaw hp hname
      (by rw [hblocks]; exact fun c hc => ControlField.isFeedLine_of_mem_innerComments hf hc)
      (lines_append_of_not_isLineEnd hindent hlines) hfree htarget hset
    -- the indentation in front of the first line moves no block
    have hplace : (∀ b ∈ blocks, b.hasPlace ((indent ++ first) :: rest) = true) ↔
        ∀ b ∈ blocks, b.hasPlace (first :: rest) = true := by
      apply forall₂_congr
      intro b hb
      rw [CommentBlock.hasPlace_congr (htarget b hb)]
    unfold KeepsComments
    simp only [hcomments, hperm.count_eq, ← hblocks]
    rw [CommentBlock.forall_count_eq_iff fun b hb => (hmem b hb).2, hplace]
    exact ⟨fun h => ⟨hlength, h⟩, fun h => h.2⟩

end Paragraph

end DebianPackaging
