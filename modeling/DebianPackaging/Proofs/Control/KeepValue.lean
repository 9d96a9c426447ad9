import DebianPackaging.Proofs.Control.CommentPlace
import DebianPackaging.Proofs.Control.Fold

/-!
This module contains the storing of folded values. A paragraph that has room for a value of a field takes it,
whatever the layout of the old value and its comments, and returns it up to the blanks around it. If both the
field and the value are neat, there is room.
-/

namespace DebianPackaging

open Text
open ControlDocument (isComment isContinuation takeContinuation)

namespace CommentBlock

theorem mem_of_mem_ofLines {position : Nat} {pending ls : List Text} {b : CommentBlock}
    (hb : b ∈ ofLines position pending ls) {c : Text} (hc : c ∈ b.lines)
    : c ∈ pending ∨ c ∈ ls ∧ isComment c = true := by
  induction ls generalizing position pending with
  | nil => cases hb
  | cons l ls ih =>
    unfold ofLines at hb
    split at hb
    . next hl =>
      rcases ih hb with h | ⟨h, hcomment⟩
      . cases List.mem_append.mp h with
        | inl h => exact .inl h
        | inr h =>
          rw [List.mem_singleton.mp h]
          exact .inr ⟨List.mem_cons_self, hl⟩
      . exact .inr ⟨List.mem_cons_of_mem l h, hcomment⟩
    . dsimp only at hb
      split at hb
      . rcases ih hb with h | ⟨h, hcomment⟩
        . cases h
        . exact .inr ⟨List.mem_cons_of_mem l h, hcomment⟩
      . cases List.mem_cons.mp hb with
        | inl hb =>
          rw [hb] at hc
          exact .inl hc
        | inr hb =>
          rcases ih hb with h | ⟨h, hcomment⟩
          . cases h
          . exact .inr ⟨List.mem_cons_of_mem l h, hcomment⟩

end CommentBlock

namespace ControlDocument

theorem exists_readParts?_of_blank {comments ls : List Text}
    (h : ∀ l ∈ ls, l.all isBlank = true ∨ isComment l = true)
    : ∃ parts, readParts? comments ls = some parts ∧ parts.filterMap (·.paragraph?) = [] := by
  induction ls generalizing comments with
  | nil =>
    unfold readParts?
    refine ⟨_, rfl, ?_⟩
    split <;> rfl
  | cons l ls ih =>
    rw [List.forall_mem_cons] at h
    unfold readParts?
    split
    . obtain ⟨parts, hparts, hnone⟩ := @ih [] h.2
      rw [hparts]
      refine ⟨_, rfl, ?_⟩
      rw [List.filterMap_append, List.filterMap_cons_none (by rfl), hnone]
      split <;> rfl
    . next hblank =>
      rw [if_pos (h.1.resolve_left hblank)]
      exact ih h.2

theorem exists_readLines? {name first : Text} (hname : IsFieldName name) {rest : List Text}
    (hfeed : ∀ l ∈ (name ++ ':' :: first) :: rest, l.getLast? = some '\n')
    (hdropped : ∀ l ∈ (takeContinuation rest).2, l.all isBlank = true ∨ isComment l = true)
    : ∃ d, readLines? ((name ++ ':' :: first) :: rest) = some d := by
  obtain ⟨parts, hparts, hnone⟩ := @exists_readParts?_of_blank [] _ hdropped
  have hfield : (ControlPart.consField ⟨[], name, first, (takeContinuation rest).1⟩ parts).filterMap
      (·.paragraph?) = [{ fields := [⟨[], name, first, (takeContinuation rest).1⟩] }] := by
    unfold ControlPart.consField
    split
    . cases hnone
    . rw [List.filterMap_cons_some (by rfl), hnone]
  unfold readLines?
  rw [map_terminateLine hfeed, readParts?_of_isFieldName hname, hparts, Option.map_some, Option.bind_eq_bind,
    Option.bind_some, hfield]
  exact ⟨_, rfl⟩

end ControlDocument

namespace Paragraph

theorem exists_setRaw {p : Paragraph} (hp : p.HasFieldNames) {name raw first : Text} {rest : List Text}
    (hname : p.find? name = none → IsFieldName name) (hraw : lines raw = first :: rest)
    (hfeed : ∀ l ∈ first :: rest, l.getLast? = some '\n')
    (hrest : ∀ l ∈ rest, l.head?.any isGap = true ∨ isComment l = true)
    (hlast : ∀ l ∈ rest.getLast?, isComment l = false)
    (hdropped : ∀ l ∈ (takeContinuation rest).2, l.all isBlank = true ∨ isComment l = true)
    : ∃ q, p.setRaw name raw = .ok q := by
  have hspelled := (isFieldName_spelled hp hname).1
  unfold setRaw
  dsimp only
  generalize ((p.find? name).map (·.name)).getD name = spelled at hspelled ⊢
  rw [List.forall_mem_cons] at hfeed
  have hfeed' : ∀ l ∈ (spelled ++ ':' :: first) :: rest, l.getLast? = some '\n' := by
    rw [List.forall_mem_cons]
    refine ⟨?_, hfeed.2⟩
    rw [List.getLast?_append, List.getLast?_cons_of_ne_nil, hfeed.1, Option.some_or]
    rintro rfl
    cases hfeed.1
  have hfield : areFieldLines ((spelled ++ ':' :: first) :: rest) = true := by
    unfold areFieldLines
    rw [Bool.and_eq_true, Bool.and_eq_true, List.all_eq_true, List.all_eq_true]
    refine ⟨⟨?_, ?_⟩, ?_⟩
    . intro l hl
      exact beq_iff_eq.mpr (hfeed' l hl)
    . intro l hl
      exact Bool.or_eq_true_iff.mpr (hrest l hl)
    . rw [Bool.not_eq_true', Option.any_eq_false]
      exact hlast
  obtain ⟨d, hd⟩ := ControlDocument.exists_readLines? hspelled hfeed' hdropped
  obtain ⟨⟨fields, ps, hparagraphs⟩, _⟩ :=
    ControlDocument.exists_paragraphs_of_readLines? hspelled hfeed' hrest hd
  have hself : sameName spelled spelled = true := sameName_iff.mpr rfl
  rw [hspelled.lines_append hraw, hfield, if_neg (by simp), hd]
  dsimp only
  rw [hparagraphs]
  dsimp only [find?]
  rw [List.find?_cons, hself]
  exact ⟨_, rfl⟩

end Paragraph

namespace Text

theorem AreFolded.isBlank_of_mem_dropWhile {ls : List Text} (h : AreFolded ls)
    : ∀ l ∈ ls.dropWhile isContinuation, l.all isBlank = true := by
  induction ls with
  | nil => simp
  | cons l ls ih =>
    by_cases hl : isContinuation l = true
    . rw [List.dropWhile_cons_of_pos hl]
      exact ih h.tail
    . rw [List.dropWhile_cons_of_neg hl]
      -- only the last line may be blank
      cases ls with
      | nil =>
        rw [List.forall_mem_singleton]
        rw [isContinuation_iff, Bool.eq_false_iff, not_and, not_not] at hl
        exact hl (h.isGap l List.mem_cons_self)
      | cons l' ls => exact absurd ((List.pairwise_cons.mp h.continues).1 l' List.mem_cons_self) hl

theorem feedLines_of_cut? {t a b : Text} (h : cut? '\n' t = some (a, b))
    : feedLines (t ++ ['\n']) = (a ++ ['\n']) :: feedLines (b ++ ['\n']) := by
  rw [eq_append_of_cut? h, List.append_assoc]
  exact feedLines_append_feed (not_mem_of_cut? h) _

theorem feedLines_of_not_mem {t : Text} (h : '\n' ∉ t) : feedLines (t ++ ['\n']) = [t ++ ['\n']] :=
  feedLines_append_feed h []

theorem not_mem_of_cut?_eq_none {c : Char} {t : Text} (h : cut? c t = none) : c ∉ t := by
  intro hmem
  obtain ⟨a, b, rfl, ha⟩ := List.eq_append_cons_of_mem hmem
  rw [cut?_append ha] at h
  cases h

theorem AreFolded.isBlankText_dropWhile {ls : List Text} (h : AreFolded ls)
    : IsBlankText (ls.dropWhile isContinuation).flatten := by
  intro c hc
  obtain ⟨l, hl, hc⟩ := List.mem_flatten.mp hc
  exact List.all_eq_true.mp (h.isBlank_of_mem_dropWhile l hl) c hc

theorem exists_eq_append_kept {b : Text} (h : AreFolded (feedLines (b ++ ['\n'])))
    (hne : (feedLines (b ++ ['\n'])).takeWhile isContinuation ≠ [])
    : ∃ body x, ((feedLines (b ++ ['\n'])).takeWhile isContinuation).flatten = body ++ ['\n'] ∧
        b = body ++ x ∧ IsBlankText x := by
  have hb := flatten_feedLines (b ++ ['\n'])
  rw [← List.takeWhile_append_dropWhile (p := isContinuation) (l := feedLines (b ++ ['\n'])),
    List.flatten_append] at hb
  have hdropped := (isBlankText_singleton (c := '\n') (by decide)).append h.isBlankText_dropWhile
  obtain ⟨ks, k, hkeep⟩ := (List.eq_nil_or_concat' _).resolve_left hne
  have hk : k ∈ feedLines (b ++ ['\n']) := (List.takeWhile_prefix isContinuation).subset (by simp [hkeep])
  obtain ⟨last, rfl, _⟩ := h.isFed k hk
  have hbody : ((feedLines (b ++ ['\n'])).takeWhile isContinuation).flatten =
      (ks.flatten ++ last) ++ ['\n'] := by
    rw [hkeep]
    simp
  rw [hbody, List.append_assoc] at hb
  rcases List.append_eq_append_iff.mp hb with ⟨x, rfl, hx⟩ | ⟨x, hb', hx⟩
  . refine ⟨_, x, hbody, rfl, ?_⟩
    rw [hx] at hdropped
    exact fun c hc => hdropped c (List.mem_append_left _ hc)
  . refine ⟨_, [], hbody, ?_, isBlankText_nil⟩
    cases x with
    | nil => simpa using hb'.symm
    | cons c x => simp at hx

theorem exists_eq_value {t l : Text} {rest : List Text} (hlines : feedLines (t ++ ['\n']) = l :: rest)
    (hrest : AreFolded rest) (hcut : ∀ x ∈ cut? '\n' t, trimStart x.1 = trim x.1) {f : ControlField}
    (hfirst : trim f.first = trim l) (hcontinuation : f.continuation = rest.takeWhile isContinuation)
    : ∃ b b', t = b ++ f.value ++ b' ∧ IsBlankText b ∧ IsBlankText b' := by
  have hfeed : IsBlankText ['\n'] := isBlankText_singleton (by decide)
  unfold ControlField.value
  rw [hcontinuation, hfirst]
  cases h : cut? '\n' t with
  | none =>
    rw [feedLines_of_not_mem (not_mem_of_cut?_eq_none h)] at hlines
    cases hlines
    refine ⟨lead t, trail (trimStart t), ?_, isBlankText_lead t, isBlankText_trail _⟩
    rw [trim_append_blank hfeed, List.takeWhile_nil, List.isEmpty_nil, if_pos rfl, List.append_assoc,
      lead_append_trim_append_trail]
  | some x =>
    obtain ⟨a, b⟩ := x
    rw [feedLines_of_cut? h] at hlines
    obtain ⟨rfl, rfl⟩ := List.cons.inj hlines
    rw [eq_append_of_cut? h, trim_append_blank hfeed a]
    by_cases hnil : (feedLines (b ++ ['\n'])).takeWhile isContinuation = []
    . -- nothing goes on behind the first line, so the other ones are blank
      have hblank := hrest.isBlankText_dropWhile
      have hall := List.takeWhile_append_dropWhile (p := isContinuation) (l := feedLines (b ++ ['\n']))
      rw [hnil, List.nil_append] at hall
      rw [hall, flatten_feedLines] at hblank
      rw [hnil, List.isEmpty_nil, if_pos rfl]
      refine ⟨lead a, trail (trimStart a) ++ (['\n'] ++ b), ?_, isBlankText_lead a, ?_⟩
      . conv => lhs; rw [← lead_append_trim_append_trail a]
        simp
      . apply (isBlankText_trail _).append (hfeed.append ?_)
        exact fun c hc => hblank c (List.mem_append_left _ hc)
    . obtain ⟨body, x, hbody, hb, hx⟩ := exists_eq_append_kept hrest hnil
      have htrim := hcut _ h
      dsimp only at htrim
      rw [if_neg (by simpa using hnil), hbody, List.dropLast_concat, ← htrim]
      refine ⟨lead a, x, ?_, isBlankText_lead a, hx⟩
      conv => lhs; rw [← lead_append_trimStart a, hb]
      simp

end Text

namespace ControlField

/-- A field has the given value up to the blanks around it, and line feeds are its only line ends. -/
structure Holds (f : ControlField) (value : Text) : Prop where
  isLaidOut : f.IsLaidOut
  isFeedLine : ∀ l ∈ f.first :: f.more, IsFeedLine l
  value_eq : ∃ b b', value = b ++ f.value ++ b' ∧ IsBlankText b ∧ IsBlankText b'

theorem Holds.trim_eq {f : ControlField} {value : Text} (h : f.Holds value) : trim f.value = trim value := by
  obtain ⟨b, b', rfl, hb, hb'⟩ := h.value_eq
  rw [List.append_assoc, trim_blank_append_blank hb hb']

structure IsNeat (f : ControlField) : Prop where
  isFeedLine : ∀ l ∈ f.first :: f.more, IsFeedLine l
  value : Text.IsNeat f.value

instance (f : ControlField) : Decidable f.IsNeat :=
  decidable_of_iff ((∀ l ∈ f.first :: f.more, IsFeedLine l) ∧ Text.IsNeat f.value)
    ⟨fun ⟨h₁, h₂⟩ => ⟨h₁, h₂⟩, fun h => ⟨h.isFeedLine, h.value⟩⟩

theorem Holds.isNeat {f : ControlField} {value : Text} (h : f.Holds value) (hvalue : Text.IsNeat value)
    : f.IsNeat := by
  refine ⟨h.isFeedLine, hvalue.of_isInfix ?_⟩
  obtain ⟨b, b', heq, _⟩ := h.value_eq
  exact ⟨b, b', heq.symm⟩

end ControlField

namespace Paragraph

open CommentBlock

/-- The lines that a value is written as: the lines of the value, of which the first one may be laid out
otherwise, and comment lines in front of the ones behind it. -/
structure IsWrittenAs (value first : Text) (rows : List (List Text × Text)) : Prop where
  isFeedLine : ∀ l ∈ first :: joinRows rows, IsFeedLine l
  notComment : isComment first = false
  comments : ∀ r ∈ rows, ∀ c ∈ r.1, isComment c = true
  feedLines_eq : ∃ l, feedLines (value ++ ['\n']) = l :: rows.map (·.2) ∧ trim first = trim l
  areFolded : AreFolded (rows.map (·.2))

theorem not_isComment_of_getLast?_joinRows {rows : List (List Text × Text)}
    (h : ∀ r ∈ rows, (∀ c ∈ r.1, isComment c = true) ∧ isComment r.2 = false)
    : ∀ l ∈ (joinRows rows).getLast?, isComment l = false := by
  rcases List.eq_nil_or_concat' rows with rfl | ⟨rs, r, rfl⟩
  . simp [joinRows]
  . intro l hl
    have hlast : (joinRows (rs ++ [r])).getLast? = some r.2 := by simp [joinRows]
    rw [hlast] at hl
    cases hl
    exact (h r (by simp)).2

theorem IsWrittenAs.isRows {value first : Text} {rows : List (List Text × Text)}
    (h : IsWrittenAs value first rows)
    : ∀ r ∈ rows, (∀ c ∈ r.1, isComment c = true) ∧ isComment r.2 = false := by
  intro r hr
  exact ⟨h.comments r hr, not_isComment_of_isGap (h.areFolded.isGap r.2 (List.mem_map_of_mem hr))⟩

theorem IsWrittenAs.holds {value first : Text} {rows : List (List Text × Text)}
    (h : IsWrittenAs value first rows) (hcut : ∀ x ∈ cut? '\n' value, trimStart x.1 = trim x.1)
    {f : ControlField} (hfirst : f.first = first)
    (hmore : f.more = joinRows (rows.takeWhile fun r => isContinuation r.2)) : f.Holds value := by
  have hkept : ∀ r ∈ rows.takeWhile fun r => isContinuation r.2, r ∈ rows := (List.takeWhile_prefix _).subset
  have hfeed : ∀ l ∈ f.first :: f.more, IsFeedLine l := by
    intro l hl
    apply h.isFeedLine l
    rw [hfirst, hmore, List.mem_cons] at hl
    rw [List.mem_cons]
    refine hl.imp_right fun hl => ?_
    obtain ⟨r, hr, hl⟩ := List.mem_flatMap.mp hl
    exact List.mem_flatMap.mpr ⟨r, hkept r hr, hl⟩
  refine ⟨⟨fun l hl => (hfeed l hl).isFed, ?_, ?_⟩, hfeed, ?_⟩
  . rw [hfirst]
    exact h.notComment
  . rw [hmore]
    intro l hl hcomment
    obtain ⟨r, hr, hl⟩ := List.mem_flatMap.mp hl
    cases List.mem_append.mp hl with
    | inl hl =>
      rw [h.comments r (hkept r hr) l hl] at hcomment
      cases hcomment
    | inr hl =>
      have hcontinues := of_mem_takeWhile hr
      rw [List.mem_singleton.mp hl]
      exact hcontinues
  . obtain ⟨l, hl, htrim⟩ := h.feedLines_eq
    refine exists_eq_value hl h.areFolded hcut (by rw [hfirst, htrim]) ?_
    have hfilter := filter_joinRows fun r hr => h.isRows r (hkept r hr)
    unfold ControlField.continuation
    rw [hmore, List.takeWhile_map]
    exact hfilter

theorem IsWrittenAs.exists_setRaw {value first : Text} {rows : List (List Text × Text)}
    (h : IsWrittenAs value first rows) (hcut : ∀ x ∈ cut? '\n' value, trimStart x.1 = trim x.1)
    {p : Paragraph} (hp : p.HasFieldNames) {name : Text} (hname : p.find? name = none → IsFieldName name)
    : ∃ q f, p.setRaw name (first :: joinRows rows).flatten = .ok q ∧ q.find? name = some f ∧
        f.Holds value := by
  have hlines := lines_flatten_of_isFeedLine h.isFeedLine
  have htake := ControlDocument.takeContinuation_joinRows h.isRows
  have hrest : ∀ l ∈ joinRows rows, l.head?.any isGap = true ∨ isComment l = true := by
    intro l hl
    obtain ⟨r, hr, hl⟩ := List.mem_flatMap.mp hl
    cases List.mem_append.mp hl with
    | inl hl => exact .inr (h.comments r hr l hl)
    | inr hl =>
      rw [List.mem_singleton.mp hl]
      exact .inl (h.areFolded.isGap r.2 (List.mem_map_of_mem hr))
  have hdropped : ∀ l ∈ (takeContinuation (joinRows rows)).2, l.all isBlank = true ∨ isComment l = true := by
    intro l hl
    rw [htake] at hl
    obtain ⟨r, hr, hl⟩ := List.mem_flatMap.mp hl
    cases List.mem_append.mp hl with
    | inl hl => exact .inr (h.comments r ((List.dropWhile_suffix _).subset hr) l hl)
    | inr hl =>
      rw [List.mem_singleton.mp hl]
      left
      apply h.areFolded.isBlank_of_mem_dropWhile
      rw [List.dropWhile_map]
      exact List.mem_map_of_mem hr
  obtain ⟨q, hq⟩ := Paragraph.exists_setRaw hp hname hlines (fun l hl => (h.isFeedLine l hl).getLast?_eq)
    hrest (not_isComment_of_getLast?_joinRows h.isRows) hdropped
  obtain ⟨⟨comments, spelled, hfind⟩, _⟩ := storesLines_of_setRaw hp hname hlines hq
  rw [htake] at hfind
  exact ⟨q, _, hq, hfind, h.holds hcut rfl rfl⟩

/-- A paragraph has room for a value of a field if each line of the value ends with a line feed, and so does
each comment line that goes in between, and no blanks are cut off behind the first line. -/
structure HasRoomFor (p : Paragraph) (name value : Text) : Prop where
  isEnded : ∀ l ∈ lines (value ++ ['\n']), l.getLast? = some '\n'
  isCut : ∀ x ∈ cut? '\n' value, trimStart x.1 = trim x.1
  comments : ∀ f ∈ p.find? name, ∀ b ∈ ofLines 0 [] f.rawValue.lines, ∀ c ∈ b.lines,
    c.getLast? = some '\n'

instance (p : Paragraph) (name value : Text) : Decidable (p.HasRoomFor name value) :=
  decidable_of_iff ((∀ l ∈ lines (value ++ ['\n']), l.getLast? = some '\n') ∧
      (∀ x ∈ cut? '\n' value, trimStart x.1 = trim x.1) ∧
      ∀ f ∈ p.find? name, ∀ b ∈ ofLines 0 [] f.rawValue.lines, ∀ c ∈ b.lines, c.getLast? = some '\n')
    ⟨fun ⟨h₁, h₂, h₃⟩ => ⟨h₁, h₂, h₃⟩, fun h => ⟨h.isEnded, h.isCut, h.comments⟩⟩

theorem hasRoomFor_of_isNeat {p : Paragraph} {name value : Text} (hp : ∀ f ∈ p.find? name, f.IsNeat)
    (hvalue : IsNeat value) : p.HasRoomFor name value := by
  constructor
  . have hend : ∀ c ∈ value ++ ['\n'], isLineEnd c = true → c = '\n' := by
      intro c hc
      cases List.mem_append.mp hc with
      | inl hc => exact hvalue.eq_feed hc
      | inr hc => exact fun _ => List.mem_singleton.mp hc
    rw [lines_eq_feedLines_of_isLineEnd hend]
    exact fun l hl => (isFed_of_mem_feedLines hl).getLast?_eq
  . intro x hx
    have hpart : x.1 ++ ['\n'] <:+: value := by
      rw [eq_append_of_cut? hx]
      exact ⟨[], x.2, by simp⟩
    obtain ⟨_, _, hlast⟩ := isNeat_append_iff.mp (hvalue.of_isInfix hpart)
    have hstops : StopsAt isBlank (trimStart x.1).reverse := by
      intro c hc
      rw [List.head?_reverse] at hc
      rw [← Bool.not_eq_true]
      intro hblank
      refine hlast c ?_ hblank rfl
      rw [← lead_append_trimStart x.1, List.getLast?_append, Option.mem_def.mp hc]
      rfl
    have htrim := trimEnd_append_blank hstops isBlankText_nil
    rw [List.append_nil] at htrim
    exact htrim.symm
  . intro f hf b hb c hc
    obtain ⟨hmem, _⟩ := (mem_of_mem_ofLines hb hc).resolve_left (by simp)
    have hfeed := (hp f hf).isFeedLine
    have hlines := lines_flatten_of_isFeedLine hfeed
    rw [List.flatten_cons] at hlines
    unfold ControlField.rawValue at hmem
    rw [hlines] at hmem
    exact (hfeed c hmem).getLast?_eq

theorem joinRows_map_nil (ls : List Text) : joinRows (ls.map fun l => ([], l)) = ls := by
  unfold joinRows
  simp [List.flatMap_map]

theorem getLast?_ne_of_isFolded {t : Text} (h : IsFolded t) : t.getLast? ≠ some '\n' := by
  intro hlast
  obtain ⟨body, rfl⟩ := List.getLast?_eq_some_iff.mp hlast
  cases (h.right.1 rfl).1

theorem isFeedLine_indent_trim {t : Text} (h : IsFeedLine (t ++ ['\n']))
    : IsFeedLine (' ' :: trim t ++ ['\n']) := by
  obtain ⟨s, ending, heq, hs, hending⟩ := exists_of_lines_eq h.lines_eq
  have hblank : IsBlankText ending := by
    rcases hending with rfl | rfl | ⟨c, rfl, hc⟩
    . exact isBlankText_nil
    . exact List.all_iff_forall_prop.mp (by decide)
    . exact isBlankText_singleton (isBlank_of_isLineEnd hc)
  have htrim : trim t = trim s := by
    rw [← trim_append_blank (isBlankText_singleton (c := '\n') (by decide)) t, heq, trim_append_blank hblank]
  have hline : ∀ c ∈ ' ' :: trim t, isLineEnd c = false := by
    rw [List.forall_mem_cons, htrim]
    exact ⟨by decide, fun c hc => hs c ((isInfix_trim s).subset hc)⟩
  have hfeed : lines (['\n'] : Text) = [['\n']] := by decide
  exact ⟨lines_append_of_not_isLineEnd hline hfeed, by rw [List.getLast?_concat]⟩

theorem trim_indent_trim (t : Text) : trim (' ' :: trim t ++ ['\n']) = trim (t ++ ['\n']) := by
  have hfeed : IsBlankText ['\n'] := isBlankText_singleton (by decide)
  rw [trim_append_blank hfeed, trim_append_blank hfeed]
  exact (trim_blank_append (b := [' ']) isBlankText_space _).trans (trim_trim t)

theorem terminateLine_append_feed {value a b : Text} (hvalue : IsFolded value)
    (hcut : cut? '\n' value = some (a, b)) (first : Text)
    : ControlDocument.terminateLine (first ++ '\n' :: b) =
        ((first ++ ['\n']) :: feedLines (b ++ ['\n'])).flatten := by
  -- nothing is left to be ended, as no folded text ends with a line feed
  have hlast := getLast?_ne_of_isFolded hvalue
  rw [eq_append_of_cut? hcut, List.getLast?_append_of_ne_nil _ (by simp)] at hlast
  unfold ControlDocument.terminateLine
  rw [List.getLast?_append_of_ne_nil _ (by simp), if_neg hlast, List.flatten_cons, flatten_feedLines]
  simp

theorem exists_layOut {value l : Text} {rest : List Text} (hvalue : IsFolded value)
    (hlines : feedLines (value ++ ['\n']) = l :: rest) (hl : IsFeedLine l)
    : ∃ first, layOut value = (first :: rest).flatten ∧ IsFeedLine first ∧ isComment first = false ∧
        trim first = trim l := by
  unfold layOut
  cases hcut : cut? '\n' value with
  | none =>
    rw [feedLines_of_not_mem (not_mem_of_cut?_eq_none hcut)] at hlines
    cases hlines
    dsimp only
    split
    . next hempty =>
      refine ⟨['\n'], rfl, by decide, by decide, ?_⟩
      rw [trim_append_blank (isBlankText_singleton (by decide)), List.isEmpty_iff.mp hempty]
      decide
    . exact ⟨' ' :: trim value ++ ['\n'], by simp, isFeedLine_indent_trim hl, rfl, trim_indent_trim value⟩
  | some x =>
    obtain ⟨a, b⟩ := x
    rw [feedLines_of_cut? hcut] at hlines
    obtain ⟨rfl, rfl⟩ := List.cons.inj hlines
    dsimp only
    rw [terminateLine_append_feed hvalue hcut]
    split
    . next hgap =>
      refine ⟨a ++ ['\n'], rfl, hl, ?_, rfl⟩
      cases a with
      | nil => rfl
      | cons c a => exact not_isComment_of_isGap (by simpa using hgap)
    . exact ⟨' ' :: trim a ++ ['\n'], rfl, isFeedLine_indent_trim hl, rfl, trim_indent_trim a⟩

theorem one_le_position_of_mem_ofLines {f : ControlField} (hne : f.first ≠ [])
    (hfirst : isComment f.first = false) : ∀ b ∈ ofLines 0 [] f.rawValue.lines, 1 ≤ b.position := by
  intro b hb
  cases hold : lines f.rawValue with
  | nil =>
    rw [hold] at hb
    cases hb
  | cons l ls =>
    have hcomment : isComment l = false := by
      unfold isComment at hfirst ⊢
      rw [head?_of_lines hold, ControlField.rawValue, List.head?_append_of_ne_nil _ hne]
      exact hfirst
    rw [hold, ← List.nil_append (l :: ls), ofLines_append_cons (by simp) hcomment] at hb
    exact (of_mem_ofLines hb).1

section Written

variable {value l : Text} {rest : List Text} (hvalue : IsFolded value)
  (hended : ∀ l ∈ lines (value ++ ['\n']), l.getLast? = some '\n')

include hvalue hended

theorem exists_lines_of_isFolded
    : ∃ l rest, lines (value ++ ['\n']) = l :: rest ∧ feedLines (value ++ ['\n']) = l :: rest ∧
        (∀ l' ∈ l :: rest, IsFeedLine l') ∧ AreFolded rest := by
  obtain ⟨l, rest, hlines, hrest, _⟩ := exists_feedLines_of_isFolded hvalue
  rw [← lines_eq_feedLines hended] at hlines
  refine ⟨l, rest, hlines, ?_, ?_, hrest⟩
  . rw [← lines_eq_feedLines hended, hlines]
  . rw [← hlines]
    intro l' hl'
    exact ⟨lines_of_mem_lines hl', hended l' hl'⟩

theorem exists_setValue (p : Paragraph) (name : Text)
    : ∃ first rest, IsWrittenAs value first (rest.map fun l => ([], l)) ∧
        p.setValue name value = p.setRaw name (first :: rest).flatten := by
  obtain ⟨l, rest, hlines, hfeedLines, hfeed, hrest⟩ := exists_lines_of_isFolded hvalue hended
  rw [List.forall_mem_cons] at hfeed
  have hwritten (first : Text) (hfirst : IsFeedLine first) (hcomment : isComment first = false)
      (htrim : trim first = trim l) : IsWrittenAs value first (rest.map fun l => ([], l)) := by
    have hmap : (rest.map fun l => (([] : List Text), l)).map (·.2) = rest := by
      rw [List.map_map]
      exact List.map_id rest
    refine ⟨?_, hcomment, ?_, ⟨l, ?_, htrim⟩, ?_⟩
    . rw [joinRows_map_nil]
      exact List.forall_mem_cons.mpr ⟨hfirst, hfeed.2⟩
    . simp
    . rw [hfeedLines, hmap]
    . rwa [hmap]
  unfold setValue
  split
  . next hhead =>
    refine ⟨l, rest, hwritten l hfeed.1 ?_ rfl, by rw [← hlines, flatten_lines]⟩
    unfold isComment
    rw [head?_of_lines hlines, List.head?_append, hhead]
    rfl
  . obtain ⟨first, hlaid, hfirst, hcomment, htrim⟩ := exists_layOut hvalue hfeedLines hfeed.1
    refine ⟨first, rest, hwritten first hfirst hcomment htrim, ?_⟩
    unfold set
    rw [hlaid]

theorem exists_withComments {f : ControlField} (hne : f.first ≠ []) (hfirst : isComment f.first = false)
    (hcomments : ∀ b ∈ ofLines 0 [] f.rawValue.lines, ∀ c ∈ b.lines, c.getLast? = some '\n') {raw : Text}
    (h : f.withComments? value = some raw)
    : ∃ first rows, IsWrittenAs value first rows ∧ raw = (first :: joinRows rows).flatten := by
  obtain ⟨l, rest, hlines, hfeedLines, hfeed, hrest⟩ := exists_lines_of_isFolded hvalue hended
  rw [List.forall_mem_cons] at hfeed
  obtain ⟨indent, hindent, hnil, hnew⟩ := f.exists_newLines hlines
  have hposition := one_le_position_of_mem_ofLines hne hfirst
  have hblocks : ∀ c ∈ (ofLines 0 [] f.rawValue.lines).flatMap (·.lines),
      IsFeedLine c ∧ isComment c = true := by
    intro c hc
    obtain ⟨b, hb, hc⟩ := List.mem_flatMap.mp hc
    obtain ⟨hmem, hcomment⟩ := (mem_of_mem_ofLines hb hc).resolve_left (by simp)
    exact ⟨⟨lines_of_mem_lines hmem, hcomments b hb c hc⟩, hcomment⟩
  rw [ControlField.withComments?_eq, hnew] at h
  generalize ofLines 0 [] f.rawValue.lines = blocks at h hposition hblocks
  split at h
  . cases h
  . split at h
    . cases h
    . next hlength =>
      rw [Nat.not_lt] at hlength
      cases h
      have hmap := map_rows blocks (indent ++ l) rest
      refine ⟨indent ++ l, rows blocks ((indent ++ l) :: rest), ⟨?_, ?_, ?_, ⟨l, ?_, ?_⟩, ?_⟩, ?_⟩
      . rw [List.forall_mem_cons]
        constructor
        . refine ⟨lines_append_of_not_isLineEnd ?_ hfeed.1.lines_eq, ?_⟩
          . intro c hc
            exact ControlField.isLineEnd_of_isGap (hindent c hc)
          . rw [List.getLast?_append, hfeed.1.getLast?_eq, Option.some_or]
        . intro k hk
          obtain ⟨r, hr, hk⟩ := List.mem_flatMap.mp hk
          cases List.mem_append.mp hk with
          | inl hk => exact (hblocks k (mem_of_mem_rows hr hk)).1
          | inr hk =>
            apply hfeed.2
            rw [List.mem_singleton.mp hk, ← hmap]
            exact List.mem_map_of_mem hr
      . cases indent with
        | nil =>
          unfold isComment
          rw [List.nil_append, head?_of_lines hlines, List.head?_append, hnil rfl]
          rfl
        | cons c indent => exact not_isComment_of_isGap (by simpa using hindent c List.mem_cons_self)
      . intro r hr c hc
        exact (hblocks c (mem_of_mem_rows hr hc)).2
      . rw [hfeedLines, hmap]
      . exact trim_blank_append (fun c hc => isBlank_of_isGap (hindent c hc)) l
      . rwa [hmap]
      . rw [insertAll_cons]
        intro b hb
        exact (target_bounds (hposition b hb) hlength).1

end Written

theorem exists_setKeepingComments {p : Paragraph} (hp : p.HasFieldNames) {name value : Text}
    (hname : p.find? name = none → IsFieldName name) (hlaid : ∀ f ∈ p.find? name, f.IsLaidOut)
    (hvalue : IsFolded value) (hroom : p.HasRoomFor name value)
    : ∃ q f, p.setKeepingComments name value = .ok q ∧ q.find? name = some f ∧ f.Holds value := by
  have hwritten : ∃ first rows, IsWrittenAs value first rows ∧
      p.setKeepingComments name value = p.setRaw name (first :: joinRows rows).flatten := by
    unfold setKeepingComments
    split
    . next raw hraw =>
      obtain ⟨f, hfind, hraw⟩ := Option.bind_eq_some_iff.mp hraw
      have hf := hlaid f hfind
      obtain ⟨first, rows, hrows, rfl⟩ := exists_withComments hvalue hroom.isEnded
        (hf.isFed f.first List.mem_cons_self).ne_nil hf.first (hroom.comments f hfind) hraw
      exact ⟨first, rows, hrows, rfl⟩
    . obtain ⟨first, rest, hrows, hset⟩ := exists_setValue hvalue hroom.isEnded p name
      refine ⟨first, _, hrows, ?_⟩
      rw [hset, joinRows_map_nil]
  obtain ⟨first, rows, hrows, hset⟩ := hwritten
  rw [hset]
  exact hrows.exists_setRaw hroom.isCut hp hname

end Paragraph

end DebianPackaging
