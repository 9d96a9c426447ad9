import Mathlib.Data.List.Count
import DebianPackaging.Proofs.Makefile.Listing

/-!
This module contains what is left of the lists of a header when a name is removed for as long as it can be
found. A name at the start of a line that continues the header is never found, since it has no blank in
front of it. All others are.
-/

namespace DebianPackaging

open Text MakeLine

namespace Rule

def EndsList (v : Text) : Prop := ∀ c ∈ v.head?, c = '\\' ∨ isListEnd c = true

theorem isListName_of_mem {name u : Text} (hu : ∀ c ∈ u, isPlainChar c = true) (h : name ∈ words u)
    : IsListName name := by
  have hword := isWord_of_mem_words h
  refine ⟨hword, ?_⟩
  intro c hc
  exact hu c ((mem_words_iff (hword.notBlank c hc)).mp ⟨name, h, hc⟩)

def afterName? (name t : Text) : Option Text := (after? name (t.dropWhile isGap)).filter endsPrerequisite

theorem removeWord?_cons (name : Text) (c : Char) (t : Text)
    : removeWord? name (c :: t)
        =
      ((if c == ':' || isBlank c then
          (afterName? name t).map fun rest => if c = ':' then ':' :: rest else rest
        else none).or ((removeWord? name t).map (c :: ·))) := rfl

theorem removeWord?_cons_of_not_blank {c : Char} (hcolon : c ≠ ':') (hblank : isBlank c = false)
    (name t : Text) : removeWord? name (c :: t) = (removeWord? name t).map (c :: ·) := by
  simp [removeWord?_cons, hcolon, hblank]

theorem removeWord?_cons_of_none {name t : Text} (h : afterName? name t = none) (c : Char)
    : removeWord? name (c :: t) = (removeWord? name t).map (c :: ·) := by
  simp [removeWord?_cons, h]

theorem EndsList.not_isPlainChar {v : Text} (hv : EndsList v) : StopsAt isPlainChar v := by
  intro c hc
  cases hv c hc with
  | inl h => simp [isPlainChar, h]
  | inr h => simp [isPlainChar, h]

theorem EndsList.endsPrerequisite {v : Text} (hv : EndsList v) : endsPrerequisite v = true := by
  cases v with
  | nil => rfl
  | cons c v =>
    cases hv c rfl with
    | inl h => simp [Rule.endsPrerequisite, h]
    | inr h =>
      cases isListEnd_iff.mp h with
      | inl h => simp [Rule.endsPrerequisite, h]
      | inr h => simp [Rule.endsPrerequisite, h]

theorem isPlainChar_of_isGap {c : Char} (h : isGap c = true) : isPlainChar c = true := by
  unfold isGap at h
  rw [Bool.or_eq_true, beq_iff_eq, beq_iff_eq] at h
  cases h with
  | inl h => simp [h, isPlainChar, isListEnd]
  | inr h => simp [h, isPlainChar, isListEnd]

theorem EndsList.stopsAt_isGap {v : Text} (hv : EndsList v) : StopsAt isGap v := by
  intro c hc
  rw [← Bool.not_eq_true]
  intro hgap
  have := hv.not_isPlainChar c hc
  rw [isPlainChar_of_isGap hgap] at this
  contradiction

section Find

variable {name : Text} (hname : IsListName name) {v : Text} (hv : EndsList v)

include hname hv

theorem eq_of_endsPrerequisite {w y rest : Text} (hw : ∀ c ∈ w, isBlank c = false)
    (hplain : ∀ c ∈ w, isPlainChar c = true) (hbarred : ¬ name ++ ['|'] <+: w)
    (hy : StopsAt (fun c => !isBlank c) y) (h : w ++ (y ++ v) = name ++ rest)
    (hrest : Rule.endsPrerequisite rest = true) : w = name := by
  rcases List.append_eq_append_iff.mp h with ⟨a, rfl, ha⟩ | ⟨a, rfl, rfl⟩
  . cases a with
    | nil => rw [List.append_nil]
    | cons c a =>
      -- the name would have to go on behind the word
      have hc : isBlank c = false := hname.isWord.notBlank c (by simp)
      have hc' : isPlainChar c = true := hname.plain c (by simp)
      cases y with
      | nil =>
        have hhead : v.head? = some c := by
          rw [List.nil_append] at ha
          simp [ha]
        rw [hv.not_isPlainChar c hhead] at hc'
        contradiction
      | cons d y =>
        obtain ⟨rfl, _⟩ := List.cons.inj ha
        simp [hc] at hy
  . cases a with
    | nil => rw [List.append_nil]
    | cons c a =>
      have hc : isBlank c = false := hw c (by simp)
      have hc' : isPlainChar c = true := hplain c (by simp)
      have hbar : c ≠ '|' := by
        rintro rfl
        exact hbarred ⟨a, by simp⟩
      simp only [isPlainChar, isListEnd, Bool.and_eq_true, bne_iff_ne, Bool.not_eq_true', Bool.or_eq_false_iff,
        beq_eq_false_iff_ne] at hc'
      simp [Rule.endsPrerequisite, hc, hc', hbar] at hrest

theorem afterName?_cases {u : Text} (hplain : ∀ c ∈ u, isPlainChar c = true)
    (hbarred : ∀ w ∈ words u, ¬ name ++ ['|'] <+: w)
    : (∃ y, afterName? name (u ++ v) = some (y ++ v) ∧ words u = name :: words y ∧
          StopsAt (fun c => !isBlank c) y ∧ ∀ c ∈ y, c ∈ u) ∨
        afterName? name (u ++ v) = none ∧ startWord u ≠ name := by
  obtain ⟨gaps, x, hu, hgaps, hx⟩
      : ∃ gaps x, u = gaps ++ x ∧ (∀ c ∈ gaps, isGap c = true) ∧ StopsAt isGap x :=
    ⟨u.takeWhile isGap, u.dropWhile isGap, List.takeWhile_append_dropWhile.symm, fun c => of_mem_takeWhile,
      stopsAt_dropWhile isGap u⟩
  obtain ⟨w, y, rfl, hw, hy⟩
      : ∃ w y, x = w ++ y ∧ (∀ c ∈ w, isBlank c = false) ∧ StopsAt (fun c => !isBlank c) y :=
    ⟨startWord x, x.dropWhile fun c => !isBlank c, List.takeWhile_append_dropWhile.symm,
      not_isBlank_of_mem_startWord x, stopsAt_dropWhile _ x⟩
  subst hu
  have hwords : words (gaps ++ (w ++ y)) = [w].filter (!·.isEmpty) ++ words y := by
    rw [words_blank_append, words_append_of_stopsAt hw hy]
    intro c hc
    exact isBlank_of_isGap (hgaps c hc)
  have hafter : afterName? name (gaps ++ (w ++ y) ++ v)
      = (after? name (w ++ (y ++ v))).filter Rule.endsPrerequisite := by
    have hstops : StopsAt isGap (w ++ (y ++ v)) := by
      rw [← List.append_assoc]
      cases hwy : w ++ y with
      | nil => exact hv.stopsAt_isGap
      | cons c t =>
        rw [hwy] at hx
        simpa using hx
    unfold afterName?
    rw [List.append_assoc, List.append_assoc, dropWhile_append_of_stopsAt hgaps hstops]
  by_cases heq : w = name
  . left
    subst heq
    have hends : Rule.endsPrerequisite (y ++ v) = true := by
      cases y with
      | nil => exact hv.endsPrerequisite
      | cons c y => simp_all [Rule.endsPrerequisite]
    refine ⟨y, ?_, ?_, hy, ?_⟩
    . rw [hafter, after?_eq_some_iff.mpr rfl]
      simp [hends]
    . rw [hwords]
      simp [hname.isWord.ne_nil]
    . intro c hc
      simp [hc]
  . right
    have hbar : ¬ name ++ ['|'] <+: w := by
      cases w with
      | nil => simp
      | cons c w =>
        apply hbarred
        rw [hwords]
        simp
    constructor
    . rw [hafter, Option.filter_eq_none_iff]
      intro rest hrest hends
      apply heq
      apply eq_of_endsPrerequisite hname hv hw _ hbar hy (after?_eq_some_iff.mp hrest) hends
      intro c hc
      exact hplain c (by simp [hc])
    . intro hstart
      cases gaps with
      | nil =>
        apply heq
        rw [← hstart]
        exact (takeWhile_append_of_stopsAt (by simpa using hw) hy).symm
      | cons c gaps =>
        rw [List.cons_append, startWord_of_isBlank (isBlank_of_isGap (hgaps c (by simp)))] at hstart
        exact hname.isWord.ne_nil hstart.symm

end Find

structure LosesName (name u u' : Text) : Prop where
  mem : ∀ c ∈ u', c ∈ u
  startWord_eq : startWord u' = startWord u
  innerWords_eq : innerWords u' = (innerWords u).erase name

theorem LosesName.words_eq {name u u' : Text} (h : LosesName name u u') (hne : startWord u ≠ name)
    : words u' = (words u).erase name := by
  rw [words_eq_startWord_append u', words_eq_startWord_append u, h.startWord_eq, h.innerWords_eq,
    List.erase_append_right _ (not_mem_of_startWord_ne hne)]

section Remove

variable {name : Text} (hname : IsListName name) {u v : Text} (hplain : ∀ c ∈ u, isPlainChar c = true)
  (hbarred : ∀ w ∈ innerWords u, ¬ name ++ ['|'] <+: w) (hv : EndsList v)

include hname hplain hbarred hv

theorem removeWord?_of_not_mem (h : name ∉ innerWords u)
    : removeWord? name (u ++ v) = (removeWord? name v).map (u ++ ·) := by
  induction u with
  | nil => simp
  | cons c u ih =>
    rw [List.forall_mem_cons] at hplain
    by_cases hc : isBlank c = true
    . rw [innerWords_of_isBlank hc] at h hbarred
      rcases afterName?_cases hname hv hplain.2 hbarred with ⟨y, _, hwords, _⟩ | ⟨hnone, _⟩
      . rw [hwords] at h
        simp at h
      . rw [List.cons_append, removeWord?_cons_of_none hnone, ih hplain.2, Option.map_map]
        . rfl
        . intro w hw
          exact hbarred w (mem_words_of_mem_innerWords hw)
        . intro hmem
          exact h (mem_words_of_mem_innerWords hmem)
    . have hcolon : c ≠ ':' := by
        rintro rfl
        simp [isPlainChar] at hplain
      rw [Bool.not_eq_true] at hc
      have hinner : innerWords (c :: u) = innerWords u := by simp [innerWords, hc]
      rw [hinner] at h hbarred
      rw [List.cons_append, removeWord?_cons_of_not_blank hcolon hc, ih hplain.2 hbarred h, Option.map_map]
      rfl

theorem removeWord?_of_mem (h : name ∈ innerWords u)
    : ∃ u', removeWord? name (u ++ v) = some (u' ++ v) ∧ LosesName name u u' := by
  induction u with
  | nil => simp [innerWords] at h
  | cons c u ih =>
    rw [List.forall_mem_cons] at hplain
    have hcolon : c ≠ ':' := by
      rintro rfl
      simp [isPlainChar] at hplain
    by_cases hc : isBlank c = true
    . have hinner := innerWords_of_isBlank hc
      rw [hinner] at h hbarred
      rcases afterName?_cases hname hv hplain.2 hbarred with ⟨y, hsome, hy, hstops, hmem⟩ | ⟨hnone, hne⟩
      . refine ⟨y, ?_, ?_, ?_, ?_⟩
        . simp [removeWord?_cons, hc, hcolon, hsome]
        . intro d hd
          simp [hmem d hd]
        . rw [startWord_of_isBlank hc, startWord_of_stopsAt hstops]
        . rw [hinner, innerWords_of_stopsAt hstops, hy, List.erase_cons_head]
      . obtain ⟨u', hsome, hloses⟩ := ih hplain.2 (fun w hw => hbarred w (mem_words_of_mem_innerWords hw))
          (mem_innerWords_of_startWord_ne hne h)
        refine ⟨c :: u', ?_, ?_, ?_, ?_⟩
        . rw [List.cons_append, removeWord?_cons_of_none hnone, hsome]
          rfl
        . exact List.forall_mem_cons.mpr ⟨by simp, fun d hd => List.mem_cons_of_mem c (hloses.mem d hd)⟩
        . rw [startWord_of_isBlank hc, startWord_of_isBlank hc]
        . rw [hinner, hinner, hloses.words_eq hne]
    . rw [Bool.not_eq_true] at hc
      have hinner : ∀ t, innerWords (c :: t) = innerWords t := by
        intro t
        simp [innerWords, hc]
      rw [hinner] at h hbarred
      obtain ⟨u', hsome, hloses⟩ := ih hplain.2 hbarred h
      refine ⟨c :: u', ?_, ?_, ?_, ?_⟩
      . rw [List.cons_append, removeWord?_cons_of_not_blank hcolon hc, hsome]
        rfl
      . exact List.forall_mem_cons.mpr ⟨by simp, fun d hd => List.mem_cons_of_mem c (hloses.mem d hd)⟩
      . have := hloses.startWord_eq
        unfold startWord at this ⊢
        simp [hc, this]
      . rw [hinner, hinner, hloses.innerWords_eq]

end Remove

section Colon

variable {name : Text} (hname : IsListName name) {u v : Text} (hu : IsPlainList name u) (hv : EndsList v)

include hname hu hv

theorem removeWord?_colon_of_not_mem (h : name ∉ words u)
    : removeWord? name (':' :: (u ++ v)) = (removeWord? name v).map (':' :: u ++ ·) := by
  rcases afterName?_cases hname hv hu.plain hu.not_barred with ⟨y, _, hwords, _⟩ | ⟨hnone, _⟩
  . rw [hwords] at h
    simp at h
  . have hrest := removeWord?_of_not_mem hname hu.plain
      (fun w hw => hu.not_barred w (mem_words_of_mem_innerWords hw)) hv
      (fun hmem => h (mem_words_of_mem_innerWords hmem))
    rw [removeWord?_cons_of_none hnone, hrest, Option.map_map]
    rfl

theorem removeWord?_colon_of_mem (h : name ∈ words u)
    : ∃ u', removeWord? name (':' :: (u ++ v)) = some (':' :: (u' ++ v)) ∧ (∀ c ∈ u', c ∈ u) ∧
        words u' = (words u).erase name := by
  rcases afterName?_cases hname hv hu.plain hu.not_barred with ⟨y, hsome, hy, _, hmem⟩ | ⟨hnone, hne⟩
  . refine ⟨y, ?_, hmem, ?_⟩
    . simp [removeWord?_cons, hsome]
    . rw [hy, List.erase_cons_head]
  . obtain ⟨u', hsome, hloses⟩ := removeWord?_of_mem hname hu.plain
      (fun w hw => hu.not_barred w (mem_words_of_mem_innerWords hw)) hv
      (mem_innerWords_of_startWord_ne hne h)
    refine ⟨u', ?_, hloses.mem, hloses.words_eq hne⟩
    rw [removeWord?_cons_of_none hnone, hsome]
    rfl

end Colon

theorem IsPlainList.of_subset {name u u' : Text} (hu : IsPlainList name u) (hchars : ∀ c ∈ u', c ∈ u)
    (hwords : ∀ w ∈ words u', w ∈ words u) : IsPlainList name u' := by
  constructor
  . intro c hc
    exact hu.plain c (hchars c hc)
  . intro w hw
    exact hu.not_barred w (hwords w hw)

theorem LosesName.isPlainList {name u u' : Text} (h : LosesName name u u') (hu : IsPlainList name u)
    : IsPlainList name u' := by
  apply hu.of_subset h.mem
  intro w hw
  rw [words_eq_startWord_append, h.startWord_eq, h.innerWords_eq, List.mem_append] at hw
  rw [words_eq_startWord_append]
  apply List.mem_append.mpr
  exact hw.imp_right List.mem_of_mem_erase

theorem removeWord?_of_isBlankText {name v : Text} (hname : IsWord name) (hv : IsBlankText v)
    : removeWord? name v = none := by
  induction v with
  | nil => rfl
  | cons c v ih =>
    obtain ⟨hc, hv⟩ := isBlankText_cons hv
    have hnone : afterName? name v = none := by
      unfold afterName?
      rw [Option.filter_eq_none_iff]
      intro rest hrest _
      have heq := after?_eq_some_iff.mp hrest
      obtain ⟨d, w, rfl⟩ := List.exists_cons_of_ne_nil hname.ne_nil
      have hd : d ∈ v.dropWhile isGap := by simp [heq]
      have := hname.notBlank d (by simp)
      rw [hv d ((List.dropWhile_suffix _).subset hd)] at this
      contradiction
    rw [removeWord?_cons_of_none hnone, ih hv]
    rfl

structure LosesInner (name : Text) (us us' : List Text) : Prop where
  starts : us'.map startWord = us.map startWord
  others : (us'.flatMap words).filter (· != name) = (us.flatMap words).filter (· != name)
  count : (us'.flatMap innerWords).count name + 1 = (us.flatMap innerWords).count name

theorem filter_erase_ne (name : Text) (ws : List Text)
    : (ws.erase name).filter (· != name) = ws.filter (· != name) := by
  by_cases h : name ∈ ws
  . obtain ⟨ws₁, ws₂, _, rfl, herase⟩ := List.exists_erase_eq h
    rw [herase]
    simp
  . rw [List.erase_of_not_mem h]

theorem count_erase_add_one {name : Text} {ws : List Text} (h : name ∈ ws)
    : (ws.erase name).count name + 1 = ws.count name := by
  have hpos := List.count_pos_iff.mpr h
  rw [List.count_erase_self]
  omega

theorem LosesName.losesInner {name u u' : Text} (h : LosesName name u u') (hmem : name ∈ innerWords u)
    (us : List Text) : LosesInner name (u :: us) (u' :: us) := by
  constructor
  . simp [h.startWord_eq]
  . simp [words_eq_startWord_append, h.startWord_eq, h.innerWords_eq, filter_erase_ne]
  . have := count_erase_add_one hmem
    simp [h.innerWords_eq]
    omega

theorem LosesInner.cons {name : Text} {us us' : List Text} (h : LosesInner name us us') (u : Text)
    : LosesInner name (u :: us) (u :: us') := by
  constructor
  . simp [h.starts]
  . simp [h.others]
  . have := h.count
    simp
    omega

/-- What the removal of a name does to lines that hold lists of prerequisites, where `p` is said of the
lines and their lists. -/
structure RemovesInner (name : Text) (ls us : List Text) (p : (ls us : List Text) → Prop) : Prop where
  of_mem : name ∈ us.flatMap innerWords →
    ∃ ls' us', removeWordFromLines? name ls = some ls' ∧ p ls' us' ∧ LosesInner name us us'
  of_not_mem : name ∉ us.flatMap innerWords → ∀ ls', removeWordFromLines? name ls = some ls' → p ls' us

/-- The first line of a listing is a list with something behind it, and goes on being so when the list is
exchanged for another one, when what is behind it loses a word, or when the lines behind it are exchanged. -/
structure IsListLine (name : Text) (ls us : List Text) (u v : Text) : Prop where
  isPlainList : IsPlainList name u
  endsList : EndsList v
  exchange : ∀ u', IsPlainList name u' → IsListing name ((u' ++ v) :: ls) (u' :: us)
  behind : ∀ v', removeWord? name v = some v' → us = [] ∧ IsListing name ((u ++ v') :: ls) [u]
  rest : us = [] ∧ (∀ ls', removeWordFromLines? name ls = some ls' → IsListing name ((u ++ v) :: ls') [u]) ∨
    IsListing name ls us ∧ ∀ ls' us', IsListing name ls' us' → IsListing name ((u ++ v) :: ls') (u :: us')

theorem exists_isListLine {name l : Text} (hname : IsListName name) {ls us : List Text}
    (h : IsListing name (l :: ls) us)
    : ∃ u v us', l = u ++ v ∧ us = u :: us' ∧ IsListLine name ls us' u v := by
  cases h with
  | last hu =>
    refine ⟨l, [], [], by simp, rfl, hu, by simp [EndsList], ?_, ?_, .inl ⟨rfl, ?_⟩⟩
    . intro u' hu'
      simpa using IsListing.last hu'
    . intro v' hv'
      cases hv'
    . intro ls' hls'
      cases hls'
  | @ended u v c _ hu hc =>
    refine ⟨u, c :: v, [], rfl, rfl, hu, by simp [EndsList, hc], ?_, ?_, .inl ⟨rfl, ?_⟩⟩
    . intro u' hu'
      exact .ended hu' hc
    . intro v' hv'
      have hcolon : c ≠ ':' := by
        rintro rfl
        contradiction
      rw [removeWord?_cons_of_not_blank hcolon (not_isBlank_of_isListEnd hc)] at hv'
      obtain ⟨v'', _, rfl⟩ := Option.map_eq_some_iff.mp hv'
      exact ⟨rfl, .ended hu hc⟩
    . intro ls' _
      exact .ended hu hc
  | @continued u v _ us hu hv h =>
    refine ⟨u, v, us, rfl, rfl, hu, ?_, ?_, ?_, .inr ⟨h, ?_⟩⟩
    . cases hv with
      | inl hv => simp [EndsList, hv]
      | inr hv => simp [EndsList, hv]
    . intro u' hu'
      exact .continued hu' hv h
    . intro v' hv'
      exfalso
      obtain ⟨ending, rfl, hending⟩ : ∃ ending, v = '\\' :: ending ∧ IsBlankText ending := by
        cases hv with
        | inl hv => exact ⟨_, hv, by simp [IsBlankText, isBlank]⟩
        | inr hv => exact ⟨_, hv, by simp [IsBlankText, isBlank]⟩
      rw [removeWord?_cons_of_not_blank (by decide) (by decide),
        removeWord?_of_isBlankText hname.isWord hending] at hv'
      cases hv'
    . intro ls' us' h'
      exact .continued hu hv h'

theorem IsListLine.removesInner {name u v : Text} {ls us : List Text} (h : IsListLine name ls us u v)
    (hrest : IsListing name ls us → RemovesInner name ls us (IsListing name))
    : RemovesInner name ls us fun ls' us' => IsListing name ((u ++ v) :: ls') (u :: us') := by
  rcases h.rest with ⟨rfl, hends⟩ | ⟨hls, hcontinued⟩
  . constructor
    . intro hmem
      cases hmem
    . intro _
      exact hends
  . obtain ⟨hmem, hnot⟩ := hrest hls
    constructor
    . intro hname
      obtain ⟨ls', us', hsome, hlisting, hloses⟩ := hmem hname
      exact ⟨ls', us', hsome, hcontinued ls' us' hlisting, hloses⟩
    . intro hname ls' hsome
      exact hcontinued ls' us (hnot hname ls' hsome)

theorem removesInner_of_isListing {name : Text} (hname : IsListName name) {ls us : List Text}
    (h : IsListing name ls us) : RemovesInner name ls us (IsListing name) := by
  induction ls generalizing us with
  | nil =>
    cases h
    constructor
    . intro hmem
      cases hmem
    . intro _ ls' hls'
      cases hls'
  | cons l ls ih =>
    obtain ⟨u, v, us, rfl, rfl, hline⟩ := exists_isListLine hname h
    obtain ⟨hmem, hnot⟩ := hline.removesInner ih
    have hplain := hline.isPlainList.plain
    have hbarred : ∀ w ∈ innerWords u, ¬ name ++ ['|'] <+: w := by
      intro w hw
      exact hline.isPlainList.not_barred w (mem_words_of_mem_innerWords hw)
    by_cases hu : name ∈ innerWords u
    . obtain ⟨u', hsome, hloses⟩ := removeWord?_of_mem hname hplain hbarred hline.endsList hu
      constructor
      . intro _
        refine ⟨(u' ++ v) :: ls, u' :: us, ?_, ?_, hloses.losesInner hu us⟩
        . simp [removeWordFromLines?, hsome]
        . exact hline.exchange u' (hloses.isPlainList hline.isPlainList)
      . simp [hu]
    . have hremove := removeWord?_of_not_mem hname hplain hbarred hline.endsList hu
      cases hv : removeWord? name v with
      | some v' =>
        obtain ⟨rfl, hbehind⟩ := hline.behind v' hv
        constructor
        . simp [hu]
        . intro _ ls' hls'
          rw [removeWordFromLines?, hremove, hv] at hls'
          cases hls'
          exact hbehind
      | none =>
        constructor
        . intro h
          obtain ⟨ls', us', hsome, hlisting, hloses⟩ := hmem (by simpa [hu] using h)
          refine ⟨(u ++ v) :: ls', u :: us', ?_, hlisting, hloses.cons u⟩
          simp [removeWordFromLines?, hremove, hv, hsome]
        . intro h ls' hls'
          rw [removeWordFromLines?, hremove, hv] at hls'
          obtain ⟨ls'', hsome, rfl⟩ := Option.map_eq_some_iff.mp hls'
          exact hnot (by simpa [hu] using h) ls'' hsome

def foundWords : List Text → List Text
  | [] => []
  | u :: us => words u ++ us.flatMap innerWords

structure LosesFound (name : Text) (us us' : List Text) : Prop where
  starts : us'.tail.map startWord = us.tail.map startWord
  others : (us'.flatMap words).filter (· != name) = (us.flatMap words).filter (· != name)
  count : (foundWords us').count name + 1 = (foundWords us).count name

theorem removeWord?_colons {name colons : Text} (hname : IsListName name)
    (hcolons : colons = [':'] ∨ colons = [':', ':']) (t : Text)
    : removeWord? name (colons ++ t) = (removeWord? name (':' :: t)).map (colons.drop 1 ++ ·) := by
  cases hcolons with
  | inl h => simp [h]
  | inr h =>
    have hnone : afterName? name (':' :: t) = none := by
      unfold afterName?
      rw [Option.filter_eq_none_iff]
      intro rest hrest _
      have heq : ':' :: t = name ++ rest := after?_eq_some_iff.mp hrest
      obtain ⟨c, w, rfl⟩ := List.exists_cons_of_ne_nil hname.isWord.ne_nil
      obtain ⟨rfl, _⟩ := List.cons.inj heq
      have := hname.plain ':' (by simp)
      contradiction
    rw [h]
    exact removeWord?_cons_of_none hnone ':'

theorem LosesInner.losesFound {name : Text} {us us' : List Text} (h : LosesInner name us us') (u : Text)
    : LosesFound name (u :: us) (u :: us') := by
  constructor
  . exact h.starts
  . simp [h.others]
  . have := h.count
    simp only [foundWords, List.count_append]
    omega

theorem losesFound_of_erase {name u u' : Text} (hmem : name ∈ words u)
    (h : words u' = (words u).erase name) (us : List Text) : LosesFound name (u :: us) (u' :: us) := by
  constructor
  . rfl
  . simp [h, filter_erase_ne]
  . have := count_erase_add_one hmem
    simp only [foundWords, List.count_append, h]
    omega

theorem HasLists.removePrerequisite? {name : Text} (hname : IsListName name) {r : Rule} {us : List Text}
    (h : HasLists name r us)
    : (name ∈ foundWords us →
          ∃ r' us', r.removePrerequisite? name = some r' ∧ HasLists name r' us' ∧ LosesFound name us us') ∧
        (name ∉ foundWords us → ∀ r', r.removePrerequisite? name = some r' → HasLists name r' us) := by
  cases h with
  | @mk front colons l continued body _ hfront hcolons h =>
    obtain ⟨u, v, us, rfl, rfl, hline⟩ := exists_isListLine hname h
    have hfirst : ∀ c ∈ front, (c != ':') = true := by
      intro c hc
      rw [bne_iff_ne]
      rintro rfl
      exact hfront hc
    have hstops : StopsAt (· != ':') (colons ++ (u ++ v)) := by
      cases hcolons with
      | inl h => simp [h]
      | inr h => simp [h]
    have hjoin : ∀ t, front ++ (colons.drop 1 ++ ':' :: t) = front ++ (colons ++ t) := by
      intro t
      cases hcolons with
      | inl h => simp [h]
      | inr h => simp [h]
    unfold Rule.removePrerequisite?
    dsimp only
    rw [takeWhile_append_of_stopsAt hfirst hstops, dropWhile_append_of_stopsAt hfirst hstops,
      removeWord?_colons hname hcolons]
    by_cases hu : name ∈ words u
    . obtain ⟨u', hsome, hchars, hwords⟩ := removeWord?_colon_of_mem hname hline.isPlainList hline.endsList hu
      have hplain : IsPlainList name u' := by
        apply hline.isPlainList.of_subset hchars
        rw [hwords]
        intro w
        exact List.mem_of_mem_erase
      rw [hsome]
      constructor
      . intro _
        refine ⟨_, u' :: us, rfl, ?_, losesFound_of_erase hu hwords us⟩
        dsimp only
        rw [hjoin]
        exact .mk hfront hcolons (hline.exchange u' hplain)
      . simp [foundWords, hu]
    . rw [removeWord?_colon_of_not_mem hname hline.isPlainList hline.endsList hu]
      cases hv : removeWord? name v with
      | some v' =>
        obtain ⟨rfl, hbehind⟩ := hline.behind v' hv
        constructor
        . simp [foundWords, hu]
        . intro _ r' hr'
          cases hr'
          dsimp only
          rw [List.cons_append, hjoin]
          exact .mk hfront hcolons hbehind
      | none =>
        obtain ⟨hmem, hnot⟩ := hline.removesInner (removesInner_of_isListing hname)
        constructor
        . intro hfound
          obtain ⟨ls', us', hsome, hlisting, hloses⟩ := hmem (by simpa [foundWords, hu] using hfound)
          refine ⟨⟨front ++ (colons ++ (u ++ v)), ls', body⟩, u :: us', ?_, .mk hfront hcolons hlisting,
            hloses.losesFound u⟩
          simp [hsome]
        . intro hfound r' hr'
          simp only [Option.map_none] at hr'
          obtain ⟨ls', hsome, rfl⟩ := Option.map_eq_some_iff.mp hr'
          exact .mk hfront hcolons (hnot (by simpa [foundWords, hu] using hfound) ls' hsome)

theorem HasLists.removeRounds {name : Text} (hname : IsListName name) (n : Nat) {r : Rule} {us : List Text}
    (h : HasLists name r us) (hn : (foundWords us).count name ≤ n)
    : ∃ us', HasLists name (r.removeRounds name n) us' ∧ us'.tail.map startWord = us.tail.map startWord ∧
        (us'.flatMap words).filter (· != name) = (us.flatMap words).filter (· != name) ∧
        (name ∈ (r.removeRounds name n).prerequisites → name ∉ foundWords us') := by
  induction n generalizing r us with
  | zero =>
    refine ⟨us, h, rfl, rfl, ?_⟩
    intro _
    rwa [Nat.le_zero, List.count_eq_zero] at hn
  | succ n ih =>
    obtain ⟨hfound, hgone⟩ := h.removePrerequisite? hname
    unfold Rule.removeRounds
    split
    . by_cases hmem : name ∈ foundWords us
      . obtain ⟨r', us', hsome, hlists, hloses⟩ := hfound hmem
        have hcount := hloses.count
        obtain ⟨us'', hlists', hstarts, hothers, hrest⟩ := ih hlists (by omega)
        rw [hsome]
        exact ⟨us'', hlists', hstarts.trans hloses.starts, hothers.trans hloses.others, hrest⟩
      . split
        . next r' hsome =>
          -- what is removed is behind the lists
          apply ih (hgone hmem r' hsome)
          rw [List.count_eq_zero_of_not_mem hmem]
          omega
        . exact ⟨us, h, rfl, rfl, fun _ => hmem⟩
    . next hnot =>
      refine ⟨us, h, rfl, rfl, ?_⟩
      intro hmem
      simp [hmem] at hnot

theorem IsListing.length_words_le {name : Text} {ls us : List Text} (h : IsListing name ls us)
    : (us.flatMap words).length ≤ ls.flatten.length := by
  induction h with
  | nil => simp
  | @last u _ => simpa using Text.length_words_le u
  | @ended u v c ls _ _ =>
    have := Text.length_words_le u
    simp
    omega
  | @continued u v ls us _ _ _ ih =>
    have := Text.length_words_le u
    simp only [List.flatMap_cons, List.flatten_cons, List.length_append]
    omega

theorem count_foundWords_le (name : Text) (us : List Text)
    : (foundWords us).count name ≤ (us.flatMap words).length := by
  have hinner : ∀ us : List Text, (us.flatMap innerWords).length ≤ (us.flatMap words).length := by
    intro us
    induction us with
    | nil => simp
    | cons u us ih =>
      rw [List.flatMap_cons, List.flatMap_cons, List.length_append, List.length_append,
        words_eq_startWord_append u, List.length_append]
      omega
  apply Nat.le_trans List.count_le_length
  cases us with
  | nil => simp [foundWords]
  | cons u us =>
    have := hinner us
    simp only [foundWords, List.flatMap_cons, List.length_append]
    omega

theorem mem_foundWords {name : Text} {u : Text} {us : List Text} (h : name ∈ (u :: us).flatMap words)
    (hstart : ∀ u ∈ us, startWord u ≠ name) : name ∈ foundWords (u :: us) := by
  rw [List.flatMap_cons, List.mem_append] at h
  unfold foundWords
  rw [List.mem_append]
  apply h.imp_right
  rw [List.mem_flatMap, List.mem_flatMap]
  rintro ⟨u', hu', hmem⟩
  exact ⟨u', hu', mem_innerWords_of_startWord_ne (hstart u' hu') hmem⟩

theorem HasLists.removeAllPrerequisites {name : Text} {r : Rule} {us : List Text}
    (h : HasLists name r us) (hname : name ∈ r.prerequisites)
    : (r.removeAllPrerequisites name).prerequisites.filter (· != name)
            =
          r.prerequisites.filter (· != name) ∧
        (name ∈ (r.removeAllPrerequisites name).prerequisites ↔ ∃ u ∈ us.tail, startWord u = name) := by
  have hmem := hname
  rw [h.prerequisites_eq, List.mem_filter, bne_iff_ne] at hmem
  obtain ⟨hmem, hbar⟩ := hmem
  have hlistName : IsListName name := by
    obtain ⟨u, hu, hw⟩ := List.mem_flatMap.mp hmem
    cases h with
    | mk _ _ h => exact isListName_of_mem (h.isPlainList u hu).plain hw
  have hcount : (foundWords us).count name ≤ r.headerLines.flatten.length := by
    cases h with
    | mk _ _ h =>
      have hlength := h.length_words_le
      apply Nat.le_trans (count_foundWords_le name us)
      simp only [headerLines, List.flatten_cons, List.length_append] at hlength ⊢
      omega
  obtain ⟨us', hlists, hstarts, hothers, hrest⟩ := h.removeRounds hlistName _ hcount
  have hleft : name ∈ (r.removeAllPrerequisites name).prerequisites ↔ name ∈ us'.flatMap words := by
    unfold Rule.removeAllPrerequisites
    rw [hlists.prerequisites_eq, List.mem_filter]
    simp [hbar]
  have htail : (∃ u ∈ us.tail, startWord u = name) ↔ ∃ u ∈ us'.tail, startWord u = name := by
    rw [← List.mem_map, ← List.mem_map, hstarts]
  constructor
  . unfold Rule.removeAllPrerequisites
    rw [hlists.prerequisites_eq, h.prerequisites_eq, List.filter_comm, hothers, List.filter_comm]
  . rw [htail]
    constructor
    . intro hmem'
      have hnot := hrest hmem'
      by_contra hstart
      rw [not_exists] at hstart
      apply hnot
      rw [hleft] at hmem'
      cases us' with
      | nil => simp at hmem'
      | cons u us' =>
        apply mem_foundWords hmem'
        intro u' hu' heq
        exact hstart u' ⟨hu', heq⟩
    . rintro ⟨u, hu, rfl⟩
      rw [hleft, List.mem_flatMap]
      refine ⟨u, List.mem_of_mem_tail hu, ?_⟩
      rw [words_eq_startWord_append]
      simp [hlistName.isWord.ne_nil]

end Rule

end DebianPackaging
