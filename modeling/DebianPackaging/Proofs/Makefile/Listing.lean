import DebianPackaging.Proofs.Makefile.Backslash
import DebianPackaging.Proofs.Makefile.Layout

/-!
This module contains the lists of prerequisites on the lines of a header. Where nothing but names and bars
stands in them, the prerequisites of the rule are the words of the lists.
-/

namespace DebianPackaging

open Text MakeLine

namespace Rule

def isListEnd (c : Char) : Bool := c == ';' || c == '#'

def cutContinuation? (l : Text) : Option Text :=
  match l.reverse with
  | '\n' :: '\\' :: u => some u.reverse
  | '\n' :: '\r' :: '\\' :: u => some u.reverse
  | _ => none

/-- The lists of prerequisites on lines that continue each other, up to a recipe or a comment. -/
def listsOf : List Text → List Text
  | [] => []
  | l :: ls =>
    if l.any isListEnd then [l.takeWhile (!isListEnd ·)]
    else
      match cutContinuation? l with
      | some u => u :: listsOf ls
      | none => [l]

def skipColon (t : Text) : Text := if t.head? = some ':' then t.drop 1 else t

/-- What stands behind the colons on the first line of a header. -/
def behindColons (first : Text) : Text := skipColon ((first.dropWhile (· != ':')).drop 1)

def lists (r : Rule) : List Text := listsOf (behindColons r.first :: r.continued)

def isPlainChar (c : Char) : Bool := c != '\\' && c != ':' && !isListEnd c

/-- A list of prerequisites in which nothing but names and bars between them stands, as far as `name` is
concerned. -/
structure IsPlainList (name u : Text) : Prop where
  plain : ∀ c ∈ u, isPlainChar c = true
  not_barred : ∀ w ∈ words u, ¬ name ++ ['|'] <+: w

instance (name u : Text) : Decidable (IsPlainList name u) :=
  decidable_of_iff (u.all isPlainChar = true ∧ ∀ w ∈ words u, ¬ name ++ ['|'] <+: w)
    ⟨fun h => ⟨List.all_eq_true.mp h.1, h.2⟩, fun h => ⟨List.all_eq_true.mpr h.1, h.2⟩⟩

structure IsListName (name : Text) : Prop where
  isWord : IsWord name
  plain : ∀ c ∈ name, isPlainChar c = true

inductive IsListing (name : Text) : (ls us : List Text) → Prop where
  | nil : IsListing name [] []
  | last {u : Text} (hu : IsPlainList name u) : IsListing name [u] [u]
  | ended {u v : Text} {c : Char} {ls : List Text} (hu : IsPlainList name u) (hc : isListEnd c = true)
      : IsListing name ((u ++ c :: v) :: ls) [u]
  | continued {u v : Text} {ls us : List Text} (hu : IsPlainList name u)
      (hv : v = ['\\', '\n'] ∨ v = ['\\', '\r', '\n']) (h : IsListing name ls us)
      : IsListing name ((u ++ v) :: ls) (u :: us)

inductive HasLists (name : Text) : (r : Rule) → (us : List Text) → Prop where
  | mk {front colons l : Text} {continued body us : List Text} (hfront : ':' ∉ front)
      (hcolons : colons = [':'] ∨ colons = [':', ':']) (h : IsListing name (l :: continued) us)
      : HasLists name ⟨front ++ (colons ++ l), continued, body⟩ us

theorem isListEnd_iff {c : Char} : isListEnd c = true ↔ c = ';' ∨ c = '#' := by
  simp [isListEnd]

theorem not_isBlank_of_isListEnd {c : Char} (h : isListEnd c = true) : isBlank c = false := by
  rcases isListEnd_iff.mp h with rfl | rfl
  . rfl
  . rfl

theorem isPlainChar_iff {c : Char} : isPlainChar c = true ↔ c ≠ '\\' ∧ c ≠ ':' ∧ isListEnd c = false := by
  simp [isPlainChar, and_assoc]

theorem IsPlainList.not_backslash {name u : Text} (hu : IsPlainList name u) : '\\' ∉ u := by
  intro h
  exact (isPlainChar_iff.mp (hu.plain _ h)).1 rfl

theorem IsPlainList.not_colon {name u : Text} (hu : IsPlainList name u) : ':' ∉ u := by
  intro h
  exact (isPlainChar_iff.mp (hu.plain _ h)).2.1 rfl

theorem IsPlainList.not_end {name u : Text} (hu : IsPlainList name u)
    : ∀ c ∈ u, (!isListEnd c) = true := by
  intro c hc
  simp [(isPlainChar_iff.mp (hu.plain c hc)).2.2]

theorem IsListing.isPlainList {name : Text} {ls us : List Text} (h : IsListing name ls us)
    : ∀ u ∈ us, IsPlainList name u := by
  induction h with
  | nil => simp
  | last hu => simpa using hu
  | ended hu _ => simpa using hu
  | continued hu _ _ ih => exact List.forall_mem_cons.mpr ⟨hu, ih⟩

section Header

theorem before_of_not_mem {t : Text} (h : ';' ∉ t) : before '#' t = t.takeWhile (!isListEnd ·) := by
  unfold before
  induction t with
  | nil => rfl
  | cons c t ih =>
    rw [List.mem_cons, not_or] at h
    have hc : isListEnd c = (c == '#') := by simp [isListEnd, Ne.symm h.1]
    rw [List.takeWhile_cons, List.takeWhile_cons, ih h.2, hc]
    rfl

theorem takeWhile_isListEnd_append {t u : Text} (hu : StopsAt (!isListEnd ·) u)
    : (t ++ u).takeWhile (!isListEnd ·) = t.takeWhile (!isListEnd ·) := by
  have hnil : u.takeWhile (!isListEnd ·) = [] := takeWhile_append_of_stopsAt (w := []) (by simp) hu
  rw [List.takeWhile_append, hnil, List.append_nil]
  split
  . next hlength => exact ((List.takeWhile_prefix _).eq_of_length hlength).symm
  . rfl

theorem skipColon_of_ne {t : Text} (h : t.head? ≠ some ':') : skipColon t = t := if_neg h

theorem behindColons_append {front : Text} (hfront : ':' ∉ front) (rest : Text)
    : behindColons (front ++ ':' :: rest) = skipColon rest := by
  have hdrop : (front ++ ':' :: rest).dropWhile (· != ':') = ':' :: rest := by
    apply dropWhile_append_of_stopsAt
    . intro c hc
      rw [bne_iff_ne]
      rintro rfl
      exact hfront hc
    . simp
  rw [behindColons, hdrop]
  rfl

theorem skipColon_dropNewline (t : Text) : skipColon (dropNewline t) = dropNewline (skipColon t) := by
  by_cases h : t.head? = some ':'
  . obtain ⟨rest, rfl⟩ := List.head?_eq_some_iff.mp h
    rw [dropNewline_cons (by decide)]
    rfl
  . rw [skipColon_of_ne h, skipColon_of_ne]
    intro hcolon
    apply h
    rw [← dropNewline_append_newline t, List.head?_append, hcolon]
    rfl

theorem prerequisites_splitHeader {front : Text} (hfront : ':' ∉ front) (rest : Text)
    : (splitHeader (front ++ ':' :: rest)).prerequisites
        =
      (skipColon rest).takeWhile (!isListEnd ·) := by
  unfold splitHeader skipColon
  rw [cut?_append hfront]
  simp only [beq_iff_eq]
  generalize (if rest.head? = some ':' then rest.drop 1 else rest) = t
  split
  . next hcut =>
    apply before_of_not_mem
    intro hmem
    obtain ⟨a, b, rfl, ha⟩ := List.eq_append_cons_of_mem hmem
    rw [cut?_append ha] at hcut
    cases hcut
  . next list recipe hcut =>
    rw [eq_append_of_cut? hcut, takeWhile_isListEnd_append (by simp [isListEnd])]
    exact before_of_not_mem (not_mem_of_cut? hcut)

theorem words_takeWhile_dropNewline (t : Text)
    : words ((dropNewline t).takeWhile (!isListEnd ·)) = words (t.takeWhile (!isListEnd ·)) := by
  have hparts := dropNewline_append_newline t
  have hblank : IsBlankText ((newline t).takeWhile (!isListEnd ·)) := by
    intro c hc
    exact isBlankText_newline t c ((List.takeWhile_prefix _).subset hc)
  generalize dropNewline t = u, newline t = v at hparts hblank
  rw [← hparts, List.takeWhile_append]
  split
  . next hlength =>
    rw [(List.takeWhile_prefix _).eq_of_length hlength, words_append_of_isBlankText u hblank]
  . rfl

theorem prerequisites_of_colon {front : Text} (hfront : ':' ∉ front) (rest : Text)
    (continued body : List Text)
    : prerequisites ⟨front ++ ':' :: rest, continued, body⟩
        =
      (words ((skipColon (joinContinued (rest ++ continued.flatten))).takeWhile (!isListEnd ·))).filter
        (· != ['|']) := by
  have hfront' : ':' ∉ joinContinued front := not_mem_joinContinued hfront (by decide)
  unfold prerequisites header
  rw [joinContinued_of_colon, dropNewline_append_cons (by decide), prerequisites_splitHeader hfront',
    skipColon_dropNewline, words_takeWhile_dropNewline]
  rfl

theorem words_joinContinued {name : Text} {ls us : List Text} (h : IsListing name ls us)
    : words ((joinContinued ls.flatten).takeWhile (!isListEnd ·)) = us.flatMap words ∧
        (joinContinued ls.flatten).head? ≠ some ':' := by
  induction h with
  | nil => simp [joinContinued]
  | @last u hu =>
    rw [List.flatten_singleton, joinContinued_of_not_mem hu.not_backslash]
    constructor
    . rw [List.takeWhile_eq_self_iff.mpr hu.not_end]
      simp
    . intro hhead
      exact hu.not_colon (List.mem_of_mem_head? hhead)
  | @ended u v c ls hu hc =>
    have hbackslash : '\\' ∉ u ++ [c] := by
      rw [List.mem_append, List.mem_singleton, not_or]
      refine ⟨hu.not_backslash, ?_⟩
      rintro rfl
      contradiction
    have hparts : ((u ++ c :: v) :: ls).flatten = (u ++ [c]) ++ (v ++ ls.flatten) := by simp
    rw [hparts, joinContinued_append_of_not_mem hbackslash, List.append_assoc, List.singleton_append]
    constructor
    . rw [takeWhile_append_of_stopsAt hu.not_end (by simp [hc])]
      simp
    . have hcolon : c ≠ ':' := by
        rintro rfl
        contradiction
      cases u with
      | nil => simpa using hcolon
      | cons d u => simpa using fun hd => hu.not_colon (by simp [hd])
  | @continued u v ls us hu hv h ih =>
    have hjoin : joinContinued ((u ++ v) :: ls).flatten = u ++ ' ' :: joinContinued ls.flatten := by
      rw [List.flatten_cons, List.append_assoc, joinContinued_append_of_not_mem hu.not_backslash]
      cases hv with
      | inl hv => simp [hv, joinContinued]
      | inr hv => simp [hv, joinContinued]
    rw [hjoin]
    constructor
    . rw [List.takeWhile_append_of_pos hu.not_end, List.takeWhile_cons_of_pos (by decide),
        words_append_cons u (by decide), ih.1]
      rfl
    . cases u with
      | nil => simp
      | cons d u => simpa using fun hd => hu.not_colon (by simp [hd])

theorem HasLists.prerequisites_eq {name : Text} {r : Rule} {us : List Text} (h : HasLists name r us)
    : r.prerequisites = (us.flatMap words).filter (· != ['|']) := by
  cases h with
  | @mk front colons l continued body _ hfront hcolons h =>
    obtain ⟨hwords, hhead⟩ := words_joinContinued h
    have hjoin : skipColon (joinContinued ((colons.drop 1 ++ l) ++ continued.flatten))
        = joinContinued (l :: continued).flatten := by
      cases hcolons with
      | inl h =>
        rw [h]
        exact skipColon_of_ne hhead
      | inr h =>
        have hcolon := joinContinued_append_of_not_mem (t := [':']) (by decide) (l :: continued).flatten
        rw [h]
        change skipColon (joinContinued ([':'] ++ (l :: continued).flatten)) = _
        rw [hcolon]
        rfl
    have hparts : front ++ (colons ++ l) = front ++ ':' :: (colons.drop 1 ++ l) := by
      cases hcolons with
      | inl h => rw [h]; rfl
      | inr h => rw [h]; rfl
    rw [hparts, prerequisites_of_colon hfront, hjoin, hwords]

end Header

theorem eq_append_of_cutContinuation? {l u : Text} (h : cutContinuation? l = some u)
    : ∃ v, l = u ++ v ∧ (v = ['\\', '\n'] ∨ v = ['\\', '\r', '\n']) := by
  unfold cutContinuation? at h
  split at h
  . next u' heq =>
    cases h
    refine ⟨['\\', '\n'], ?_, .inl rfl⟩
    rw [← List.reverse_reverse l, heq]
    simp
  . next u' heq =>
    cases h
    refine ⟨['\\', '\r', '\n'], ?_, .inr rfl⟩
    rw [← List.reverse_reverse l, heq]
    simp
  . cases h

theorem exists_eq_append_of_isListEnd {l : Text} (h : ∃ c ∈ l, isListEnd c = true)
    : ∃ c v, l = l.takeWhile (!isListEnd ·) ++ c :: v ∧ isListEnd c = true := by
  obtain ⟨c, hc, hc'⟩ := h
  have hparts : l.takeWhile (!isListEnd ·) ++ l.dropWhile (!isListEnd ·) = l :=
    List.takeWhile_append_dropWhile
  have hstops := stopsAt_dropWhile (!isListEnd ·) l
  cases hdrop : l.dropWhile (!isListEnd ·) with
  | nil =>
    have := List.dropWhile_eq_nil_iff.mp hdrop c hc
    simp [hc'] at this
  | cons d v =>
    rw [hdrop] at hstops hparts
    exact ⟨d, v, hparts.symm, by simpa using hstops⟩

theorem isListing_cons {name l : Text} {ls : List Text} (hls : isContinued l = false → ls = [])
    (hrest : (∀ u ∈ listsOf ls, IsPlainList name u) → IsListing name ls (listsOf ls))
    (h : ∀ u ∈ listsOf (l :: ls), IsPlainList name u) : IsListing name (l :: ls) (listsOf (l :: ls)) := by
  unfold listsOf at h ⊢
  split at h
  . next hend =>
    rw [if_pos hend]
    obtain ⟨c, v, hl, hc⟩ := exists_eq_append_of_isListEnd (List.any_eq_true.mp hend)
    have hlist := h (l.takeWhile (!isListEnd ·)) (by simp)
    have hlisting := @IsListing.ended name _ v c ls hlist hc
    rwa [← hl] at hlisting
  . next hend =>
    rw [if_neg hend]
    split at h
    . next u hcut =>
      obtain ⟨v, rfl, hv⟩ := eq_append_of_cutContinuation? hcut
      rw [List.forall_mem_cons] at h
      exact .continued h.1 hv (hrest h.2)
    . have hl := h l (by simp)
      rw [hls (isContinued_of_not_mem hl.not_backslash)]
      exact .last hl

theorem isListing_listsOf {name : Text} {behind : List Text} {l : Text} {ls : List Text}
    (hls : Continue behind l ls) (h : ∀ u ∈ listsOf (l :: ls), IsPlainList name u)
    : IsListing name (l :: ls) (listsOf (l :: ls)) := by
  induction ls generalizing l with
  | nil => exact isListing_cons (fun _ => rfl) (fun _ => .nil) h
  | cons l' ls ih =>
    apply isListing_cons _ (ih hls.2) h
    intro hended
    rw [hls.1] at hended
    contradiction

theorem isContinued_append_cons {c : Char} (hc : isNewline c = false) (hne : c ≠ '\\') (a b : Text)
    : isContinued (a ++ c :: b) = isContinued b := by
  unfold isContinued
  rw [dropNewline_append_cons hc]
  cases hb : dropNewline b with
  | nil => simp [hne]
  | cons d b' => simp [List.getLast?_append, List.getLast?_cons]

theorem hasLists_lists {name : Text} {r : Rule} {behind : List Text} (hcolon : ':' ∈ r.first)
    (hcontinued : Continue behind r.first r.continued) (h : ∀ u ∈ r.lists, IsPlainList name u)
    : HasLists name r r.lists := by
  cases r with
  | mk first continued body =>
    obtain ⟨front, rest, rfl, hfront⟩ := List.eq_append_cons_of_mem hcolon
    unfold lists at h ⊢
    rw [behindColons_append hfront] at h ⊢
    by_cases hhead : rest.head? = some ':'
    . obtain ⟨rest, rfl⟩ := List.head?_eq_some_iff.mp hhead
      refine @HasLists.mk name front [':', ':'] rest continued body _ hfront (.inr rfl)
        (isListing_listsOf (hcontinued.of_map_eq ?_) h)
      have hline : isContinued (front ++ ':' :: ':' :: rest) = isContinued rest := by
        rw [isContinued_append_cons (by decide) (by decide)]
        exact isContinued_append_cons (by decide) (by decide) [] rest
      simp [hline]
    . rw [skipColon_of_ne hhead] at h ⊢
      refine @HasLists.mk name front [':'] rest continued body _ hfront (.inl rfl)
        (isListing_listsOf (hcontinued.of_map_eq ?_) h)
      have hline : isContinued (front ++ ':' :: rest) = isContinued rest :=
        isContinued_append_cons (by decide) (by decide) front rest
      simp [hline]

end Rule

end DebianPackaging
