import DebianPackaging.Makefile.Phony
import DebianPackaging.Proofs.Makefile.Listing

/-!
This module contains what a rule lists when a name is put at the end of the first line of its header. The
name is listed unless a recipe or a comment starts on that line. A backslash at the end of the line no
longer continues it.
-/

namespace DebianPackaging

open Text MakeLine

namespace Rule

theorem joinContinued_of_not_isNewline {t : Text} (h : ∀ c ∈ t, isNewline c = false)
    : joinContinued t = t := by
  fun_induction joinContinued t with
  | case1 => rfl
  | case2 t ih => simp [isNewline] at h
  | case3 t ih => simp [isNewline] at h
  | case4 c t _ _ ih =>
    rw [List.forall_mem_cons] at h
    rw [ih h.2]

theorem not_backslash_of_isNewline {n : Text} (h : ∀ c ∈ n, isNewline c = true) : '\\' ∉ n := by
  intro hmem
  have := h _ hmem
  contradiction

theorem joinContinued_of_not_isContinued {l : Text} (hl : ∀ c ∈ dropNewline l, isNewline c = false)
    (h : isContinued l = false) : joinContinued l = l := by
  have hparts := dropNewline_append_newline l
  have hnewline := not_backslash_of_isNewline (n := newline l) fun c => isNewline_of_mem_newline
  unfold isContinued at h
  generalize dropNewline l = d, newline l = n at hl h hparts hnewline
  rw [← hparts]
  rcases List.eq_nil_or_concat d with rfl | ⟨d, c, rfl⟩
  . exact joinContinued_of_not_mem hnewline
  . rw [List.concat_eq_append] at h hl ⊢
    have hc : c ≠ '\\' := by
      rintro rfl
      simp at h
    have hstops : StopsAt isNewline (c :: n) := by
      rw [stopsAt_cons]
      exact hl c (by simp)
    have hbackslash : '\\' ∉ c :: n := by
      rw [List.mem_cons, not_or]
      exact ⟨Ne.symm hc, hnewline⟩
    rw [List.append_assoc, List.singleton_append, joinContinued_append hstops,
      joinContinued_of_not_mem hbackslash, joinContinued_of_not_isNewline]
    intro e he
    exact hl e (by simp [he])

theorem skipColon_append_cons {c : Char} (hc : c ≠ ':') (t u : Text)
    : skipColon (t ++ c :: u) = skipColon t ++ c :: u := by
  cases t with
  | nil => exact skipColon_of_ne (by simpa using hc)
  | cons d t =>
    by_cases hd : d = ':'
    . rw [hd]
      rfl
    . have hne : ∀ v : Text, skipColon (d :: v) = d :: v := fun v => skipColon_of_ne (by simpa using hd)
      rw [List.cons_append, hne, hne]
      rfl

theorem mem_of_mem_skipColon {t : Text} {c : Char} (h : c ∈ skipColon t) : c ∈ t := by
  unfold skipColon at h
  split at h
  . exact List.mem_of_mem_drop h
  . exact h

theorem mem_skipColon {t : Text} {c : Char} (hc : c ≠ ':') (h : c ∈ t) : c ∈ skipColon t := by
  unfold skipColon
  split
  . next hhead =>
    obtain ⟨t, rfl⟩ := List.head?_eq_some_iff.mp hhead
    exact (List.mem_cons.mp h).resolve_left hc
  . exact h

theorem not_isListEnd_of_isNewline {c : Char} (h : isNewline c = true) : isListEnd c = false := by
  rw [← Bool.not_eq_true]
  intro hend
  rw [not_isNewline_of_not_isBlank (not_isBlank_of_isListEnd hend)] at h
  contradiction

theorem forall_behindColons_iff {front rest : Text} (hfront : ':' ∉ front)
    : (∀ c ∈ behindColons (front ++ ':' :: rest), isListEnd c = false) ↔
        ∀ c ∈ dropNewline rest, isListEnd c = false := by
  have hparts := dropNewline_append_newline rest
  rw [behindColons_append hfront]
  constructor
  . intro h c hc
    rw [← Bool.not_eq_true]
    intro hend
    have hcolon : c ≠ ':' := by
      rintro rfl
      contradiction
    have hmem : c ∈ rest := by
      rw [← hparts]
      exact List.mem_append_left _ hc
    rw [h c (mem_skipColon hcolon hmem)] at hend
    contradiction
  . intro h c hc
    have hmem := mem_of_mem_skipColon hc
    rw [← hparts, List.mem_append] at hmem
    cases hmem with
    | inl hmem => exact h c hmem
    | inr hmem => exact not_isListEnd_of_isNewline (isNewline_of_mem_newline hmem)

section Append

variable {front : Text} (hfront : ':' ∉ front) {list : Text}
  (hlist : ∀ c ∈ list, isNewline c = false ∧ isListEnd c = false)

include hfront hlist

theorem prerequisites_of_isListEnd {c : Char} (hc : isListEnd c = true) (behind : Text)
    (continued body : List Text)
    : prerequisites ⟨front ++ ':' :: (list ++ c :: behind), continued, body⟩
        =
      (words (skipColon list)).filter (· != ['|']) := by
  have hne : isNewline c = false ∧ '\\' ∉ [c] ∧ c ≠ ':' := by
    cases isListEnd_iff.mp hc with
    | inl hc => simp [hc, isNewline]
    | inr hc => simp [hc, isNewline]
  have hstops : StopsAt isNewline ([c] ++ (behind ++ continued.flatten)) := by simp [hne.1]
  have hjoin : joinContinued ((list ++ c :: behind) ++ continued.flatten)
      = list ++ c :: joinContinued (behind ++ continued.flatten) := by
    rw [List.append_assoc, List.cons_append, ← List.singleton_append, joinContinued_append hstops,
      joinContinued_of_not_isNewline (fun d hd => (hlist d hd).1), joinContinued_append_of_not_mem hne.2.1]
    rfl
  have htake : (skipColon list ++ c :: joinContinued (behind ++ continued.flatten)).takeWhile (!isListEnd ·)
      = skipColon list := by
    apply takeWhile_append_of_stopsAt
    . intro d hd
      simp [(hlist d (mem_of_mem_skipColon hd)).2]
    . simp [hc]
  rw [prerequisites_of_colon hfront, hjoin, skipColon_append_cons hne.2.2, htake]

theorem prerequisites_of_append {name : Text} (hname : IsListName name) {n : Text}
    (hn : ∀ c ∈ n, isNewline c = true) {continued : List Text} (hcontinued : n = [] → continued = [])
    (body : List Text)
    : prerequisites ⟨front ++ ':' :: (list ++ ' ' :: (name ++ n)), continued, body⟩
        =
      (words (skipColon list) ++
        name :: words ((joinContinued continued.flatten).takeWhile (!isListEnd ·))).filter (· != ['|']) := by
  have hstops : StopsAt isNewline (' ' :: (name ++ (n ++ continued.flatten))) := by simp [isNewline]
  have hbackslash : '\\' ∉ ' ' :: (name ++ n) := by
    have hname' : '\\' ∉ name := by
      intro hmem
      have := hname.plain _ hmem
      contradiction
    simp [hname', not_backslash_of_isNewline hn]
  have hjoin : joinContinued ((list ++ ' ' :: (name ++ n)) ++ continued.flatten)
      = list ++ ' ' :: (name ++ (n ++ joinContinued continued.flatten)) := by
    have happ := joinContinued_append_of_not_mem hbackslash continued.flatten
    have hparts : list ++ ' ' :: (name ++ n) ++ continued.flatten
        = list ++ ' ' :: (name ++ (n ++ continued.flatten)) := by simp
    rw [hparts, joinContinued_append hstops, joinContinued_of_not_isNewline (fun d hd => (hlist d hd).1)]
    simpa using happ
  have hends : ∀ c ∈ skipColon list ++ ' ' :: (name ++ n), (!isListEnd c) = true := by
    intro c hc
    rw [List.mem_append, List.mem_cons, List.mem_append] at hc
    rcases hc with hc | rfl | hc | hc
    . simp [(hlist c (mem_of_mem_skipColon hc)).2]
    . rfl
    . simp [(isPlainChar_iff.mp (hname.plain c hc)).2.2]
    . simp [not_isListEnd_of_isNewline (hn c hc)]
  have htake : (skipColon list ++ ' ' :: (name ++ (n ++ joinContinued continued.flatten))).takeWhile
        (!isListEnd ·)
      = skipColon list ++ ' ' ::
          (name ++ (n ++ (joinContinued continued.flatten).takeWhile (!isListEnd ·))) := by
    have happ : ∀ t, (skipColon list ++ ' ' :: (name ++ n) ++ t).takeWhile (!isListEnd ·)
        = skipColon list ++ ' ' :: (name ++ n) ++ t.takeWhile (!isListEnd ·) :=
      fun t => List.takeWhile_append_of_pos hends
    simpa using happ (joinContinued continued.flatten)
  rw [prerequisites_of_colon hfront, hjoin, skipColon_append_cons (by decide), htake,
    words_append_cons _ (by decide)]
  cases n with
  | nil =>
    rw [hcontinued rfl]
    simp [joinContinued, words_of_word hname.isWord]
  | cons c n =>
    rw [List.forall_mem_cons] at hn
    have hc : isBlank c = true := isBlank_of_isLineEnd (isLineEnd_of_isNewline hn.1)
    have hblank : IsBlankText n := fun d hd => isBlank_of_isLineEnd (isLineEnd_of_isNewline (hn.2 d hd))
    rw [List.cons_append, words_append_blank hname.isWord hc, words_blank_append hblank]

end Append

def firstLine (r : Rule) : Rule := ⟨r.first, [], []⟩

def firstWords (r : Rule) : List Text := words (behindColons r.first)

def moreWords (r : Rule) : List Text :=
  words ((joinContinued r.continued.flatten).takeWhile (!isListEnd ·))

@[simp]
theorem firstWords_firstLine (r : Rule) : r.firstLine.firstWords = r.firstWords := rfl

@[simp]
theorem moreWords_firstLine (r : Rule) : r.firstLine.moreWords = [] := by
  simp [moreWords, firstLine, joinContinued, words_nil]

theorem bar_not_mem_prerequisites (r : Rule) : ['|'] ∉ r.prerequisites := by
  intro h
  have := (List.mem_filter.mp h).2
  contradiction

open Makefile

section Line

variable {r : Rule} (hcolon : ':' ∈ r.first) (hfirst : ∀ c ∈ dropNewline r.first, isNewline c = false)
  {name : Text}

theorem appendPrerequisite_of_colon (front rest name : Text) (continued body : List Text)
    : appendPrerequisite ⟨front ++ ':' :: rest, continued, body⟩ name
        =
      ⟨front ++ ':' :: (dropNewline rest ++ ' ' :: (name ++ newline rest)), continued, body⟩ := by
  unfold appendPrerequisite
  rw [dropNewline_append_cons (by decide), newline_append_cons (by decide)]
  simp

theorem isAssignment_append {rest : Text} (h : isAssignment rest = false) (t : Text)
    : isAssignment (dropNewline rest ++ ' ' :: t) = false := by
  have hparts := dropNewline_append_newline rest
  generalize dropNewline rest = d, newline rest = n at hparts
  rw [← hparts] at h
  cases d with
  | nil => rfl
  | cons c d =>
    rw [List.cons_append, isAssignment_cons] at h ⊢
    cases d with
    | nil =>
      rw [Bool.or_eq_false_iff] at h
      simp [h.1]
    | cons e d => exact h

theorem isHeader_append (hheader : isHeader r.first = true) (name : Text)
    : isHeader (appendPrerequisite r name).first = true := by
  cases r with
  | mk first continued body =>
    obtain ⟨front, rest, rfl, hfront⟩ := List.eq_append_cons_of_mem (colon_mem_of_isHeader hheader)
    rw [appendPrerequisite_of_colon]
    exact isHeader_of_colon hfront (fun h => isAssignment_append h _) hheader

theorem isPhony_append (hcolon : ':' ∈ r.first) (name : Text)
    : (appendPrerequisite r name).isPhony = r.isPhony := by
  cases r with
  | mk first continued body =>
    obtain ⟨front, rest, rfl, hfront⟩ := List.eq_append_cons_of_mem hcolon
    unfold isPhony
    rw [appendPrerequisite_of_colon, targets_of_colon hfront, targets_of_colon hfront]

theorem isContinued_append (hname : IsListName name)
    : isContinued (appendPrerequisite r name).first = false := by
  obtain ⟨w, c, rfl⟩ := (List.eq_nil_or_concat name).resolve_left hname.isWord.ne_nil
  rw [List.concat_eq_append] at hname ⊢
  have hplain := isPlainChar_iff.mp (hname.plain c (by simp))
  have hnewline := not_isNewline_of_not_isBlank (hname.isWord.notBlank c (by simp))
  have hparts : (appendPrerequisite r (w ++ [c])).first
      = (dropNewline r.first ++ " " ++ w) ++ c :: newline r.first := by
    simp [appendPrerequisite]
  rw [hparts, isContinued_append_cons hnewline hplain.1]
  unfold isContinued
  rw [beq_eq_false_iff_ne]
  intro hlast
  have hmem : '\\' ∈ newline r.first := by
    rw [← dropNewline_append_newline (newline r.first)]
    exact List.mem_append_left _ (List.mem_of_getLast? hlast)
  have := isNewline_of_mem_newline hmem
  contradiction

include hcolon hfirst

theorem prerequisites_append_of_isListEnd (hend : ∃ c ∈ behindColons r.first, isListEnd c = true)
    (name : Text)
    : (appendPrerequisite r name).prerequisites = r.prerequisites := by
  cases r with
  | mk first continued body =>
    obtain ⟨front, rest, rfl, hfront⟩ := List.eq_append_cons_of_mem hcolon
    rw [dropNewline_append_cons (by decide)] at hfirst
    have hend' : ∃ c ∈ dropNewline rest, isListEnd c = true := by
      by_contra hnone
      obtain ⟨c, hc, hend⟩ := hend
      rw [(forall_behindColons_iff hfront).mpr (by simpa using hnone) c hc] at hend
      contradiction
    -- what is listed ends in front of the mark, with or without the name
    obtain ⟨d, v, hparts, hd⟩ := exists_eq_append_of_isListEnd hend'
    have hlist : ∀ c ∈ (dropNewline rest).takeWhile (!isListEnd ·),
        isNewline c = false ∧ isListEnd c = false := by
      intro c hc
      exact ⟨hfirst c (by simp [(List.takeWhile_prefix _).subset hc]), by simpa using of_mem_takeWhile hc⟩
    generalize (dropNewline rest).takeWhile (!isListEnd ·) = list at hparts hlist
    have hrest : list ++ d :: (v ++ newline rest) = rest := by
      rw [← List.cons_append, ← List.append_assoc, ← hparts, dropNewline_append_newline]
    have hold := prerequisites_of_isListEnd hfront hlist hd (v ++ newline rest) continued body
    rw [hrest] at hold
    rw [appendPrerequisite_of_colon, hold, hparts, List.append_assoc, List.cons_append,
      prerequisites_of_isListEnd hfront hlist hd]

variable (hplain : ∀ c ∈ behindColons r.first, isListEnd c = false)

include hplain

/-- A rule lists a name that is put at the end of its first line between the words of that line and those on
the lines that continue it, unless a recipe or a comment starts on it. -/
theorem prerequisites_append (hname : IsListName name) (hcontinued : newline r.first = [] → r.continued = [])
    : (appendPrerequisite r name).prerequisites
        =
      (r.firstWords ++ name :: r.moreWords).filter (· != ['|']) := by
  cases r with
  | mk first continued body =>
    obtain ⟨front, rest, rfl, hfront⟩ := List.eq_append_cons_of_mem hcolon
    rw [dropNewline_append_cons (by decide)] at hfirst
    rw [newline_append_cons (by decide)] at hcontinued
    have hplain' := (forall_behindColons_iff hfront).mp hplain
    have hlist : ∀ c ∈ dropNewline rest, isNewline c = false ∧ isListEnd c = false :=
      fun c hc => ⟨hfirst c (by simp [hc]), hplain' c hc⟩
    unfold firstWords moreWords
    rw [appendPrerequisite_of_colon, behindColons_append hfront, ← words_dropNewline, ← skipColon_dropNewline,
      prerequisites_of_append hfront hlist hname (fun c => isNewline_of_mem_newline) hcontinued]

theorem mem_prerequisites_append_iff (hname : IsListName name)
    (hcontinued : newline r.first = [] → r.continued = []) (listed : Text)
    : listed ∈ (appendPrerequisite r name).prerequisites ↔
        (listed ∈ r.firstWords ∨ listed = name ∨ listed ∈ r.moreWords) ∧ listed ≠ ['|'] := by
  rw [prerequisites_append hcolon hfirst hplain hname hcontinued, List.mem_filter, List.mem_append,
    List.mem_cons, bne_iff_ne]

theorem prerequisites_of_not_isContinued (hended : isContinued r.first = false) (hcontinued : r.continued = [])
    : r.prerequisites = r.firstWords.filter (· != ['|']) := by
  cases r with
  | mk first continued body =>
    dsimp only at hcontinued
    subst hcontinued
    obtain ⟨front, rest, rfl, hfront⟩ := List.eq_append_cons_of_mem hcolon
    dsimp only at hended hplain hfirst
    rw [dropNewline_append_cons (by decide)] at hfirst
    rw [isContinued_append_cons (by decide) (by decide)] at hended
    rw [behindColons_append hfront] at hplain
    have hrest : ∀ c ∈ dropNewline rest, isNewline c = false := fun c hc => hfirst c (by simp [hc])
    have htake : (skipColon rest).takeWhile (!isListEnd ·) = skipColon rest := by
      rw [List.takeWhile_eq_self_iff]
      intro c hc
      simp [hplain c hc]
    unfold firstWords
    rw [prerequisites_of_colon hfront, behindColons_append hfront, List.flatten_nil, List.append_nil,
      joinContinued_of_not_isContinued hrest hended, htake]

end Line

end Rule

end DebianPackaging
