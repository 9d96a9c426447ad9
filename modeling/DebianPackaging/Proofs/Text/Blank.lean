import DebianPackaging.Text.Blank

/-!
This module contains what trimming and splitting into words do to a text that is put together from
blanks, words and trimmed texts.
-/

namespace DebianPackaging

theorem isBlank_of_isGap {c : Char} (h : isGap c = true) : isBlank c = true := by
  unfold isGap at h
  rw [Bool.or_eq_true, beq_iff_eq, beq_iff_eq] at h
  cases h with
  | inl h => simp [h, isBlank]
  | inr h => simp [h, isBlank]

namespace Text

def StopsAt (p : Char → Bool) (t : Text) : Prop := ∀ c ∈ t.head?, p c = false

@[simp]
theorem stopsAt_nil (p : Char → Bool) : StopsAt p [] := by
  intro c hc
  cases hc

@[simp]
theorem stopsAt_cons (p : Char → Bool) (c : Char) (t : Text) : StopsAt p (c :: t) ↔ p c = false := by
  unfold StopsAt
  simp

theorem StopsAt.append {p : Char → Bool} {t : Text} (h : StopsAt p t) (hne : t ≠ []) (u : Text)
    : StopsAt p (t ++ u) := by
  cases t with
  | nil => contradiction
  | cons c t => simpa using h

theorem stopsAt_dropWhile (p : Char → Bool) (t : Text) : StopsAt p (t.dropWhile p) := by
  intro c hc
  have := List.head?_dropWhile_not p t
  rw [Option.mem_def.mp hc] at this
  simpa using this

theorem takeWhile_append_of_stopsAt {p : Char → Bool} {w t : Text} (hw : ∀ c ∈ w, p c = true)
    (ht : StopsAt p t) : (w ++ t).takeWhile p = w := by
  rw [List.takeWhile_append_of_pos hw]
  cases t with
  | nil => simp
  | cons c t =>
    rw [stopsAt_cons] at ht
    simp [ht]

theorem dropWhile_append_of_stopsAt {p : Char → Bool} {w t : Text} (hw : ∀ c ∈ w, p c = true)
    (ht : StopsAt p t) : (w ++ t).dropWhile p = t := by
  rw [List.dropWhile_append_of_pos hw]
  cases t with
  | nil => simp
  | cons c t =>
    rw [stopsAt_cons] at ht
    simp [ht]

theorem of_mem_takeWhile {p : α → Bool} {xs : List α} {x : α} (h : x ∈ xs.takeWhile p)
    : p x = true := by
  have := @List.all_takeWhile _ p xs
  rw [List.all_eq_true] at this
  exact this x h

theorem isInfix_append_of_stopsAt {p : Char → Bool} {w a b : Text} (hw : ∀ c ∈ w, p c = true)
    (hb : StopsAt p b) (h : w <:+: a ++ b) : w <:+: a ∨ w <:+: b := by
  rw [List.infix_append_iff] at h
  rcases h with h | h | ⟨w₁, w₂, rfl, h₁, h₂⟩
  . exact .inl h
  . exact .inr h
  . cases w₂ with
    | nil =>
      left
      rw [List.append_nil]
      exact h₁.isInfix
    | cons c w₂ =>
      obtain ⟨t, rfl⟩ := h₂
      have hc : p c = false := hb c rfl
      rw [hw c (by simp)] at hc
      cases hc

theorem suffix_of_suffix_append_cons {w a t : Text} {c : Char} (hc : c ∉ w) (h : w <:+ a ++ c :: t)
    : w <:+ t := by
  rcases List.suffix_or_suffix_of_suffix h (List.suffix_append a (c :: t)) with h | h
  . rcases List.suffix_cons_iff.mp h with rfl | h
    . simp at hc
    . exact h
  . exact absurd (h.subset (by simp)) hc

theorem suffix_of_stopsAt {p : Char → Bool} {w s t : Text} (hw : ∀ c ∈ w, p c = true) (hs : StopsAt p s)
    (h : s <:+ w ++ t) : s <:+ t := by
  induction w with
  | nil => exact h
  | cons c w ih =>
    rw [List.forall_mem_cons] at hw
    rw [List.cons_append, List.suffix_cons_iff] at h
    rcases h with rfl | h
    . rw [stopsAt_cons, hw.1] at hs
      cases hs
    . exact ih hw.2 h

theorem eq_of_stopsAt {p : Char → Bool} {a w b x e e' : Text} (hw : ∀ c ∈ w, p c = true)
    (hx : ∀ c ∈ x, p c = true) (he : StopsAt p e) (he' : StopsAt p e') (ha : ¬ x <:+: a) (hnot : ¬ x <:+: e)
    (h : (a ++ w) ++ e = (b ++ x) ++ e') : a ++ w = b ++ x ∧ e = e' := by
  have hstop : ∀ {c : Char} {t u : Text}, StopsAt p (c :: t) → (∀ d ∈ u, p d = true) → c ∉ u := by
    intro c t u ht hu hc
    rw [stopsAt_cons, hu c hc] at ht
    cases ht
  rcases List.append_eq_append_iff.mp h with ⟨m, hm, rfl⟩ | ⟨m, hm, rfl⟩
  . cases m with
    | nil => simpa using hm.symm
    | cons c m =>
      -- `x` ends in `e`
      have hsuffix : x <:+ (a ++ w) ++ c :: m := by
        rw [← hm]
        exact List.suffix_append b x
      have hend := suffix_of_suffix_append_cons (hstop he hx) hsuffix
      exact absurd (hend.isInfix.trans (List.infix_append [c] m e')) hnot
  . cases m with
    | nil => simpa using hm
    | cons c m =>
      -- `x` ends in front of `w`
      have hsuffix : w <:+ (b ++ x) ++ c :: m := by
        rw [← hm]
        exact List.suffix_append a w
      obtain ⟨k, rfl⟩ := suffix_of_suffix_append_cons (hstop he' hw) hsuffix
      have hfront : a = b ++ x ++ c :: k := by
        apply (List.append_left_inj w).mp
        simpa using hm
      exact absurd ⟨b, c :: k, hfront.symm⟩ ha

def IsBlankText (t : Text) : Prop := ∀ c ∈ t, isBlank c = true

@[simp]
theorem isBlankText_nil : IsBlankText [] := by
  intro c hc
  cases hc

theorem isBlankText_singleton {c : Char} (hc : isBlank c = true) : IsBlankText [c] := by
  intro d hd
  rw [List.mem_singleton.mp hd, hc]

theorem isBlankText_space : IsBlankText " " := isBlankText_singleton (by decide)

theorem IsBlankText.append {t u : Text} (ht : IsBlankText t) (hu : IsBlankText u)
    : IsBlankText (t ++ u) := by
  intro c hc
  cases List.mem_append.mp hc with
  | inl hc => exact ht c hc
  | inr hc => exact hu c hc

theorem isBlankText_cons {c : Char} {t : Text} (h : IsBlankText (c :: t))
    : isBlank c = true ∧ IsBlankText t := by
  constructor
  . exact h c (by simp)
  . intro d hd
    exact h d (by simp [hd])

theorem not_mem_of_isBlankText {t : Text} (h : IsBlankText t) {c : Char} (hc : isBlank c = false)
    : c ∉ t := by
  intro hmem
  rw [h c hmem] at hc
  contradiction

theorem isBlankText_lead (t : Text) : IsBlankText (lead t) := by
  intro c hc
  exact of_mem_takeWhile hc

theorem isBlankText_trail (t : Text) : IsBlankText (trail t) := by
  intro c hc
  unfold trail takeEndWhile at hc
  rw [List.mem_reverse] at hc
  exact of_mem_takeWhile hc

structure IsTrimmed (t : Text) : Prop where
  start : StopsAt isBlank t
  finish : StopsAt isBlank t.reverse

theorem trimStart_blank_append {b t : Text} (hb : IsBlankText b) (ht : StopsAt isBlank t)
    : trimStart (b ++ t) = t := dropWhile_append_of_stopsAt hb ht

theorem trimStart_of_stopsAt {t : Text} (ht : StopsAt isBlank t) : trimStart t = t := by
  simpa using trimStart_blank_append isBlankText_nil ht

theorem trimEnd_append_blank {t b : Text} (ht : StopsAt isBlank t.reverse) (hb : IsBlankText b)
    : trimEnd (t ++ b) = t := by
  unfold trimEnd dropEndWhile
  rw [List.reverse_append, dropWhile_append_of_stopsAt _ ht, List.reverse_reverse]
  intro c hc
  exact hb c (List.mem_reverse.mp hc)

theorem isTrimmed_trim (t : Text) : IsTrimmed (trim t) := by
  constructor
  . have hstart := stopsAt_dropWhile isBlank t
    have happ := trimEnd_append_trail (trimStart t)
    unfold trim
    cases hu : trimEnd (trimStart t) with
    | nil => apply stopsAt_nil
    | cons c u =>
      rw [hu] at happ
      unfold trimStart at happ
      rw [← happ] at hstart
      simpa using hstart
  . unfold trim trimEnd dropEndWhile
    rw [List.reverse_reverse]
    apply stopsAt_dropWhile

theorem IsTrimmed.trim_append {t lead trail : Text} (h : IsTrimmed t) (hne : t ≠ [])
    (hlead : IsBlankText lead) (htrail : IsBlankText trail) : trim (lead ++ (t ++ trail)) = t := by
  unfold trim
  rw [trimStart_blank_append hlead (h.start.append hne _), trimEnd_append_blank h.finish htrail]

theorem IsTrimmed.trim_eq {t : Text} (h : IsTrimmed t) : trim t = t := by
  unfold trim
  rw [trimStart_of_stopsAt h.start]
  simpa using trimEnd_append_blank h.finish isBlankText_nil

theorem IsTrimmed.append {t u : Text} (ht : IsTrimmed t) (hne : t ≠ []) (hu : IsTrimmed u) (hne' : u ≠ [])
    (sep : Text) : IsTrimmed (t ++ sep ++ u) := by
  constructor
  . rw [List.append_assoc]
    exact ht.start.append hne _
  . rw [List.reverse_append]
    exact hu.finish.append (by simpa using hne') _

theorem mem_join {sep : Text} {parts : List Text} {c : Char} (h : c ∈ join sep parts)
    : c ∈ sep ∨ ∃ w ∈ parts, c ∈ w := by
  unfold join at h
  induction parts with
  | nil => simp at h
  | cons w parts ih =>
    cases parts with
    | nil =>
      rw [List.intercalate_singleton] at h
      exact .inr ⟨w, by simp, h⟩
    | cons w' parts =>
      rw [List.intercalate_cons_cons, List.append_assoc, List.mem_append, List.mem_append] at h
      rcases h with h | h | h
      . exact .inr ⟨w, by simp, h⟩
      . exact .inl h
      . cases ih h with
        | inl h => exact .inl h
        | inr h =>
          obtain ⟨v, hv, hc⟩ := h
          exact .inr ⟨v, List.mem_cons_of_mem w hv, hc⟩

theorem isTrimmed_join {sep : Text} {parts : List Text} (h : ∀ t ∈ parts, IsTrimmed t ∧ t ≠ [])
    (hne : parts ≠ []) : IsTrimmed (join sep parts) ∧ join sep parts ≠ [] := by
  unfold join
  induction parts with
  | nil => contradiction
  | cons t parts ih =>
    rw [List.forall_mem_cons] at h
    cases parts with
    | nil =>
      rw [List.intercalate_singleton]
      exact h.1
    | cons u parts =>
      obtain ⟨htrimmed, hjoined⟩ := ih h.2 (by simp)
      rw [List.intercalate_cons_cons]
      refine ⟨h.1.1.append h.1.2 htrimmed hjoined sep, ?_⟩
      simp [h.1.2]

theorem isInfix_trim (t : Text) : trim t <:+: t := by
  refine ⟨lead t, trail (trimStart t), ?_⟩
  rw [List.append_assoc, lead_append_trim_append_trail]

theorem trim_eq_nil_iff {t : Text} : trim t = [] ↔ IsBlankText t := by
  constructor
  . intro h
    have happ := lead_append_trim_append_trail t
    rw [h, List.nil_append] at happ
    rw [← happ]
    exact (isBlankText_lead t).append (isBlankText_trail _)
  . intro h
    unfold trim
    have := trimStart_blank_append h (stopsAt_nil isBlank)
    rw [List.append_nil] at this
    rw [this]
    rfl

structure IsWord (w : Text) : Prop where
  ne_nil : w ≠ []
  notBlank : ∀ c ∈ w, isBlank c = false

theorem words_of_word {w : Text} (h : IsWord w) : words w = [w] := by
  unfold words
  rw [List.splitOnP_eq_singleton h.notBlank]
  simp [h.ne_nil]

theorem words_append_blank {w : Text} (h : IsWord w) {c : Char} (hc : isBlank c = true) (t : Text)
    : words (w ++ c :: t) = w :: words t := by
  unfold words
  rw [List.splitOnP_append_cons_of_forall_mem h.notBlank c hc]
  simp [h.ne_nil]

@[simp]
theorem words_nil : words [] = [] := by simp [words]

theorem words_append_cons (u : Text) {c : Char} (hc : isBlank c = true) (t : Text)
    : words (u ++ c :: t) = words u ++ words t := by
  unfold words
  rw [List.splitOnP_append_cons u t hc, List.filter_append]

theorem words_cons {c : Char} (hc : isBlank c = true) (t : Text) : words (c :: t) = words t :=
  words_append_cons [] hc t

theorem words_append_of_isBlankText (u : Text) {b : Text} (hb : IsBlankText b) : words (u ++ b) = words u := by
  induction b generalizing u with
  | nil => rw [List.append_nil]
  | cons c b ih =>
    obtain ⟨hc, hb⟩ := isBlankText_cons hb
    have hnil : words b = [] := (ih [] hb).trans words_nil
    rw [words_append_cons u hc, hnil, List.append_nil]

theorem words_blank_append {b : Text} (hb : IsBlankText b) (u : Text) : words (b ++ u) = words u := by
  induction b with
  | nil => rfl
  | cons c b ih =>
    obtain ⟨hc, hb⟩ := isBlankText_cons hb
    rw [List.cons_append, words_cons hc, ih hb]

theorem length_words_le (t : Text) : (words t).length ≤ t.length := by
  unfold words
  induction t with
  | nil => simp
  | cons c t ih =>
    rw [List.splitOnP_cons_eq_if_modifyHead]
    split
    . rw [List.filter_cons_of_neg (by simp), List.length_cons]
      omega
    . obtain ⟨v, vs, hvs⟩ := List.exists_cons_of_ne_nil (List.splitOnP_ne_nil isBlank t)
      rw [hvs, List.filter_cons] at ih
      rw [hvs, List.modifyHead_cons, List.filter_cons_of_pos (by simp), List.length_cons, List.length_cons]
      split at ih
      . rw [List.length_cons] at ih
        omega
      . omega

def startWord (t : Text) : Text := t.takeWhile fun c => !isBlank c

def innerWords (t : Text) : List Text := words (t.dropWhile fun c => !isBlank c)

theorem words_append_of_stopsAt {w rest : Text} (hw : ∀ c ∈ w, isBlank c = false)
    (hrest : StopsAt (fun c => !isBlank c) rest)
    : words (w ++ rest) = [w].filter (!·.isEmpty) ++ words rest := by
  cases rest with
  | nil =>
    rw [words_nil, List.append_nil, List.append_nil, words, List.splitOnP_eq_singleton hw]
  | cons c rest =>
    have hc : isBlank c = true := by simpa using hrest
    rw [words_append_cons _ hc, words_cons hc, words, List.splitOnP_eq_singleton hw]

theorem not_isBlank_of_mem_startWord (t : Text) : ∀ c ∈ startWord t, isBlank c = false := by
  intro c hc
  simpa using of_mem_takeWhile hc

theorem words_eq_startWord_append (t : Text)
    : words t = [startWord t].filter (!·.isEmpty) ++ innerWords t := by
  have happ := words_append_of_stopsAt (not_isBlank_of_mem_startWord t)
    (stopsAt_dropWhile (fun c => !isBlank c) t)
  have hparts : startWord t ++ t.dropWhile (fun c => !isBlank c) = t := List.takeWhile_append_dropWhile
  rw [hparts] at happ
  exact happ

theorem startWord_of_isBlank {c : Char} (hc : isBlank c = true) (u : Text) : startWord (c :: u) = [] := by
  simp [startWord, hc]

theorem innerWords_of_isBlank {c : Char} (hc : isBlank c = true) (u : Text)
    : innerWords (c :: u) = words u := by
  unfold innerWords
  rw [List.dropWhile_cons_of_neg (by simp [hc]), words_cons hc]

theorem startWord_of_stopsAt {u : Text} (hu : StopsAt (fun c => !isBlank c) u) : startWord u = [] := by
  cases u with
  | nil => rfl
  | cons c u => exact startWord_of_isBlank (by simpa using hu) u

theorem innerWords_of_stopsAt {u : Text} (hu : StopsAt (fun c => !isBlank c) u) : innerWords u = words u := by
  cases u with
  | nil => rfl
  | cons c u =>
    have hc : isBlank c = true := by simpa using hu
    rw [innerWords_of_isBlank hc, words_cons hc]

theorem not_mem_of_startWord_ne {name u : Text} (h : startWord u ≠ name)
    : name ∉ [startWord u].filter (!·.isEmpty) := by
  rw [List.mem_filter, List.mem_singleton]
  rintro ⟨rfl, _⟩
  contradiction

theorem mem_innerWords_of_startWord_ne {name u : Text} (h : startWord u ≠ name) (hmem : name ∈ words u)
    : name ∈ innerWords u := by
  rw [words_eq_startWord_append] at hmem
  exact (List.mem_append.mp hmem).resolve_left (not_mem_of_startWord_ne h)

theorem mem_words_of_mem_innerWords {w u : Text} (h : w ∈ innerWords u) : w ∈ words u := by
  rw [words_eq_startWord_append]
  exact List.mem_append_right _ h

theorem words_join {ws : List Text} (h : ∀ w ∈ ws, IsWord w) : words (join " " ws) = ws := by
  induction ws with
  | nil => rfl
  | cons w ws ih =>
    have hw := h w (by simp)
    specialize ih (fun w hw => h w (by simp [hw]))
    unfold join at ih ⊢
    cases ws with
    | nil =>
      rw [List.intercalate_singleton]
      exact words_of_word hw
    | cons w' ws =>
      rw [List.intercalate_cons_cons, List.append_assoc]
      apply (words_append_blank hw (by decide) _).trans
      exact congrArg (w :: ·) ih

theorem mem_splitOnP_iff {p : Char → Bool} {c : Char} (hc : p c = false) {t : Text}
    : (∃ w ∈ t.splitOnP p, c ∈ w) ↔ c ∈ t := by
  induction t with
  | nil => simp
  | cons d t ih =>
    rw [List.splitOnP_cons_eq_if_modifyHead, List.mem_cons, ← ih]
    split
    . next hd =>
      have hne : c ≠ d := by
        intro h
        rw [h, hd] at hc
        contradiction
      simp [hne]
    . obtain ⟨v, vs, hvs⟩ := List.exists_cons_of_ne_nil (List.splitOnP_ne_nil p t)
      simp [hvs, or_assoc]

theorem not_of_mem_splitOnP {p : Char → Bool} {t w : Text} (h : w ∈ t.splitOnP p)
    : ∀ c ∈ w, p c = false := by
  induction t generalizing w with
  | nil =>
    intro c hc
    simp only [List.splitOnP_nil, List.mem_singleton] at h
    simp [h] at hc
  | cons d t ih =>
    rw [List.splitOnP_cons_eq_if_modifyHead] at h
    split at h
    . cases List.mem_cons.mp h with
      | inl h => simp [h]
      | inr h => exact ih h
    . next hd =>
      obtain ⟨v, vs, hvs⟩ := List.exists_cons_of_ne_nil (List.splitOnP_ne_nil p t)
      rw [hvs] at h ih
      rw [List.modifyHead_cons] at h
      cases List.mem_cons.mp h with
      | inl h =>
        rw [h]
        intro c hc
        cases List.mem_cons.mp hc with
        | inl hc => simpa [hc] using hd
        | inr hc => exact ih (by simp) c hc
      | inr h => exact ih (by simp [h])

theorem isWord_of_mem_words {t w : Text} (h : w ∈ words t) : IsWord w := by
  unfold words at h
  obtain ⟨hw, hne⟩ := List.mem_filter.mp h
  exact ⟨by simpa using hne, not_of_mem_splitOnP hw⟩

theorem mem_words_iff {t : Text} {c : Char} (hc : isBlank c = false)
    : (∃ w ∈ words t, c ∈ w) ↔ c ∈ t := by
  rw [← mem_splitOnP_iff hc]
  unfold words
  constructor
  . rintro ⟨w, hw, hcw⟩
    exact ⟨w, (List.mem_filter.mp hw).1, hcw⟩
  . rintro ⟨w, hw, hcw⟩
    refine ⟨w, List.mem_filter.mpr ⟨hw, ?_⟩, hcw⟩
    cases w with
    | nil => cases hcw
    | cons => rfl

end Text

end DebianPackaging
