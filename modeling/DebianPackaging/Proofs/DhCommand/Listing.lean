import Mathlib.Data.Bool.AllAny
import Mathlib.Data.List.Count
import DebianPackaging.Proofs.DhCommand.AddOn
import DebianPackaging.Proofs.DhCommand.Argument

/-!
This module contains which add-ons a line lists after one was added. Whether a line has a `--with` flag is
told by a part of its text, and the flags are read by their gaps, so there are lines that get no new flag
although they have none, and lines where a new flag becomes the list of a flag in front of it.
-/

namespace DebianPackaging

open Text

namespace DhCommand

inductive StartsList (list behind : Text) : Text → Prop where
  | mk {gap sep : Char} (hgap : isGap gap = true) (hsep : sep = ' ' ∨ sep = '=') (hne : list ≠ [])
    (hlist : ∀ c ∈ list, isGap c = false) (hbehind : StopsAt (fun c => !isGap c) behind)
    : StartsList list behind (gap :: ("--with" : Text) ++ sep :: (list ++ behind))

theorem startsList_of_readList? {s : Text} {flag : WithFlag} (h : readList? s = some flag)
    : StartsList flag.list flag.afterList s := by
  unfold readList? at h
  obtain ⟨hflag, hne⟩ := Option.filter_eq_some_iff.mp h
  obtain ⟨hgap, hsep, rfl⟩ := WithFlag.read?_eq_some_iff.mp hflag
  have hs : flag.text ++ flag.rest =
      flag.gap :: ("--with" : Text) ++ flag.separator :: (flag.list ++ flag.afterList) := by
    unfold WithFlag.list WithFlag.afterList WithFlag.text
    rw [List.takeWhile_append_dropWhile]
    simp
  rw [hs]
  refine .mk hgap hsep (by simpa using hne) ?_ (stopsAt_dropWhile _ _)
  intro c hc
  simpa using of_mem_takeWhile (p := fun c => !isGap c) hc

theorem StartsList.exists_readList? {list behind s : Text} (h : StartsList list behind s)
    : ∃ flag, readList? s = some flag ∧ flag.list = list ∧ flag.afterList = behind := by
  cases h with
  | @mk gap sep hgap hsep hne hlist hbehind =>
    have hlist' : ∀ c ∈ list, (!isGap c) = true := by
      intro c hc
      simpa using hlist c hc
    have htake : WithFlag.list ⟨gap, sep, list ++ behind⟩ = list :=
      takeWhile_append_of_stopsAt hlist' hbehind
    have hdrop : WithFlag.afterList ⟨gap, sep, list ++ behind⟩ = behind :=
      dropWhile_append_of_stopsAt hlist' hbehind
    refine ⟨⟨gap, sep, list ++ behind⟩, ?_, htake, hdrop⟩
    unfold readList?
    rw [Option.filter_eq_some_iff, WithFlag.read?_eq_some_iff, htake]
    exact ⟨⟨hgap, hsep, by simp [WithFlag.text]⟩, by simpa using hne⟩

theorem StartsList.append {list behind s : Text} (h : StartsList list behind s) {t : Text}
    (ht : StopsAt (fun c => !isGap c) t) : StartsList list (behind ++ t) (s ++ t) := by
  cases h with
  | @mk gap sep hgap hsep hne hlist hbehind =>
    have hs : gap :: ("--with" : Text) ++ sep :: (list ++ behind) ++ t =
        gap :: ("--with" : Text) ++ sep :: (list ++ (behind ++ t)) := by simp
    rw [hs]
    refine .mk hgap hsep hne hlist ?_
    cases behind with
    | nil => exact ht
    | cons c behind => exact hbehind.append (by simp) t

theorem withLists_of_startsList {list behind s : Text} (h : StartsList list behind s)
    : withLists s = list :: withLists behind := by
  obtain ⟨flag, hread, rfl, rfl⟩ := h.exists_readList?
  cases s with
  | nil => cases h
  | cons c t =>
    rw [withLists]
    split
    . next flag' h' =>
      rw [hread] at h'
      cases h'
      rfl
    . next h' =>
      rw [hread] at h'
      cases h'

theorem withLists_of_none {c : Char} {t : Text} (h : readList? (c :: t) = none)
    : withLists (c :: t) = withLists t := by
  rw [withLists]
  split
  . next flag h' =>
    rw [h] at h'
    cases h'
  . rfl

theorem withLists_append_of_none {front s : Text}
    (h : ∀ a b, front = a ++ b → b ≠ [] → readList? (b ++ s) = none)
    : withLists (front ++ s) = withLists s := by
  induction front with
  | nil => rfl
  | cons c front ih =>
    have hnone : readList? (c :: (front ++ s)) = none := h [] (c :: front) rfl (by simp)
    rw [List.cons_append, withLists_of_none hnone]
    apply ih
    rintro a b rfl hb
    exact h (c :: a) b rfl hb

theorem readList?_ne_none_iff {s : Text}
    : readList? s ≠ none ↔ ∃ gap sep c rest, isGap gap = true ∧ (sep = ' ' ∨ sep = '=') ∧
        isGap c = false ∧ s = gap :: ("--with" : Text) ++ sep :: c :: rest := by
  constructor
  . intro h
    obtain ⟨flag, hflag⟩ := Option.ne_none_iff_exists'.mp h
    cases startsList_of_readList? hflag with
    | @mk gap sep hgap hsep hne hlist hbehind =>
      obtain ⟨c, list, heq⟩ := List.exists_cons_of_ne_nil hne
      rw [heq] at hlist ⊢
      exact ⟨gap, sep, c, _, hgap, hsep, hlist c (by simp), rfl⟩
  . rintro ⟨gap, sep, c, rest, hgap, hsep, hc, rfl⟩
    have hsplit := List.takeWhile_append_dropWhile (p := fun c => !isGap c) (l := c :: rest)
    have hstarts : StartsList ((c :: rest).takeWhile fun c => !isGap c)
        ((c :: rest).dropWhile fun c => !isGap c) (gap :: ("--with" : Text) ++ sep :: c :: rest) := by
      conv => rhs; rw [← hsplit]
      refine .mk hgap hsep (by simp [hc]) ?_ (stopsAt_dropWhile _ _)
      intro d hd
      simpa using of_mem_takeWhile (p := fun c => !isGap c) hd
    obtain ⟨flag, hflag, _⟩ := hstarts.exists_readList?
    rw [hflag]
    exact Option.some_ne_none flag

theorem not_isGap_of_mem_with : ∀ c ∈ ("--with" : Text), isGap c = false :=
  List.all_iff_forall_prop.mp (by decide)

theorem eq_separator_of_isGap {g sep gap : Char} {b m : Text} (hb : b ≠ []) (hgap : isGap gap = true)
    (h : g :: ("--with" : Text) ++ [sep] = b ++ gap :: m) : b = g :: ("--with" : Text) ∧ gap = sep := by
  rcases List.eq_nil_or_concat m with rfl | ⟨m, e, rfl⟩
  . obtain ⟨hfront, hend⟩ := List.append_inj' h rfl
    exact ⟨hfront.symm, (List.cons.inj hend).1.symm⟩
  . have hconcat : b ++ gap :: m.concat e = (b ++ gap :: m) ++ [e] := by simp
    have hfront := (List.append_inj' (h.trans hconcat) rfl).1
    obtain ⟨d, b, rfl⟩ := List.exists_cons_of_ne_nil hb
    have hmem : gap ∈ ("--with" : Text) := by
      rw [(List.cons.inj hfront).2]
      simp
    rw [not_isGap_of_mem_with _ hmem] at hgap
    cases hgap

theorem readList?_append_ne_none_iff {b u : Text} (hb : b ≠ []) {gap c : Char} (hgap : isGap gap = true)
    (hc : isGap c = false)
    : readList? (b ++ gap :: c :: u) ≠ none ↔
        readList? b ≠ none ∨ gap = ' ' ∧ ∃ g, isGap g = true ∧ b = g :: ("--with" : Text) := by
  rw [readList?_ne_none_iff, readList?_ne_none_iff]
  constructor
  . rintro ⟨g, sep, d, rest, hg, hsep, hd, heq⟩
    have hne : gap ≠ d := by
      rintro rfl
      rw [hgap] at hd
      cases hd
    have heq' : b ++ gap :: c :: u = (g :: ("--with" : Text) ++ [sep]) ++ d :: rest := by
      rw [heq]
      simp
    rcases List.append_eq_append_iff.mp heq' with ⟨m, hflag, hm⟩ | ⟨m, hflag, hm⟩
    . -- the text ends inside of the flag
      right
      cases m with
      | nil => exact absurd (List.cons.inj hm).1 hne
      | cons e m =>
        obtain ⟨rfl, _⟩ := List.cons.inj hm
        obtain ⟨rfl, rfl⟩ := eq_separator_of_isGap hb hgap hflag
        refine ⟨hsep.resolve_right ?_, g, hg, rfl⟩
        rintro rfl
        cases hgap
    . -- the text ends behind the flag
      left
      cases m with
      | nil => exact absurd (List.cons.inj hm).1.symm hne
      | cons e m =>
        obtain ⟨rfl, _⟩ := List.cons.inj hm
        exact ⟨g, sep, d, m, hg, hsep, hd, by rw [hflag]; simp⟩
  . rintro (⟨g, sep, d, rest, hg, hsep, hd, rfl⟩ | ⟨rfl, g, hg, rfl⟩)
    . exact ⟨g, sep, d, rest ++ gap :: c :: u, hg, hsep, hd, by simp⟩
    . exact ⟨g, ' ', c, u, hg, .inl rfl, hc, rfl⟩

theorem StartsList.suffix {list behind s : Text} (h : StartsList list behind s) : behind <:+ s := by
  cases h with
  | @mk gap sep hgap hsep hne hlist hbehind =>
    refine ⟨gap :: ("--with" : Text) ++ sep :: list, ?_⟩
    simp

theorem StartsList.isInfix {list behind s : Text} (h : StartsList list behind s) : list <:+: s := by
  cases h with
  | @mk gap sep hgap hsep hne hlist hbehind =>
    refine ⟨gap :: ("--with" : Text) ++ [sep], behind, ?_⟩
    simp

theorem StartsList.suffix_iff {list behind s : Text} (h : StartsList list behind s)
    : '\t' :: ("--with" : Text) <:+ s ↔ '\t' :: ("--with" : Text) <:+ behind := by
  refine ⟨?_, fun hsuffix => hsuffix.trans h.suffix⟩
  cases h with
  | @mk gap sep hgap hsep hne hlist hbehind =>
    have htab : '\t' ∉ list := by
      intro hmem
      cases hlist _ hmem
    have hs : gap :: ("--with" : Text) ++ sep :: (list ++ behind) =
        (gap :: ("--with" : Text) ++ [sep]) ++ (list ++ behind) := by simp
    rw [hs]
    rintro ⟨front, heq⟩
    rcases List.append_eq_append_iff.mp heq with ⟨m, hflag, hm⟩ | ⟨m, _, hm⟩
    . -- the list holds no tab, so the flag at the end would be the separator of the flag at the start
      exfalso
      cases m with
      | nil =>
        obtain ⟨c, list, rfl⟩ := List.exists_cons_of_ne_nil hne
        exact htab (List.mem_cons.mpr (.inl (List.cons.inj hm).1))
      | cons e m =>
        obtain ⟨rfl, hm'⟩ := List.cons.inj hm
        cases front with
        | nil =>
          have hlength := congrArg List.length hm'
          rw [← (List.cons.inj hflag).2] at hlength
          simp at hlength
        | cons d front =>
          have hsep' := (eq_separator_of_isGap (List.cons_ne_nil d front) rfl hflag).2
          rcases hsep with rfl | rfl <;> cases hsep'
    . rcases List.append_eq_append_iff.mp hm with ⟨k, _, hk⟩ | ⟨k, hlist', hk⟩
      . exact ⟨k, hk.symm⟩
      . cases k with
        | nil => exact ⟨[], hk⟩
        | cons e k =>
          obtain ⟨rfl, _⟩ := List.cons.inj hk
          exact absurd (by rw [hlist']; simp) htab

theorem withLists_append_flag {line x : Text} (hx : IsWord x) (h : ¬ (" --with" : Text) <:+: line)
    : withLists (line ++ " --with=" ++ x) =
        withLists line ++ [if '\t' :: ("--with" : Text) <:+ line then "--with=" ++ x else x] := by
  have hgap := isGap_of_isWord hx
  have hstop : StopsAt (fun c => !isGap c) ((" --with=" : Text) ++ x) := (stopsAt_cons _ _ _).mpr rfl
  rw [List.append_assoc]
  induction line using withLists.induct with
  | case1 =>
    have hstarts : StartsList x [] (' ' :: ("--with" : Text) ++ '=' :: (x ++ [])) :=
      .mk rfl (.inr rfl) hx.ne_nil hgap (stopsAt_nil _)
    rw [List.append_nil] at hstarts
    rw [List.nil_append, if_neg (by decide)]
    refine (withLists_of_startsList hstarts).trans ?_
    simp [withLists]
  | case2 c t flag hread _ ih =>
    have hstarts := startsList_of_readList? hread
    have hbehind : ¬ (" --with" : Text) <:+: flag.afterList :=
      fun hmem => h (hmem.trans hstarts.suffix.isInfix)
    rw [withLists_of_startsList (hstarts.append hstop), ih hbehind, withLists_of_startsList hstarts,
      List.cons_append]
    simp only [hstarts.suffix_iff]
  | case3 c t hread ih =>
    by_cases hopen : c :: t = '\t' :: ("--with" : Text)
    . have hlist : ∀ d ∈ ("--with=" : Text) ++ x, isGap d = false := by
        rw [List.forall_mem_append]
        exact ⟨List.all_iff_forall_prop.mp (by decide), hgap⟩
      have hstarts : StartsList (("--with=" : Text) ++ x) []
          ('\t' :: ("--with" : Text) ++ ' ' :: (("--with=" : Text) ++ x ++ [])) :=
        .mk rfl (.inl rfl) (by simp) hlist (stopsAt_nil _)
      rw [List.append_nil] at hstarts
      rw [hopen, if_pos List.suffix_rfl]
      refine (withLists_of_startsList hstarts).trans ?_
      have hnil : withLists ('\t' :: ("--with" : Text)) = [] := by decide +kernel
      rw [hnil]
      simp [withLists]
    . have hnone : readList? (c :: t ++ ((" --with=" : Text) ++ x)) = none := by
        rw [← not_ne_iff]
        intro hne
        have hseam : readList? (c :: t ++ ' ' :: '-' :: (("-with=" : Text) ++ x)) ≠ none := hne
        rcases (readList?_append_ne_none_iff (by simp) rfl rfl).mp hseam with hread' | ⟨_, g, hg, heq⟩
        . exact hread' hread
        . unfold isGap at hg
          rw [Bool.or_eq_true, beq_iff_eq, beq_iff_eq] at hg
          rcases hg with rfl | rfl
          . rw [heq] at h
            exact h List.infix_rfl
          . exact hopen heq
      have htail : ¬ (" --with" : Text) <:+: t := fun hmem => h (hmem.trans (List.suffix_cons c t).isInfix)
      have hsuffix : '\t' :: ("--with" : Text) <:+ c :: t ↔ '\t' :: ("--with" : Text) <:+ t := by
        rw [List.suffix_cons_iff, or_iff_right (Ne.symm hopen)]
      rw [List.cons_append] at hnone ⊢
      rw [withLists_of_none hnone, ih htail, withLists_of_none hread]
      simp only [hsuffix]

theorem readList?_append_congr {b u u' : Text} (hb : b ≠ []) {gap c : Char} (hgap : isGap gap = true)
    (hc : isGap c = false) (h : readList? (b ++ gap :: c :: u) = none)
    : readList? (b ++ gap :: c :: u') = none := by
  rw [← not_ne_iff, readList?_append_ne_none_iff hb hgap hc] at h ⊢
  exact h

theorem StartsList.prepend {list behind s : Text} (h : StartsList list behind s) {gap : Char}
    (hgap : isGap gap = true) {x : Text} (hx : IsWord x)
    : StartsList (x ++ ',' :: list) behind
        (gap :: ("--with" : Text) ++ '=' :: (x ++ ',' :: list ++ behind)) := by
  cases h with
  | mk _ _ _ hlist hbehind =>
    refine .mk hgap (.inr rfl) (by simp) ?_ hbehind
    rw [List.forall_mem_append, List.forall_mem_cons]
    exact ⟨isGap_of_isWord hx, rfl, hlist⟩

theorem withLists_replaceFirst {x : Text} (hx : IsWord x) (line : Text)
    : withLists line = [] ∧ line.replaceFirst (prependAddon? x) = line ∨
      ∃ list lists, withLists line = list :: lists ∧
        withLists (line.replaceFirst (prependAddon? x)) = (x ++ ',' :: list) :: lists := by
  have hrun := replacesFirst_replaceFirst (prependAddon? x) line
  generalize line.replaceFirst (prependAddon? x) = line' at hrun
  cases hrun with
  | nowhere h =>
    left
    have hnil : withLists (line ++ []) = withLists [] := by
      apply withLists_append_of_none
      rintro a b rfl hb
      rw [List.append_nil]
      exact Option.map_eq_none_iff.mp (h b (List.suffix_append a b))
    rw [List.append_nil] at hnil
    rw [hnil, withLists]
    exact ⟨rfl, rfl⟩
  | @place front s new rest hplace hfirst =>
    right
    obtain ⟨flag, hread, heq⟩ := Option.map_eq_some_iff.mp hplace
    cases heq
    have hstarts := startsList_of_readList? hread
    refine ⟨flag.list, withLists flag.afterList, ?_, ?_⟩
    . rw [← withLists_of_startsList hstarts]
      apply withLists_append_of_none
      intro a b hfront hb
      exact Option.map_eq_none_iff.mp (hfirst a b hfront hb)
    . obtain ⟨hgap, _, hs⟩ := WithFlag.read?_eq_some_iff.mp (Option.filter_eq_some_iff.mp hread).1
      have hs' : s = flag.gap :: '-' :: (("-with" : Text) ++ flag.separator :: flag.rest) := by
        rw [hs]
        simp [WithFlag.text]
      have hnew : flag.gap :: ("--with=" : Text) ++ x ++ "," ++ flag.list ++ flag.afterList =
          flag.gap :: ("--with" : Text) ++ '=' :: (x ++ ',' :: flag.list ++ flag.afterList) := by simp
      rw [hnew, withLists_append_of_none, withLists_of_startsList (hstarts.prepend hgap hx)]
      intro a b hfront hb
      -- the new list starts like the old one, so no list in front of it appears
      have hnone := Option.map_eq_none_iff.mp (hfirst a b hfront hb)
      rw [hs'] at hnone
      exact readList?_append_congr hb hgap rfl hnone

theorem getWith_ne_nil_iff {line : Text} : getWith line ≠ [] ↔ withLists line ≠ [] := by
  unfold getWith
  rw [not_iff_not, List.flatMap_eq_nil_iff]
  constructor
  . intro h
    rw [List.eq_nil_iff_forall_not_mem]
    intro list hlist
    exact List.splitOn_ne_nil ',' list (h list hlist)
  . intro h list hlist
    rw [h] at hlist
    cases hlist

theorem isInfix_of_mem_withLists {line list : Text} (h : list ∈ withLists line) : list <:+: line := by
  induction line using withLists.induct with
  | case1 =>
    rw [withLists] at h
    cases h
  | case2 c t flag hread _ ih =>
    have hstarts := startsList_of_readList? hread
    rw [withLists_of_startsList hstarts] at h
    cases List.mem_cons.mp h with
    | inl h =>
      rw [h]
      exact hstarts.isInfix
    | inr h => exact (ih h).trans hstarts.suffix.isInfix
  | case3 c t hread ih =>
    rw [withLists_of_none hread] at h
    exact (ih h).trans (List.suffix_cons c t).isInfix

theorem isInfix_of_mem_getWith {line x : Text} (h : x ∈ getWith line) : x <:+: line := by
  obtain ⟨list, hlist, hx⟩ := List.mem_flatMap.mp h
  refine List.IsInfix.trans ?_ (isInfix_of_mem_withLists hlist)
  have hjoin : x <:+: join [','] (list.splitOn ',') := isInfix_join hx
  unfold join at hjoin
  rwa [List.intercalate_splitOn] at hjoin

/-- A line takes a new add-on into a list that is there already, or into one at its end. A line with a flag
that has no list, or with another flag that starts like it, takes none, nor does one that ends in a flag behind
a tab. -/
def TakesAddon (line : Text) : Prop :=
  ((" --with" : Text) <:+: line → getWith line ≠ []) ∧
    (¬ (" --with" : Text) <:+: line → ¬ '\t' :: ("--with" : Text) <:+ line)

instance (line : Text) : Decidable (TakesAddon line) := inferInstanceAs (Decidable (_ ∧ _))

theorem takesAddon_iff_of_isInfix {line : Text} (h : (" --with" : Text) <:+: line)
    : TakesAddon line ↔ withLists line ≠ [] := by
  rw [← getWith_ne_nil_iff]
  exact ⟨fun htakes => htakes.1 h, fun hne => ⟨fun _ => hne, absurd h⟩⟩

theorem takesAddon_iff_of_not_isInfix {line : Text} (h : ¬ (" --with" : Text) <:+: line)
    : TakesAddon line ↔ ¬ '\t' :: ("--with" : Text) <:+ line :=
  ⟨fun htakes => htakes.2 h, fun hopen => ⟨fun hflag => absurd hflag h, fun _ => hopen⟩⟩

/-- The add-ons of a line after one was added that it did not mention. -/
inductive AddsTo (line x : Text) : List Text → Prop where
  | first (h : TakesAddon line) : AddsTo line x (x :: getWith line)
  | last (h : TakesAddon line) : AddsTo line x (getWith line ++ [x])
  | nowhere (h : ¬ TakesAddon line) : AddsTo line x (getWith line)
  | flag (h : ¬ TakesAddon line) : AddsTo line x (getWith line ++ ["--with=" ++ x])

theorem addsTo_addWith {line x : Text} (hx : IsWord x) (hcomma : ',' ∉ x) (hnew : ¬ x <:+: line)
    : AddsTo line x (getWith (addWith line x)) := by
  unfold addWith
  rw [if_neg (by rwa [occursIn_iff])]
  by_cases hflag : (" --with" : Text) <:+: line
  . rw [if_neg (by simpa using occursIn_iff.mpr hflag)]
    rcases withLists_replaceFirst hx line with ⟨hnil, hsame⟩ | ⟨list, lists, hold, hadded⟩
    . rw [hsame]
      apply AddsTo.nowhere
      rw [takesAddon_iff_of_isInfix hflag]
      exact not_not.mpr hnil
    . have htakes : TakesAddon line := by
        rw [takesAddon_iff_of_isInfix hflag, hold]
        exact List.cons_ne_nil list lists
      have hsplit : (x ++ ',' :: list).splitOn ',' = x :: list.splitOn ',' := by
        apply List.splitOnP_append_cons_of_forall_mem _ _ (by simp)
        intro c hc
        rw [beq_eq_false_iff_ne]
        rintro rfl
        exact hcomma hc
      have hadds : getWith (line.replaceFirst (prependAddon? x)) = x :: getWith line := by
        unfold getWith
        rw [hadded, hold, List.flatMap_cons, List.flatMap_cons, hsplit]
        rfl
      rw [hadds]
      exact .first htakes
  . rw [if_pos (by simpa using mt occursIn_iff.mp hflag)]
    have hadds : getWith (line ++ " --with=" ++ x) = getWith line ++
        (if '\t' :: ("--with" : Text) <:+ line then "--with=" ++ x else x).splitOn ',' := by
      unfold getWith
      rw [withLists_append_flag hx hflag, List.flatMap_append, List.flatMap_singleton]
    rw [hadds]
    by_cases hopen : '\t' :: ("--with" : Text) <:+ line
    . rw [if_pos hopen, splitOn_of_not_mem]
      . apply AddsTo.flag
        rw [takesAddon_iff_of_not_isInfix hflag]
        exact not_not.mpr hopen
      . rw [List.mem_append, not_or]
        exact ⟨by decide, hcomma⟩
    . rw [if_neg hopen, splitOn_of_not_mem hcomma]
      exact .last ((takesAddon_iff_of_not_isInfix hflag).mpr hopen)

/-- An add-on that a line does not mention is listed once after it was added, with the others as they were, if
and only if the line takes add-ons. Otherwise it is not listed. -/
theorem getWith_addWith_iff {line x : Text} (hx : IsWord x) (hcomma : ',' ∉ x) (hnew : ¬ x <:+: line)
    : ((getWith (addWith line x)).count x = 1 ∧ (getWith (addWith line x)).erase x = getWith line ↔
          TakesAddon line) ∧
        (¬ TakesAddon line → x ∉ getWith (addWith line x)) := by
  have hmem : x ∉ getWith line := fun h => hnew (isInfix_of_mem_getWith h)
  have hcount := List.count_eq_zero.mpr hmem
  have hadds := addsTo_addWith hx hcomma hnew
  generalize getWith (addWith line x) = ws at hadds
  cases hadds with
  | first h =>
    refine ⟨iff_of_true ⟨?_, List.erase_cons_head x _⟩ h, fun h' => absurd h h'⟩
    rw [List.count_cons_self, hcount]
  | last h =>
    refine ⟨iff_of_true ⟨?_, ?_⟩ h, fun h' => absurd h h'⟩
    . rw [List.count_append, hcount, List.count_singleton_self]
    . rw [List.erase_append_right _ hmem, List.erase_cons_head, List.append_nil]
  | nowhere h =>
    refine ⟨iff_of_false ?_ h, fun _ => hmem⟩
    rintro ⟨hone, _⟩
    omega
  | flag h =>
    have hmem' : x ∉ getWith line ++ ["--with=" ++ x] := by
      rw [List.mem_append, List.mem_singleton, not_or]
      refine ⟨hmem, ?_⟩
      intro heq
      have := congrArg List.length heq
      have hlength : 0 < ("--with=" : Text).length := by decide
      rw [List.length_append] at this
      omega
    refine ⟨iff_of_false ?_ h, fun _ => hmem'⟩
    rintro ⟨hone, _⟩
    rw [List.count_eq_zero.mpr hmem'] at hone
    cases hone

theorem getWith_addWith_iff_without
    : ∃ line line' x : Text, line = "dh $@ --without autoreconf" ∧ line' = "dh $@ --with foo" ∧
        x = "python3" ∧ getWith line = [] ∧ getWith (addWith line x) = [] ∧
        ¬ ((getWith (addWith line x)).count x = 1 ∧ (getWith (addWith line x)).erase x = getWith line) ∧
        (getWith (addWith line' x)).count x = 1 ∧ (getWith (addWith line' x)).erase x = getWith line' := by
  have hx : IsWord ("python3" : Text) := ⟨by decide, List.all_iff_forall_prop.mp (by decide)⟩
  refine ⟨_, _, _, rfl, rfl, rfl, by decide +kernel, by decide +kernel, ?_, ?_⟩
  . rw [(getWith_addWith_iff hx (by decide) (by decide +kernel)).1]
    decide +kernel
  . rw [(getWith_addWith_iff hx (by decide) (by decide +kernel)).1]
    decide +kernel

end DhCommand

end DebianPackaging
