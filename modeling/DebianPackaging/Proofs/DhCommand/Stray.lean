import Mathlib.Logic.Relation
import DebianPackaging.Proofs.DhCommand.Opening

/-!
This module contains which lines lose an add-on that they do not list. What stands behind a `--with` flag is
searched up to the end of the line, so an add-on is dropped from the list of another argument as well, and a
flag that was read as the list of the flag in front of it is searched, too. A line in which the add-on stands
in lists of `--with` flags alone loses items of these lists and nothing else.
-/

namespace DebianPackaging

open Text

namespace DhCommand

section Absent

theorem StartsList.suffix_cases {list behind s s' : Text} (h : StartsList list behind s)
    (hs' : s' <:+ s) (hread : WithFlag.read? s' ≠ none)
    : s' = s ∨ (∃ gap, s = gap :: ("--with" : Text) ++ s') ∨ s' <:+ behind := by
  obtain ⟨o, rest, ho, rfl⟩ := read?_ne_none_iff.mp hread
  have hstops := ho.stopsAt rest
  have hwith : ∀ c ∈ ("--with" : Text), (!isGap c) = true := List.all_iff_forall_prop.mp (by decide)
  cases h with
  | @mk gap sep hgap hsep hne hlist hbehind =>
    rcases List.suffix_cons_iff.mp hs' with heq | hs'
    . exact .inl heq
    . right
      have hsep' := suffix_of_stopsAt hwith hstops hs'
      rcases List.suffix_cons_iff.mp hsep' with heq | hs'
      . exact .inl ⟨gap, by rw [heq]⟩
      . exact .inr (suffix_of_stopsAt (fun c hc => by simp [hlist c hc]) hstops hs')

theorem mem_withLists_or {line s : Text} {flag : WithFlag} (hs : s <:+ line)
    (hread : readList? s = some flag)
    : flag.list ∈ withLists line ∨ ∃ gap, gap :: ("--with" : Text) ++ s <:+ line ∧
        WithFlag.read? (gap :: ("--with" : Text) ++ s) ≠ none := by
  induction line using withLists.induct with
  | case1 =>
    rw [List.suffix_nil.mp hs] at hread
    cases hread
  | case2 c t flag' hread' _ ih =>
    have hstarts := startsList_of_readList? hread'
    have hflag : WithFlag.read? s ≠ none := by
      rw [(Option.filter_eq_some_iff.mp hread).1]
      exact Option.some_ne_none flag
    rw [withLists_of_startsList hstarts]
    rcases hstarts.suffix_cases hs hflag with rfl | ⟨gap, heq⟩ | hs
    . rw [hread] at hread'
      cases hread'
      exact .inl List.mem_cons_self
    . refine .inr ⟨gap, ?_⟩
      rw [← heq, (Option.filter_eq_some_iff.mp hread').1]
      exact ⟨List.suffix_rfl, Option.some_ne_none flag'⟩
    . rcases ih hs with hmem | ⟨gap, hsuffix, hhidden⟩
      . exact .inl (List.mem_cons_of_mem _ hmem)
      . exact .inr ⟨gap, hsuffix.trans hstarts.suffix, hhidden⟩
  | case3 c t hread' ih =>
    rw [withLists_of_none hread']
    rcases List.suffix_cons_iff.mp hs with rfl | hs
    . rw [hread] at hread'
      cases hread'
    . rcases ih hs with hmem | ⟨gap, hsuffix, hhidden⟩
      . exact .inl hmem
      . exact .inr ⟨gap, hsuffix.trans (List.suffix_cons c t), hhidden⟩

/-- A flag of a line is followed by an add-on that its list does not have, or has the add-on in its list and
was read as the list of the flag in front of it. -/
def Strays (x line : Text) : Prop :=
  ∃ s flag, s <:+ line ∧ WithFlag.read? s = some flag ∧ IsListed x flag.rest ∧
    (x ∉ flag.list.splitOn ',' ∨ ∃ gap, gap :: ("--with" : Text) ++ s <:+ line ∧
      WithFlag.read? (gap :: ("--with" : Text) ++ s) ≠ none)

theorem strays_iff {x line : Text} (hx : x ≠ []) (habsent : x ∉ getWith line)
    : Strays x line ↔ ListsAddon x line := by
  constructor
  . rintro ⟨s, flag, hs, hflag, hlisted, _⟩
    exact ⟨s, flag, hs, hflag, hlisted⟩
  . rintro ⟨s, flag, hs, hflag, hlisted⟩
    refine ⟨s, flag, hs, hflag, hlisted, ?_⟩
    by_cases hmem : x ∈ flag.list.splitOn ','
    . right
      have hne : flag.list ≠ [] := by
        intro hnil
        rw [hnil] at hmem
        simp [hx] at hmem
      have hread : readList? s = some flag :=
        Option.filter_eq_some_iff.mpr ⟨hflag, by simpa using hne⟩
      rcases mem_withLists_or hs hread with hlist | hhidden
      . exact absurd (List.mem_flatMap.mpr ⟨flag.list, hlist, hmem⟩) habsent
      . exact hhidden
    . exact .inl hmem

end Absent

def BehindFlag (p : Text) : Prop := ∃ a o w, p = a ++ (o ++ w) ∧ IsOpening o

def InList (p : Text) : Prop := ∃ a o w, p = a ++ (o ++ w) ∧ IsOpening o ∧ ∀ c ∈ w, isGap c = false

/-- An item stands behind a comma and behind a `--with` flag, but not in the list of one. -/
def StandsOutside (x line : Text) : Prop :=
  ∃ p e, line = p ++ ',' :: (x ++ e) ∧ StopsAt inItem e ∧ BehindFlag p ∧ ¬ InList p

/-- A line loses an item of the list of a `--with` flag: with the flag if it is alone, with the comma behind it
if it is the first one, and with the comma in front of it otherwise. -/
inductive LosesItem (x : Text) : (line line' : Text) → Prop where
  | alone {front o behind : Text} (ho : IsOpening o) (hbehind : StopsAt (fun c => !isGap c) behind)
      : LosesItem x (front ++ (o ++ x) ++ behind) (front ++ behind)
  | first {front o rest : Text} (ho : IsOpening o)
      : LosesItem x ((front ++ o) ++ (x ++ [',']) ++ rest) ((front ++ o) ++ rest)
  | behind {p e : Text} (hp : InList p) (he : StopsAt inItem e)
      : LosesItem x (p ++ ',' :: x ++ e) (p ++ e)

theorem LosesItem.sublist {x line line' : Text} (h : LosesItem x line line') : line'.Sublist line := by
  cases h with
  | alone _ _ => exact (List.sublist_append_left _ _).append_right _
  | first _ => exact (List.sublist_append_left _ _).append_right _
  | behind _ _ => exact (List.sublist_append_left _ _).append_right _

theorem BehindFlag.append {p : Text} (h : BehindFlag p) (t : Text) : BehindFlag (p ++ t) := by
  obtain ⟨a, o, w, rfl, ho⟩ := h
  exact ⟨a, o, w ++ t, by simp, ho⟩

theorem InList.behindFlag {p : Text} (h : InList p) : BehindFlag p := by
  obtain ⟨a, o, w, heq, ho, _⟩ := h
  exact ⟨a, o, w, heq, ho⟩

theorem InList.append {p m : Text} (h : InList p) (hm : ∀ c ∈ m, isGap c = false) : InList (p ++ m) := by
  obtain ⟨a, o, w, rfl, ho, hw⟩ := h
  refine ⟨a, o, w ++ m, by simp, ho, ?_⟩
  rw [List.forall_mem_append]
  exact ⟨hw, hm⟩

theorem InList.append_cases {u m : Text} (h : InList (u ++ m)) {gap : Char} (hmem : gap ∈ m)
    (hgap : isGap gap = true)
    : (∀ u', InList (u' ++ m)) ∨
        ∃ g k k', isGap g = true ∧ g :: k <:+ u ∧ k ++ k' = ("--with" : Text) ∧ k' <+: m := by
  obtain ⟨a, o, w, heq, ho, hw⟩ := h
  have hnot : gap ∉ w := by
    intro hc
    rw [hw gap hc] at hgap
    cases hgap
  rcases List.append_eq_append_iff.mp heq with ⟨k, _, hk⟩ | ⟨k, hu, hk⟩
  . exact .inl fun u' => ⟨u' ++ k, o, w, by rw [hk]; simp, ho, hw⟩
  . match k with
    | [] => exact .inl fun u' => ⟨u', o, w, by rw [hk]; simp, ho, hw⟩
    | g :: k =>
      right
      obtain ⟨k', v, rfl⟩ := List.append_of_mem hmem
      rw [← List.append_assoc] at hk
      rcases List.append_eq_append_iff.mp hk with ⟨z, _, hz⟩ | ⟨z, ho', hz⟩
      . exact absurd (by rw [hz]; simp) hnot
      . match z with
        | [] => exact absurd (by rw [← List.nil_append w, ← hz]; simp) hnot
        | c :: z =>
          obtain ⟨rfl, _⟩ := List.cons.inj hz
          cases ho with
          | @mk g' sep hg' hsep =>
            obtain ⟨hopen, _⟩ := eq_separator_of_isGap (List.cons_ne_nil g (k ++ k')) hgap ho'
            obtain ⟨rfl, hk'⟩ := List.cons.inj hopen
            exact ⟨g, k, k', hg', ⟨a, hu.symm⟩, hk', List.prefix_append k' _⟩

theorem standsOutside_of_cut {x front gone behind : Text} (hx : IsItem x)
    (hflag : BehindFlag (front ++ gone))
    (hseam : (∀ k, (∀ c ∈ k, isGap c = false) → ¬ ',' :: k <:+ front) ∨
      StopsAt inItem behind ∧ StopsAt inItem (gone ++ behind))
    (hlist : ∀ m e, behind = m ++ ',' :: (x ++ e) → InList (front ++ gone ++ m) → InList (front ++ m))
    (h : StandsOutside x (front ++ behind)) : StandsOutside x (front ++ gone ++ behind) := by
  obtain ⟨p, e, heq, he, hp, hnot⟩ := h
  have hlater : ∀ m, p = front ++ m → behind = m ++ ',' :: (x ++ e) →
      StandsOutside x (front ++ gone ++ behind) := by
    intro m hm hbehind
    refine ⟨front ++ gone ++ m, e, by rw [hbehind]; simp, he, hflag.append m, ?_⟩
    rw [hm] at hnot
    exact fun hin => hnot (hlist m e hbehind hin)
  rcases List.append_eq_append_iff.mp heq with ⟨m, hm, hbehind⟩ | ⟨m, hm, hbehind⟩
  . exact hlater m hm hbehind
  . match m with
    | [] => exact hlater [] (by simpa using hm.symm) (by simpa using hbehind.symm)
    | c :: k =>
      obtain ⟨rfl, hk⟩ := List.cons.inj hbehind
      have hgap : ∀ {u v : Text}, x = u ++ v → ∀ c ∈ u, isGap c = false := by
        rintro u v rfl c hc
        exact hx.isGap c (List.mem_append_left v hc)
      have hearlier : ∀ t, k = x ++ t → e = t ++ behind →
          StandsOutside x (front ++ gone ++ behind) := by
        intro t hkt het
        refine ⟨p, t ++ (gone ++ behind), by rw [hm, hkt]; simp, ?_, hp, hnot⟩
        match t with
        | [] =>
          refine (hseam.resolve_left ?_).2
          intro hcut
          apply hcut x (hgap (List.append_nil x).symm)
          rw [hm, hkt, List.append_nil]
          exact List.suffix_append p _
        | d :: t => simpa [het] using he
      rcases List.append_eq_append_iff.mp hk with ⟨t, hkt, het⟩ | ⟨t, ht, hbehind'⟩
      . exact hearlier t hkt het
      . match t with
        | [] => exact hearlier [] (by simpa using ht.symm) (by simpa using hbehind'.symm)
        | d :: t =>
          -- the item would reach across the cut
          exfalso
          rcases hseam with hcut | ⟨hstop, _⟩
          . exact hcut k (hgap ht) (hm ▸ List.suffix_append p _)
          . rw [hbehind', List.cons_append, stopsAt_cons, hx.chars d (by rw [ht]; simp)] at hstop
            cases hstop

theorem not_gap_with_suffix {x front : Text} {c g : Char} (hx : ∀ c ∈ x, isGap c = false)
    (hc : c ∉ ("--with" : Text)) (hg : isGap g = true) (hne : g = c → x ≠ ("--with" : Text))
    : ¬ g :: ("--with" : Text) <:+ front ++ c :: x := by
  intro h
  rcases List.suffix_or_suffix_of_suffix h (List.suffix_append front (c :: x)) with h | h
  . rcases List.suffix_cons_iff.mp h with heq | h
    . obtain ⟨heq, heq'⟩ := List.cons.inj heq
      exact hne heq heq'.symm
    . have hg' := hx g (h.subset (by simp))
      rw [hg] at hg'
      cases hg'
  . rcases List.suffix_cons_iff.mp h with heq | h
    . obtain ⟨heq, heq'⟩ := List.cons.inj heq
      exact hne heq.symm heq'
    . exact hc (h.subset (by simp))

theorem inList_of_cut {front gone m : Text} (hm : StopsAt inItem m)
    (hgone : ∀ g, isGap g = true → ¬ g :: ("--with" : Text) <:+ front ++ gone) {gap : Char} (hmem : gap ∈ m)
    (hgap : isGap gap = true) (h : InList (front ++ gone ++ m)) : InList (front ++ m) := by
  rcases h.append_cases hmem hgap with h | ⟨g, k, k', hg, hsuffix, hk, hk'⟩
  . exact h front
  . exfalso
    match k' with
    | [] =>
      rw [List.append_nil] at hk
      exact hgone g hg (hk ▸ hsuffix)
    | c :: k' =>
      obtain ⟨t, rfl⟩ := hk'
      have hc : inItem c = true := by
        have hwith : ∀ c ∈ ("--with" : Text), inItem c = true :=
          List.all_iff_forall_prop.mp (by decide)
        apply hwith
        rw [← hk]
        simp
      rw [List.cons_append, stopsAt_cons, hc] at hm
      cases hm

theorem stopsAt_inItem_of_isGap {e : Text} (h : StopsAt (fun c => !isGap c) e) : StopsAt inItem e := by
  match e with
  | [] => exact stopsAt_nil _
  | c :: e =>
    rw [stopsAt_cons] at h ⊢
    simp_all [inItem]

theorem comma_not_mem_of_with {g : Char} {k k' : Text} (hg : isGap g = true)
    (hk : k ++ k' = ("--with" : Text)) : ',' ∉ g :: k := by
  rw [List.mem_cons, not_or]
  constructor
  . rintro rfl
    cases hg
  . intro hc
    have hwith : ',' ∈ ("--with" : Text) := hk ▸ List.mem_append_left k' hc
    simp at hwith

section Step

variable {x : Text} (hx : IsItem x)

include hx

theorem standsOutside_of_alone (hwith : x ≠ ("--with" : Text)) {front o behind : Text} (ho : IsOpening o)
    (hbehind : StopsAt (fun c => !isGap c) behind) (h : StandsOutside x (front ++ behind))
    : StandsOutside x (front ++ (o ++ x) ++ behind) := by
  have hstops := stopsAt_inItem_of_isGap hbehind
  have hstops' := stopsAt_inItem_of_isGap (ho.stopsAt (x ++ behind))
  rw [← List.append_assoc] at hstops'
  apply standsOutside_of_cut hx ⟨front, o, x, rfl, ho⟩
    (.inr ⟨hstops, hstops'⟩) _ h
  rintro m e rfl hin
  match m with
  | [] => cases hbehind _ rfl
  | g :: m =>
    have hg : isGap g = true := by simpa using hbehind
    apply inList_of_cut (by simpa using hstops) _ List.mem_cons_self hg hin
    intro g' hg'
    cases ho with
    | @mk gap sep hgap hsep =>
      have hparts : front ++ (gap :: ("--with" : Text) ++ [sep] ++ x) =
          (front ++ gap :: ("--with" : Text)) ++ sep :: x := by simp
      rw [hparts]
      apply not_gap_with_suffix hx.isGap _ hg' fun _ => hwith
      rcases hsep with rfl | rfl <;> decide

theorem standsOutside_of_first {front o rest : Text} (ho : IsOpening o)
    (h : StandsOutside x ((front ++ o) ++ rest))
    : StandsOutside x ((front ++ o) ++ (x ++ [',']) ++ rest) := by
  apply standsOutside_of_cut hx ⟨front, o, x ++ [','], by simp, ho⟩
    (.inl fun k hk => ho.not_suffix front hk) _ h
  rintro m e rfl hin
  by_cases hm : ∀ c ∈ m, isGap c = false
  . exact ⟨front, o, m, by simp, ho, hm⟩
  . obtain ⟨gap, hmem, hgap⟩ : ∃ gap ∈ m, isGap gap = true := by simpa using hm
    rcases hin.append_cases hmem hgap with hin | ⟨g, k, k', hg, hsuffix, hk, _⟩
    . exact hin _
    . -- the comma that goes stands in no flag
      exfalso
      have hnot := comma_not_mem_of_with hg hk
      have hend : [','] <:+ (front ++ o) ++ (x ++ [',']) := ⟨front ++ o ++ x, by simp⟩
      rcases List.suffix_or_suffix_of_suffix hsuffix hend with h | h
      . apply hnot
        rw [← List.mem_singleton.mp (h.subset List.mem_cons_self)]
        exact List.mem_cons_self
      . exact hnot (h.subset List.mem_cons_self)

theorem standsOutside_of_behind {p e : Text} (hp : InList p) (he : StopsAt inItem e)
    (h : StandsOutside x (p ++ e)) : StandsOutside x (p ++ ',' :: x ++ e) := by
  apply standsOutside_of_cut hx (hp.behindFlag.append _)
    (.inr ⟨he, (stopsAt_cons _ _ _).mpr rfl⟩) _ h
  rintro m e' rfl hin
  by_cases hm : ∀ c ∈ m, isGap c = false
  . exact hp.append hm
  . obtain ⟨gap, hmem, hgap⟩ : ∃ gap ∈ m, isGap gap = true := by simpa using hm
    have hstops : StopsAt inItem m := by
      match m with
      | [] => exact stopsAt_nil _
      | c :: m => simpa using he
    apply inList_of_cut hstops _ hmem hgap hin
    intro g hg
    apply not_gap_with_suffix hx.isGap (by decide) hg
    rintro rfl
    cases hg

theorem LosesItem.standsOutside {line line' : Text} (hwith : x ≠ ("--with" : Text))
    (h : LosesItem x line line') (h' : StandsOutside x line') : StandsOutside x line := by
  cases h with
  | alone ho hbehind => exact standsOutside_of_alone hx hwith ho hbehind h'
  | first ho => exact standsOutside_of_first hx ho h'
  | behind hp he => exact standsOutside_of_behind hx hp he h'

end Step

section Edit

variable {x front s new rest : Text} (hline : '\n' ∉ front ++ s)

theorem losesItem_of_dropFirst? (h : dropFirst? x s = some (new, rest))
    : LosesItem x (front ++ s) (front ++ (new ++ rest)) := by
  obtain ⟨flag, hflag, hrest, rfl⟩ := dropFirst?_eq_some_iff.mp h
  have hparts : front ++ s = (front ++ flag.text) ++ (x ++ [',']) ++ rest := by
    rw [WithFlag.eq_text_append hflag, hrest]
    simp
  rw [hparts, ← List.append_assoc front]
  exact .first (isOpening_text hflag)

theorem losesItem_of_dropItem? {p : Text → Prop} {item? : Text → Option (Text × Text)}
    (hitem : FindsItem x p item?) (hp : ∀ u e, s = u ++ e → p e → StopsAt inItem e)
    (hout : ¬ StandsOutside x (front ++ s)) (h : dropItem? item? s = some (new, rest))
    : LosesItem x (front ++ s) (front ++ (new ++ rest)) := by
  obtain ⟨flag, b, kept, hflag, _, hkept, hrest, rfl⟩ := dropItem?_eq_some hitem h
  have ho := isOpening_text hflag
  have hs : s = (flag.text ++ b ++ ',' :: x) ++ (kept ++ rest) := by
    rw [WithFlag.eq_text_append hflag, hrest]
    simp
  have hstops := hp _ _ hs hkept
  have hparts : front ++ s = (front ++ (flag.text ++ b)) ++ ',' :: x ++ (kept ++ rest) := by
    rw [hs]
    simp
  have hparts' : front ++ (flag.text ++ b ++ kept ++ rest) = (front ++ (flag.text ++ b)) ++ (kept ++ rest) := by
    simp
  have hin : InList (front ++ (flag.text ++ b)) := by
    by_contra hnot
    exact hout ⟨_, kept ++ rest, by rw [hparts]; simp, hstops, ⟨front, flag.text, b, rfl, ho⟩, hnot⟩
  rw [hparts, hparts']
  exact .behind hin hstops

include hline

theorem eq_nil_of_isEnd {u e : Text} (hs : s = u ++ e) (h : isEnd e = true) : e = [] := by
  apply (isEnd_iff _).mp h
  rw [hs, ← List.append_assoc] at hline
  exact mt (List.mem_append_right _) hline

theorem losesItem_of_dropSole? (h : dropSole? x s = some (new, rest))
    : LosesItem x (front ++ s) (front ++ (new ++ rest)) := by
  obtain ⟨flag, behind, hflag, hrest, heq, hbehind⟩ := dropSole?_eq_some h
  have hs : s = (flag.text ++ x) ++ behind := by
    rw [WithFlag.eq_text_append hflag, hrest, List.append_assoc]
  have hstops : StopsAt (fun c => !isGap c) behind := by
    rcases hbehind with ⟨c, more, rfl⟩ | hbehind
    . exact (stopsAt_cons _ _ _).mpr rfl
    . rw [eq_nil_of_isEnd hline hs hbehind]
      exact stopsAt_nil _
  rw [heq, hs, ← List.append_assoc]
  exact .alone (isOpening_text hflag) hstops

end Edit

theorem losesItem_replaceFirst {x line : Text} (hline : '\n' ∉ line) (hout : ¬ StandsOutside x line)
    {edit : Text → Option (Text × Text)} (hmem : edit ∈ removals x)
    : line.replaceFirst edit = line ∨ LosesItem x line (line.replaceFirst edit) := by
  have hrun := replacesFirst_replaceFirst edit line
  generalize line.replaceFirst edit = line' at hrun
  cases hrun with
  | nowhere _ => exact .inl rfl
  | @place front s new rest hplace _ =>
    right
    simp only [removals, List.mem_cons, List.not_mem_nil, or_false] at hmem
    rcases hmem with rfl | rfl | rfl | rfl
    . exact losesItem_of_dropSole? hline hplace
    . exact losesItem_of_dropFirst? hplace
    . apply losesItem_of_dropItem? findsItem_innerItem? _ hout hplace
      rintro u _ _ ⟨c, more, rfl, rfl | rfl⟩
      . exact (stopsAt_cons _ _ _).mpr rfl
      . exact (stopsAt_cons _ _ _).mpr rfl
    . apply losesItem_of_dropItem? findsItem_finalItem? _ hout hplace
      intro u e hs hend
      rw [eq_nil_of_isEnd hline hs hend]
      exact stopsAt_nil _

theorem losesItems_replaceEach {x line : Text} (hline : '\n' ∉ line) (hx : IsItem x)
    (hwith : x ≠ ("--with" : Text)) (hout : ¬ StandsOutside x line)
    {edits : List (Text → Option (Text × Text))} (hedits : ∀ edit ∈ edits, edit ∈ removals x)
    : Relation.ReflTransGen (LosesItem x) line (replaceEach edits line) := by
  induction edits generalizing line with
  | nil => exact .refl
  | cons edit edits ih =>
    rw [List.forall_mem_cons] at hedits
    change Relation.ReflTransGen (LosesItem x) line (replaceEach edits (line.replaceFirst edit))
    rcases losesItem_replaceFirst hline hout hedits.1 with heq | hloses
    . rw [heq]
      exact ih hline hout hedits.2
    . apply Relation.ReflTransGen.head hloses
      apply ih _ _ hedits.2
      . exact fun hmem => hline (hloses.sublist.subset hmem)
      . exact fun hout' => hout (hloses.standsOutside hx hwith hout')

/-- Dropping an add-on that a line does not list changes the line if and only if the add-on strays behind a flag.
Whether it is listed or not, nothing but items of lists goes as long as the add-on does not stand behind a comma
outside of them. -/
theorem dropWith_absent_iff {line x : Text} (hline : '\n' ∉ line) (hx : IsWord x) (hcomma : ',' ∉ x)
    : (x ∉ getWith line → (dropWith line x = line ↔ ¬ Strays x line)) ∧
        (x ≠ ("--with" : Text) → ¬ StandsOutside x line →
          Relation.ReflTransGen (LosesItem x) line (dropWith line x)) := by
  constructor
  . intro habsent
    rw [strays_iff hx.ne_nil habsent]
    exact dropWith_eq_self_iff hline hx.ne_nil
  . intro hwith hout
    rw [dropWith_eq]
    exact losesItems_replaceEach hline (isItem_of_isWord hx hcomma) hwith hout fun _ hmem => hmem

theorem dropWith_absent_iff_exclude
    : ∃ line line' x : Text, line = "dh $@ --with foo --exclude=a,bar" ∧
        line' = "dh $@ --with=foo,bar --exclude=a" ∧ x = "bar" ∧ x ∉ getWith line ∧ Strays x line ∧
        dropWith line x = "dh $@ --with foo --exclude=a" ∧ dropWith line x ≠ line ∧
        dropWith line' x = "dh $@ --with=foo --exclude=a" ∧
        Relation.ReflTransGen (LosesItem x) line' (dropWith line' x) := by
  have hx : IsWord ("bar" : Text) := ⟨by decide, List.all_iff_forall_prop.mp (by decide)⟩
  have hcomma : ',' ∉ ("bar" : Text) := by decide
  have hline : '\n' ∉ ("dh $@ --with foo --exclude=a,bar" : Text) := by decide
  have hline' : '\n' ∉ ("dh $@ --with=foo,bar --exclude=a" : Text) := by decide
  have habsent : ("bar" : Text) ∉ getWith "dh $@ --with foo --exclude=a,bar" := by decide +kernel
  have hne : dropWith "dh $@ --with foo --exclude=a,bar" "bar" ≠ "dh $@ --with foo --exclude=a,bar" := by
    decide +kernel
  have hstrays : Strays ("bar" : Text) "dh $@ --with foo --exclude=a,bar" := by
    by_contra hnot
    exact hne (((dropWith_absent_iff hline hx hcomma).1 habsent).mpr hnot)
  have hout : ¬ StandsOutside ("bar" : Text) "dh $@ --with=foo,bar --exclude=a" := by
    rintro ⟨p, e, heq, _, _, hnot⟩
    have honce : StandsOnce [','] ("dh $@ --with=foo,bar --exclude=a" : Text) := by decide +kernel
    have hlength := honce "dh $@ --with=foo" "bar --exclude=a" p ("bar" ++ e) (by decide) (by simpa using heq)
    have hp : ("dh $@ --with=foo" : Text) = p := (List.append_inj heq hlength).1
    exact hnot ⟨"dh $@", " --with=", "foo", hp.symm, .mk rfl (.inr rfl), List.all_iff_forall_prop.mp (by decide)⟩
  exact ⟨_, _, _, rfl, rfl, rfl, habsent, hstrays, by decide +kernel, hne, by decide +kernel,
    (dropWith_absent_iff hline' hx hcomma).2 (by decide) hout⟩

end DhCommand

end DebianPackaging
