import Mathlib.Data.List.TakeWhile
import DebianPackaging.Makefile.DhCommand
import DebianPackaging.Proofs.Text.Replace

/-!
This module contains the places behind a `--with` flag from which an add-on is dropped. A line is left as it
is when an add-on is dropped from it if and only if no flag lists the add-on at such a place.
-/

namespace DebianPackaging

open Text

namespace DhCommand

def isSeparator (c : Char) : Bool := isBlank c || c == ',' || c == '='

/-- What follows a `--with` flag lists an add-on: alone, with more arguments behind it or without, in front
of a comma, between a comma and a space or another comma, or behind the last comma. -/
inductive IsListed (addon : Text) : (rest : Text) → Prop where
  | sole : IsListed addon addon
  | soleInFront {c : Char} {more : Text} : IsListed addon (addon ++ ' ' :: c :: more)
  | first {more : Text} : IsListed addon (addon ++ ',' :: more)
  | inner {front more : Text} {c : Char} (hfront : front ≠ []) (hc : c = ' ' ∨ c = ',')
      : IsListed addon (front ++ ',' :: (addon ++ c :: more))
  | last {front : Text} (hfront : front ≠ []) : IsListed addon (front ++ ',' :: addon)

def ListsAddon (addon line : Text) : Prop :=
  ∃ s flag, s <:+ line ∧ WithFlag.read? s = some flag ∧ IsListed addon flag.rest

theorem WithFlag.read?_eq_some_iff {s : Text} {flag : WithFlag}
    : WithFlag.read? s = some flag ↔
        isGap flag.gap = true ∧ (flag.separator = ' ' ∨ flag.separator = '=') ∧
          s = flag.text ++ flag.rest := by
  constructor
  . intro h
    have heq : s = flag.text ++ flag.rest := by
      rw [WithFlag.eq_of_read? h]
      simp [WithFlag.text]
    cases s with
    | nil => cases h
    | cons gap s =>
      simp only [WithFlag.read?] at h
      split at h
      . next hgap =>
        split at h
        . next c rest _ =>
          split at h
          . next hsep =>
            cases h
            rw [Bool.or_eq_true, beq_iff_eq, beq_iff_eq] at hsep
            exact ⟨hgap, hsep, heq⟩
          . contradiction
        . contradiction
      . contradiction
  . rintro ⟨hgap, hsep, rfl⟩
    have hafter : after? "--with" (("--with" : Text) ++ flag.separator :: flag.rest)
        = some (flag.separator :: flag.rest) := after?_eq_some_iff.mpr rfl
    have htext : flag.text ++ flag.rest
        = flag.gap :: (("--with" : Text) ++ flag.separator :: flag.rest) := by
      simp [WithFlag.text]
    rw [htext]
    simp only [WithFlag.read?]
    rw [if_pos hgap, hafter]
    simp [hsep]

theorem WithFlag.eq_text_append {s : Text} {flag : WithFlag} (h : WithFlag.read? s = some flag)
    : s = flag.text ++ flag.rest :=
  (WithFlag.read?_eq_some_iff.mp h).2.2

theorem isEnd_seam {rest : Text} (h : isEnd rest = true)
    : rest = [] ∨ ∃ c ∈ rest.head?, isSeparator c = true := by
  unfold isEnd at h
  rw [Bool.or_eq_true, beq_iff_eq, beq_iff_eq] at h
  apply h.imp_right
  rintro rfl
  exact ⟨'\n', rfl, by decide⟩

variable {addon s : Text}

section Sole

theorem dropSole?_eq_some {new rest : Text} (h : dropSole? addon s = some (new, rest))
    : ∃ flag behind, WithFlag.read? s = some flag ∧ flag.rest = addon ++ behind ∧ new ++ rest = behind ∧
        ((∃ c more, behind = ' ' :: c :: more) ∨ isEnd behind = true) := by
  unfold dropSole? at h
  simp only [Option.bind_eq_bind, Option.bind_eq_some_iff] at h
  obtain ⟨flag, hflag, behind, hbehind, h⟩ := h
  refine ⟨flag, behind, hflag, after?_eq_some_iff.mp hbehind, ?_⟩
  rw [Option.or_eq_some_iff] at h
  rcases h with h | ⟨_, h⟩
  . split at h
    . next more =>
      split at h
      . next hmore =>
        cases h
        refine ⟨?_, ?_⟩
        . rw [List.cons_append, List.takeWhile_append_dropWhile]
        . left
          rw [Bool.and_eq_true, Bool.not_eq_true', List.isEmpty_eq_false_iff] at hmore
          cases more with
          | nil => simp at hmore
          | cons c more => exact ⟨c, more, rfl⟩
      . contradiction
    . contradiction
  . split at h
    . next hend =>
      cases h
      exact ⟨rfl, .inr hend⟩
    . contradiction

theorem isCut_dropSole? : IsCut isSeparator addon (dropSole? addon) := by
  intro s new rest h
  obtain ⟨flag, behind, hflag, hrest, heq, hbehind⟩ := dropSole?_eq_some h
  have hs : s = [] ++ (flag.text ++ addon) ++ behind := by
    rw [WithFlag.eq_text_append hflag, hrest]
    simp
  have hcut : Cuts isSeparator addon ([] ++ (flag.text ++ addon) ++ behind) ([] ++ behind) := by
    apply Cuts.mk (List.suffix_append flag.text addon).isInfix
    cases hbehind with
    | inl h =>
      obtain ⟨c, more, rfl⟩ := h
      exact .inr (.inl ⟨' ', rfl, by decide⟩)
    | inr h => exact (isEnd_seam h).imp_right .inl
  rw [heq, hs]
  exact hcut

theorem dropSole?_ne_none_iff (hs : '\n' ∉ s)
    : dropSole? addon s ≠ none ↔
        ∃ flag, WithFlag.read? s = some flag ∧
          (flag.rest = addon ∨ ∃ c more, flag.rest = addon ++ ' ' :: c :: more) := by
  constructor
  . intro h
    obtain ⟨⟨new, rest⟩, hsome⟩ := Option.ne_none_iff_exists'.mp h
    obtain ⟨flag, behind, hflag, hrest, _, hbehind⟩ := dropSole?_eq_some hsome
    refine ⟨flag, hflag, ?_⟩
    rw [WithFlag.eq_text_append hflag, hrest] at hs
    rw [isEnd_iff (by simp_all)] at hbehind
    rcases hbehind with ⟨c, more, rfl⟩ | rfl
    . exact .inr ⟨c, more, hrest⟩
    . exact .inl (by rw [hrest, List.append_nil])
  . rintro ⟨flag, hflag, hrest⟩
    unfold dropSole?
    rw [hflag]
    rcases hrest with hrest | ⟨c, more, hrest⟩
    . have hafter : after? addon flag.rest = some [] := by
        rw [after?_eq_some_iff, hrest, List.append_nil]
      simp [hafter, isEnd]
    . have hne : c :: more ≠ [] := by simp
      generalize c :: more = content at hrest hne
      have hafter : after? addon flag.rest = some (' ' :: content) := after?_eq_some_iff.mpr hrest
      have hcontent : ∀ d ∈ content, (d != '\n') = true := by
        intro d hd
        rw [bne_iff_ne]
        rintro rfl
        rw [WithFlag.eq_text_append hflag, hrest] at hs
        simp_all
      have htaken : (!(content.takeWhile (· != '\n')).isEmpty && isEnd (content.dropWhile (· != '\n')))
          = true := by
        rw [List.takeWhile_eq_self_iff.mpr hcontent, List.dropWhile_eq_nil_iff.mpr hcontent]
        simpa [isEnd] using hne
      simp only [Option.bind_eq_bind, Option.bind_some, hafter, htaken, if_true]
      simp

end Sole

section First

theorem dropFirst?_eq_some_iff {new rest : Text}
    : dropFirst? addon s = some (new, rest) ↔
        ∃ flag, WithFlag.read? s = some flag ∧ flag.rest = addon ++ ',' :: rest ∧ new = flag.text := by
  have hlist : ∀ t : Text, addon ++ "," ++ t = addon ++ ',' :: t := by simp
  unfold dropFirst?
  simp only [Option.bind_eq_bind, Option.bind_eq_some_iff, after?_eq_some_iff, Option.pure_def,
    Option.some.injEq, Prod.mk.injEq, hlist]
  constructor
  . rintro ⟨flag, hflag, rest', hrest, rfl, rfl⟩
    exact ⟨flag, hflag, hrest, rfl⟩
  . rintro ⟨flag, hflag, hrest, rfl⟩
    exact ⟨flag, hflag, rest, hrest, rfl, rfl⟩

theorem dropFirst?_ne_none_iff
    : dropFirst? addon s ≠ none ↔
        ∃ flag more, WithFlag.read? s = some flag ∧ flag.rest = addon ++ ',' :: more := by
  rw [Option.ne_none_iff_exists']
  constructor
  . rintro ⟨⟨new, rest⟩, h⟩
    obtain ⟨flag, hflag, hrest, _⟩ := dropFirst?_eq_some_iff.mp h
    exact ⟨flag, rest, hflag, hrest⟩
  . rintro ⟨flag, more, hflag, hrest⟩
    exact ⟨(flag.text, more), dropFirst?_eq_some_iff.mpr ⟨flag, hflag, hrest, rfl⟩⟩

theorem isCut_dropFirst? : IsCut isSeparator addon (dropFirst? addon) := by
  intro s new rest h
  obtain ⟨flag, hflag, hrest, rfl⟩ := dropFirst?_eq_some_iff.mp h
  have hs : s = flag.text ++ (addon ++ [',']) ++ rest := by
    rw [WithFlag.eq_text_append hflag, hrest]
    simp
  rw [hs]
  apply Cuts.mk (List.prefix_append addon [',']).isInfix
  refine .inr (.inr ⟨flag.separator, by simp [WithFlag.text], ?_⟩)
  rcases (WithFlag.read?_eq_some_iff.mp hflag).2.1 with hsep | hsep
  all_goals
    rw [hsep]
    decide

end First

section Item

structure FindsItem (addon : Text) (p : Text → Prop) (item? : Text → Option (Text × Text)) : Prop where
  eq_some : ∀ s kept rest, item? s = some (kept, rest) →
    s = ',' :: (addon ++ (kept ++ rest)) ∧ p (kept ++ rest)
  ne_none : ∀ behind, p behind → item? (',' :: (addon ++ behind)) ≠ none
  seam : ∀ behind, p behind → behind = [] ∨ ∃ c ∈ behind.head?, isSeparator c = true

variable {p : Text → Prop} {item? : Text → Option (Text × Text)} (hitem : FindsItem addon p item?)

include hitem

theorem dropItem?_eq_some {new rest : Text} (h : dropItem? item? s = some (new, rest))
    : ∃ flag front kept, WithFlag.read? s = some flag ∧ front ≠ [] ∧ p (kept ++ rest) ∧
        flag.rest = front ++ ',' :: (addon ++ (kept ++ rest)) ∧ new = flag.text ++ front ++ kept := by
  unfold dropItem? at h
  simp only [Option.bind_eq_bind, Option.bind_eq_some_iff] at h
  obtain ⟨flag, hflag, ⟨front, kept, rest'⟩, hcut, h⟩ := h
  dsimp only at h
  split at h
  . contradiction
  . next hfront =>
    cases h
    obtain ⟨u, hu, hfound⟩ := exists_of_cutLast? hcut
    obtain ⟨rfl, hp⟩ := hitem.eq_some _ _ _ hfound
    exact ⟨flag, front, kept, hflag, by simpa using hfront, hp, hu, rfl⟩

theorem isCut_dropItem? : IsCut isSeparator addon (dropItem? item?) := by
  intro s new rest h
  obtain ⟨flag, front, kept, hflag, _, hp, hrest, rfl⟩ := dropItem?_eq_some hitem h
  have hs : s = (flag.text ++ front) ++ (',' :: addon) ++ (kept ++ rest) := by
    rw [WithFlag.eq_text_append hflag, hrest]
    simp
  rw [hs, List.append_assoc _ kept]
  exact Cuts.mk (List.suffix_append [','] addon).isInfix ((hitem.seam _ hp).imp_right .inl)

theorem dropItem?_ne_none_iff (hs : '\n' ∉ s)
    : dropItem? item? s ≠ none ↔
        ∃ flag front behind, WithFlag.read? s = some flag ∧ front ≠ [] ∧ p behind ∧
          flag.rest = front ++ ',' :: (addon ++ behind) := by
  constructor
  . intro h
    obtain ⟨⟨new, rest⟩, hsome⟩ := Option.ne_none_iff_exists'.mp h
    obtain ⟨flag, front, kept, hflag, hfront, hp, hrest, _⟩ := dropItem?_eq_some hitem hsome
    exact ⟨flag, front, kept ++ rest, hflag, hfront, hp, hrest⟩
  . rintro ⟨flag, front, behind, hflag, hfront, hp, hrest⟩
    obtain ⟨b, hb⟩ := Option.ne_none_iff_exists'.mp (hitem.ne_none behind hp)
    have hline : '\n' ∉ front ++ ',' :: (addon ++ behind) := by
      rw [WithFlag.eq_text_append hflag, hrest] at hs
      simp_all
    -- the last place is not in front of this one, so it does not stand directly behind the flag either
    obtain ⟨a, b', hcut, hle⟩ := exists_cutLast? hline hb
    have ha : a ≠ [] := by
      rintro rfl
      exact hfront (List.length_eq_zero_iff.mp (Nat.le_zero.mp hle))
    unfold dropItem?
    rw [hflag, ← hrest] at *
    simp [hcut, ha]

end Item

theorem findsItem_innerItem?
    : FindsItem addon (fun behind => ∃ c more, behind = c :: more ∧ (c = ' ' ∨ c = ','))
        (innerItem? addon) := by
  constructor
  . intro s kept rest h
    unfold innerItem? at h
    split at h
    . next c more hafter =>
      split at h
      . next hc =>
        cases h
        rw [Bool.or_eq_true, beq_iff_eq, beq_iff_eq] at hc
        exact ⟨after?_eq_some_iff.mp hafter, c, rest, rfl, hc⟩
      . contradiction
    . contradiction
  . rintro _ ⟨c, more, rfl, hc⟩
    have hafter : after? (',' :: addon) (',' :: (addon ++ c :: more)) = some (c :: more) :=
      after?_eq_some_iff.mpr rfl
    unfold innerItem?
    rw [hafter]
    simp [hc]
  . rintro _ ⟨c, more, rfl, hc⟩
    right
    refine ⟨c, rfl, ?_⟩
    rcases hc with rfl | rfl <;> decide

theorem findsItem_finalItem? : FindsItem addon (fun behind => isEnd behind = true) (finalItem? addon) := by
  constructor
  . intro s kept rest h
    unfold finalItem? at h
    split at h
    . next more hafter =>
      split at h
      . next hend =>
        cases h
        exact ⟨after?_eq_some_iff.mp hafter, hend⟩
      . contradiction
    . contradiction
  . intro behind hend
    have hafter : after? (',' :: addon) (',' :: (addon ++ behind)) = some behind :=
      after?_eq_some_iff.mpr rfl
    unfold finalItem?
    rw [hafter]
    simp [hend]
  . intro behind hend
    exact isEnd_seam hend

def removals (addon : Text) : List (Text → Option (Text × Text)) :=
  [dropSole? addon, dropFirst? addon, dropItem? (innerItem? addon), dropItem? (finalItem? addon)]

theorem isCut_of_mem_removals {edit : Text → Option (Text × Text)} (h : edit ∈ removals addon)
    : IsCut isSeparator addon edit := by
  simp only [removals, List.mem_cons, List.not_mem_nil, or_false] at h
  rcases h with rfl | rfl | rfl | rfl
  . exact isCut_dropSole?
  . exact isCut_dropFirst?
  . exact isCut_dropItem? findsItem_innerItem?
  . exact isCut_dropItem? findsItem_finalItem?

theorem dropWith_eq (line addon : Text) : dropWith line addon = replaceEach (removals addon) line := by
  unfold dropWith
  split
  . next hnot =>
    rw [replaceEach_of_not_isInfix (fun _ h => isCut_of_mem_removals h)]
    rw [← occursIn_iff]
    simpa using hnot
  . rfl

theorem exists_mem_removals_iff (hs : '\n' ∉ s)
    : (∃ edit ∈ removals addon, edit s ≠ none) ↔
        ∃ flag, WithFlag.read? s = some flag ∧ IsListed addon flag.rest := by
  have hend : ∀ flag front behind, WithFlag.read? s = some flag →
      flag.rest = front ++ ',' :: (addon ++ behind) → (isEnd behind = true ↔ behind = []) := by
    intro flag front behind hflag hrest
    apply isEnd_iff
    rw [WithFlag.eq_text_append hflag, hrest] at hs
    simp_all
  simp only [removals, List.mem_cons, List.not_mem_nil, or_false, or_and_right, exists_or,
    exists_eq_left, dropSole?_ne_none_iff hs, dropFirst?_ne_none_iff,
    dropItem?_ne_none_iff findsItem_innerItem? hs, dropItem?_ne_none_iff findsItem_finalItem? hs]
  constructor
  . rintro (⟨flag, hflag, hrest | ⟨c, more, hrest⟩⟩ | ⟨flag, more, hflag, hrest⟩ |
      ⟨flag, front, _, hflag, hfront, ⟨c, more, rfl, hc⟩, hrest⟩ |
      ⟨flag, front, behind, hflag, hfront, hbehind, hrest⟩)
    . exact ⟨flag, hflag, hrest ▸ .sole⟩
    . exact ⟨flag, hflag, hrest ▸ .soleInFront⟩
    . exact ⟨flag, hflag, hrest ▸ .first⟩
    . exact ⟨flag, hflag, hrest ▸ .inner hfront hc⟩
    . rw [hend flag front behind hflag hrest] at hbehind
      rw [hbehind, List.append_nil] at hrest
      exact ⟨flag, hflag, hrest ▸ .last hfront⟩
  . rintro ⟨flag, hflag, hlisted⟩
    generalize hrest : flag.rest = rest at hlisted
    cases hlisted with
    | sole => exact .inl ⟨flag, hflag, .inl hrest⟩
    | @soleInFront c more => exact .inl ⟨flag, hflag, .inr ⟨c, more, hrest⟩⟩
    | @first more => exact .inr (.inl ⟨flag, more, hflag, hrest⟩)
    | @inner front more c hfront hc =>
      exact .inr (.inr (.inl ⟨flag, front, c :: more, hflag, hfront, ⟨c, more, rfl, hc⟩, hrest⟩))
    | @last front hfront =>
      exact .inr (.inr (.inr ⟨flag, front, [], hflag, hfront, rfl, by rw [hrest, List.append_nil]⟩))

theorem dropWith_eq_self_iff {line : Text} (hline : '\n' ∉ line) (hne : addon ≠ [])
    : dropWith line addon = line ↔ ¬ ListsAddon addon line := by
  rw [dropWith_eq, replaceEach_eq_self_iff (fun _ h => isCut_of_mem_removals h) hne]
  constructor
  . rintro h ⟨s, flag, hs, hflag, hlisted⟩
    have hs' : '\n' ∉ s := fun hmem => hline (hs.subset hmem)
    obtain ⟨edit, hmem, hedit⟩ := (exists_mem_removals_iff hs').mpr ⟨flag, hflag, hlisted⟩
    exact hedit (h edit hmem s hs)
  . intro h edit hmem s hs
    have hs' : '\n' ∉ s := fun hmem => hline (hs.subset hmem)
    cases hedit : edit s with
    | none => rfl
    | some b =>
      exfalso
      obtain ⟨flag, hflag, hlisted⟩ := (exists_mem_removals_iff hs').mp ⟨edit, hmem, by simp [hedit]⟩
      exact h ⟨s, flag, hs, hflag, hlisted⟩

theorem not_mem_newline_dropWith {line : Text} (hline : '\n' ∉ line) (addon : Text)
    : '\n' ∉ dropWith line addon := by
  rw [dropWith_eq]
  intro hmem
  exact hline ((replaceEach_sublist (fun _ h => isCut_of_mem_removals h) line).subset hmem)

end DhCommand

end DebianPackaging
