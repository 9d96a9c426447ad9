import Mathlib.Data.List.Infix
import DebianPackaging.Proofs.DhCommand.Opening

/-!
This module contains how an add-on is dropped from a line with one `--with` flag. The four edits that drop an
add-on are made one after the other; which of them finds it is told by its place in the list, and none of them
finds it again.
-/

namespace DebianPackaging

open Text

namespace DhCommand

def FlagsOnce (line : Text) : Prop :=
  ∀ s ∈ line.tails, WithFlag.read? s ≠ none → ∀ s' ∈ line.tails, WithFlag.read? s' ≠ none → s = s'

instance (line : Text) : Decidable (FlagsOnce line) :=
  inferInstanceAs (Decidable (∀ s ∈ line.tails, WithFlag.read? s ≠ none → _))

theorem read?_of_mem_removals {x s : Text} {edit : Text → Option (Text × Text)} (hmem : edit ∈ removals x)
    (h : edit s ≠ none) : WithFlag.read? s ≠ none := by
  obtain ⟨⟨new, rest⟩, h⟩ := Option.ne_none_iff_exists'.mp h
  have hread : ∃ flag, WithFlag.read? s = some flag := by
    simp only [removals, List.mem_cons, List.not_mem_nil, or_false] at hmem
    rcases hmem with rfl | rfl | rfl | rfl
    . obtain ⟨flag, _, hflag, _⟩ := dropSole?_eq_some h
      exact ⟨flag, hflag⟩
    . obtain ⟨flag, hflag, _⟩ := dropFirst?_eq_some_iff.mp h
      exact ⟨flag, hflag⟩
    . obtain ⟨flag, _, _, hflag, _⟩ := dropItem?_eq_some findsItem_innerItem? h
      exact ⟨flag, hflag⟩
    . obtain ⟨flag, _, _, hflag, _⟩ := dropItem?_eq_some findsItem_finalItem? h
      exact ⟨flag, hflag⟩
  obtain ⟨flag, hflag⟩ := hread
  rw [hflag]
  exact Option.some_ne_none flag

section Flag

variable {front s x : Text} (hflags : FlagsOnce (front ++ s)) (hs : WithFlag.read? s ≠ none)

include hflags hs

theorem FlagsOnce.eq_of_suffix {s' : Text} (hs' : s' <:+ front ++ s) (h : WithFlag.read? s' ≠ none)
    : s' = s :=
  hflags s' ((List.mem_tails _ _).mpr hs') h s ((List.mem_tails _ _).mpr (List.suffix_append front s)) hs

theorem FlagsOnce.read?_eq_none {a b : Text} (hfront : front = a ++ b) (hb : b ≠ [])
    : WithFlag.read? (b ++ s) = none := by
  rw [← not_ne_iff]
  intro h
  have heq := hflags.eq_of_suffix hs ⟨a, by rw [hfront, List.append_assoc]⟩ h
  exact hb (by simpa using heq)

variable {edit : Text → Option (Text × Text)} (hmem : edit ∈ removals x)

include hmem

theorem replaceFirst_of_none (hedit : edit s = none) : (front ++ s).replaceFirst edit = front ++ s := by
  apply replaceFirst_of_forall
  intro s' hs'
  rw [← not_ne_iff]
  intro h
  have heq := hflags.eq_of_suffix hs hs' (read?_of_mem_removals hmem h)
  exact h (heq ▸ hedit)

theorem replaceFirst_of_some {new rest : Text} (hedit : edit s = some (new, rest))
    : (front ++ s).replaceFirst edit = front ++ (new ++ rest) := by
  apply replaceFirst_append hedit
  intro a b hfront hb
  rw [← not_ne_iff]
  intro h
  exact read?_of_mem_removals hmem h (hflags.read?_eq_none hs hfront hb)

end Flag

theorem mem_removals_sole (x : Text) : dropSole? x ∈ removals x := by simp [removals]

theorem mem_removals_first (x : Text) : dropFirst? x ∈ removals x := by simp [removals]

theorem mem_removals_inner (x : Text) : dropItem? (innerItem? x) ∈ removals x := by simp [removals]

theorem mem_removals_final (x : Text) : dropItem? (finalItem? x) ∈ removals x := by simp [removals]

theorem dropWith_eq_replaceFirst (line x : Text)
    : dropWith line x = ((((line.replaceFirst (dropSole? x)).replaceFirst (dropFirst? x)).replaceFirst
        (dropItem? (innerItem? x))).replaceFirst (dropItem? (finalItem? x))) := dropWith_eq line x

theorem replaceFirst_of_mem_removals {x t : Text} (h : ¬ x <:+: t) {edit : Text → Option (Text × Text)}
    (hmem : edit ∈ removals x) : t.replaceFirst edit = t := by
  cases (isCut_of_mem_removals hmem).replaceFirst_cases t with
  | inl heq => exact heq.1
  | inr hcut => exact absurd hcut.isInfix h

theorem replaceFirst_dropItem?_of_not_isInfix {x t : Text} {p : Text → Prop}
    {item? : Text → Option (Text × Text)} (hitem : FindsItem x p item?) (h : ¬ ',' :: x <:+: t)
    : t.replaceFirst (dropItem? item?) = t := by
  apply replaceFirst_of_forall
  intro s hs
  rw [← not_ne_iff]
  intro hne
  obtain ⟨⟨new, rest⟩, hsome⟩ := Option.ne_none_iff_exists'.mp hne
  obtain ⟨flag, front, kept, hflag, _, _, hrest, _⟩ := dropItem?_eq_some hitem hsome
  apply h
  apply List.IsInfix.trans _ hs.isInfix
  rw [WithFlag.eq_text_append hflag, hrest]
  exact ⟨flag.text ++ front, kept ++ rest, by simp⟩

section Edits

variable {o x : Text} (ho : IsOpening o)

include ho

theorem exists_dropSole? {behind : Text} (hnewline : '\n' ∉ o ++ (x ++ behind))
    (hbehind : behind = [] ∨ ∃ c more, behind = ' ' :: c :: more)
    : ∃ new rest, dropSole? x (o ++ (x ++ behind)) = some (new, rest) ∧ new ++ rest = behind := by
  obtain ⟨flag, hflag, _, hrest⟩ := ho.read?_append (x ++ behind)
  have hne : dropSole? x (o ++ (x ++ behind)) ≠ none := by
    rw [dropSole?_ne_none_iff hnewline]
    refine ⟨flag, hflag, ?_⟩
    rw [hrest]
    rcases hbehind with rfl | ⟨c, more, rfl⟩
    . exact .inl (List.append_nil x)
    . exact .inr ⟨c, more, rfl⟩
  obtain ⟨⟨new, rest⟩, hsome⟩ := Option.ne_none_iff_exists'.mp hne
  obtain ⟨flag', behind', hflag', hrest', heq, _⟩ := dropSole?_eq_some hsome
  rw [(ho.eq_of_read? hflag').2] at hrest'
  exact ⟨new, rest, hsome, heq.trans (List.append_cancel_left hrest').symm⟩

theorem dropFirst?_opening (rest : Text) : dropFirst? x (o ++ (x ++ ',' :: rest)) = some (o, rest) := by
  obtain ⟨flag, hflag, htext, hrest⟩ := ho.read?_append (x ++ ',' :: rest)
  exact dropFirst?_eq_some_iff.mpr ⟨flag, hflag, hrest, htext.symm⟩

theorem exists_append_of_dropSole? {rest : Text} (h : dropSole? x (o ++ rest) ≠ none)
    : ∃ behind, rest = x ++ behind ∧ ((∃ c more, behind = ' ' :: c :: more) ∨ isEnd behind = true) := by
  obtain ⟨⟨new, rest'⟩, hsome⟩ := Option.ne_none_iff_exists'.mp h
  obtain ⟨flag, behind, hflag, hrest, _, hbehind⟩ := dropSole?_eq_some hsome
  rw [(ho.eq_of_read? hflag).2] at hrest
  exact ⟨behind, hrest, hbehind⟩

theorem exists_append_of_dropFirst? {rest : Text} (h : dropFirst? x (o ++ rest) ≠ none)
    : ∃ more, rest = x ++ ',' :: more := by
  obtain ⟨flag, more, hflag, hrest⟩ := dropFirst?_ne_none_iff.mp h
  rw [(ho.eq_of_read? hflag).2] at hrest
  exact ⟨more, hrest⟩

section Item

variable {p : Text → Prop} {item? : Text → Option (Text × Text)} (hitem : FindsItem x p item?)
  {front b e : Text} (honce : StandsOnce x (front ++ (o ++ (b ++ ',' :: (x ++ e)))))

include hitem honce

theorem eq_of_dropItem? {new rest : Text}
    (h : dropItem? item? (o ++ (b ++ ',' :: (x ++ e))) = some (new, rest))
    : new ++ rest = o ++ (b ++ e) ∧ p e := by
  obtain ⟨flag, b', kept, hflag, _, hp, hrest, rfl⟩ := dropItem?_eq_some hitem h
  obtain ⟨htext, hflag'⟩ := ho.eq_of_read? hflag
  rw [hflag'] at hrest
  have hlength : (front ++ o ++ b ++ [',']).length = (front ++ o ++ b' ++ [',']).length := by
    apply honce _ e _ (kept ++ rest)
    . simp
    . rw [hrest]
      simp
  have heq := List.append_inj hrest (by simpa using hlength)
  have hbehind : x ++ e = x ++ (kept ++ rest) := (List.cons.inj heq.2).2
  obtain rfl := List.append_cancel_left hbehind
  rw [htext, heq.1]
  exact ⟨by simp, hp⟩

theorem exists_dropItem? (hnewline : '\n' ∉ o ++ (b ++ ',' :: (x ++ e))) (hb : b ≠ []) (hp : p e)
    : ∃ new rest, dropItem? item? (o ++ (b ++ ',' :: (x ++ e))) = some (new, rest) ∧
        new ++ rest = o ++ (b ++ e) := by
  obtain ⟨flag, hflag, _, hrest⟩ := ho.read?_append (b ++ ',' :: (x ++ e))
  have hne : dropItem? item? (o ++ (b ++ ',' :: (x ++ e))) ≠ none := by
    rw [dropItem?_ne_none_iff hitem hnewline]
    exact ⟨flag, b, e, hflag, hb, hp, hrest⟩
  obtain ⟨⟨new, rest⟩, hsome⟩ := Option.ne_none_iff_exists'.mp hne
  exact ⟨new, rest, hsome, (eq_of_dropItem? ho hitem honce hsome).1⟩

end Item

end Edits

theorem not_isInfix_of_standsOnce {p : Char → Bool} {x a b e : Text} (hx : x ≠ []) (hp : ∀ c ∈ x, p c = true)
    (he : StopsAt p e) (honce : StandsOnce x ((a ++ b) ++ x ++ e)) : ¬ x <:+: a ++ e := by
  have hnot := honce.not_isInfix hx
  intro h
  rcases isInfix_append_of_stopsAt hp he h with h | h
  . exact hnot.1 (h.trans (List.prefix_append a b).isInfix)
  . exact hnot.2 h

theorem ne_append_of_standsOnce {front o b x e : Text}
    (honce : StandsOnce x (front ++ (o ++ (b ++ ',' :: (x ++ e))))) (behind : Text)
    : b ++ ',' :: (x ++ e) ≠ x ++ behind := by
  intro heq
  have hlength : (front ++ o ++ b ++ [',']).length = (front ++ o).length := by
    apply honce _ e _ behind
    . simp
    . rw [heq]
      simp
  simp at hlength

section Drop

variable {front o x : Text} (ho : IsOpening o) (hx : IsItem x)

include ho hx

theorem dropWith_alone {behind : Text} (hnewline : '\n' ∉ o ++ (x ++ behind))
    (hflags : FlagsOnce (front ++ (o ++ (x ++ behind)))) (honce : StandsOnce x (front ++ (o ++ (x ++ behind))))
    (hbehind : behind = [] ∨ ∃ c more, behind = ' ' :: c :: more)
    : dropWith (front ++ (o ++ (x ++ behind))) x = front ++ behind := by
  have hread := ho.read?_ne_none (x ++ behind)
  obtain ⟨new, rest, hsome, heq⟩ := exists_dropSole? ho hnewline hbehind
  have hgone : ¬ x <:+: front ++ behind := by
    have hparts : front ++ (o ++ (x ++ behind)) = (front ++ o) ++ x ++ behind := by simp
    rw [hparts] at honce
    have hstops : StopsAt (fun c => !isGap c) behind := by
      rcases hbehind with rfl | ⟨c, more, rfl⟩
      . exact stopsAt_nil _
      . exact (stopsAt_cons _ _ _).mpr rfl
    exact not_isInfix_of_standsOnce hx.ne_nil (fun c hc => by simp [hx.isGap c hc]) hstops honce
  rw [dropWith_eq_replaceFirst, replaceFirst_of_some hflags hread (mem_removals_sole x) hsome, heq,
    replaceFirst_of_mem_removals hgone (mem_removals_first x),
    replaceFirst_of_mem_removals hgone (mem_removals_inner x),
    replaceFirst_of_mem_removals hgone (mem_removals_final x)]

theorem dropWith_first {rest : Text} (hflags : FlagsOnce (front ++ (o ++ (x ++ ',' :: rest))))
    (honce : StandsOnce x (front ++ (o ++ (x ++ ',' :: rest))))
    : dropWith (front ++ (o ++ (x ++ ',' :: rest))) x = front ++ (o ++ rest) := by
  have hread := ho.read?_ne_none (x ++ ',' :: rest)
  have hsole : dropSole? x (o ++ (x ++ ',' :: rest)) = none := by
    rw [← not_ne_iff]
    intro h
    obtain ⟨behind, heq, hbehind⟩ := exists_append_of_dropSole? ho h
    rw [← List.append_cancel_left heq] at hbehind
    rcases hbehind with ⟨c, more, h⟩ | h
    . cases h
    . cases h
  have hgone : ¬ ',' :: x <:+: front ++ (o ++ rest) := by
    have hparts : front ++ (o ++ (x ++ ',' :: rest)) = (front ++ o) ++ x ++ ',' :: rest := by simp
    rw [hparts] at honce
    have hnot := honce.not_isInfix hx.ne_nil
    apply ho.not_isInfix hx.isGap
    . exact fun h => hnot.1 (h.trans (List.prefix_append front o).isInfix)
    . exact fun h => hnot.2 (h.trans (List.suffix_cons ',' rest).isInfix)
  rw [dropWith_eq_replaceFirst, replaceFirst_of_none hflags hread (mem_removals_sole x) hsole,
    replaceFirst_of_some hflags hread (mem_removals_first x) (dropFirst?_opening ho rest),
    replaceFirst_dropItem?_of_not_isInfix findsItem_innerItem? hgone,
    replaceFirst_dropItem?_of_not_isInfix findsItem_finalItem? hgone]

theorem dropWith_behind {b e : Text} (hnewline : '\n' ∉ o ++ (b ++ ',' :: (x ++ e)))
    (hflags : FlagsOnce (front ++ (o ++ (b ++ ',' :: (x ++ e)))))
    (honce : StandsOnce x (front ++ (o ++ (b ++ ',' :: (x ++ e))))) (hb : b ≠ [])
    (he : e = [] ∨ ∃ c more, e = c :: more ∧ (c = ' ' ∨ c = ','))
    : dropWith (front ++ (o ++ (b ++ ',' :: (x ++ e)))) x = front ++ (o ++ (b ++ e)) := by
  have hread := ho.read?_ne_none (b ++ ',' :: (x ++ e))
  have hsole : dropSole? x (o ++ (b ++ ',' :: (x ++ e))) = none := by
    rw [← not_ne_iff]
    intro h
    obtain ⟨behind, heq, _⟩ := exists_append_of_dropSole? ho h
    exact ne_append_of_standsOnce honce behind heq
  have hfirst : dropFirst? x (o ++ (b ++ ',' :: (x ++ e))) = none := by
    rw [← not_ne_iff]
    intro h
    obtain ⟨more, heq⟩ := exists_append_of_dropFirst? ho h
    exact ne_append_of_standsOnce honce _ heq
  have hgone : ¬ x <:+: front ++ (o ++ (b ++ e)) := by
    have hparts : front ++ (o ++ (b ++ ',' :: (x ++ e))) = ((front ++ o ++ b) ++ [',']) ++ x ++ e := by simp
    have hparts' : front ++ (o ++ (b ++ e)) = (front ++ o ++ b) ++ e := by simp
    have honce' := honce
    rw [hparts] at honce'
    rw [hparts']
    have hstops : StopsAt inItem e := by
      rcases he with rfl | ⟨c, more, rfl, rfl | rfl⟩
      . exact stopsAt_nil _
      . exact (stopsAt_cons _ _ _).mpr rfl
      . exact (stopsAt_cons _ _ _).mpr rfl
    exact not_isInfix_of_standsOnce hx.ne_nil hx.chars hstops honce'
  rw [dropWith_eq_replaceFirst, replaceFirst_of_none hflags hread (mem_removals_sole x) hsole,
    replaceFirst_of_none hflags hread (mem_removals_first x) hfirst]
  cases he with
  | inl he =>
    have hinner : dropItem? (innerItem? x) (o ++ (b ++ ',' :: (x ++ e))) = none := by
      rw [← not_ne_iff]
      intro h
      obtain ⟨⟨new, rest⟩, hsome⟩ := Option.ne_none_iff_exists'.mp h
      obtain ⟨_, c, more, hcons, _⟩ := eq_of_dropItem? ho findsItem_innerItem? honce hsome
      rw [he] at hcons
      cases hcons
    obtain ⟨new, rest, hsome, heq⟩ :=
      exists_dropItem? ho findsItem_finalItem? honce hnewline hb (he ▸ rfl)
    rw [replaceFirst_of_none hflags hread (mem_removals_inner x) hinner,
      replaceFirst_of_some hflags hread (mem_removals_final x) hsome, heq]
  | inr he =>
    obtain ⟨new, rest, hsome, heq⟩ := exists_dropItem? ho findsItem_innerItem? honce hnewline hb he
    rw [replaceFirst_of_some hflags hread (mem_removals_inner x) hsome, heq,
      replaceFirst_of_mem_removals hgone (mem_removals_final x)]

end Drop

/-- A line has one `--with` flag: `o` is the flag up to its list of items, `front` stands in front of it and
`behind` follows the list. -/
structure HasFlag (line front o : Text) (items : List Text) (behind : Text) : Prop where
  eq : line = front ++ (o ++ (join [','] items ++ behind))
  isOpening : IsOpening o
  isItem : ∀ item ∈ items, IsItem item
  stops : StopsAt (fun c => !isGap c) behind
  once : FlagsOnce line

theorem withLists_eq_nil {t : Text} (h : ∀ s, s <:+ t → WithFlag.read? s = none) : withLists t = [] := by
  have hnil : withLists (t ++ []) = withLists [] := by
    apply withLists_append_of_none
    rintro a b rfl _
    rw [List.append_nil]
    unfold readList?
    rw [h b (List.suffix_append a b)]
    rfl
  rwa [List.append_nil, withLists] at hnil

theorem isGap_of_mem_join {items : List Text} (h : ∀ item ∈ items, ∀ c ∈ item, isGap c = false)
    : ∀ c ∈ join [','] items, isGap c = false := by
  intro c hc
  cases mem_join hc with
  | inl hc =>
    rw [List.mem_singleton.mp hc]
    rfl
  | inr hc =>
    obtain ⟨item, hitem, hc⟩ := hc
    exact h item hitem c hc

theorem join_ne_nil {items : List Text} (hne : items ≠ []) (h : ∀ item ∈ items, item ≠ [])
    : join [','] items ≠ [] := by
  obtain ⟨item, items, rfl⟩ := List.exists_cons_of_ne_nil hne
  intro hjoin
  have hinfix : item <:+: join [','] (item :: items) := isInfix_join List.mem_cons_self
  rw [hjoin, List.infix_nil] at hinfix
  exact h item List.mem_cons_self hinfix

theorem join_singleton (item : Text) : join [','] [item] = item := List.intercalate_singleton

theorem join_cons_of_ne_nil (item : Text) {items : List Text} (hne : items ≠ [])
    : join [','] (item :: items) = item ++ ',' :: join [','] items := by
  have happend := join_append [','] (List.cons_ne_nil item []) hne
  rwa [join_singleton] at happend

section Listed

variable {line front o x : Text} {items : List Text} {behind : Text} (h : HasFlag line front o items behind)

include h

theorem HasFlag.read?_eq_none {s : Text} (hs : s <:+ behind) : WithFlag.read? s = none := by
  have hread := h.isOpening.read?_ne_none (join [','] items ++ behind)
  have hsuffix : s <:+ o ++ (join [','] items ++ behind) := by
    rw [← List.append_assoc]
    exact hs.trans (List.suffix_append _ behind)
  have honce := h.once
  rw [h.eq] at honce
  rw [← not_ne_iff]
  intro hne
  have heq := honce.eq_of_suffix hread (hsuffix.trans (List.suffix_append front _)) hne
  have hlength := hs.length_le
  have := h.isOpening.length_eq
  rw [heq] at hlength
  simp only [List.length_append] at hlength
  omega

theorem HasFlag.read?_append_eq_none {a b : Text} (hfront : front = a ++ b) (hb : b ≠ [])
    (t : Text) : WithFlag.read? (b ++ (o ++ t)) = none := by
  have hread := h.isOpening.read?_ne_none (join [','] items ++ behind)
  have honce := h.once
  rw [h.eq] at honce
  have hnone := honce.read?_eq_none hread hfront hb
  obtain ⟨gap, o', hgap, rfl⟩ := h.isOpening.exists_cons
  rw [← not_ne_iff, List.cons_append, read?_append_ne_none_iff hb hgap] at hnone ⊢
  exact hnone

theorem HasFlag.withLists_eq {list : Text} (hne : list ≠ []) (hlist : ∀ c ∈ list, isGap c = false)
    : withLists (front ++ (o ++ (list ++ behind))) = [list] := by
  have hbehind : withLists behind = [] := withLists_eq_nil fun s hs => h.read?_eq_none hs
  rw [withLists_append_of_none]
  . have hstarts : StartsList list behind (o ++ (list ++ behind)) := by
      obtain @⟨gap, sep, hgap, hsep⟩ := h.isOpening
      have hmk := StartsList.mk hgap hsep hne hlist h.stops
      simpa using hmk
    rw [withLists_of_startsList hstarts, hbehind]
  . intro a b hfront hb
    unfold readList?
    rw [h.read?_append_eq_none hfront hb]
    rfl

theorem HasFlag.getWith_eq {items' : List Text} (hne : items' ≠ []) (hitems : ∀ item ∈ items', IsItem item)
    : getWith (front ++ (o ++ (join [','] items' ++ behind))) = items' := by
  have hcomma : ∀ item ∈ items', ',' ∉ item := fun item hitem => (hitems item hitem).comma_not_mem
  have hnil := join_ne_nil hne fun item hitem => (hitems item hitem).ne_nil
  have hgap := isGap_of_mem_join fun item hitem => (hitems item hitem).isGap
  unfold getWith
  rw [h.withLists_eq hnil hgap, List.flatMap_singleton]
  exact List.splitOn_intercalate ',' hcomma hne

section Plain

variable (htab : '\t' ∉ line)

include htab

theorem HasFlag.exists_space : ∃ t, o = ' ' :: t := by
  rw [h.eq] at htab
  obtain ⟨gap, t, hgap, rfl⟩ := h.isOpening.exists_cons
  unfold isGap at hgap
  rw [Bool.or_eq_true, beq_iff_eq, beq_iff_eq] at hgap
  rcases hgap with rfl | rfl
  . exact ⟨t, rfl⟩
  . simp at htab

theorem HasFlag.behind_cases (htrail : line.getLast? ≠ some ' ')
    : behind = [] ∨ ∃ c more, behind = ' ' :: c :: more := by
  rw [h.eq] at htab htrail
  have hstops := h.stops
  match behind with
  | [] => exact .inl rfl
  | gap :: more =>
    right
    have hgap : isGap gap = true := by simpa using hstops
    unfold isGap at hgap
    rw [Bool.or_eq_true, beq_iff_eq, beq_iff_eq] at hgap
    rcases hgap with rfl | rfl
    . cases more with
      | nil => simp at htrail
      | cons c more => exact ⟨c, more, rfl⟩
    . simp at htab

theorem HasFlag.getWith_alone (hbehind : behind = [] ∨ ∃ c more, behind = ' ' :: c :: more)
    : getWith (front ++ behind) = [] := by
  unfold getWith
  rw [List.flatMap_eq_nil_iff]
  have hnil : withLists (front ++ behind) = [] := by
    apply withLists_eq_nil
    rintro s ⟨d, heq⟩
    rcases List.append_eq_append_iff.mp heq with ⟨b, hfront, rfl⟩ | ⟨m, _, hm⟩
    . by_cases hb : b = []
      . rw [hb]
        exact h.read?_eq_none List.suffix_rfl
      . obtain ⟨t, ht⟩ := h.exists_space htab
        have hnone := h.read?_append_eq_none hfront hb []
        rw [ht, ← not_ne_iff, List.cons_append, read?_append_ne_none_iff hb rfl] at hnone
        rw [← not_ne_iff]
        rcases hbehind with rfl | ⟨c, more, rfl⟩
        . rw [List.append_nil]
          exact fun hread => hnone (.inl hread)
        . rwa [read?_append_ne_none_iff hb rfl]
    . exact h.read?_eq_none ⟨m, hm.symm⟩
  rw [hnil]
  exact List.forall_mem_nil _

end Plain

end Listed

theorem HasFlag.dropWith_eq {line front o x behind : Text} {before after : List Text}
    (h : HasFlag line front o (before ++ x :: after) behind) (honce : StandsOnce x line)
    (hnewline : '\n' ∉ line) (hbehind : behind = [] ∨ ∃ c more, behind = ' ' :: c :: more)
    : dropWith line x = if before ++ after = [] then front ++ behind
        else front ++ (o ++ (join [','] (before ++ after) ++ behind)) := by
  have hx := h.isItem x (by simp)
  have hflags := h.once
  have ho := h.isOpening
  by_cases hbefore : before = []
  . by_cases hafter : after = []
    . -- the add-on is alone
      have hline : line = front ++ (o ++ (x ++ behind)) := by
        rw [h.eq, hbefore, hafter, List.nil_append, join_singleton]
      subst hline
      rw [if_pos (by simp [hbefore, hafter])]
      exact dropWith_alone ho hx (mt (List.mem_append_right front) hnewline) hflags honce hbehind
    . -- it is the first one
      have hline : line = front ++ (o ++ (x ++ ',' :: (join [','] after ++ behind))) := by
        rw [h.eq, hbefore, List.nil_append, join_cons_of_ne_nil x hafter]
        simp
      subst hline
      rw [if_neg (by simp [hafter]), hbefore, List.nil_append]
      exact dropWith_first ho hx hflags honce
  . have hb : join [','] before ≠ [] :=
      join_ne_nil hbefore fun item hitem => (h.isItem item (List.mem_append_left _ hitem)).ne_nil
    have hparts := join_append [','] hbefore (List.cons_ne_nil x after)
    rw [if_neg (by simp [hbefore])]
    by_cases hafter : after = []
    . -- it is the last one
      have hline : line = front ++ (o ++ (join [','] before ++ ',' :: (x ++ behind))) := by
        rw [h.eq, hparts, hafter, join_singleton]
        simp
      subst hline
      rw [hafter, List.append_nil]
      refine dropWith_behind ho hx (mt (List.mem_append_right front) hnewline) hflags honce hb ?_
      rcases hbehind with hbehind | ⟨c, more, hbehind⟩
      . exact .inl hbehind
      . exact .inr ⟨' ', c :: more, hbehind, .inl rfl⟩
    . -- it stands between others
      have hline : line = front ++ (o ++ (join [','] before ++
          ',' :: (x ++ ',' :: (join [','] after ++ behind)))) := by
        rw [h.eq, hparts, join_cons_of_ne_nil x hafter]
        simp
      subst hline
      rw [join_append [','] hbefore hafter]
      have hdrop := dropWith_behind ho hx (mt (List.mem_append_right front) hnewline) hflags
        honce hb (.inr ⟨',', join [','] after ++ behind, rfl, .inr rfl⟩)
      rw [hdrop]
      simp

/-- An add-on that stands once in a line is dropped from the one `--with` flag of the line, wherever it stands
in the list: the flag lists the other items in their order. If there is none, the flag is gone with the blank
in front of it, otherwise the add-on with one comma beside it, and everything else stays. -/
theorem dropWith_listed {line front o x behind : Text} {before after : List Text}
    (h : HasFlag line front o (before ++ x :: after) behind) (honce : StandsOnce x line)
    (hnewline : '\n' ∉ line) (htab : '\t' ∉ line) (htrail : line.getLast? ≠ some ' ')
    : getWith line = before ++ x :: after ∧ getWith (dropWith line x) = before ++ after ∧
        dropWith line x = if before ++ after = [] then front ++ behind
          else front ++ (o ++ (join [','] (before ++ after) ++ behind)) := by
  have hbehind := h.behind_cases htab htrail
  have hdrop := h.dropWith_eq honce hnewline hbehind
  refine ⟨?_, ?_, hdrop⟩
  . rw [h.eq]
    exact h.getWith_eq (by simp) h.isItem
  . rw [hdrop]
    split
    . next hnil =>
      rw [hnil]
      exact h.getWith_alone htab hbehind
    . next hne =>
      apply h.getWith_eq hne
      intro item hitem
      apply h.isItem
      simp only [List.mem_append, List.mem_cons] at hitem ⊢
      tauto

theorem dropWith_listed_python3
    : ∃ line line' x : Text, line = "dh $@ --with gir,python3,systemd --parallel" ∧
        line' = "dh --with=python3 --parallel" ∧ x = "python3" ∧
        getWith (dropWith line x) = [("gir" : Text), ("systemd" : Text)] ∧
        dropWith line x = "dh $@ --with gir,systemd --parallel" ∧
        getWith (dropWith line' x) = [] ∧ dropWith line' x = "dh --parallel" := by
  have h : HasFlag ("dh $@ --with gir,python3,systemd --parallel" : Text) ("dh $@" : Text)
      (" --with " : Text) ([("gir" : Text)] ++ ("python3" : Text) :: [("systemd" : Text)])
      (" --parallel" : Text) :=
    ⟨by decide, .mk rfl (.inl rfl), by decide +kernel, (stopsAt_cons _ _ _).mpr rfl, by decide +kernel⟩
  have h' : HasFlag ("dh --with=python3 --parallel" : Text) ("dh" : Text)
      (" --with=" : Text) ([] ++ ("python3" : Text) :: []) (" --parallel" : Text) :=
    ⟨by decide, .mk rfl (.inr rfl), by decide +kernel, (stopsAt_cons _ _ _).mpr rfl, by decide +kernel⟩
  obtain ⟨_, hget, heq⟩ :=
    dropWith_listed h (by decide +kernel) (by decide) (by decide) (by decide)
  obtain ⟨_, hget', heq'⟩ :=
    dropWith_listed h' (by decide +kernel) (by decide) (by decide) (by decide)
  exact ⟨_, _, _, rfl, rfl, rfl, hget, heq.trans (by decide +kernel), hget', heq'.trans (by decide +kernel)⟩

end DhCommand

end DebianPackaging
