import DebianPackaging.Proofs.DhCommand.Listing

/-!
This module contains how a `--with` flag up to its list stands in a line: where a flag is read in a text that
is put together, and that no item of a list goes on across the start of a flag.
-/

namespace DebianPackaging

open Text

namespace DhCommand

def inItem (c : Char) : Bool := !(isGap c || c == ',')

structure IsItem (x : Text) : Prop where
  ne_nil : x ≠ []
  chars : ∀ c ∈ x, inItem c = true

instance (x : Text) : Decidable (IsItem x) :=
  decidable_of_iff (x ≠ [] ∧ x.all inItem = true)
    ⟨fun h => ⟨h.1, List.all_eq_true.mp h.2⟩, fun h => ⟨h.ne_nil, List.all_eq_true.mpr h.chars⟩⟩

theorem IsItem.isGap {x : Text} (h : IsItem x) : ∀ c ∈ x, isGap c = false := by
  intro c hc
  have hchar := h.chars c hc
  unfold inItem at hchar
  simp_all

theorem IsItem.comma_not_mem {x : Text} (h : IsItem x) : ',' ∉ x := by
  intro hc
  cases h.chars ',' hc

theorem isItem_of_isWord {x : Text} (hx : IsWord x) (hcomma : ',' ∉ x) : IsItem x := by
  refine ⟨hx.ne_nil, ?_⟩
  intro c hc
  have hne : c ≠ ',' := by
    rintro rfl
    exact hcomma hc
  simp [inItem, isGap_of_isWord hx c hc, hne]

/-- A `--with` flag up to its list. -/
inductive IsOpening : Text → Prop where
  | mk {gap sep : Char} (hgap : isGap gap = true) (hsep : sep = ' ' ∨ sep = '=')
      : IsOpening (gap :: ("--with" : Text) ++ [sep])

theorem isOpening_text {s : Text} {flag : WithFlag} (h : WithFlag.read? s = some flag)
    : IsOpening flag.text := by
  obtain ⟨hgap, hsep, _⟩ := WithFlag.read?_eq_some_iff.mp h
  exact .mk hgap hsep

namespace IsOpening

variable {o : Text} (ho : IsOpening o)

include ho

theorem length_eq : o.length = 8 := by
  cases ho with
  | mk _ _ => rfl

theorem exists_cons : ∃ gap t, isGap gap = true ∧ o = gap :: t := by
  cases ho with
  | @mk gap sep hgap _ => exact ⟨gap, _, hgap, rfl⟩

theorem stopsAt (t : Text) : StopsAt (fun c => !isGap c) (o ++ t) := by
  obtain ⟨gap, o', hgap, rfl⟩ := ho.exists_cons
  simp [hgap]

theorem comma_not_mem : ',' ∉ o := by
  cases ho with
  | @mk gap sep hgap hsep =>
    have hne : ',' ≠ gap := by
      rintro rfl
      cases hgap
    have hne' : ',' ≠ sep := by
      rintro rfl
      simp at hsep
    simp [hne, hne']

theorem read?_append (rest : Text)
    : ∃ flag, WithFlag.read? (o ++ rest) = some flag ∧ flag.text = o ∧ flag.rest = rest := by
  cases ho with
  | @mk gap sep hgap hsep =>
    refine ⟨⟨gap, sep, rest⟩, ?_, rfl, rfl⟩
    rw [WithFlag.read?_eq_some_iff]
    exact ⟨hgap, hsep, rfl⟩

theorem read?_ne_none (rest : Text) : WithFlag.read? (o ++ rest) ≠ none := by
  obtain ⟨flag, hflag, _⟩ := ho.read?_append rest
  rw [hflag]
  exact Option.some_ne_none flag

theorem eq_of_read? {rest : Text} {flag : WithFlag} (h : WithFlag.read? (o ++ rest) = some flag)
    : flag.text = o ∧ flag.rest = rest := by
  obtain ⟨flag', h', htext, hrest⟩ := ho.read?_append rest
  rw [h'] at h
  cases h
  exact ⟨htext, hrest⟩

theorem not_suffix (front : Text) {w : Text} (hw : ∀ c ∈ w, isGap c = false)
    : ¬ ',' :: w <:+ front ++ o := by
  rintro ⟨a, heq⟩
  rcases List.append_eq_append_iff.mp heq with ⟨m, hfront, hm⟩ | ⟨m, _, hm⟩
  . obtain ⟨gap, t, hgap, rfl⟩ := ho.exists_cons
    cases m with
    | nil =>
      apply ho.comma_not_mem
      rw [List.nil_append] at hm
      simp [← hm]
    | cons d m =>
      obtain ⟨_, rfl⟩ := List.cons.inj hm
      have := hw gap (by simp)
      rw [hgap] at this
      cases this
  . apply ho.comma_not_mem
    rw [hm]
    simp

theorem not_isInfix {front rest x : Text} (hx : ∀ c ∈ x, isGap c = false) (hfront : ¬ x <:+: front)
    (hrest : ¬ x <:+: rest) : ¬ ',' :: x <:+: front ++ (o ++ rest) := by
  have htail : ∀ {t : Text}, ',' :: x <:+: t → x <:+: t :=
    fun h => (List.suffix_cons ',' x).isInfix.trans h
  intro h
  have hgap : ∀ c ∈ ',' :: x, (!isGap c) = true := by
    rw [List.forall_mem_cons]
    exact ⟨rfl, fun c hc => by simp [hx c hc]⟩
  rcases isInfix_append_of_stopsAt hgap (ho.stopsAt rest) h with h | h
  . exact hfront (htail h)
  . rw [List.infix_append_iff] at h
    rcases h with h | h | ⟨x₁, x₂, heq, h₁, h₂⟩
    . exact ho.comma_not_mem (h.subset (by simp))
    . exact hrest (htail h)
    . cases x₁ with
      | nil =>
        rw [List.nil_append] at heq
        exact hrest (htail (heq ▸ h₂.isInfix))
      | cons c x₁ =>
        obtain ⟨rfl, rfl⟩ := List.cons.inj heq
        exact ho.not_suffix [] (fun c hc => hx c (List.mem_append_left _ hc)) h₁

end IsOpening

theorem read?_ne_none_iff {s : Text}
    : WithFlag.read? s ≠ none ↔ ∃ o rest, IsOpening o ∧ s = o ++ rest := by
  constructor
  . intro h
    obtain ⟨flag, hflag⟩ := Option.ne_none_iff_exists'.mp h
    exact ⟨flag.text, flag.rest, isOpening_text hflag, WithFlag.eq_text_append hflag⟩
  . rintro ⟨o, rest, ho, rfl⟩
    exact ho.read?_ne_none rest

theorem read?_append_ne_none_iff {b u : Text} (hb : b ≠ []) {gap : Char} (hgap : isGap gap = true)
    : WithFlag.read? (b ++ gap :: u) ≠ none ↔
        WithFlag.read? b ≠ none ∨ gap = ' ' ∧ ∃ g, isGap g = true ∧ b = g :: ("--with" : Text) := by
  rw [read?_ne_none_iff, read?_ne_none_iff]
  constructor
  . rintro ⟨o, rest, ho, heq⟩
    rcases List.append_eq_append_iff.mp heq with ⟨m, hm, hrest⟩ | ⟨m, hm, _⟩
    . cases ho with
      | @mk g sep hg hsep =>
        cases m with
        | nil =>
          rw [List.append_nil] at hm
          exact .inl ⟨b, [], hm ▸ .mk hg hsep, (List.append_nil b).symm⟩
        | cons e m =>
          obtain ⟨rfl, _⟩ := List.cons.inj hrest
          obtain ⟨rfl, rfl⟩ := eq_separator_of_isGap hb hgap hm
          refine .inr ⟨hsep.resolve_right ?_, g, hg, rfl⟩
          rintro rfl
          cases hgap
    . exact .inl ⟨o, m, ho, hm⟩
  . rintro (⟨o, rest, ho, rfl⟩ | ⟨rfl, g, hg, rfl⟩)
    . exact ⟨o, rest ++ gap :: u, ho, by simp⟩
    . exact ⟨_, u, .mk hg (.inl rfl), by simp⟩

end DhCommand

end DebianPackaging
