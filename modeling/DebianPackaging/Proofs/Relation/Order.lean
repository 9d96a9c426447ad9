import Mathlib.Data.List.Chain
import DebianPackaging.Relation.Order
import DebianPackaging.Proofs.Outcome
import DebianPackaging.Proofs.Text.Split

/-!
This module contains the order of packages and what adding an entry does to a field. The order is total and
transitive, so entries that are in order stay in order when one is inserted in front of the first entry that
sorts behind it. A new entry takes over the blanks in front of the one that it displaces, so a field whose
entries are laid out alike stays laid out like that.
-/

namespace DebianPackaging

theorem Text.le_total (s t : Text) : Text.le s t = true ∨ Text.le t s = true := by
  induction s generalizing t with
  | nil => exact .inl rfl
  | cons a s ih =>
    cases t with
    | nil => exact .inr rfl
    | cons b t =>
      unfold Text.le
      by_cases hab : a = b
      . rw [if_pos hab, if_pos hab.symm]
        exact ih t
      . rw [if_neg hab, if_neg (Ne.symm hab), decide_eq_true_eq, decide_eq_true_eq]
        have := mt Char.toNat_inj.mp hab
        omega

theorem Text.le_trans {s t u : Text} (hst : Text.le s t = true) (htu : Text.le t u = true)
    : Text.le s u = true := by
  induction s generalizing t u with
  | nil => rfl
  | cons a s ih =>
    cases t with
    | nil => cases hst
    | cons b t =>
      cases u with
      | nil => cases htu
      | cons c u =>
        unfold Text.le at hst htu ⊢
        -- the first characters decide unless they are the same
        by_cases hab : a = b
        . rw [if_pos hab] at hst
          rw [hab]
          by_cases hbc : b = c
          . rw [if_pos hbc] at htu ⊢
            exact ih hst htu
          . rw [if_neg hbc] at htu ⊢
            exact htu
        . rw [if_neg hab, decide_eq_true_eq] at hst
          by_cases hbc : b = c
          . rw [← hbc, if_neg hab, decide_eq_true_eq]
            exact hst
          . rw [if_neg hbc, decide_eq_true_eq] at htu
            have hac : a ≠ c := by
              rintro rfl
              exact Nat.lt_asymm hst htu
            rw [if_neg hac, decide_eq_true_eq]
            exact Nat.lt_trans hst htu

theorem packageLe_iff {a b : Text}
    : packageLe a b = true ↔
        packageRank a < packageRank b ∨ packageRank a = packageRank b ∧ Text.le a b = true := by
  unfold packageLe
  simp

theorem packageLe_total (a b : Text) : packageLe a b = true ∨ packageLe b a = true := by
  rw [packageLe_iff, packageLe_iff]
  rcases Nat.lt_trichotomy (packageRank a) (packageRank b) with h | h | h
  . exact .inl (.inl h)
  . cases Text.le_total a b with
    | inl hab => exact .inl (.inr ⟨h, hab⟩)
    | inr hba => exact .inr (.inr ⟨h.symm, hba⟩)
  . exact .inr (.inl h)

theorem packageLe_trans {a b c : Text} (hab : packageLe a b = true) (hbc : packageLe b c = true)
    : packageLe a c = true := by
  rw [packageLe_iff] at hab hbc ⊢
  rcases hab with hab | ⟨hab, hle⟩
  . left
    rcases hbc with hbc | ⟨hbc, _⟩ <;> omega
  . rw [hab]
    rcases hbc with hbc | ⟨hbc, hle'⟩
    . exact .inl hbc
    . exact .inr ⟨hbc, Text.le_trans hle hle'⟩

namespace Entry

theorem le_total (a b : Entry) : a.le b = true ∨ b.le a = true := packageLe_total _ _

theorem le_trans {a b c : Entry} (hab : a.le b = true) (hbc : b.le c = true) : a.le c = true :=
  packageLe_trans hab hbc

theorem le_of_not_le {a b : Entry} (h : a.le b = false) : b.le a = true := by
  cases le_total a b with
  | inl hab =>
    rw [hab] at h
    contradiction
  | inr hba => exact hba

def InOrder (es : List Entry) : Prop := es.Pairwise fun a b => a.le b = true

theorem areSorted_iff {es : List Entry} : areSorted es = true ↔ InOrder es := by
  have htrans : Trans (fun a b : Entry => a.le b = true) (fun a b => a.le b = true)
      (fun a b => a.le b = true) := ⟨le_trans⟩
  unfold InOrder
  rw [← List.isChain_iff_pairwise]
  induction es with
  | nil => simp [areSorted]
  | cons a es ih =>
    cases es with
    | nil => simp [areSorted]
    | cons b es =>
      unfold areSorted
      rw [Bool.and_eq_true, List.isChain_cons_cons]
      exact and_congr_right fun _ => ih

/-- The place of a new entry: if the entries are in order, behind those that do not sort behind it and in
front of those that do, and otherwise behind all of them. -/
structure IsPlace (e : Entry) (front back : List Entry) : Prop where
  le : InOrder (front ++ back) → ∀ o ∈ front, o.le e = true
  not_le : InOrder (front ++ back) → ∀ o ∈ back, o.le e = false
  last : ¬ InOrder (front ++ back) → back = []

theorem IsPlace.inOrder {e : Entry} {front back : List Entry} (h : IsPlace e front back)
    (horder : InOrder (front ++ back)) : InOrder (front ++ e :: back) := by
  obtain ⟨hfront, hback, hcross⟩ := List.pairwise_append.mp horder
  apply List.pairwise_append.mpr
  refine ⟨hfront, List.pairwise_cons.mpr ⟨?_, hback⟩, ?_⟩
  . intro o ho
    exact le_of_not_le (h.not_le horder o ho)
  . intro a ha b hb
    cases List.mem_cons.mp hb with
    | inl hb =>
      rw [hb]
      exact h.le horder a ha
    | inr hb => exact hcross a ha b hb

theorem InOrder.not_le {o : Entry} {es : List Entry} (h : InOrder (o :: es)) {e : Entry}
    (ho : o.le e = false) : ∀ p ∈ o :: es, p.le e = false := by
  intro p hp
  cases List.mem_cons.mp hp with
  | inl hp =>
    rw [hp]
    exact ho
  | inr hp =>
    rw [← Bool.not_eq_true]
    intro hle
    have hop := (List.pairwise_cons.mp h).1 p hp
    rw [le_trans hop hle] at ho
    contradiction

end Entry

namespace Segment

def entries (ss : List Segment) : List Entry := ss.filterMap (·.content?)

@[simp]
theorem entries_nil : entries [] = [] := rfl

@[simp]
theorem entries_blank (t : Text) (ss : List Segment) : entries (.blank t :: ss) = entries ss := rfl

@[simp]
theorem entries_entry (lead trail : Text) (e : Entry) (ss : List Segment)
    : entries (.entry lead e trail :: ss) = e :: entries ss := rfl

@[simp]
theorem entries_append (ss us : List Segment) : entries (ss ++ us) = entries ss ++ entries us :=
  List.filterMap_append

/-- What becomes of the segments from a new entry on: either the new entry is the last one, or it takes over
the blanks in front of the entry that it displaces. -/
inductive Displaces (sep : Text) (e : Entry) : List Segment → List Segment → Prop where
  | last {back : List Segment} (h : entries back = []) : Displaces sep e back (.entry sep e [] :: back)
  | before (lead trail : Text) (o : Entry) (back : List Segment)
    : Displaces sep e (.entry lead o trail :: back) (.entry lead e [] :: .entry sep o trail :: back)

theorem Displaces.entries_eq {sep : Text} {e : Entry} {back back' : List Segment}
    (h : Displaces sep e back back') : entries back' = e :: entries back := by
  cases h with
  | last hback => rfl
  | before lead trail o back => rfl

end Segment

namespace RelationField

theorem entries_eq (f : RelationField) : f.entries = Segment.entries f.segments := rfl

@[simp]
theorem leads_append (ss us : List Segment) : leads (ss ++ us) = leads ss ++ leads us :=
  List.filterMap_append

theorem length_leads (ss : List Segment) : (leads ss).length = (Segment.entries ss).length := by
  induction ss with
  | nil => rfl
  | cons s ss ih =>
    cases s with
    | blank t => exact ih
    | entry lead e trail => exact congrArg (· + 1) ih

theorem insertBefore?_eq_some {sep : Text} {e : Entry} {ss ss' : List Segment} {i : Nat}
    (h : insertBefore? sep e ss = some (i, ss'))
    : ∃ front lead o trail back, ss = front ++ .entry lead o trail :: back ∧
        ss' = front ++ .entry lead e [] :: .entry sep o trail :: back ∧
        i = (Segment.entries front).length ∧ (∀ p ∈ Segment.entries front, p.le e = true) ∧
        o.le e = false := by
  induction ss generalizing i ss' with
  | nil => cases h
  | cons s ss ih =>
    cases s with
    | blank t =>
      obtain ⟨⟨j, us⟩, hus, heq⟩ := Option.map_eq_some_iff.mp h
      cases heq
      obtain ⟨front, lead, o, trail, back, rfl, rfl, rfl, hfront, ho⟩ := ih hus
      exact ⟨.blank t :: front, lead, o, trail, back, rfl, rfl, rfl, hfront, ho⟩
    | entry lead o trail =>
      unfold insertBefore? at h
      split at h
      . next hle =>
        obtain ⟨⟨j, us⟩, hus, heq⟩ := Option.map_eq_some_iff.mp h
        cases heq
        obtain ⟨front, lead', o', trail', back, rfl, rfl, rfl, hfront, ho'⟩ := ih hus
        refine ⟨.entry lead o trail :: front, lead', o', trail', back, rfl, rfl, rfl, ?_, ho'⟩
        rw [Segment.entries_entry, List.forall_mem_cons]
        exact ⟨hle, hfront⟩
      . next hle =>
        cases h
        refine ⟨[], lead, o, trail, ss, rfl, rfl, rfl, ?_, Bool.not_eq_true _ ▸ hle⟩
        intro p hp
        cases hp

theorem insertBefore?_eq_none {sep : Text} {e : Entry} {ss : List Segment}
    (h : insertBefore? sep e ss = none) : ∀ o ∈ Segment.entries ss, o.le e = true := by
  induction ss with
  | nil =>
    intro o ho
    cases ho
  | cons s ss ih =>
    cases s with
    | blank t => exact ih (Option.map_eq_none_iff.mp h)
    | entry lead o trail =>
      unfold insertBefore? at h
      split at h
      . next hle =>
        rw [Segment.entries_entry, List.forall_mem_cons]
        exact ⟨hle, ih (Option.map_eq_none_iff.mp h)⟩
      . cases h

theorem exists_insertLast {ss : List Segment} (hne : Segment.entries ss ≠ []) (sep : Text) (e : Entry)
    : ∃ front back, ss = front ++ back ∧ Segment.entries back = [] ∧
        insertLast sep e ss = front ++ .entry sep e [] :: back := by
  induction ss with
  | nil => contradiction
  | cons s ss ih =>
    unfold insertLast
    by_cases hss : Segment.entries ss = []
    . -- nothing behind `s` is an entry, so `s` is the last one
      have hs : s.content?.isSome = true := by
        cases s with
        | blank t => exact absurd hss hne
        | entry lead o trail => rfl
      have hall : ss.all (·.content?.isNone) = true := by
        rw [List.all_eq_true]
        intro u hu
        exact Option.isNone_iff_eq_none.mpr (List.filterMap_eq_nil_iff.mp hss u hu)
      rw [hs, hall]
      exact ⟨[s], ss, rfl, hss, rfl⟩
    . have hall : ss.all (·.content?.isNone) = false := by
        rw [← Bool.not_eq_true, List.all_eq_true]
        intro hall
        apply hss
        apply List.filterMap_eq_nil_iff.mpr
        intro u hu
        exact Option.isNone_iff_eq_none.mp (hall u hu)
      obtain ⟨front, back, rfl, hback, hins⟩ := ih hss
      rw [hall, Bool.and_false, hins]
      exact ⟨s :: front, back, rfl, hback, rfl⟩

theorem add_of_no_entries {f : RelationField} (h : f.entries = []) (e : Entry)
    : f.add e = (⟨[.entry [] e []]⟩, 0) := by
  unfold RelationField.add
  rw [h]
  rfl

theorem exists_add {f : RelationField} (hne : f.entries ≠ []) (e : Entry)
    : ∃ front back back', f.segments = front ++ back ∧
        f.add e = (⟨front ++ back'⟩, (Segment.entries front).length) ∧
        Segment.Displaces (separator f.segments) e back back' ∧
        e.IsPlace (Segment.entries front) (Segment.entries back) := by
  have hempty : f.entries.isEmpty = false := List.isEmpty_eq_false_iff.mpr hne
  obtain ⟨front, back, hss, hback, hins⟩ := exists_insertLast hne (separator f.segments) e
  have hentries : f.entries = Segment.entries front := by
    rw [entries_eq, hss, Segment.entries_append, hback, List.append_nil]
  unfold RelationField.add
  dsimp only
  rw [hempty]
  by_cases hsorted : Entry.areSorted f.entries = true
  . have horder := Entry.areSorted_iff.mp hsorted
    rw [if_neg Bool.false_ne_true, if_pos hsorted]
    cases hbefore : insertBefore? (separator f.segments) e f.segments with
    | some p =>
      obtain ⟨front, lead, o, trail, back, hss, hss', hi, hfront, ho⟩ := insertBefore?_eq_some hbefore
      rw [entries_eq, hss, Segment.entries_append] at horder
      refine ⟨front, _, _, hss, by rw [← hss', ← hi], .before lead trail o back, fun _ => hfront, ?_, ?_⟩
      . intro _
        exact Entry.InOrder.not_le (List.pairwise_append.mp horder).2.1 ho
      . intro hnot
        exact absurd horder hnot
    | none =>
      have hall := insertBefore?_eq_none hbefore
      rw [← entries_eq, hentries] at hall
      rw [hentries, hins]
      exact ⟨front, back, _, hss, rfl, .last hback, fun _ => hall, by simp [hback], fun _ => hback⟩
  . rw [if_neg Bool.false_ne_true, if_neg hsorted]
    dsimp only
    rw [Entry.areSorted_iff, hentries] at hsorted
    rw [hentries, hins]
    refine ⟨front, back, _, hss, rfl, .last hback, ?_, by simp [hback], fun _ => hback⟩
    rw [hback, List.append_nil]
    intro horder
    exact absurd horder hsorted

theorem exists_entries_add (f : RelationField) (e : Entry)
    : ∃ front back, f.entries = front ++ back ∧ (f.add e).1.entries = front ++ e :: back ∧
        e.IsPlace front back := by
  by_cases hne : f.entries = []
  . rw [add_of_no_entries hne, hne]
    exact ⟨[], [], rfl, rfl, by simp, by simp, fun _ => rfl⟩
  . obtain ⟨front, back, back', hss, hadd, hdisplaces, hplace⟩ := exists_add hne e
    refine ⟨Segment.entries front, Segment.entries back, ?_, ?_, hplace⟩
    . rw [entries_eq, hss, Segment.entries_append]
    . rw [hadd, entries_eq, Segment.entries_append, hdisplaces.entries_eq]

theorem length_text_lt_add {f : RelationField} (hne : f.entries ≠ []) (e : Entry)
    : f.text.length < (f.add e).1.text.length := by
  have hparts : ∀ ss : List Segment, ss ≠ [] → text ⟨ss⟩ ++ [','] = ss.flatMap (·.text ++ [',']) := by
    intro ss hss
    have hne : ss.map (·.text) ≠ [] := List.map_eq_nil_iff.not.mpr hss
    have := Text.join_append_sep [','] hne
    rwa [List.flatMap_map] at this
  obtain ⟨front, back, back', hss, hadd, hdisplaces, _⟩ := exists_add hne e
  have hold : f.text ++ [','] = (front ++ back).flatMap (·.text ++ [',']) := by
    rw [← hss]
    apply hparts
    intro hnil
    rw [entries_eq, hnil] at hne
    exact hne rfl
  have hold := congrArg List.length hold
  rw [hadd]
  dsimp only
  generalize separator f.segments = sep at hdisplaces
  cases hdisplaces with
  | last hback =>
    have hnew := congrArg List.length (hparts (front ++ .entry sep e [] :: back) (by simp))
    simp only [List.flatMap_append, List.flatMap_cons, List.length_append, List.length_singleton]
      at hold hnew
    omega
  | before lead trail o back =>
    have hnew := congrArg List.length
      (hparts (front ++ .entry lead e [] :: .entry sep o trail :: back) (by simp))
    simp only [List.flatMap_append, List.flatMap_cons, Segment.text, List.length_append,
      List.length_nil, List.length_singleton] at hold hnew
    omega

theorem exists_leads_of_displaces {sep : Text} {e : Entry} {front back back' : List Segment}
    (h : Segment.Displaces sep e back back') (hne : Segment.entries (front ++ back) ≠ [])
    : ∃ first rest rest', leads (front ++ back) = first :: (rest ++ rest') ∧
        leads (front ++ back') = first :: (rest ++ sep :: rest') := by
  have hleads : ∃ ls ls', ls ≠ [] ∧ leads (front ++ back) = ls ++ ls' ∧
      leads (front ++ back') = ls ++ sep :: ls' := by
    cases h with
    | last hback =>
      have hnil : leads back = [] := by
        rw [← List.length_eq_zero_iff, length_leads, hback]
        rfl
      rw [Segment.entries_append, hback, List.append_nil, ← List.length_pos_iff, ← length_leads,
        List.length_pos_iff] at hne
      refine ⟨leads front, [], hne, by simp [hnil], ?_⟩
      rw [leads_append]
      exact congrArg (leads front ++ sep :: ·) hnil
    | before lead trail o back =>
      refine ⟨leads front ++ [lead], leads back, by simp, ?_, ?_⟩
      . rw [leads_append, List.append_assoc]
        rfl
      . rw [leads_append, List.append_assoc]
        rfl
  obtain ⟨ls, ls', hls, hleads, hleads'⟩ := hleads
  obtain ⟨first, rest, rfl⟩ := List.exists_cons_of_ne_nil hls
  exact ⟨first, rest, ls', hleads, hleads'⟩

/-- The entries of segments are laid out alike: those behind the first one have the same blanks in front of
them. A single entry is laid out like one behind it would be, on a line of its own if it stands on one. -/
def IsEven (lead : Text) (ss : List Segment) : Prop :=
  ∃ first rest, leads ss = first :: rest ∧ (∀ l ∈ rest, l = lead) ∧
    (rest = [] → lead = if '\n' ∈ first then first else " ")

theorem IsEven.separator_eq {lead : Text} {ss : List Segment} (h : IsEven lead ss)
    : separator ss = lead := by
  obtain ⟨first, rest, hleads, hrest, hsingle⟩ := h
  unfold separator
  rw [hleads]
  cases rest with
  | nil =>
    rw [hsingle rfl]
    simp
  | cons second rest =>
    dsimp
    rw [List.getLastD_cons, List.getLastD_cons]
    exact hrest _ (List.getLastD_mem_cons ..)

theorem IsEven.leads_eq {lead : Text} {e : Entry} {front back back' : List Segment}
    (h : IsEven lead (front ++ back)) (hdisplaces : Segment.Displaces lead e back back')
    : ∃ first rest, leads (front ++ back) = first :: rest ∧
        leads (front ++ back') = first :: List.replicate (Segment.entries (front ++ back)).length lead := by
  obtain ⟨first, rest, hleads, hrest, _⟩ := h
  have hlength := length_leads (front ++ back)
  rw [hleads] at hlength
  have hne : Segment.entries (front ++ back) ≠ [] := by
    apply List.length_pos_iff.mp
    rw [← hlength]
    exact Nat.succ_pos _
  obtain ⟨first', rest₁, rest₂, hold, hnew⟩ := exists_leads_of_displaces hdisplaces hne
  rw [hleads] at hold
  obtain ⟨rfl, rfl⟩ := List.cons.inj hold
  refine ⟨first, _, hleads, ?_⟩
  rw [hnew, ← hlength]
  congr 1
  apply List.eq_replicate_iff.mpr
  constructor
  . simp [Nat.add_assoc]
  . intro l hl
    rw [List.mem_append, List.mem_cons, or_left_comm, ← List.mem_append] at hl
    cases hl with
    | inl hl => exact hl
    | inr hl => exact hrest l hl

/-- What becomes of a field `f` when an entry is added to it at the position `i`. -/
structure AddsAt (e : Entry) (i : Nat) (f g : RelationField) : Prop where
  position : i ≤ f.entries.length
  entries : g.entries = f.entries.take i ++ e :: f.entries.drop i
  inOrder : Entry.InOrder f.entries →
    Entry.InOrder g.entries ∧ ∀ o ∈ f.entries.drop i, o.le e = false
  last : ¬ Entry.InOrder f.entries → i = f.entries.length
  segments : ∃ front back back', f.segments = front ++ back ∧ g.segments = front ++ back' ∧
    Segment.Displaces (separator f.segments) e back back'
  leads : ∀ lead, IsEven lead f.segments →
    ∃ first rest, leads f.segments = first :: rest ∧
      leads g.segments = first :: List.replicate f.entries.length lead

theorem addsAt_add (f : RelationField) (e : Entry) (hne : f.entries ≠ [])
    : AddsAt e (f.add e).2 f (f.add e).1 := by
  obtain ⟨front, back, back', hss, hadd, hdisplaces, hplace⟩ := exists_add hne e
  have hentries : f.entries = Segment.entries front ++ Segment.entries back := by
    rw [entries_eq, hss, Segment.entries_append]
  have hentries' : (f.add e).1.entries = Segment.entries front ++ e :: Segment.entries back := by
    rw [entries_eq, hadd, Segment.entries_append, hdisplaces.entries_eq]
  rw [hadd] at hentries' ⊢
  constructor
  . rw [hentries, List.length_append]
    exact Nat.le_add_right _ _
  . rw [hentries', hentries, List.take_left, List.drop_left]
  . intro horder
    rw [hentries', hentries, List.drop_left]
    rw [hentries] at horder
    exact ⟨hplace.inOrder horder, hplace.not_le horder⟩
  . intro horder
    rw [hentries] at horder ⊢
    rw [hplace.last horder, List.append_nil]
  . exact ⟨front, back, back', hss, rfl, hdisplaces⟩
  . intro lead heven
    rw [heven.separator_eq] at hdisplaces
    rw [entries_eq]
    rw [hss] at heven ⊢
    exact heven.leads_eq hdisplaces

theorem addsAt_add_lines
    : ∃ f e, RelationField.read "a,,\n b (>= 1) ,\n d,\n" = .ok f ∧ Entry.read "b|c" = .ok e ∧
        f.entries ≠ [] ∧ AddsAt e (f.add e).2 f (f.add e).1 ∧ (f.add e).2 = 2 ∧
        (f.add e).1.text = "a,,\n b (>= 1) ,\n b|c,\n d,\n".toList := by
  have hrun : (do
      let f ← RelationField.read "a,,\n b (>= 1) ,\n d,\n"
      let e ← Entry.read "b|c"
      return (f.entries.isEmpty, (f.add e).2, (f.add e).1.text)) =
      .ok (false, 2, "a,,\n b (>= 1) ,\n b|c,\n d,\n".toList) := by
    decide +kernel
  obtain ⟨f, hf, hrun⟩ := bind_eq_ok.mp hrun
  obtain ⟨e, he, hrun⟩ := bind_eq_ok.mp hrun
  obtain ⟨hempty, hposition, htext⟩ : f.entries.isEmpty = false ∧ (f.add e).2 = 2 ∧
      (f.add e).1.text = "a,,\n b (>= 1) ,\n b|c,\n d,\n".toList := by
    simpa using Except.ok.inj hrun
  have hne := List.isEmpty_eq_false_iff.mp hempty
  exact ⟨f, e, hf, he, hne, addsAt_add f e hne, hposition, htext⟩

end RelationField

end DebianPackaging
