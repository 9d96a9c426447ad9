import DebianPackaging.Relation.Floor
import DebianPackaging.Proofs.Relation.Separator
import DebianPackaging.Proofs.Text.Split

/-!
This module contains what is known of a version that was read: its text is the one it was read from, and
that has no character that separates entries or alternatives. No version is below itself.
-/

namespace DebianPackaging

theorem isBlank_of_isDecimal {c : Char} (h : isDecimal c = true) : isBlank c = false := by
  obtain ⟨d, hd⟩ := Option.isSome_iff_exists.mp h
  obtain ⟨z, hz, _⟩ := Option.map_eq_some_iff.mp hd
  have hrange := List.find?_some hz
  -- the digits of a script stand in a row between blanks
  have hzeros : ∀ z ∈ digitZeros, 0x21 ≤ z ∧ z ≤ 0x7b ∨ 0xa1 ≤ z ∧ z ≤ 0x1676 ∨
      0x1681 ≤ z ∧ z ≤ 0x1ff6 ∨ 0x3001 ≤ z := by decide
  have hz := hzeros z (List.mem_of_find?_eq_some hz)
  rw [Bool.and_eq_true, decide_eq_true_eq, decide_eq_true_eq] at hrange
  simp only [isBlank, Bool.or_eq_false_iff, Bool.and_eq_false_iff, decide_eq_false_iff_not,
    beq_eq_false_iff_ne, ne_eq]
  omega

namespace Version

theorem isBlank_of_isVersionChar {c : Char} (h : isVersionChar c = true) : isBlank c = false := by
  unfold isVersionChar at h
  simp only [List.contains_cons, List.contains_nil, Bool.or_false, Bool.or_eq_true, beq_iff_eq] at h
  rcases h with h | rfl | rfl | rfl | rfl | rfl
  . exact Relation.isBlank_of_isAlphanum h
  all_goals decide

def IsBody (t : Text) : Prop := ∀ c ∈ t, isDecimal c = true ∨ isVersionChar c = true

theorem IsBody.notBlank {t : Text} (h : IsBody t) : ∀ c ∈ t, isBlank c = false := by
  intro c hc
  cases h c hc with
  | inl hc => exact isBlank_of_isDecimal hc
  | inr hc => exact isBlank_of_isVersionChar hc

theorem IsBody.not_mem {t : Text} (h : IsBody t) {c : Char} (hdecimal : isDecimal c = false)
    (hchar : isVersionChar c = false) : c ∉ t := by
  intro hc
  have := h c hc
  rw [hdecimal, hchar] at this
  simp at this

theorem isTrimmed_of_notBlank {t : Text} (h : ∀ c ∈ t, isBlank c = false) : Text.IsTrimmed t := by
  constructor
  . intro c hc
    exact h c (List.mem_of_mem_head? hc)
  . exact Relation.stopsAt_reverse_of_forall h

def readParts? (text body : Text) : Option Version :=
  match Text.cut? ':' body with
  | none => readBody? text 0 body
  | some (epoch, rest) =>
    if !epoch.isEmpty && epoch.all isDecimal then readBody? text epoch.digitsValue rest else none

theorem readBody?_eq_some {t body : Text} {epoch : Nat} {v : Version}
    (h : readBody? t epoch body = some v)
    : v.text = t ∧ IsBody body ∧ ∀ u, readBody? u epoch body = some { v with text := u } := by
  unfold readBody? at h ⊢
  split at h
  . cases h
  . next hbody =>
    cases h
    refine ⟨rfl, ?_, fun u => if_neg hbody⟩
    simp only [Bool.or_eq_true, Bool.not_eq_true', not_or, Bool.not_eq_false, List.all_eq_true]
      at hbody
    intro c hc
    exact .inr (hbody.2 c hc)

theorem readParts?_eq_some {t body : Text} {v : Version} (h : readParts? t body = some v)
    : v.text = t ∧ IsBody body ∧ ∀ u, readParts? u body = some { v with text := u } := by
  unfold readParts? at h ⊢
  split at h
  . exact readBody?_eq_some h
  . next epoch rest hcut =>
    split at h
    . next hepoch =>
      obtain ⟨htext, hrest, hread⟩ := readBody?_eq_some h
      refine ⟨htext, ?_, fun u => (if_pos hepoch).trans (hread u)⟩
      rw [Bool.and_eq_true, List.all_eq_true] at hepoch
      rw [Text.eq_append_of_cut? hcut]
      intro c hc
      rw [List.mem_append, List.mem_cons] at hc
      rcases hc with hc | rfl | hc
      . exact .inl (hepoch.2 c hc)
      . exact .inr (by decide)
      . exact hrest c hc
    . cases h

theorem exists_body_of_read? {t : Text} {v : Version} (h : read? t = some v)
    : v.text = t ∧ ∃ body, (t = body ∨ t = body ++ ['\n']) ∧ IsBody body ∧
        read? body = some { v with text := body } := by
  have h : readParts? t (if t.getLast? = some '\n' then t.dropLast else t) = some v := h
  obtain ⟨htext, hbody, hread⟩ := readParts?_eq_some h
  refine ⟨htext, _, ?_, hbody, ?_⟩
  . split
    . next hlast =>
      obtain ⟨u, rfl⟩ := List.getLast?_eq_some_iff.mp hlast
      exact .inr (by rw [List.dropLast_concat])
    . exact .inl rfl
  . generalize (if t.getLast? = some '\n' then t.dropLast else t) = body at hbody hread
    have hline : body.getLast? ≠ some '\n' := by
      intro hlast
      exact hbody.not_mem (by decide) (by decide) (List.mem_of_getLast? hlast)
    unfold read?
    dsimp only
    rw [if_neg hline]
    exact hread body

theorem isBody_trim {t : Text} {v : Version} (h : read? t = some v)
    : IsBody (Text.trim t) ∧ read? (Text.trim t) = some { v with text := Text.trim t } := by
  obtain ⟨_, body, ht, hbody, hread⟩ := exists_body_of_read? h
  have htrim : Text.trim t = body := by
    have hbody := (isTrimmed_of_notBlank hbody.notBlank).trim_eq
    rcases ht with rfl | rfl
    . exact hbody
    . rw [Text.trim_append_blank (Text.isBlankText_singleton (by decide)), hbody]
  rw [htrim]
  exact ⟨hbody, hread⟩

theorem read_eq_ok {t : Text} {v : Version} : Version.read t = .ok v ↔ read? t = some v := by
  unfold Version.read
  cases read? t with
  | none => simp
  | some w => simp

theorem text_of_read {t : Text} {v : Version} (h : Version.read t = .ok v)
    : v.text = t ∧ ∀ c, Relation.isSeparator c = true → c ∉ t := by
  rw [read_eq_ok] at h
  refine ⟨(exists_body_of_read? h).1, ?_⟩
  intro c hc
  rw [← Text.mem_trim_iff (Relation.separator_not_isBlank hc)]
  apply (isBody_trim h).1.not_mem
  all_goals rcases Relation.separator_cases hc with rfl | rfl <;> decide

theorem read_text {t : Text} {v : Version} (h : Version.read t = .ok v) : Version.read v.text = .ok v := by
  rw [(text_of_read h).1]
  exact h

theorem comparePadded_self {cmp : α → α → Ordering} (h : ∀ a, cmp a a = .eq) (pad : α) (as : List α)
    : comparePadded cmp pad as as = .eq := by
  induction as with
  | nil =>
    unfold comparePadded
    rfl
  | cons a as ih =>
    unfold comparePadded
    rw [h a, ih]
    rfl

theorem Run.compare_self (r : Run) : r.compare r = .eq := by
  cases r with
  | number n => exact Std.compare_self
  | other t => exact comparePadded_self (fun _ => Std.compare_self) 0 _

theorem comparePart_self (t : Text) : comparePart t t = .eq :=
  comparePadded_self Run.compare_self _ _

theorem compare_self (v : Version) : v.compare v = .eq := by
  unfold Version.compare
  rw [comparePart_self, comparePart_self, Std.compare_self]
  rfl

theorem atLeast_self (v : Version) : v.atLeast v = true := by
  unfold atLeast
  rw [compare_self]
  rfl

end Version

end DebianPackaging
