import DebianPackaging.Text.Case
import DebianPackaging.Proofs.Text.Basic

/-!
This module contains what the case maps and the comparison that disregards case do to ASCII. No character,
in whatever script, is the same as two ASCII characters unless those differ in their case only.
-/

namespace DebianPackaging

def IsAscii (c : Char) : Prop := c.toNat < 128

instance (c : Char) : Decidable (IsAscii c) := inferInstanceAs (Decidable (c.toNat < 128))

theorem forall_isAscii {p : Char → Prop} (h : ∀ n < 128, p (Char.ofNat n)) {c : Char} (hc : IsAscii c)
    : p c := by
  have := h c.toNat hc
  rwa [Char.ofNat_toNat] at this

theorem isAscii_of_isAlphanum {c : Char} (h : c.isAlphanum = true) : IsAscii c := by
  have := toNat_of_isAlphanum h
  unfold IsAscii
  omega

theorem toLower_toLower {c : Char} (hc : IsAscii c) : c.toLower.toLower = c.toLower :=
  forall_isAscii (p := fun c => c.toLower.toLower = c.toLower) (by decide +kernel) hc

theorem toLower_toUpper {c : Char} (hc : IsAscii c) : c.toUpper.toLower = c.toLower :=
  forall_isAscii (p := fun c => c.toUpper.toLower = c.toLower) (by decide +kernel) hc

theorem isAscii_toLower {c : Char} (hc : IsAscii c) : IsAscii c.toLower :=
  forall_isAscii (p := fun c => IsAscii c.toLower) (by decide +kernel) hc

theorem toLower_ne_colon {c : Char} (hc : IsAscii c) : c ≠ ':' → c.toLower ≠ ':' :=
  forall_isAscii (p := fun c => c ≠ ':' → c.toLower ≠ ':') (by decide +kernel) hc

theorem foldChar_of_isAscii {c : Char} (hc : IsAscii c) : foldChar c = c.toLower :=
  forall_isAscii (p := fun c => foldChar c = c.toLower) (by decide +kernel) hc

theorem sameLetter_self (c : Char) : sameLetter c c = true := by
  unfold sameLetter
  simp

theorem sameLetter_iff {a b : Char}
    : sameLetter a b = true ↔ foldChar a = foldChar b ∨ ∃ cls ∈ CaseTable.variants,
        (foldChar a).toNat ∈ cls ∧ (foldChar b).toNat ∈ cls := by
  unfold sameLetter
  simp only [Bool.or_eq_true, beq_iff_eq, List.any_eq_true, Bool.and_eq_true, List.contains_iff_mem]

theorem eq_of_mem_variants : ∀ cls ∈ CaseTable.variants, ∀ cls' ∈ CaseTable.variants,
    (∃ n ∈ cls, n ∈ cls') → ∀ n ∈ cls, ∀ n' ∈ cls', n < 128 → n' < 128 → n = n' := by
  decide +kernel

theorem toLower_eq_of_sameLetter {a b c : Char} (ha : IsAscii a) (hb : IsAscii b)
    (hac : sameLetter a c = true) (hbc : sameLetter b c = true) : a.toLower = b.toLower := by
  rw [sameLetter_iff, foldChar_of_isAscii ha] at hac
  rw [sameLetter_iff, foldChar_of_isAscii hb] at hbc
  have ha := isAscii_toLower ha
  have hb := isAscii_toLower hb
  have heq : ∀ cls ∈ CaseTable.variants, ∀ cls' ∈ CaseTable.variants, (∃ n ∈ cls, n ∈ cls') →
      a.toLower.toNat ∈ cls → b.toLower.toNat ∈ cls' → a.toLower = b.toLower := by
    intro cls hcls cls' hcls' hn hacls hbcls
    have := eq_of_mem_variants cls hcls cls' hcls' hn _ hacls _ hbcls ha hb
    rw [← Char.ofNat_toNat a.toLower, this, Char.ofNat_toNat]
  rcases hac with hac | ⟨cls, hcls, hacls, hccls⟩
  . rcases hbc with hbc | ⟨cls', hcls', hbcls', hccls'⟩
    . rw [hac, hbc]
    . rw [← hac] at hccls'
      exact heq cls' hcls' cls' hcls' ⟨_, hccls', hccls'⟩ hccls' hbcls'
  . rcases hbc with hbc | ⟨cls', hcls', hbcls', hccls'⟩
    . rw [← hbc] at hccls
      exact heq cls hcls cls hcls ⟨_, hccls, hccls⟩ hacls hccls
    . exact heq cls hcls cls' hcls' ⟨_, hccls, hccls'⟩ hacls hbcls'

namespace Text

theorem lower_go_of_isAscii {passed t : Text} (h : ∀ c ∈ t, IsAscii c)
    : lower.go passed t = t.map Char.toLower := by
  induction t generalizing passed with
  | nil => rfl
  | cons c t ih =>
    rw [List.forall_mem_cons] at h
    have hsigma : c ≠ 'Σ' := by
      rintro rfl
      exact absurd h.1 (by decide)
    have hdotted : c ≠ 'İ' := by
      rintro rfl
      exact absurd h.1 (by decide)
    unfold lower.go
    dsimp
    rw [ih h.2, if_neg hsigma, if_neg hdotted]
    unfold lowerChar
    rw [if_pos (show c.toNat < 128 from h.1)]
    rfl

theorem lower_of_isAscii {t : Text} (h : ∀ c ∈ t, IsAscii c) : t.lower = t.map Char.toLower :=
  lower_go_of_isAscii h

theorem afterFolded?_append (lit rest : Text) : afterFolded? lit (lit ++ rest) = some rest := by
  induction lit with
  | nil => rfl
  | cons c lit ih =>
    rw [List.cons_append, afterFolded?, sameLetter_self, if_pos rfl, ih]

theorem afterFolded?_cons_eq_some {a : Char} {lit t rest : Text}
    : afterFolded? (a :: lit) t = some rest ↔
        ∃ c u, t = c :: u ∧ sameLetter a c = true ∧ afterFolded? lit u = some rest := by
  cases t with
  | nil => simp [afterFolded?]
  | cons d u =>
    rw [afterFolded?]
    constructor
    . intro h
      split at h
      . next hsame => exact ⟨d, u, rfl, hsame, h⟩
      . cases h
    . rintro ⟨c, u, heq, hsame, h⟩
      cases heq
      rw [if_pos hsame, h]

theorem map_toLower_eq_of_afterFolded? {a b t rest rest' : Text} (ha : ∀ c ∈ a, IsAscii c ∧ c ≠ ':')
    (hb : ∀ c ∈ b, IsAscii c ∧ c ≠ ':') (hat : afterFolded? (a ++ [':']) t = some rest)
    (hbt : afterFolded? (b ++ [':']) t = some rest') : a.map Char.toLower = b.map Char.toLower := by
  have hcolon : ∀ c d, IsAscii c → c ≠ ':' → sameLetter c d = true → sameLetter ':' d ≠ true := by
    intro c d hc hne hcd hd
    apply toLower_ne_colon hc hne
    rw [toLower_eq_of_sameLetter hc (by decide) hcd hd]
    decide
  induction a generalizing b t with
  | nil =>
    obtain ⟨d, u, rfl, hd, _⟩ := afterFolded?_cons_eq_some.mp hat
    cases b with
    | nil => rfl
    | cons c b =>
      rw [List.forall_mem_cons] at hb
      obtain ⟨_, _, heq, hcd, _⟩ := afterFolded?_cons_eq_some.mp hbt
      cases heq
      exact absurd hd (hcolon c d hb.1.1 hb.1.2 hcd)
  | cons c a ih =>
    rw [List.forall_mem_cons] at ha
    obtain ⟨d, u, rfl, hcd, hu⟩ := afterFolded?_cons_eq_some.mp hat
    cases b with
    | nil =>
      obtain ⟨_, _, heq, hd, _⟩ := afterFolded?_cons_eq_some.mp hbt
      cases heq
      exact absurd hd (hcolon c d ha.1.1 ha.1.2 hcd)
    | cons c' b =>
      rw [List.forall_mem_cons] at hb
      obtain ⟨_, _, heq, hcd', hu'⟩ := afterFolded?_cons_eq_some.mp hbt
      cases heq
      rw [List.map_cons, List.map_cons, toLower_eq_of_sameLetter ha.1.1 hb.1.1 hcd hcd',
        ih ha.2 hb.2 hu hu']

end Text

end DebianPackaging
