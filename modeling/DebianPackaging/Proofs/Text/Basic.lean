import DebianPackaging.Text.Basic

/-!
This module contains the codes of letters and digits, and what cutting a text at a character says about
the parts.
-/

namespace DebianPackaging

theorem toNat_of_isAlphanum {c : Char} (h : c.isAlphanum = true)
    : 48 ≤ c.toNat ∧ c.toNat ≤ 57 ∨ 65 ≤ c.toNat ∧ c.toNat ≤ 90 ∨ 97 ≤ c.toNat ∧ c.toNat ≤ 122 := by
  have hranges : (decide (c.val ≥ 'A'.val ∧ c.val ≤ 'Z'.val) ||
      (c.val ≥ 'a'.val && c.val ≤ 'z'.val) || (c.val ≥ '0'.val && c.val ≤ '9'.val)) = true := h
  simp only [Bool.or_eq_true, Bool.and_eq_true, decide_eq_true_eq, ge_iff_le, UInt32.le_iff_toNat_le,
    Char.toNat_val, Char.reduceToNat] at hranges
  omega

namespace Text

theorem cut?_append {c : Char} {a : Text} (h : c ∉ a) (b : Text)
    : cut? c (a ++ c :: b) = some (a, b) := by
  induction a with
  | nil => simp [cut?]
  | cons d a ih =>
    rw [List.mem_cons, not_or] at h
    rw [List.cons_append, cut?, if_neg (Ne.symm h.1), ih h.2]
    rfl

theorem not_mem_of_cut? {c : Char} {t a b : Text} (h : cut? c t = some (a, b)) : c ∉ a := by
  induction t generalizing a b with
  | nil => cases h
  | cons d t ih =>
    unfold cut? at h
    split at h
    . cases h
      simp
    . next hd =>
      obtain ⟨⟨a', b'⟩, hcut, heq⟩ := Option.map_eq_some_iff.mp h
      cases heq
      rw [List.mem_cons, not_or]
      exact ⟨Ne.symm hd, ih hcut⟩

end Text

end DebianPackaging
