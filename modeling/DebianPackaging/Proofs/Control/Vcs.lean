import DebianPackaging.Control.Vcs
import DebianPackaging.Proofs.Control.Field

/-!
This module contains the proof that the `Vcs-*` fields of a paragraph are a table: a type that is given an
address has it afterwards in whatever case it is looked up, and the other types have what they had before.
-/

namespace DebianPackaging

open Text

namespace Vcs

def isTypeChar (c : Char) : Bool := c.isAlphanum || c == '-'

structure IsType (type : Text) : Prop where
  ne_nil : type ≠ []
  isTypeChar : ∀ c ∈ type, isTypeChar c = true

structure IsAddress (url : Text) : Prop where
  ne_nil : url ≠ []
  not_isLineEnd : ∀ c ∈ url, isLineEnd c = false
  isTrimmed : IsTrimmed url

theorem isAscii_of_isTypeChar {c : Char} (h : isTypeChar c = true) : IsAscii c := by
  unfold isTypeChar at h
  rw [Bool.or_eq_true, beq_iff_eq] at h
  rcases h with h | rfl
  . exact isAscii_of_isAlphanum h
  . decide

theorem map_toLower_of_mem_spellings
    : ∀ s ∈ spellings, s.2.map Char.toLower = s.1 ∧ ∀ c ∈ s.2, isTypeChar c = true := by
  simp only [← List.all_eq_true]
  decide +kernel

section Names

variable {type : Text} (h : ∀ c ∈ type, isTypeChar c = true)

include h

theorem lower_type : type.lower = type.map Char.toLower :=
  lower_of_isAscii fun c hc => isAscii_of_isTypeChar (h c hc)

theorem map_toLower_canonicalType
    : (canonicalType type).map Char.toLower = type.lower ∧
        ∀ c ∈ canonicalType type, isTypeChar c = true := by
  have hascii : ∀ c ∈ type.lower, IsAscii c ∧ c.toLower = c ∧ isTypeChar c.toUpper = true ∧
      isTypeChar c = true := by
    rw [lower_type h]
    intro c hc
    obtain ⟨d, hd, rfl⟩ := List.mem_map.mp hc
    have hd' := isAscii_of_isTypeChar (h d hd)
    refine ⟨isAscii_toLower hd', toLower_toLower hd', ?_⟩
    exact forall_isAscii (p := fun d => isTypeChar d = true →
      isTypeChar d.toLower.toUpper = true ∧ isTypeChar d.toLower = true) (by decide +kernel) hd' (h d hd)
  unfold canonicalType
  dsimp
  cases hlookup : spellings.lookup type.lower with
  | some spelling =>
    obtain ⟨before, behind, heq, _⟩ := List.lookup_eq_some_iff.mp hlookup
    have hmem : (type.lower, spelling) ∈ spellings := by
      rw [heq]
      simp
    exact map_toLower_of_mem_spellings _ hmem
  | none =>
    rw [Option.getD_none]
    cases hlower : type.lower with
    | nil => simp [capitalizeFirst]
    | cons c t =>
      rw [hlower, List.forall_mem_cons] at hascii
      unfold capitalizeFirst titleChar
      dsimp only
      rw [if_pos (show c.toNat < 128 from hascii.1.1)]
      constructor
      . rw [List.singleton_append, List.map_cons, toLower_toUpper hascii.1.1, hascii.1.2.1,
          List.map_congr_left (g := id) fun d hd => (hascii.2 d hd).2.1, List.map_id]
      . rw [List.singleton_append, List.forall_mem_cons]
        exact ⟨hascii.1.2.2.1, fun d hd => (hascii.2 d hd).2.2.2⟩

theorem isTypeChar_of_mem_fieldName : ∀ c ∈ fieldName type, isTypeChar c = true := by
  unfold fieldName
  rw [List.forall_mem_append]
  exact ⟨List.all_eq_true.mp (by decide), (map_toLower_canonicalType h).2⟩

theorem map_toLower_fieldName : (fieldName type).map Char.toLower = "vcs-" ++ type.lower := by
  unfold fieldName
  rw [List.map_append, (map_toLower_canonicalType h).1]
  rfl

theorem lower_fieldName : (fieldName type).lower = "vcs-" ++ type.lower := by
  rw [← map_toLower_fieldName h]
  exact lower_type (isTypeChar_of_mem_fieldName h)

end Names

theorem fieldName_eq_of_lower {type other : Text} (h : other.lower = type.lower)
    : fieldName other = fieldName type := by
  unfold fieldName canonicalType
  rw [h]

theorem sameName_fieldName {type other : Text} (h : ∀ c ∈ type, isTypeChar c = true)
    (h' : ∀ c ∈ other, isTypeChar c = true)
    : sameName (fieldName type) (fieldName other) = true ↔ other.lower = type.lower := by
  rw [sameName_iff, lower_fieldName h, lower_fieldName h', List.append_cancel_left_eq]
  exact eq_comm

end Vcs

theorem Vcs.isFieldName_fieldName {type : Text} (h : ∀ c ∈ type, isTypeChar c = true)
    : IsFieldName (fieldName type) := by
  refine ⟨'V', ['c', 's', '-'] ++ canonicalType type, rfl, by decide, ?_⟩
  rw [List.all_append, Bool.and_eq_true, List.all_eq_true (l := canonicalType type)]
  refine ⟨by decide, ?_⟩
  intro c hc
  have hchar := (map_toLower_canonicalType h).2 c hc
  exact forall_isAscii (p := fun c => isTypeChar c = true → ControlDocument.isNameChar c = true)
    (by decide +kernel) (isAscii_of_isTypeChar hchar) hchar

namespace Paragraph

theorem value_of_line {comments : List Text} {name url : Text} (h : Vcs.IsAddress url)
    : (ControlField.mk comments name (' ' :: url ++ ['\n']) []).value = url :=
  h.isTrimmed.trim_append h.ne_nil isBlankText_space (isBlankText_singleton (by decide))

theorem layOut_of_isAddress {url : Text} (h : Vcs.IsAddress url) : layOut url = ' ' :: url ++ ['\n'] := by
  have hcut : cut? '\n' url = none := by
    cases hcut : cut? '\n' url with
    | none => rfl
    | some ab =>
      have := h.not_isLineEnd '\n' (by rw [eq_append_of_cut? hcut]; simp)
      cases this
  unfold layOut
  rw [hcut, h.isTrimmed.trim_eq]
  dsimp
  rw [if_neg (by simpa using h.ne_nil)]

theorem exists_setVcsUrl {p : Paragraph} (hp : p.HasFieldNames) {type url : Text} (htype : Vcs.IsType type)
    (hurl : Vcs.IsAddress url)
    : ∃ q, p.setVcsUrl type url = .ok q ∧ q.HasFieldNames ∧ q.setVcsUrl type url = .ok q ∧
        q.vcsUrl? type = some url ∧
        ∀ name, sameName (Vcs.fieldName type) name = false → q.find? name = p.find? name := by
  have hname := Vcs.isFieldName_fieldName htype.isTypeChar
  by_cases hsame : p.vcsUrl? type = some url
  . have hset : p.setVcsUrl type url = .ok p := if_pos hsame
    exact ⟨p, hset, hp, hset, hsame, fun _ _ => rfl⟩
  . obtain ⟨hspelled, hspelledName⟩ := isFieldName_spelled hp fun _ => hname
    have hset : p.setVcsUrl type url = .ok (p.put ⟨[],
        ((p.find? (Vcs.fieldName type)).map (·.name)).getD (Vcs.fieldName type),
        ' ' :: url ++ ['\n'], []⟩) := by
      unfold setVcsUrl set
      rw [if_neg hsame, layOut_of_isAddress hurl]
      apply setRaw_line hp hname
      rw [List.forall_mem_cons]
      exact ⟨by decide, hurl.not_isLineEnd⟩
    generalize ((p.find? (Vcs.fieldName type)).map (·.name)).getD (Vcs.fieldName type) = spelled
      at hspelled hspelledName hset
    have hget : (p.put ⟨[], spelled, ' ' :: url ++ ['\n'], []⟩).vcsUrl? type = some url := by
      obtain ⟨comments, hfind⟩ := find?_put_self p ⟨[], spelled, ' ' :: url ++ ['\n'], []⟩ hspelledName
      unfold vcsUrl? get?
      rw [hfind]
      exact congrArg some (value_of_line hurl)
    refine ⟨_, hset, hasFieldNames_put hp hspelled, if_pos hget, hget, ?_⟩
    intro name hother
    apply find?_put_of_other
    rw [← Bool.not_eq_true, sameName_iff] at hother ⊢
    rwa [sameName_iff.mp hspelledName]

end Paragraph

end DebianPackaging
