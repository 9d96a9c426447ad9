import DebianPackaging.Makefile.Phony
import DebianPackaging.Proofs.Text.Basic
import DebianPackaging.Proofs.Text.Line

/-!
This module contains what the removal of a prerequisite does to a rule: one line of its header loses a
word with the gap in front of it, the header keeps its targets, and the body stays as it is.
-/

namespace DebianPackaging

open Text

namespace Rule

theorem isWord_of_mem_prerequisites {r : Rule} {name : Text} (h : name ∈ r.prerequisites)
    : IsWord name := by
  unfold prerequisites at h
  apply isWord_of_mem_words
  exact (List.mem_filter.mp h).1

inductive LosesWord (name : Text) : (t t' : Text) → Prop where
  | mk {front gap kept rest : Text} {c : Char}
      (hc : c = ':' ∧ kept = [':'] ∨ isBlank c = true ∧ kept = [])
      (hrest : endsPrerequisite rest = true)
      : LosesWord name (front ++ (c :: (gap ++ name) ++ rest)) (front ++ (kept ++ rest))

namespace LosesWord

variable {name t t' : Text}

theorem append (h : LosesWord name t t') (front : Text)
    : LosesWord name (front ++ t) (front ++ t') := by
  cases h with
  | mk hc hrest =>
    rw [← List.append_assoc, ← List.append_assoc front]
    exact .mk hc hrest

theorem length_lt (h : LosesWord name t t') (hname : name ≠ []) : t'.length < t.length := by
  have hpos := List.length_pos_iff.mpr hname
  cases h with
  | mk hc _ =>
    cases hc with
    | inl hc =>
      simp [hc.2]
      omega
    | inr hc =>
      simp [hc.2]
      omega

theorem not_mem (h : LosesWord name t t') {c : Char} (hc : c ∉ t) : c ∉ t' := by
  cases h with
  | mk hc' _ =>
    cases hc' with
    | inl hc' => simp_all
    | inr hc' => simp_all

theorem isLine (h : LosesWord name t t') (hline : IsLine t) : IsLine t' := by
  cases h with
  | @mk front gap kept rest c hc _ =>
    have hkept : ∀ d ∈ kept, isLineEnd d = false := by
      cases hc with
      | inl hc => simp [hc.2, isLineEnd]
      | inr hc => simp [hc.2]
    rw [isLine_append (by simp)] at hline
    obtain ⟨hfront, hline⟩ := hline
    cases rest with
    | nil =>
      apply isLine_of_forall
      intro d hd
      rw [List.append_nil] at hd
      cases List.mem_append.mp hd with
      | inl hd => exact hfront d hd
      | inr hd => exact hkept d hd
    | cons d rest =>
      rw [isLine_append (by simp)] at hline
      rw [isLine_append (by simp), isLine_append (by simp)]
      exact ⟨hfront, hkept, hline.2⟩

theorem isEnded (h : LosesWord name t t') (hname : IsWord name) (hended : IsEnded t)
    : IsEnded t' := by
  cases h with
  | @mk front gap kept rest c hc _ =>
    cases rest with
    | nil =>
      exfalso
      have hne := hname.ne_nil
      rw [List.append_nil, isEnded_append (by simp), ← List.singleton_append, isEnded_append (by simp [hne]),
        isEnded_append hne] at hended
      obtain ⟨d, hd, hend⟩ := hended
      have hblank := hname.notBlank d (List.mem_of_getLast? hd)
      rw [isBlank_of_isLineEnd hend] at hblank
      contradiction
    | cons d rest =>
      rw [isEnded_append (by simp), isEnded_append (by simp)] at hended
      rw [isEnded_append (by simp), isEnded_append (by simp)]
      exact hended

end LosesWord

theorem losesWord_of_removeWord? {name t t' : Text} (h : removeWord? name t = some t')
    : LosesWord name t t' := by
  induction t generalizing t' with
  | nil => cases h
  | cons c t ih =>
    simp only [removeWord?, Option.or_eq_some_iff] at h
    cases h with
    | inl h =>
      split at h
      . next hc =>
        obtain ⟨rest, hrest, heq⟩ := Option.map_eq_some_iff.mp h
        obtain ⟨hafter, hends⟩ := Option.filter_eq_some_iff.mp hrest
        have ht : t = t.takeWhile isGap ++ name ++ rest := by
          rw [List.append_assoc, ← after?_eq_some_iff.mp hafter, List.takeWhile_append_dropWhile]
        rw [ht]
        by_cases hcolon : c = ':'
        . rw [if_pos hcolon] at heq
          rw [← heq]
          exact @LosesWord.mk name [] _ _ rest c (.inl ⟨hcolon, rfl⟩) hends
        . rw [if_neg hcolon] at heq
          rw [← heq]
          have hblank : isBlank c = true := by simpa [hcolon] using hc
          exact @LosesWord.mk name [] _ _ rest c (.inr ⟨hblank, rfl⟩) hends
      . cases h
    | inr h =>
      obtain ⟨u, hu, rfl⟩ := Option.map_eq_some_iff.mp h.2
      exact (ih hu).append [c]

theorem exists_of_removeWordFromLines? {name : Text} {ls ls' : List Text}
    (h : removeWordFromLines? name ls = some ls')
    : ∃ before l l' after, ls = before ++ l :: after ∧ ls' = before ++ l' :: after ∧
        LosesWord name l l' := by
  induction ls generalizing ls' with
  | nil => cases h
  | cons l ls ih =>
    unfold removeWordFromLines? at h
    split at h
    . next l' hl' =>
      cases h
      exact ⟨[], l, l', ls, rfl, rfl, losesWord_of_removeWord? hl'⟩
    . obtain ⟨us, hus, rfl⟩ := Option.map_eq_some_iff.mp h
      obtain ⟨before, k, k', after, rfl, rfl, hloses⟩ := ih hus
      exact ⟨l :: before, k, k', after, rfl, rfl, hloses⟩

inductive LosesPrerequisite (name : Text) : (r r' : Rule) → Prop where
  | first {targets rest rest' : Text} {continued body : List Text} (htargets : ':' ∉ targets)
      (hassignment : MakeLine.isAssignment rest = false → MakeLine.isAssignment rest' = false)
      (h : LosesWord name (targets ++ ':' :: rest) (targets ++ ':' :: rest'))
      : LosesPrerequisite name ⟨targets ++ ':' :: rest, continued, body⟩
          ⟨targets ++ ':' :: rest', continued, body⟩
  | continued {first l l' : Text} {before after body : List Text} (h : LosesWord name l l')
      : LosesPrerequisite name ⟨first, before ++ l :: after, body⟩ ⟨first, before ++ l' :: after, body⟩

theorem isAssignment_cons (c : Char) (t : Text)
    : MakeLine.isAssignment (c :: t) = (c == '=' || (c == ':' && t.head? == some '=')) := by
  unfold MakeLine.isAssignment
  split
  . next heq =>
    cases heq
    rfl
  . next heq =>
    cases heq
    rfl
  . next hequals hcolon =>
    have hc : c ≠ '=' := by
      intro h
      exact hequals t (by rw [h])
    cases t with
    | nil => simp [hc]
    | cons d t =>
      have hd : c = ':' → d ≠ '=' := by
        intro h h'
        exact hcolon t (by rw [h, h'])
      simpa [hc] using hd

theorem isAssignment_of_head? {t : Text} (hequals : t.head? ≠ some '=') (hcolon : t.head? ≠ some ':')
    : MakeLine.isAssignment t = false := by
  cases t with
  | nil => rfl
  | cons c t =>
    rw [isAssignment_cons]
    simp_all

theorem head?_of_endsPrerequisite {t : Text} (h : endsPrerequisite t = true)
    : t.head? ≠ some '=' ∧ t.head? ≠ some ':' := by
  cases t with
  | nil => simp
  | cons c t =>
    constructor
    all_goals
      intro hc
      cases hc
      contradiction

theorem LosesWord.colon {name t s : Text} (h : LosesWord name (':' :: t) s)
    : ∃ t', s = ':' :: t' ∧
        (MakeLine.isAssignment t = false → MakeLine.isAssignment t' = false) := by
  generalize hs : ':' :: t = s' at h
  cases h with
  | @mk front gap kept rest c hc hrest =>
    obtain ⟨hequals, hcolon⟩ := head?_of_endsPrerequisite hrest
    cases front with
    | nil =>
      obtain ⟨rfl, rfl⟩ : ':' = c ∧ t = gap ++ name ++ rest := by simpa using hs
      have hkept : kept = [':'] := by
        cases hc with
        | inl hc => exact hc.2
        | inr hc => cases hc.1
      rw [hkept]
      exact ⟨rest, rfl, fun _ => isAssignment_of_head? hequals hcolon⟩
    | cons d front =>
      obtain ⟨rfl, rfl⟩ : ':' = d ∧ t = front ++ (c :: (gap ++ name) ++ rest) := by simpa using hs
      refine ⟨front ++ (kept ++ rest), rfl, ?_⟩
      have hkept : (kept ++ rest).head? ≠ some '=' := by
        cases hc with
        | inl hc => simp [hc.2]
        | inr hc => simpa [hc.2] using hequals
      cases front with
      | nil =>
        intro _
        cases hc with
        | inl hc => simpa [hc.2, isAssignment_cons] using hequals
        | inr hc => simpa [hc.2] using isAssignment_of_head? hequals hcolon
      | cons e front =>
        simp only [List.cons_append, isAssignment_cons]
        cases front with
        | nil =>
          intro h
          simp_all
        | cons f front => exact id

theorem losesPrerequisite_of_removePrerequisite? {name : Text} {r r' : Rule}
    (h : r.removePrerequisite? name = some r') : LosesPrerequisite name r r' := by
  cases r with
  | mk first continued body =>
    have hfirst : first.takeWhile (· != ':') ++ first.dropWhile (· != ':') = first :=
      List.takeWhile_append_dropWhile
    have htargets : ':' ∉ first.takeWhile (· != ':') := by
      intro hmem
      have := of_mem_takeWhile hmem
      simp at this
    have hcolon := List.head?_dropWhile_not (· != ':') first
    unfold removePrerequisite? at h
    dsimp at h
    generalize first.takeWhile (· != ':') = targets, first.dropWhile (· != ':') = rest
      at h hfirst htargets hcolon
    split at h
    . next rest' hrest' =>
      have hloses := losesWord_of_removeWord? hrest'
      cases h
      cases rest with
      | nil => cases hrest'
      | cons c rest =>
        obtain rfl : c = ':' := by simpa using hcolon
        obtain ⟨rest'', rfl, hassignment⟩ := hloses.colon
        rw [← hfirst]
        exact .first htargets hassignment (hloses.append targets)
    . obtain ⟨ls, hls, rfl⟩ := Option.map_eq_some_iff.mp h
      obtain ⟨before, l, l', after, rfl, rfl, hloses⟩ := exists_of_removeWordFromLines? hls
      exact .continued hloses

theorem joinContinued_append {t : Text} (ht : StopsAt isNewline t) (front : Text)
    : joinContinued (front ++ t) = joinContinued front ++ joinContinued t := by
  fun_induction joinContinued front with
  | case1 => rfl
  | case2 front ih => simp [joinContinued, ih]
  | case3 front ih => simp [joinContinued, ih]
  | case4 c front hcr hlf ih =>
    rw [List.cons_append, List.cons_append, joinContinued, ih]
    . intro front' hc hfront
      cases front with
      | nil =>
        rw [List.nil_append] at hfront
        rw [hfront] at ht
        simp [isNewline] at ht
      | cons d front =>
        cases front with
        | nil =>
          cases t with
          | nil => cases hfront
          | cons e t =>
            cases hfront
            simp [isNewline] at ht
        | cons e front =>
          cases hfront
          exact hcr front hc rfl
    . intro front' hc hfront
      cases front with
      | nil =>
        rw [List.nil_append] at hfront
        rw [hfront] at ht
        simp [isNewline] at ht
      | cons d front =>
        cases hfront
        exact hlf front hc rfl

theorem not_mem_joinContinued {c : Char} {t : Text} (h : c ∉ t) (hc : c ≠ ' ') : c ∉ joinContinued t := by
  fun_induction joinContinued t with
  | case1 => exact h
  | case2 t ih => simp_all
  | case3 t ih => simp_all
  | case4 d t _ _ ih => simp_all

theorem joinContinued_of_colon (front rest : Text) (continued body : List Text)
    : joinContinued (headerLines ⟨front ++ ':' :: rest, continued, body⟩).flatten
        =
      joinContinued front ++ ':' :: joinContinued (rest ++ continued.flatten) := by
  have hcolon : joinContinued (':' :: (rest ++ continued.flatten))
      = ':' :: joinContinued (rest ++ continued.flatten) := by
    rw [joinContinued]
    . simp
    . simp
  have happ : StopsAt isNewline (':' :: (rest ++ continued.flatten)) := by
    simp [isNewline]
  rw [← hcolon, ← joinContinued_append happ]
  simp [headerLines]

section Header

variable {front rest : Text} (hfront : ':' ∉ front)

include hfront

theorem targets_of_colon (continued body : List Text)
    : targets ⟨front ++ ':' :: rest, continued, body⟩ = words (joinContinued front) := by
  have hcut := cut?_append (not_mem_joinContinued hfront (by decide))
    (dropNewline (joinContinued (rest ++ continued.flatten)))
  have hdrop := dropNewline_append_cons (c := ':') rfl (joinContinued front)
    (joinContinued (rest ++ continued.flatten))
  unfold targets header splitHeader
  rw [joinContinued_of_colon, hdrop, hcut]
  dsimp
  split <;> rfl

theorem isHeader_of_colon {rest' : Text}
    (h : MakeLine.isAssignment rest = false → MakeLine.isAssignment rest' = false)
    (hheader : MakeLine.isHeader (front ++ ':' :: rest) = true)
    : MakeLine.isHeader (front ++ ':' :: rest') = true := by
  have hrecipe : MakeLine.isRecipe (front ++ ':' :: rest') = MakeLine.isRecipe (front ++ ':' :: rest) := by
    cases front <;> rfl
  have hfiller : MakeLine.isFiller (front ++ ':' :: rest') = MakeLine.isFiller (front ++ ':' :: rest) := by
    have hblank : isBlank ':' = false := by decide
    cases front with
    | nil => simp [MakeLine.isFiller, MakeLine.isComment, isBlankRun, hblank]
    | cons c front => simp [MakeLine.isFiller, MakeLine.isComment, isBlankRun, hblank]
  unfold MakeLine.isHeader at hheader ⊢
  rw [cut?_append hfront] at hheader ⊢
  rw [hrecipe, hfiller]
  split at hheader
  . contradiction
  . next hline =>
    rw [if_neg hline]
    simp_all

end Header

namespace LosesPrerequisite

variable {name : Text} {r r' : Rule} (h : LosesPrerequisite name r r')

include h

theorem body_eq : r'.body = r.body := by
  cases h with
  | first _ _ _ => rfl
  | continued _ => rfl

theorem exists_headerLines
    : ∃ before l l' after, r.headerLines = before ++ l :: after ∧
        r'.headerLines = before ++ l' :: after ∧ LosesWord name l l' := by
  cases h with
  | @first front rest rest' continued _ _ _ h =>
    exact ⟨[], front ++ ':' :: rest, front ++ ':' :: rest', continued, rfl, rfl, h⟩
  | @continued first l l' before after _ h => exact ⟨first :: before, l, l', after, rfl, rfl, h⟩

theorem length_headerLines_lt (hname : name ≠ [])
    : r'.headerLines.flatten.length < r.headerLines.flatten.length := by
  obtain ⟨before, l, l', after, hr, hr', hloses⟩ := h.exists_headerLines
  have := hloses.length_lt hname
  rw [hr, hr']
  simp
  omega

theorem colon_mem (hcolon : ':' ∈ r.first) : ':' ∈ r'.first := by
  cases h with
  | first _ _ _ => simp
  | continued _ => exact hcolon

theorem isHeader (hheader : MakeLine.isHeader r.first = true) : MakeLine.isHeader r'.first = true := by
  cases h with
  | first hfront hassignment _ => exact isHeader_of_colon hfront hassignment hheader
  | continued _ => exact hheader

theorem targets_eq (hcolon : ':' ∈ r.first) : r'.targets = r.targets := by
  cases h with
  | first hfront _ _ => rw [targets_of_colon hfront, targets_of_colon hfront]
  | continued _ =>
    obtain ⟨front, rest, rfl, hfront⟩ := List.eq_append_cons_of_mem hcolon
    rw [targets_of_colon hfront, targets_of_colon hfront]

theorem isPhony_eq (hcolon : ':' ∈ r.first) : r'.isPhony = r.isPhony := by
  unfold isPhony
  rw [h.targets_eq hcolon]

end LosesPrerequisite

theorem removeRounds_of_losesPrerequisite (p : Rule → Prop) {name : Text}
    (hstep : ∀ r r', name ∈ r.prerequisites → LosesPrerequisite name r r' → p r → p r') (n : Nat) {r : Rule}
    (hr : p r) : p (r.removeRounds name n) := by
  induction n generalizing r with
  | zero => exact hr
  | succ n ih =>
    unfold removeRounds
    split
    . next hmem =>
      rw [List.contains_iff_mem] at hmem
      split
      . next r' hr' => exact ih (hstep r r' hmem (losesPrerequisite_of_removePrerequisite? hr') hr)
      . exact hr
    . exact hr

section RemoveAll

variable (name : Text) {r : Rule} (hcolon : ':' ∈ r.first)

include hcolon

theorem colon_mem_removeAllPrerequisites : ':' ∈ (r.removeAllPrerequisites name).first := by
  apply removeRounds_of_losesPrerequisite (fun r => ':' ∈ r.first) _ _ hcolon
  exact fun _ _ _ h => h.colon_mem

theorem isPhony_removeAllPrerequisites : (r.removeAllPrerequisites name).isPhony = r.isPhony := by
  refine (removeRounds_of_losesPrerequisite (fun r' => ':' ∈ r'.first ∧ r'.isPhony = r.isPhony) ?_ _ ?_).2
  . rintro r₁ r₂ _ h ⟨hcolon₁, heq⟩
    exact ⟨h.colon_mem hcolon₁, (h.isPhony_eq hcolon₁).trans heq⟩
  . exact ⟨hcolon, rfl⟩

end RemoveAll

end Rule

end DebianPackaging
