import DebianPackaging.Makefile.Phony
import DebianPackaging.Proofs.Makefile.Layout
import DebianPackaging.Proofs.Makefile.Prerequisite

/-!
This module contains which of the lines of a makefile are the headers of its rules: those that look like
one, unless they continue the line in front of them. The phony targets of a makefile are what its headers
list.
-/

namespace DebianPackaging

open Text MakeLine MakeElement

namespace MakeElement

def phonyTargets : MakeElement → List Text
  | .line _ => []
  | .rule r => if r.isPhony then r.prerequisites else []

end MakeElement

namespace Makefile

theorem phonyTargets_eq_flatMap (m : Makefile) : m.phonyTargets = m.elements.flatMap (·.phonyTargets) := by
  unfold phonyTargets rulesFor rules
  generalize m.elements = es
  induction es with
  | nil => rfl
  | cons e es ih =>
    cases e with
    | line t => simpa [MakeElement.phonyTargets, rule?] using ih
    | rule r =>
      by_cases hr : r.isPhony = true
      . have hr' : phonyTarget ∈ r.targets := List.contains_iff_mem.mp hr
        simpa [MakeElement.phonyTargets, rule?, hr, hr'] using ih
      . have hr' : phonyTarget ∉ r.targets := by
          rw [← List.contains_iff_mem]
          exact hr
        simpa [MakeElement.phonyTargets, rule?, hr, hr'] using ih

/-- The headers among lines, where `ended` tells that the line in front of them is not continued. -/
def headers : (ended : Bool) → List Text → List (List Text)
  | _, [] => []
  | ended, l :: ls =>
    if ended && isHeader l then (l :: (takeContinued l ls).1) :: headers (!isContinued l) ls
    else headers (!isContinued l) ls

def listedBy : List Text → List Text
  | [] => []
  | first :: continued => MakeElement.phonyTargets (.rule ⟨first, continued, []⟩)

theorem headers_cons_of_not {l : Text} (h : isHeader l = false) (ended : Bool) (ls : List Text)
    : headers ended (l :: ls) = headers (!isContinued l) ls := by
  simp [headers, h]

theorem headers_cons_of_not_ended (l : Text) (ls : List Text)
    : headers false (l :: ls) = headers (!isContinued l) ls := by
  simp [headers]

theorem headers_of_continue {behind : List Text} {line : Text} {more : List Text}
    (h : Continue behind line more) : headers (!isContinued line) (more ++ behind) = headers true behind := by
  induction more generalizing line with
  | nil =>
    cases h with
    | inl h => rw [h]; rfl
    | inr h => rw [h]; rfl
  | cons l more ih =>
    rw [h.1]
    exact (headers_cons_of_not_ended l (more ++ behind)).trans (ih h.2)

theorem isHeader_of_isFiller {l : Text} (h : isFiller l = true) : isHeader l = false := by
  rw [← Bool.not_eq_true]
  intro hheader
  rw [isFiller_of_isHeader hheader] at h
  contradiction

theorem isHeader_of_isRecipe {l : Text} (h : isRecipe l = true) : isHeader l = false := by
  rw [← Bool.not_eq_true]
  intro hheader
  rw [isRecipe_of_isHeader hheader] at h
  contradiction

theorem headers_fillers {fillers : List Text} (hfillers : ∀ l ∈ fillers, isFiller l = true) {line : Text}
    (hline : isRecipe line = true) (ended : Bool) (ls : List Text)
    : headers ended (fillers ++ line :: ls) = headers (!isContinued line) ls := by
  induction fillers generalizing ended with
  | nil => exact headers_cons_of_not (isHeader_of_isRecipe hline) ended ls
  | cons l fillers ih =>
    rw [List.forall_mem_cons] at hfillers
    rw [List.cons_append, headers_cons_of_not (isHeader_of_isFiller hfillers.1), ih hfillers.2]

theorem headers_of_isBody {behind body : List Text} (h : IsBody behind body)
    : headers true (body ++ behind) = headers true behind := by
  induction h with
  | nil _ => rfl
  | @recipe fillers more body line hfillers _ hrecipe hmore _ ih =>
    have happ : fillers ++ line :: (more ++ body) ++ behind
        = fillers ++ line :: (more ++ (body ++ behind)) := by
      simp
    rw [happ, headers_fillers hfillers hrecipe, headers_of_continue hmore, ih]

theorem headers_rule {r : Rule} {behind : List Text} (h : r.IsRead behind)
    : headers (!isContinued r.first) (r.continued ++ (r.body ++ behind)) = headers true behind := by
  rw [headers_of_continue h.continued, headers_of_isBody h.body]

theorem headers_allLines {ended : Bool} {es : List MakeElement} (h : IsLaidOut Rule.IsRead ended es)
    : headers ended (allLines es) = (es.filterMap (·.rule?)).map (·.headerLines) := by
  induction es generalizing ended with
  | nil => rfl
  | cons e es ih =>
    cases e with
    | line t =>
      have hheader : (ended && isHeader t) = false := by
        cases ended with
        | false => rfl
        | true => exact h.1 rfl
      change headers ended (t :: allLines es) = _
      rw [headers, hheader, if_neg (by decide), ih h.2]
      rfl
    | rule r =>
      obtain ⟨rfl, hread, hes⟩ := h
      have hlines : allLines (.rule r :: es) = r.first :: (r.continued ++ (r.body ++ allLines es)) := by
        simp [MakeElement.lines, Rule.lines, Rule.headerLines]
      rw [hlines, headers, Bool.true_and, if_pos hread.isHeader, takeContinued_of_continue hread.continued,
        headers_rule hread, ih hes]
      rfl

theorem listedBy_headerLines (r : Rule) : listedBy r.headerLines = (MakeElement.rule r).phonyTargets := rfl

theorem flatMap_phonyTargets {ended : Bool} {es : List MakeElement} (h : IsLaidOut Rule.IsRead ended es)
    : es.flatMap (·.phonyTargets) = (headers ended (allLines es)).flatMap listedBy := by
  rw [headers_allLines h]
  clear h
  induction es with
  | nil => rfl
  | cons e es ih =>
    cases e with
    | line t => exact ih
    | rule r => rw [List.flatMap_cons, ih, ← listedBy_headerLines]; rfl

def endedAfter : (ended : Bool) → List Text → Bool
  | ended, [] => ended
  | _, l :: ls => endedAfter (!isContinued l) ls

theorem headers_suffix (ended : Bool) (ls ls' : List Text)
    : headers (endedAfter ended ls) ls' <:+ headers ended (ls ++ ls') := by
  induction ls generalizing ended with
  | nil => exact List.suffix_rfl
  | cons l ls ih =>
    rw [List.cons_append, headers]
    split
    . exact (ih (!isContinued l)).trans (List.suffix_cons _ _)
    . exact ih (!isContinued l)

theorem headers_false_suffix (ls : List Text) : headers false ls <:+ headers true ls := by
  cases ls with
  | nil => exact List.suffix_rfl
  | cons l ls =>
    rw [headers_cons_of_not_ended, headers]
    split
    . exact List.suffix_cons _ _
    . exact List.suffix_rfl

theorem endedAfter_append_singleton (ended : Bool) (ls : List Text) (l : Text)
    : endedAfter ended (ls ++ [l]) = !isContinued l := by
  induction ls generalizing ended with
  | nil => rfl
  | cons k ls ih => exact ih (!isContinued k)

def isPhonyHeader : List Text → Bool
  | [] => false
  | first :: continued => Rule.isPhony ⟨first, continued, []⟩

def hasPhonyHeader (ended : Bool) (ls : List Text) : Bool := (headers ended ls).any isPhonyHeader

theorem isPhony_of_first {first : Text} (h : ':' ∈ first) (continued body : List Text)
    : Rule.isPhony ⟨first, continued, body⟩ = Rule.isPhony ⟨first, [], []⟩ := by
  obtain ⟨front, rest, rfl, hfront⟩ := List.eq_append_cons_of_mem h
  unfold Rule.isPhony
  rw [Rule.targets_of_colon hfront, Rule.targets_of_colon hfront]

theorem hasPhonyHeader_cons (ended : Bool) (l : Text) (ls : List Text)
    : hasPhonyHeader ended (l :: ls)
        =
      (ended && isHeader l && Rule.isPhony ⟨l, [], []⟩ || hasPhonyHeader (!isContinued l) ls) := by
  unfold hasPhonyHeader
  rw [headers]
  split
  . next h =>
    rw [Bool.and_eq_true] at h
    rw [List.any_cons, isPhonyHeader, isPhony_of_first (colon_mem_of_isHeader h.2), h.1, h.2]
    rfl
  . next h =>
    rw [Bool.not_eq_true] at h
    rw [h]
    rfl

theorem hasPhonyHeader_allLines {ended : Bool} {es : List MakeElement} (h : IsLaidOut Rule.IsRead ended es)
    (hes : ∀ r, .rule r ∈ es → r.isPhony = false) : hasPhonyHeader ended (allLines es) = false := by
  unfold hasPhonyHeader
  rw [headers_allLines h, List.any_map, List.any_eq_false]
  intro r hr
  obtain ⟨e, he, heq⟩ := List.mem_filterMap.mp hr
  cases e with
  | line t => cases heq
  | rule r' =>
    cases heq
    have hnot : isPhonyHeader r.headerLines = false := hes r he
    simp [hnot]

theorem flatMap_listedBy_of_not {ended : Bool} {ls : List Text} (h : hasPhonyHeader ended ls = false)
    : (headers ended ls).flatMap listedBy = [] := by
  unfold hasPhonyHeader at h
  rw [List.any_eq_false] at h
  rw [List.flatMap_eq_nil_iff]
  intro header hheader
  have hnot := h header hheader
  cases header with
  | nil => rfl
  | cons first continued =>
    rw [Bool.not_eq_true] at hnot
    simp only [isPhonyHeader] at hnot
    simp [listedBy, MakeElement.phonyTargets, hnot]

theorem flatMap_phonyTargets_of_not {es : List MakeElement} (h : ∀ r, .rule r ∈ es → r.isPhony = false)
    : es.flatMap (·.phonyTargets) = [] := by
  rw [List.flatMap_eq_nil_iff]
  intro e he
  cases e with
  | line t => rfl
  | rule r => simp [MakeElement.phonyTargets, h r he]

theorem hasPhonyHeader_append_singleton {ended : Bool} {ls : List Text} {l : Text}
    (h : (endedAfter ended ls && isHeader l) = false)
    : hasPhonyHeader ended (ls ++ [l]) = hasPhonyHeader ended ls := by
  induction ls generalizing ended with
  | nil =>
    rw [List.nil_append, hasPhonyHeader_cons, show (ended && isHeader l) = false from h]
    rfl
  | cons k ls ih => rw [List.cons_append, hasPhonyHeader_cons, hasPhonyHeader_cons, ih h]

theorem isAssignment_append_feed (t : Text) : isAssignment (t ++ ['\n']) = isAssignment t := by
  cases t with
  | nil => rfl
  | cons c t =>
    rw [List.cons_append, Rule.isAssignment_cons, Rule.isAssignment_cons]
    cases t with
    | nil => rfl
    | cons d t => rfl

theorem isHeader_append_feed (l : Text) : isHeader (l ++ ['\n']) = isHeader l := by
  by_cases hcolon : ':' ∈ l
  . obtain ⟨front, rest, rfl, hfront⟩ := List.eq_append_cons_of_mem hcolon
    rw [List.append_assoc, List.cons_append, Bool.eq_iff_iff]
    constructor
    . apply Rule.isHeader_of_colon hfront
      rw [isAssignment_append_feed]
      exact id
    . apply Rule.isHeader_of_colon hfront
      rw [isAssignment_append_feed]
      exact id
  . have hnot : ∀ k : Text, ':' ∉ k → isHeader k = false := by
      intro k hk
      rw [← Bool.not_eq_true]
      intro hheader
      exact hk (colon_mem_of_isHeader hheader)
    rw [hnot l hcolon, hnot]
    simp [hcolon]

theorem hasPhonyHeader_append_feed (ended : Bool) (ls : List Text) (l : Text)
    : hasPhonyHeader ended (ls ++ [l ++ ['\n']]) = hasPhonyHeader ended (ls ++ [l]) := by
  induction ls generalizing ended with
  | nil =>
    rw [List.nil_append, List.nil_append, hasPhonyHeader_cons, hasPhonyHeader_cons, isHeader_append_feed]
    by_cases hheader : isHeader l = true
    . obtain ⟨front, rest, rfl, hfront⟩ := List.eq_append_cons_of_mem (colon_mem_of_isHeader hheader)
      unfold Rule.isPhony
      rw [List.append_assoc, List.cons_append, Rule.targets_of_colon hfront, Rule.targets_of_colon hfront]
      rfl
    . rw [Bool.not_eq_true] at hheader
      rw [hheader, Bool.and_false]
      rfl
  | cons k ls ih =>
    rw [List.cons_append, List.cons_append, hasPhonyHeader_cons, hasPhonyHeader_cons, ih]

end Makefile

end DebianPackaging
