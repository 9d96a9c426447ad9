import Mathlib.Data.List.TakeWhile
import DebianPackaging.Makefile.Basic

/-!
This module contains the layout of makefiles, that is, which lines may stand together in an element. The
lines of a text have exactly one layout, and reading the text finds it.
-/

namespace DebianPackaging

namespace MakeLine

/-- The lines `more` continue `line`, and the lines behind them do not. The last line may end in a
backslash only if no line is left. -/
def Continue (behind : List Text) : (line : Text) → (more : List Text) → Prop
  | line, [] => isContinued line = false ∨ behind = []
  | line, l :: more => isContinued line = true ∧ Continue behind l more

def startsRecipe (ls : List Text) : Bool := (ls.dropWhile isFiller).head?.any isRecipe

/-- The lines are the body of a rule in front of others. Fillers belong to it only if a recipe line
follows. -/
inductive IsBody (behind : List Text) : (body : List Text) → Prop where
  | nil (h : startsRecipe behind = false) : IsBody behind []
  | recipe {fillers more body : List Text} {line : Text} (hfillers : ∀ l ∈ fillers, isFiller l = true)
      (hfiller : isFiller line = false) (hrecipe : isRecipe line = true)
      (hmore : Continue (body ++ behind) line more) (hbody : IsBody behind body)
      : IsBody behind (fillers ++ line :: (more ++ body))

structure Replaces (behind behind' : List Text) : Prop where
  nil : behind = [] → behind' = []
  startsRecipe : startsRecipe behind = false → startsRecipe behind' = false

theorem startsRecipe_append_of_all {ls : List Text} (h : ∀ l ∈ ls, isFiller l = true)
    (behind : List Text) : startsRecipe (ls ++ behind) = startsRecipe behind := by
  unfold startsRecipe
  rw [List.dropWhile_append_of_pos h]

theorem startsRecipe_append_of_ne {ls : List Text} (h : ¬ ∀ l ∈ ls, isFiller l = true)
    (behind : List Text) : startsRecipe (ls ++ behind) = startsRecipe ls := by
  unfold startsRecipe
  rw [List.dropWhile_append]
  cases hls : ls.dropWhile isFiller with
  | nil =>
    exfalso
    apply h
    exact List.dropWhile_eq_nil_iff.mp hls
  | cons l ls' => simp

theorem isFiller_of_isHeader {l : Text} (h : isHeader l = true) : isFiller l = false := by
  unfold isHeader at h
  split at h
  . contradiction
  . simp_all

theorem isRecipe_of_isHeader {l : Text} (h : isHeader l = true) : isRecipe l = false := by
  unfold isHeader at h
  split at h
  . contradiction
  . simp_all

theorem colon_mem_of_isHeader {l : Text} (h : isHeader l = true) : ':' ∈ l := by
  unfold isHeader at h
  split at h
  . contradiction
  . split at h
    . contradiction
    . next hcut =>
      rw [Text.eq_append_of_cut? hcut]
      simp

theorem startsRecipe_cons (l : Text) (ls : List Text)
    : startsRecipe (l :: ls) = if isFiller l then startsRecipe ls else isRecipe l := by
  unfold startsRecipe
  rw [List.dropWhile_cons]
  split <;> simp

theorem startsRecipe_of_isHeader {l : Text} (h : isHeader l = true) (ls : List Text)
    : startsRecipe (l :: ls) = false := by
  rw [startsRecipe_cons, isFiller_of_isHeader h, isRecipe_of_isHeader h]
  rfl

theorem Replaces.append {behind behind' : List Text} (h : Replaces behind behind') (ls : List Text)
    : Replaces (ls ++ behind) (ls ++ behind') := by
  constructor
  . intro hnil
    rw [List.append_eq_nil_iff] at hnil ⊢
    exact ⟨hnil.1, h.nil hnil.2⟩
  . by_cases hall : ∀ l ∈ ls, isFiller l = true
    . rw [startsRecipe_append_of_all hall, startsRecipe_append_of_all hall]
      exact h.startsRecipe
    . rw [startsRecipe_append_of_ne hall, startsRecipe_append_of_ne hall]
      exact id

theorem Continue.replace {behind behind' : List Text} (h : behind = [] → behind' = []) {line : Text}
    {more : List Text} (hmore : Continue behind line more) : Continue behind' line more := by
  induction more generalizing line with
  | nil => exact hmore.imp_right h
  | cons l more ih => exact ⟨hmore.1, ih hmore.2⟩

theorem Continue.of_map_eq {behind : List Text} {line line' : Text} {more more' : List Text}
    (h : Continue behind line more)
    (heq : (line' :: more').map isContinued = (line :: more).map isContinued)
    : Continue behind line' more' := by
  induction more generalizing line line' more' with
  | nil =>
    rw [List.map_cons, List.map_cons, List.cons.injEq, List.map_nil, List.map_eq_nil_iff] at heq
    rw [heq.2]
    apply h.imp_left
    rw [heq.1]
    exact id
  | cons l more ih =>
    rw [List.map_cons, List.map_cons, List.cons.injEq] at heq
    cases more' with
    | nil => cases heq.2
    | cons l' more' => exact ⟨heq.1.trans h.1, ih h.2 heq.2⟩

theorem IsBody.replace {behind behind' : List Text} (h : Replaces behind behind') {body : List Text}
    (hbody : IsBody behind body) : IsBody behind' body := by
  induction hbody with
  | nil hstop =>
    apply IsBody.nil
    apply h.startsRecipe hstop
  | recipe hfillers hfiller hrecipe hmore _ ih =>
    apply IsBody.recipe hfillers hfiller hrecipe _ ih
    apply hmore.replace
    apply (h.append _).nil

theorem IsBody.startsRecipe_behind {behind body : List Text} (h : IsBody behind body)
    : startsRecipe behind = false := by
  induction h with
  | nil hstop => exact hstop
  | recipe _ _ _ _ _ ih => exact ih

end MakeLine

namespace MakeElement

def allLines (es : List MakeElement) : List Text := es.flatMap (·.lines)

@[simp]
theorem allLines_nil : allLines [] = [] := rfl

@[simp]
theorem allLines_cons (e : MakeElement) (es : List MakeElement)
    : allLines (e :: es) = e.lines ++ allLines es := rfl

@[simp]
theorem allLines_append (es es' : List MakeElement)
    : allLines (es ++ es') = allLines es ++ allLines es' := List.flatMap_append

theorem allLines_eq_nil_iff {es : List MakeElement} : allLines es = [] ↔ es = [] := by
  constructor
  . intro h
    cases es with
    | nil => rfl
    | cons e es => cases e <;> cases h
  . intro h
    rw [h]
    rfl

theorem flatten_allLines (es : List MakeElement) : (allLines es).flatten = (es.map (·.text)).flatten := by
  induction es with
  | nil => rfl
  | cons e es ih =>
    cases e with
    | line t => simp [lines, text, ih]
    | rule r => simp [lines, text, Rule.text, ih]

end MakeElement

open MakeLine MakeElement

structure Rule.IsRead (r : Rule) (behind : List Text) : Prop where
  isHeader : isHeader r.first = true
  continued : Continue (r.body ++ behind) r.first r.continued
  body : IsBody behind r.body

/-- Each rule satisfies `p` with the lines behind it, and no rule starts and no line is the header of one
unless the line in front of it has ended, which `ended` tells of what is in front of the first. -/
def MakeElement.IsLaidOut (p : Rule → List Text → Prop) : (ended : Bool) → List MakeElement → Prop
  | _, [] => True
  | ended, .line t :: es => (ended = true → isHeader t = false) ∧ IsLaidOut p (!isContinued t) es
  | ended, .rule r :: es => ended = true ∧ p r (allLines es) ∧ IsLaidOut p true es

namespace Makefile

theorem takeContinued_of_continue {behind : List Text} {line : Text} {more : List Text}
    (h : Continue behind line more) : takeContinued line (more ++ behind) = (more, behind) := by
  induction more generalizing line with
  | nil =>
    cases behind with
    | nil => rfl
    | cons l ls =>
      have hline : isContinued line = false := by simpa [Continue] using h
      simp [takeContinued, hline]
  | cons l more ih => simp [takeContinued, h.1, ih h.2]

theorem continue_takeContinued (line : Text) (ls : List Text)
    : Continue (takeContinued line ls).2 line (takeContinued line ls).1 := by
  induction ls generalizing line with
  | nil =>
    right
    rfl
  | cons l ls ih =>
    unfold takeContinued
    split
    . next h => exact ⟨h, ih l⟩
    . next h =>
      left
      simpa using h

theorem takeBody_of_startsRecipe {ls : List Text} (h : startsRecipe ls = false)
    : takeBody ls = ([], ls) := by
  unfold startsRecipe at h
  rw [takeBody]
  split
  . rfl
  . next l rest hls =>
    rw [hls] at h
    have hl : isRecipe l = false := by simpa using h
    simp [hl]

theorem takeBody_of_recipe {fillers ls : List Text} {line : Text}
    (hfillers : ∀ l ∈ fillers, isFiller l = true) (hfiller : isFiller line = false)
    (hrecipe : isRecipe line = true)
    : takeBody (fillers ++ line :: ls)
        =
      (fillers ++ line :: ((takeContinued line ls).1 ++ (takeBody (takeContinued line ls).2).1),
        (takeBody (takeContinued line ls).2).2) := by
  have hdrop : (fillers ++ line :: ls).dropWhile isFiller = line :: ls := by
    rw [List.dropWhile_append_of_pos hfillers]
    simp [hfiller]
  have htake : (fillers ++ line :: ls).takeWhile isFiller = fillers := by
    rw [List.takeWhile_append_of_pos hfillers]
    simp [hfiller]
  rw [takeBody]
  split
  . next hnil =>
    rw [hdrop] at hnil
    cases hnil
  . next l rest hcons =>
    rw [hdrop] at hcons
    cases hcons
    rw [if_pos hrecipe, htake]
    simp

theorem takeBody_of_isBody {behind body : List Text} (h : IsBody behind body)
    : takeBody (body ++ behind) = (body, behind) := by
  induction h with
  | nil hstop => exact takeBody_of_startsRecipe hstop
  | @recipe fillers more body line hfillers hfiller hrecipe hmore _ ih =>
    have happ : fillers ++ line :: (more ++ body) ++ behind
        = fillers ++ line :: (more ++ (body ++ behind)) := by
      simp
    rw [happ, takeBody_of_recipe hfillers hfiller hrecipe, takeContinued_of_continue hmore, ih]

theorem isBody_takeBody (ls : List Text) : IsBody (takeBody ls).2 (takeBody ls).1 := by
  fun_induction takeBody ls with
  | case1 ls h =>
    apply IsBody.nil
    simp [startsRecipe, h]
  | case2 ls l rest h hl _ body behind heq ih =>
    rw [heq] at ih
    have hl' : isFiller l = false := by
      have := List.head?_dropWhile_not isFiller ls
      rw [h] at this
      simpa using this
    have hbehind : (takeContinued l rest).2 = body ++ behind := by
      rw [← takeBody_append (takeContinued l rest).2, heq]
    dsimp
    rw [List.append_assoc, List.cons_append]
    apply IsBody.recipe _ hl' hl _ ih
    . apply List.all_eq_true.mp
      apply List.all_takeWhile
    . rw [← hbehind]
      apply continue_takeContinued
  | case3 ls l rest h hl =>
    apply IsBody.nil
    simpa [startsRecipe, h] using hl

def readBehind (line : Text) (ls : List Text) : List MakeElement :=
  (takeContinued line ls).1.map .line ++ readElements (takeContinued line ls).2

theorem readElements_nil : readElements [] = [] := by
  rw [readElements]

theorem readElements_cons_of_line {l : Text} (h : isHeader l = false) (ls : List Text)
    : readElements (l :: ls) = .line l :: readBehind l ls := by
  rw [readElements]
  simp [h, readBehind]

theorem readElements_cons_of_header {l : Text} (h : isHeader l = true) (ls : List Text)
    : readElements (l :: ls)
        =
      .rule ⟨l, (takeContinued l ls).1, (takeBody (takeContinued l ls).2).1⟩ ::
        readElements (takeBody (takeContinued l ls).2).2 := by
  rw [readElements]
  simp [h]

theorem readBehind_nil (line : Text) : readBehind line [] = [] := by
  simp [readBehind, takeContinued, readElements_nil]

theorem readBehind_of_ended {line : Text} (h : isContinued line = false) (ls : List Text)
    : readBehind line ls = readElements ls := by
  cases ls <;> simp [readBehind, takeContinued, h]

theorem readBehind_of_continued {line : Text} (h : isContinued line = true) (l : Text)
    (ls : List Text) : readBehind line (l :: ls) = .line l :: readBehind l ls := by
  simp [readBehind, takeContinued, h]

theorem readElements_rule {r : Rule} {behind : List Text} (h : r.IsRead behind)
    : readElements (r.lines ++ behind) = .rule r :: readElements behind := by
  have hlines : r.lines ++ behind = r.first :: (r.continued ++ (r.body ++ behind)) := by
    simp [Rule.lines, Rule.headerLines]
  rw [hlines, readElements_cons_of_header h.isHeader, takeContinued_of_continue h.continued,
    takeBody_of_isBody h.body]

theorem readBehind_of_isLaidOut {es : List MakeElement} {line : Text}
    (h : IsLaidOut Rule.IsRead (!isContinued line) es) : readBehind line (allLines es) = es := by
  induction es generalizing line with
  | nil => exact readBehind_nil line
  | cons e es ih =>
    cases e with
    | line t =>
      specialize ih h.2
      change readBehind line (t :: allLines es) = _
      by_cases hline : isContinued line = true
      . rw [readBehind_of_continued hline, ih]
      . have ht : isHeader t = false := h.1 (by simpa using hline)
        rw [Bool.not_eq_true] at hline
        rw [readBehind_of_ended hline, readElements_cons_of_line ht, ih]
    | rule r =>
      have hline : isContinued line = false := by simpa using h.1
      have hread : readElements (allLines es) = es := by
        rw [← readBehind_of_ended hline]
        apply ih
        rw [hline]
        exact h.2.2
      rw [readBehind_of_ended hline]
      exact (readElements_rule h.2.1).trans (congrArg _ hread)

theorem readElements_of_isLaidOut {es : List MakeElement} (h : IsLaidOut Rule.IsRead true es)
    : readElements (allLines es) = es := by
  have hnil : isContinued [] = false := rfl
  rw [← readBehind_of_ended hnil]
  exact readBehind_of_isLaidOut h

theorem isLaidOut_append {line : Text} {more : List Text} {es : List MakeElement}
    (hmore : Continue (allLines es) line more) (hes : IsLaidOut Rule.IsRead true es)
    : IsLaidOut Rule.IsRead (!isContinued line) (more.map .line ++ es) := by
  induction more generalizing line with
  | nil =>
    cases hmore with
    | inl hline =>
      rw [hline]
      exact hes
    | inr hnil =>
      rw [allLines_eq_nil_iff.mp hnil]
      trivial
  | cons l more ih =>
    refine ⟨?_, ih hmore.2⟩
    intro hended
    rw [hmore.1] at hended
    contradiction

theorem allLines_map_line (ls : List Text) : allLines (ls.map .line) = ls := by
  induction ls with
  | nil => rfl
  | cons l ls ih => simp [lines, ih]

theorem allLines_readElements (ls : List Text) : allLines (readElements ls) = ls := by
  fun_induction readElements ls with
  | case1 => rfl
  | case2 l ls _ _ hl body ih =>
    rw [allLines_cons, ih]
    simp [lines, Rule.lines, Rule.headerLines, body, takeBody_append, takeContinued_append]
  | case3 l ls _ _ hl ih =>
    rw [allLines_append, allLines_map_line, ih]
    simp [takeContinued_append]

theorem isLaidOut_readElements (ls : List Text) : IsLaidOut Rule.IsRead true (readElements ls) := by
  fun_induction readElements ls with
  | case1 => trivial
  | case2 l ls _ _ hl body ih =>
    refine ⟨rfl, ⟨hl, ?_, ?_⟩, ih⟩
    . rw [allLines_readElements, takeBody_append]
      apply continue_takeContinued
    . rw [allLines_readElements]
      apply isBody_takeBody
  | case3 l ls _ _ hl ih =>
    rw [Bool.not_eq_true] at hl
    refine ⟨fun _ => hl, ?_⟩
    apply isLaidOut_append _ ih
    rw [allLines_readElements]
    apply continue_takeContinued

/-- The text of a makefile is what it was read from, and its elements are the one way to lay out the lines
of the text: every line is in one element, in the order of the text, and a rule is a header and the lines
that its recipe goes on with. -/
theorem elements_read_iff (t : Text)
    : (read t).text = t ∧
      ∀ es, es = (read t).elements ↔ allLines es = t.lines ∧ IsLaidOut Rule.IsRead true es := by
  constructor
  . unfold Makefile.text
    rw [← flatten_allLines]
    unfold read
    rw [allLines_readElements, Text.flatten_lines]
  . intro es
    constructor
    . intro h
      rw [h]
      exact ⟨allLines_readElements t.lines, isLaidOut_readElements t.lines⟩
    . rintro ⟨hlines, hes⟩
      unfold read
      rw [← hlines, readElements_of_isLaidOut hes]

end Makefile

end DebianPackaging
