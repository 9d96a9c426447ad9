/-!
This module contains edit scripts, which tell how a list becomes another one: which of its items are kept
and which are replaced. A script is found by keeping the longest run that the lists have in common, and
going on like this on both sides of it.
-/

namespace DebianPackaging

inductive EditStep (α : Type) where
  | keep (count : Nat)
  | replace (count : Nat) (new : List α)
  deriving DecidableEq, Repr

def EditStep.map (f : α → β) : EditStep α → EditStep β
  | keep n => .keep n
  | replace n new => .replace n (new.map f)

namespace EditScript

def apply : List (EditStep α) → List α → List α
  | [], _ => []
  | .keep n :: ss, old => old.take n ++ apply ss (old.drop n)
  | .replace n new :: ss, old => new ++ apply ss (old.drop n)

/-- The number of items of the old list that a script steps through. -/
def span : List (EditStep α) → Nat
  | [] => 0
  | .keep n :: ss => n + span ss
  | .replace n _ :: ss => n + span ss

structure Run where
  oldStart : Nat
  newStart : Nat
  length : Nat
  deriving DecidableEq, Repr

variable [DecidableEq α]

def commonLength : List α → List α → Nat
  | a :: as, b :: bs => if a = b then commonLength as bs + 1 else 0
  | _, _ => 0

theorem commonLength_le_left (as bs : List α) : commonLength as bs ≤ as.length := by
  fun_induction commonLength as bs with
  | case1 => simp only [List.length_cons]; omega
  | case2 => omega
  | case3 => omega

/-- The longer one of two runs; of runs of one length it is the first one. -/
def longer (r s : Run) : Run := if r.length < s.length then s else r

/-- The longest run from the start of the old list on and any place of the new one, and which of those is
first. -/
def longestHere (old : List α) : List α → Run
  | [] => ⟨0, 0, 0⟩
  | b :: bs =>
    let later := longestHere old bs
    longer ⟨0, 0, commonLength old (b :: bs)⟩ { later with newStart := later.newStart + 1 }

theorem oldStart_longestHere (old new : List α) : (longestHere old new).oldStart = 0 := by
  induction new with
  | nil => rfl
  | cons b bs ih =>
    simp only [longestHere, longer]
    split
    . exact ih
    . rfl

theorem length_longestHere_le (old new : List α) : (longestHere old new).length ≤ old.length := by
  induction new with
  | nil => simp [longestHere]
  | cons b bs ih =>
    simp only [longestHere, longer]
    split
    . exact ih
    . exact commonLength_le_left old (b :: bs)

/-- The longest run that two lists have in common; of runs of one length it is the first one in the old
list, and then in the new one. -/
def longestRun : List α → List α → Run
  | [], _ => ⟨0, 0, 0⟩
  | a :: as, new =>
    let later := longestRun as new
    longer (longestHere (a :: as) new) { later with oldStart := later.oldStart + 1 }

theorem longestRun_le (old new : List α)
    : (longestRun old new).oldStart + (longestRun old new).length ≤ old.length := by
  induction old with
  | nil => simp [longestRun]
  | cons a as ih =>
    simp only [longestRun, longer]
    split
    . simp only [List.length_cons]; omega
    . have := length_longestHere_le (a :: as) new
      rw [oldStart_longestHere]
      omega

def between (old new : List α) : List (EditStep α) :=
  match h : longestRun old new with
  | ⟨_, _, 0⟩ => [.replace old.length new]
  | ⟨i, j, n + 1⟩ =>
    have : i + (n + 1) ≤ old.length := by
      have := longestRun_le old new
      rwa [h] at this
    between (old.take i) (new.take j) ++
      .keep (n + 1) :: between (old.drop (i + (n + 1))) (new.drop (j + (n + 1)))
termination_by old.length
decreasing_by
  . simp only [List.length_take]; omega
  . simp only [List.length_drop]; omega

end EditScript

end DebianPackaging
