import DebianPackaging.EditScript
import DebianPackaging.Toml.Cell

/-!
This module contains the update of the items of an array by an edit script. The script is followed from
its end to its start, so that the positions of the steps in front hold while an array changes; items that
are kept are not touched.
-/

namespace DebianPackaging.Toml.Cell

inductive Change (α : Type) where
  | assign (i : Nat) (a : α)
  | delete (i : Nat)
  | insert (i : Nat) (a : α)

def Change.perform (cs : List (Cell α)) : Change α → List (Cell α)
  | assign i a => Cell.assign i a cs
  | delete i => Cell.delete i cs
  | insert i a => Cell.insert i a cs

def assignments (i : Nat) : List α → List (Change α)
  | [] => []
  | a :: as => .assign i a :: assignments (i + 1) as

def deletions (i : Nat) : (n : Nat) → List (Change α)
  | 0 => []
  | n + 1 => .delete (i + n) :: deletions i n

def insertions (i : Nat) : List α → List (Change α)
  | [] => []
  | a :: as => .insert i a :: insertions (i + 1) as

/-- The changes that replace `n` items from the position `i` on: items are assigned for as long as there
are old and new ones, then the rest of the old ones is deleted, or the rest of the new ones inserted. -/
def replacements (i n : Nat) (new : List α) : List (Change α) :=
  let common := min n new.length
  assignments i (new.take common) ++
    (deletions (i + common) (n - common) ++ insertions (i + common) (new.drop common))

def changes (i : Nat) : List (EditStep α) → List (Change α)
  | [] => []
  | .keep n :: ss => changes (i + n) ss
  | .replace n new :: ss => changes (i + n) ss ++ replacements i n new

def update (i : Nat) (ss : List (EditStep α)) (cs : List (Cell α)) : List (Cell α) :=
  (changes i ss).foldl Change.perform cs

end DebianPackaging.Toml.Cell
