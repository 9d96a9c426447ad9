import Mathlib.Data.List.Induction
import DebianPackaging.Toml.Update
import DebianPackaging.Proofs.EditScript

/-!
This module contains what the edits of an array do to its items, however the cells are laid out: the
array behaves as the list of its items.
-/

namespace DebianPackaging.Toml

namespace Cell

open Change

@[simp]
theorem items_nil : items ([] : List (Cell α)) = [] := rfl

@[simp]
theorem items_append (cs ds : List (Cell α)) : items (cs ++ ds) = items cs ++ items ds := by
  unfold items
  rw [List.filterMap_append]

theorem items_cons (c : Cell α) (cs : List (Cell α)) : items (c :: cs) = c.item?.toList ++ items cs := by
  unfold items
  rw [List.filterMap_cons]
  cases c.item? <;> rfl

theorem length_items_le (cs : List (Cell α)) : (items cs).length ≤ cs.length := by
  unfold items
  apply List.length_filterMap_le

theorem items_modify {f : Cell α → Cell α} (hf : ∀ c, (f c).item? = c.item?) (k : Nat)
    (cs : List (Cell α)) : items (cs.modify k f) = items cs := by
  induction cs generalizing k with
  | nil => simp
  | cons c cs ih =>
    cases k with
    | zero =>
      rw [List.modify_zero_cons, items_cons, items_cons, hf]
    | succ k =>
      rw [List.modify_succ_cons, items_cons, items_cons, ih]

theorem position?_eq_some {i k : Nat} {cs : List (Cell α)} (h : position? i cs = some k)
    : ∃ before c behind a, cs = before ++ c :: behind ∧ before.length = k ∧ c.item? = some a ∧
        (items before).length = i := by
  induction cs generalizing i k with
  | nil => cases h
  | cons c cs ih =>
    unfold position? at h
    cases hc : c.item? with
    | none =>
      rw [hc] at h
      obtain ⟨k', hk', rfl⟩ := Option.map_eq_some_iff.mp h
      obtain ⟨before, c', behind, a, rfl, rfl, hc', rfl⟩ := ih hk'
      refine ⟨c :: before, c', behind, a, rfl, rfl, hc', ?_⟩
      rw [items_cons, hc]
      rfl
    | some a =>
      rw [hc] at h
      cases i with
      | zero =>
        cases h
        exact ⟨[], c, cs, a, rfl, rfl, hc, rfl⟩
      | succ i =>
        obtain ⟨k', hk', rfl⟩ := Option.map_eq_some_iff.mp h
        obtain ⟨before, c', behind, a', rfl, rfl, hc', rfl⟩ := ih hk'
        refine ⟨c :: before, c', behind, a', rfl, rfl, hc', ?_⟩
        rw [items_cons, hc, List.length_append, Nat.add_comm]
        rfl

theorem position?_eq_none {i : Nat} {cs : List (Cell α)} (h : position? i cs = none)
    : (items cs).length ≤ i := by
  induction cs generalizing i with
  | nil => simp
  | cons c cs ih =>
    unfold position? at h
    rw [items_cons]
    cases hc : c.item? with
    | none =>
      rw [hc] at h
      exact ih (Option.map_eq_none_iff.mp h)
    | some a =>
      rw [hc] at h
      cases i with
      | zero => cases h
      | succ i =>
        have := ih (Option.map_eq_none_iff.mp h)
        simp only [Option.toList_some, List.length_append, List.length_singleton]
        omega

theorem items_assign {i : Nat} {a : α} {cs : List (Cell α)}
    : items (assign i a cs) = (items cs).set i a := by
  unfold assign
  cases h : position? i cs with
  | none => rw [List.set_eq_of_length_le (position?_eq_none h)]
  | some k =>
    obtain ⟨before, c, behind, a', rfl, rfl, hc, rfl⟩ := position?_eq_some h
    have hmodify : (before ++ c :: behind).modify before.length
        (fun c => { c with content := .item a }) =
          before ++ { c with content := .item a } :: behind := by
      rw [List.modify_eq_take_cons_drop (by simp)]
      simp
    dsimp
    rw [hmodify, items_append, items_append, items_cons, items_cons, hc,
      List.set_append_right _ _ (Nat.le_refl _), Nat.sub_self]
    rfl

theorem items_insertion (i : Nat) (cs : List (Cell α))
    : items (cs.take (insertion i cs).position) = (items cs).take i ∧
      items (cs.drop (insertion i cs).position) = (items cs).drop i := by
  unfold insertion
  cases h : position? i cs with
  | some k =>
    obtain ⟨before, c, behind, a, rfl, rfl, hc, rfl⟩ := position?_eq_some h
    simp
  | none =>
    have hle := position?_eq_none h
    rw [List.take_of_length_le hle, List.drop_of_length_le hle]
    dsimp
    split
    . next c hlast =>
      obtain ⟨ds, rfl⟩ := List.getLast?_eq_some_iff.mp hlast
      split
      . next hblank =>
        have hc : c.item? = none := by
          unfold isBlank at hblank
          unfold item?
          split at hblank
          . next hcontent => rw [hcontent]
          . cases hblank
        simp [items_cons, hc]
      . rw [List.take_of_length_le (Nat.le_refl _), List.drop_of_length_le (Nat.le_refl _)]
        exact ⟨rfl, rfl⟩
    . next hlast =>
      rw [List.getLast?_eq_none_iff.mp hlast]
      simp

theorem items_insert (i : Nat) (a : α) (cs : List (Cell α))
    : items (insert i a cs) = (items cs).take i ++ a :: (items cs).drop i := by
  obtain ⟨hbefore, hbehind⟩ := items_insertion i cs
  -- the new cell stands between the two parts, and the cell behind it changes its layout only
  unfold insert
  dsimp
  rw [items_append, items_modify, items_cons, hbefore, hbehind]
  . rfl
  . intro c
    split <;> rfl

theorem items_dropIndentComma (cs : List (Cell α)) : items (dropIndentComma cs) = items cs := by
  induction cs with
  | nil => rfl
  | cons c cs ih =>
    unfold dropIndentComma
    split
    . rw [items_cons, items_cons]
      rfl
    . rw [items_cons, items_cons, ih]

theorem items_modifyFirst {f : Cell α → Cell α} (hf : ∀ c, (f c).item? = c.item?)
    (cs : List (Cell α)) : items (modifyFirst f cs) = items cs := by
  cases cs with
  | nil => rfl
  | cons c cs =>
    unfold modifyFirst
    rw [items_cons, items_cons, hf]

theorem item?_addIndentComma (c : Cell α) : (addIndentComma c).item? = c.item? := by
  unfold addIndentComma
  dsimp
  split
  . rfl
  . split <;> rfl

theorem items_closeUp (deleted : Cell α) (first : Bool) (behind : List (Cell α))
    : items (closeUp deleted first behind) = items behind := by
  have hfirst : ∀ cs : List (Cell α), items (modifyFirst
      (fun c => if c.indentHas '\n' then c else { c with indent := none }) cs) = items cs := by
    intro cs
    apply items_modifyFirst
    intro c
    split <;> rfl
  have hline : ∀ cs : List (Cell α), items (modifyFirst
      (fun c => if c.indentHas '\n' then c else { c with indent := deleted.indent }) cs) = items cs := by
    intro cs
    apply items_modifyFirst
    intro c
    split <;> rfl
  have hcomma := items_modifyFirst (@item?_addIndentComma α)
  unfold closeUp
  dsimp
  cases first <;> cases deleted.indentHas ',' <;> cases (deleted.comma.getD []).contains ',' <;>
    cases deleted.indentHas '\n' <;> simp [hfirst, hline, hcomma, items_dropIndentComma]

theorem items_delete {i : Nat} {cs : List (Cell α)} : items (delete i cs) = (items cs).eraseIdx i := by
  unfold delete
  cases h : position? i cs with
  | none => rw [List.eraseIdx_of_length_le (position?_eq_none h)]
  | some k =>
    obtain ⟨before, c, behind, a, rfl, rfl, hc, rfl⟩ := position?_eq_some h
    dsimp
    rw [List.getElem?_append_right (Nat.le_refl _), Nat.sub_self, List.getElem?_cons_zero]
    unfold dropLastComma
    rw [items_modify, items_append, items_closeUp]
    . simp [items_cons, hc, List.eraseIdx_append_of_length_le (Nat.le_refl _)]
    . intro c
      split <;> rfl

section Replace

variable {before behind : List α} {cs : List (Cell α)}

theorem items_assign_of_append {b : α} (h : items cs = before ++ b :: behind) (a : α)
    : items (assign before.length a cs) = (before ++ [a]) ++ behind := by
  rw [items_assign, h, List.set_append_right _ _ (Nat.le_refl _), Nat.sub_self]
  simp

theorem items_delete_of_append {b : α} (h : items cs = before ++ b :: behind)
    : items (delete before.length cs) = before ++ behind := by
  rw [items_delete, h, List.eraseIdx_append_of_length_le (Nat.le_refl _), Nat.sub_self]
  rfl

theorem items_insert_of_append (h : items cs = before ++ behind) (a : α)
    : items (insert before.length a cs) = (before ++ [a]) ++ behind := by
  rw [items_insert, h]
  simp

theorem items_delete_last {old : List α} {b : α} (h : items cs = before ++ ((old ++ [b]) ++ behind))
    : items (delete (before.length + old.length) cs) = before ++ (old ++ behind) := by
  rw [← List.length_append, ← List.append_assoc]
  apply items_delete_of_append (b := b)
  rw [h]
  simp

theorem items_assignments {new old : List α} (hlength : old.length = new.length)
    (h : items cs = before ++ (old ++ behind))
    : items ((assignments before.length new).foldl perform cs) = before ++ (new ++ behind) := by
  induction new generalizing before old cs with
  | nil =>
    rw [List.length_nil, List.length_eq_zero_iff] at hlength
    rw [hlength] at h
    exact h
  | cons a new ih =>
    obtain ⟨b, old, rfl⟩ := List.exists_cons_of_length_eq_add_one hlength
    unfold assignments
    rw [List.foldl_cons]
    have hrest := ih (by simpa using hlength) (items_assign_of_append h a)
    rw [List.length_append, List.length_singleton] at hrest
    exact hrest.trans (by simp)

theorem items_deletions {old : List α} (h : items cs = before ++ (old ++ behind))
    : items ((deletions before.length old.length).foldl perform cs) = before ++ behind := by
  -- the items are deleted from the last one on, so that those in front keep their positions
  induction old using List.reverseRecOn generalizing cs with
  | nil => exact h
  | append_singleton old a ih =>
    rw [List.length_append, List.length_singleton]
    exact ih (items_delete_last h)

theorem items_insertions (new : List α) (h : items cs = before ++ behind)
    : items ((insertions before.length new).foldl perform cs) = before ++ (new ++ behind) := by
  induction new generalizing before cs with
  | nil => exact h
  | cons a new ih =>
    unfold insertions
    rw [List.foldl_cons]
    have hrest := ih (items_insert_of_append h a)
    rw [List.length_append, List.length_singleton] at hrest
    exact hrest.trans (by simp)

section Common

variable {old new : List α} {n : Nat} (hn : min old.length new.length = n)
  (h : items cs = before ++ (old ++ behind))

include hn h

theorem items_assignCommon
    : items ((assignments before.length (new.take n)).foldl perform cs) =
        (before ++ new.take n) ++ (old.drop n ++ behind) := by
  have hlength : (old.take n).length = (new.take n).length := by
    rw [List.length_take, List.length_take]
    omega
  have hitems : items cs = before ++ (old.take n ++ (old.drop n ++ behind)) := by
    rw [h, ← List.append_assoc (old.take n), List.take_append_drop]
  rw [List.append_assoc]
  exact items_assignments hlength hitems

theorem items_deleteRest
    : items ((deletions (before.length + n) (old.length - n)).foldl perform
        ((assignments before.length (new.take n)).foldl perform cs)) =
        (before ++ new.take n) ++ behind := by
  have hdelete := items_deletions (items_assignCommon hn h)
  rw [List.length_append, List.length_take, List.length_drop, Nat.min_eq_left (by omega)] at hdelete
  exact hdelete

end Common

theorem items_replacements {old new : List α} (h : items cs = before ++ (old ++ behind))
    : items ((replacements before.length old.length new).foldl perform cs) =
        before ++ (new ++ behind) := by
  unfold replacements
  -- the first `n` items are assigned; after that items are left over on one side at most
  generalize hn : min old.length new.length = n
  dsimp
  have hinsert := items_insertions (new.drop n) (items_deleteRest hn h)
  rw [List.length_append, List.length_take, Nat.min_eq_left (by omega)] at hinsert
  rw [List.foldl_append, List.foldl_append, hinsert, List.append_assoc,
    ← List.append_assoc (new.take n), List.take_append_drop]

end Replace

theorem items_update {ss : List (EditStep α)} {old new : List α} (hs : EditScript.Leads ss old new)
    {before : List α} {cs : List (Cell α)} (h : items cs = before ++ old)
    : items (update before.length ss cs) = before ++ new := by
  induction hs generalizing before cs with
  | nil => exact h
  | keep as _ ih =>
    unfold update changes
    rw [← List.append_assoc] at h ⊢
    rw [← List.length_append]
    exact ih h
  | replace as bs _ ih =>
    unfold update changes
    rw [← List.append_assoc] at h
    rw [← List.length_append, List.foldl_append]
    apply items_replacements
    rw [← List.append_assoc]
    exact ih h

theorem items_ofItems (as : List α) : items (ofItems as) = as := by
  -- an insertion behind all cells is one behind all items, as there are no more items than cells
  have happend : ∀ cs : List (Cell α),
      items (as.foldl (fun cs a => insert cs.length a cs) cs) = items cs ++ as := by
    induction as with
    | nil => simp
    | cons a as ih =>
      intro cs
      rw [List.foldl_cons, ih, items_insert, List.take_of_length_le (length_items_le cs),
        List.drop_of_length_le (length_items_le cs)]
      simp
  exact happend []

end Cell

end DebianPackaging.Toml
