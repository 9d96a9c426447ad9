import Mathlib.Data.List.Nodup
import DebianPackaging.Toml.Value
import DebianPackaging.Proofs.Toml.Cell

/-!
This module contains the changes that the update of an array makes, one item at a time. Each of them is made
inside the array, and none takes an item away that the script of the update keeps.
-/

namespace DebianPackaging.Toml

namespace Cell

namespace Change

def map (f : α → β) : Change α → Change β
  | assign i a => assign i (f a)
  | delete i => delete i
  | insert i a => insert i (f a)

def IsInside (items : List β) : Change α → Prop
  | assign i _ => i < items.length
  | delete i => i < items.length
  | insert i _ => i ≤ items.length

def Takes (items : List β) (b : β) : Change α → Prop
  | assign i _ => items[i]? = some b
  | delete i => items[i]? = some b
  | insert _ _ => False

structure Spares (old items : List α) (c : Change α) : Prop where
  isInside : c.IsInside items
  mem_of_takes : ∀ a, c.Takes items a → a ∈ old

/-- Each of some changes is made inside the items as they are by then, and takes none that is not in `old`. -/
def AllSpare (old : List α) : List (Cell α) → List (Change α) → Prop
  | _, [] => True
  | cs, c :: rest => c.Spares old (items cs) ∧ AllSpare old (c.perform cs) rest

end Change

open Change

/-- Where the items of an array that had `n` items come from after changes: from a position that the array
had then, or from a change. -/
def origins (n : Nat) (done : List (Change α)) : List (Option Nat) :=
  items ((done.map (Change.map fun _ => none)).foldl perform (ofItems ((List.range n).map some)))

section Map

variable (f : α → β)

theorem assignments_map (i : Nat) (new : List α)
    : assignments i (new.map f) = (assignments i new).map (Change.map f) := by
  induction new generalizing i with
  | nil => rfl
  | cons a new ih => exact congrArg _ (ih (i + 1))

theorem deletions_map (i n : Nat) : deletions i n = (deletions i n).map (Change.map f) := by
  induction n with
  | zero => rfl
  | succ n ih => exact congrArg _ ih

theorem insertions_map (i : Nat) (new : List α)
    : insertions i (new.map f) = (insertions i new).map (Change.map f) := by
  induction new generalizing i with
  | nil => rfl
  | cons a new ih => exact congrArg _ (ih (i + 1))

theorem replacements_map (i n : Nat) (new : List α)
    : replacements i n (new.map f) = (replacements i n new).map (Change.map f) := by
  unfold replacements
  dsimp
  rw [List.length_map, ← List.map_take, ← List.map_drop, assignments_map, insertions_map,
    deletions_map f, List.map_append, List.map_append]

theorem changes_map (i : Nat) (ss : List (EditStep α))
    : changes i (ss.map (EditStep.map f)) = (changes i ss).map (Change.map f) := by
  induction ss generalizing i with
  | nil => rfl
  | cons s ss ih =>
    cases s with
    | keep n => exact ih (i + n)
    | replace n new =>
      rw [List.map_cons, EditStep.map]
      unfold changes
      rw [ih, replacements_map, List.map_append]

end Map

namespace Change

theorem allSpare_append {old : List α} {cs : List (Cell α)} {before after : List (Change α)}
    : AllSpare old cs (before ++ after)
        ↔ AllSpare old cs before ∧ AllSpare old (before.foldl perform cs) after := by
  induction before generalizing cs with
  | nil => simp [AllSpare]
  | cons c before ih => simp [AllSpare, ih, and_assoc]

theorem AllSpare.mono {old old' : List α} (hold : ∀ a ∈ old, a ∈ old') {cs : List (Cell α)}
    {rest : List (Change α)} (h : AllSpare old cs rest) : AllSpare old' cs rest := by
  induction rest generalizing cs with
  | nil => trivial
  | cons c rest ih => exact ⟨⟨h.1.isInside, fun a ha => hold a (h.1.mem_of_takes a ha)⟩, ih h.2⟩

theorem AllSpare.spares {old : List α} {cs : List (Cell α)} {before after : List (Change α)}
    {c : Change α} (h : AllSpare old cs (before ++ c :: after))
    : c.Spares old (items (before.foldl perform cs)) :=
  (allSpare_append.mp h).2.1

end Change

section Spare

variable {before behind : List α} {cs : List (Cell α)}

theorem allSpare_assignments {new old : List α} (hlength : old.length = new.length)
    (h : items cs = before ++ (old ++ behind)) : AllSpare old cs (assignments before.length new) := by
  induction new generalizing before old cs with
  | nil => trivial
  | cons a new ih =>
    obtain ⟨b, old, rfl⟩ := List.exists_cons_of_length_eq_add_one hlength
    have hrest := ih (by simpa using hlength) (items_assign_of_append h a)
    rw [List.length_append, List.length_singleton] at hrest
    refine ⟨⟨?_, ?_⟩, hrest.mono fun _ => List.mem_cons_of_mem b⟩
    . simp [IsInside, h]
    . intro x hx
      have hx : b = x := by simpa [Takes, h] using hx
      simp [hx]

theorem allSpare_deletions {old : List α} (h : items cs = before ++ (old ++ behind))
    : AllSpare old cs (deletions before.length old.length) := by
  induction old using List.reverseRecOn generalizing cs with
  | nil => trivial
  | append_singleton old a ih =>
    rw [List.length_append, List.length_singleton]
    refine ⟨⟨?_, ?_⟩, (ih (items_delete_last h)).mono fun _ => List.mem_append_left [a]⟩
    . simp [IsInside, h]
    . intro x hx
      have hx : a = x := by simpa [Takes, h] using hx
      simp [hx]

theorem allSpare_insertions (new : List α) (h : items cs = before ++ behind)
    : AllSpare [] cs (insertions before.length new) := by
  induction new generalizing before cs with
  | nil => trivial
  | cons a new ih =>
    have hrest := ih (items_insert_of_append h a)
    rw [List.length_append, List.length_singleton] at hrest
    refine ⟨⟨?_, nofun⟩, hrest⟩
    simp [IsInside, h]

theorem allSpare_replacements {old new : List α} (h : items cs = before ++ (old ++ behind))
    : AllSpare old cs (replacements before.length old.length new) := by
  unfold replacements
  generalize hn : min old.length new.length = n
  dsimp
  have hlength : (before ++ new.take n).length = before.length + n := by
    rw [List.length_append, List.length_take, Nat.min_eq_left (by omega)]
  have hdelete := allSpare_deletions (items_assignCommon hn h)
  have hinsert := allSpare_insertions (new.drop n) (items_deleteRest hn h)
  rw [hlength, List.length_drop] at hdelete
  rw [hlength] at hinsert
  rw [allSpare_append, allSpare_append]
  refine ⟨?_, hdelete.mono fun _ => List.mem_of_mem_drop, hinsert.mono nofun⟩
  have hcommon : (old.take n).length = (new.take n).length := by
    rw [List.length_take, List.length_take]
    omega
  rw [← List.take_append_drop n old, List.append_assoc] at h
  exact (allSpare_assignments hcommon h).mono fun _ => List.mem_of_mem_take

theorem allSpare_changes {ss : List (EditStep α)} {old new : List α} (hs : EditScript.Leads ss old new)
    (h : items cs = before ++ old)
    : AllSpare (EditScript.replaced ss old) cs (changes before.length ss) := by
  induction hs generalizing before cs with
  | nil => trivial
  | keep as _ ih =>
    unfold changes EditScript.replaced
    rw [← List.append_assoc] at h
    rw [← List.length_append, List.drop_left]
    exact ih h
  | replace as bs hs ih =>
    unfold changes EditScript.replaced
    rw [← List.append_assoc] at h
    rw [← List.length_append, List.drop_left, List.take_left, allSpare_append]
    -- the steps behind are done by now, and have left everything in front of them where it was
    have hitems := items_update hs h
    rw [List.append_assoc] at hitems
    refine ⟨(ih h).mono fun _ => List.mem_append_right as, ?_⟩
    exact (allSpare_replacements hitems).mono fun _ => List.mem_append_left _

end Spare

namespace Change

theorem takes_map (f : α → β) (c : Change α) (as : List γ) (a : γ)
    : (c.map f).Takes as a ↔ c.Takes as a := by
  cases c <;> rfl

end Change

theorem exists_origin {ss : List (EditStep α)} {old new : List α} (hs : EditScript.Leads ss old new)
    {f : α → β} {done rest : List (Change β)} {c : Change β}
    (h : changes 0 (ss.map (EditStep.map f)) = done ++ c :: rest) {o : Option Nat}
    (ho : c.Takes (origins old.length done) o)
    : ∃ k < old.length, o = some k ∧ k ∉ EditScript.kept ss (List.range old.length) := by
  -- the same changes are made to an array of the positions, where nothing stands twice
  generalize hpositions : (List.range old.length).map some = positions
  have hnodup : positions.Nodup := by
    rw [← hpositions]
    exact List.Nodup.map (fun _ _ => Option.some.inj) List.nodup_range
  have hlength : positions.map (fun _ => ()) = old.map (fun _ => ()) := by
    rw [← hpositions, List.map_const', List.map_const']
    simp
  obtain ⟨_, hleads, _⟩ := hs.exists_map (f := fun _ => none) (fun _ => rfl) hlength
  have hchanges : changes 0 (ss.map (EditStep.map fun _ => (none : Option Nat)))
      = (done ++ c :: rest).map (Change.map fun _ => none) := by
    rw [← h, changes_map, changes_map, List.map_map]
    exact List.map_congr_left fun c _ => by cases c <;> rfl
  have hspare := @allSpare_changes _ [] _ _ _ _ hleads (items_ofItems positions)
  rw [List.length_nil, hchanges, List.map_append, List.map_cons, EditScript.replaced_map] at hspare
  have hmem := hspare.spares.mem_of_takes o
  rw [takes_map, ← hpositions] at hmem
  specialize hmem ho
  rw [hpositions] at hmem
  have hkept := EditScript.not_mem_kept_of_mem_replaced hnodup hmem
  have hposition := EditScript.mem_of_mem_replaced hmem
  rw [← hpositions] at hposition hkept
  obtain ⟨k, hk, rfl⟩ := List.mem_map.mp hposition
  rw [EditScript.kept_map_items] at hkept
  exact ⟨k, List.mem_range.mp hk, rfl, fun h => hkept (List.mem_map_of_mem h)⟩

/-- An update of an array of texts makes it hold the texts that the script leads to. Each of its changes is
made inside the array as it is by then, and takes away an item that was there at first and that the script
does not keep. -/
theorem spares_update {ss : List (EditStep Text)} {old new : List Text} {cells : List (Cell Value)}
    (hs : EditScript.Leads ss old new) (hold : (items cells).map (·.string?) = old.map some)
    : let script := ss.map (EditStep.map Value.ofText)
      (items (update 0 script cells)).map (·.string?) = new.map some ∧
        (changes 0 script).foldl perform cells = update 0 script cells ∧
        ∀ done c rest, changes 0 script = done ++ c :: rest →
          c.IsInside (items (done.foldl perform cells)) ∧
          ∀ o, c.Takes (origins old.length done) o →
            ∃ k < old.length, o = some k ∧ k ∉ EditScript.kept ss (List.range old.length) := by
  obtain ⟨vs, hleads, hvs⟩ := hs.exists_map (f := Value.ofText) (by intro _; rfl) hold
  have hitems := @items_update _ _ _ _ hleads [] cells rfl
  have hspare := @allSpare_changes _ [] cells _ _ _ hleads rfl
  dsimp only
  refine ⟨?_, rfl, ?_⟩
  . rw [← hvs]
    exact congrArg _ hitems
  . intro done c rest h
    rw [List.length_nil, h] at hspare
    exact ⟨hspare.spares.isInside, fun o ho => exists_origin hs h ho⟩

theorem spares_update_of_comment
    : let cells : List (Cell Value) := [
        { indent := some "\n ", content := .item (.ofText "a"), comma := some "," },
        { indent := some "\n ", content := .item (.ofText "b"), comma := some ",", comment := some " # b" },
        { indent := some "\n ", content := .item (.ofText "c"), comma := some "," },
        { indent := some "\n ", content := .item (.ofText "d") }]
      let ss : List (EditStep Text) := [.keep 1, .replace 1 ["x", "y"], .keep 1, .replace 1 []]
      let old : List Text := ["a", "b", "c", "d"]
      let new : List Text := ["a", "x", "y", "c"]
      let script := ss.map (EditStep.map Value.ofText)
      EditScript.Leads ss old new ∧ (items cells).map (·.string?) = old.map some ∧
        (items (update 0 script cells)).map (·.string?) = new.map some ∧
        (changes 0 script).foldl perform cells = update 0 script cells ∧
        ∀ done c rest, changes 0 script = done ++ c :: rest →
          c.IsInside (items (done.foldl perform cells)) ∧
          ∀ o, c.Takes (origins old.length done) o → ∃ k < old.length, o = some k ∧ k ∉ [0, 2] := by
  intro cells ss old new script
  have hs : EditScript.Leads ss old new :=
    @EditScript.Leads.keep Text ["a"] _ _ _ (@EditScript.Leads.replace Text ["b"] ["x", "y"] _ _ _
      (@EditScript.Leads.keep Text ["c"] _ _ _ (@EditScript.Leads.replace Text ["d"] [] _ _ _ .nil)))
  have hold : (items cells).map (·.string?) = old.map some := rfl
  exact ⟨hs, hold, spares_update hs hold⟩

end Cell

end DebianPackaging.Toml
