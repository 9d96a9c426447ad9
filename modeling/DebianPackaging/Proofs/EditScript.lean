import DebianPackaging.EditScript

/-!
This module contains the proof that the script between two lists leads from the one to the other, and
which items of the first list a script keeps and which it replaces.
-/

namespace DebianPackaging

namespace EditScript

/-- A script steps through all of a list and turns it into another one. -/
inductive Leads : List (EditStep α) → List α → List α → Prop where
  | nil : Leads [] [] []
  | keep (as : List α) {ss : List (EditStep α)} {old new : List α} (h : Leads ss old new)
    : Leads (.keep as.length :: ss) (as ++ old) (as ++ new)
  | replace (as bs : List α) {ss : List (EditStep α)} {old new : List α} (h : Leads ss old new)
    : Leads (.replace as.length bs :: ss) (as ++ old) (bs ++ new)

def kept : List (EditStep α) → List β → List β
  | [], _ => []
  | .keep n :: ss, old => old.take n ++ kept ss (old.drop n)
  | .replace n _ :: ss, old => kept ss (old.drop n)

def replaced : List (EditStep α) → List β → List β
  | [], _ => []
  | .keep n :: ss, old => replaced ss (old.drop n)
  | .replace n _ :: ss, old => old.take n ++ replaced ss (old.drop n)

theorem Leads.append {ss ts : List (EditStep α)} {old new old' new' : List α} (h : Leads ss old new)
    (h' : Leads ts old' new') : Leads (ss ++ ts) (old ++ old') (new ++ new') := by
  induction h with
  | nil => exact h'
  | keep as _ ih =>
    rw [List.append_assoc, List.append_assoc]
    exact .keep as ih
  | replace as bs _ ih =>
    rw [List.append_assoc, List.append_assoc]
    exact .replace as bs ih

theorem mem_of_mem_kept {ss : List (EditStep α)} {old : List β} {b : β} (h : b ∈ kept ss old) : b ∈ old := by
  induction ss generalizing old with
  | nil => cases h
  | cons s ss ih =>
    cases s with
    | keep n =>
      cases List.mem_append.mp h with
      | inl h => exact List.mem_of_mem_take h
      | inr h => exact List.mem_of_mem_drop (ih h)
    | replace n bs => exact List.mem_of_mem_drop (ih h)

theorem mem_of_mem_replaced {ss : List (EditStep α)} {old : List β} {b : β} (h : b ∈ replaced ss old)
    : b ∈ old := by
  induction ss generalizing old with
  | nil => cases h
  | cons s ss ih =>
    cases s with
    | keep n => exact List.mem_of_mem_drop (ih h)
    | replace n bs =>
      cases List.mem_append.mp h with
      | inl h => exact List.mem_of_mem_take h
      | inr h => exact List.mem_of_mem_drop (ih h)

/-- A script does not keep what it replaces, unless it stands in a list more than once. -/
theorem not_mem_kept_of_mem_replaced {ss : List (EditStep α)} {old : List β} (hold : old.Nodup) {b : β}
    (h : b ∈ replaced ss old) : b ∉ kept ss old := by
  induction ss generalizing old with
  | nil => cases h
  | cons s ss ih =>
    have hsplit (n : Nat) := List.nodup_append.mp ((List.take_append_drop n old).symm ▸ hold)
    cases s with
    | keep n =>
      obtain ⟨_, hdrop, hne⟩ := hsplit n
      intro hkept
      cases List.mem_append.mp hkept with
      | inl hkept => exact hne b hkept b (mem_of_mem_replaced h) rfl
      | inr hkept => exact ih hdrop h hkept
    | replace n bs =>
      obtain ⟨_, hdrop, hne⟩ := hsplit n
      intro hkept
      cases List.mem_append.mp h with
      | inl h => exact hne b h b (mem_of_mem_kept hkept) rfl
      | inr h => exact ih hdrop h hkept

theorem replaced_map (f : α → γ) (ss : List (EditStep α)) (old : List β)
    : replaced (ss.map (EditStep.map f)) old = replaced ss old := by
  induction ss generalizing old with
  | nil => rfl
  | cons s ss ih =>
    cases s with
    | keep n => exact ih (old.drop n)
    | replace n bs => exact congrArg _ (ih (old.drop n))

theorem kept_map_items (f : α → β) (ss : List (EditStep γ)) (old : List α)
    : kept ss (old.map f) = (kept ss old).map f := by
  induction ss generalizing old with
  | nil => rfl
  | cons s ss ih =>
    cases s with
    | keep n =>
      unfold kept
      rw [← List.map_take, ← List.map_drop, ih, List.map_append]
    | replace n bs =>
      unfold kept
      rw [← List.map_drop, ih]

theorem Leads.exists_map {f : α → β} {g : β → γ} {g' : α → γ} (hf : ∀ a, g (f a) = g' a)
    {ss : List (EditStep α)} {old new : List α} (h : Leads ss old new) {old' : List β}
    (hold : old'.map g = old.map g')
    : ∃ new', Leads (ss.map (EditStep.map f)) old' new' ∧ new'.map g = new.map g' := by
  induction h generalizing old' with
  | nil =>
    rw [List.map_nil, List.map_eq_nil_iff] at hold
    subst hold
    exact ⟨[], .nil, rfl⟩
  | keep as _ ih =>
    rw [List.map_append] at hold
    obtain ⟨as', old', rfl, has, hold⟩ := List.map_eq_append_iff.mp hold
    obtain ⟨new', hleads, hnew⟩ := ih hold
    have hkeep := Leads.keep as' hleads
    have hlength : as'.length = as.length := by simpa using congrArg List.length has
    rw [hlength] at hkeep
    refine ⟨as' ++ new', hkeep, ?_⟩
    rw [List.map_append, List.map_append, has, hnew]
  | replace as bs _ ih =>
    rw [List.map_append] at hold
    obtain ⟨as', old', rfl, has, hold⟩ := List.map_eq_append_iff.mp hold
    obtain ⟨new', hleads, hnew⟩ := ih hold
    have hreplace := Leads.replace as' (bs.map f) hleads
    have hlength : as'.length = as.length := by simpa using congrArg List.length has
    rw [hlength] at hreplace
    refine ⟨bs.map f ++ new', hreplace, ?_⟩
    rw [List.map_append, List.map_append, hnew, List.map_map]
    congr 1
    exact List.map_congr_left fun b _ => hf b

theorem leads_replace (old new : List α) : Leads [.replace old.length new] old new := by
  have := Leads.replace old new .nil
  rwa [List.append_nil, List.append_nil] at this

theorem take_append_drop_add (as : List α) (i n : Nat)
    : as.take i ++ ((as.drop i).take n ++ as.drop (i + n)) = as := by
  rw [← List.drop_drop, List.take_append_drop, List.take_append_drop]

def IsCommon (old new : List α) (r : Run) : Prop :=
  (old.drop r.oldStart).take r.length = (new.drop r.newStart).take r.length

theorem isCommon_longer {old new : List α} {r s : Run} (hr : IsCommon old new r)
    (hs : IsCommon old new s) : IsCommon old new (longer r s) := by
  unfold longer
  split
  . exact hs
  . exact hr

variable [DecidableEq α]

theorem take_commonLength (as bs : List α)
    : as.take (commonLength as bs) = bs.take (commonLength as bs) := by
  fun_induction commonLength as bs with
  | case1 as b bs ih => rw [List.take_succ_cons, List.take_succ_cons, ih]
  | case2 => rfl
  | case3 => rfl

theorem isCommon_longestHere (old new : List α) : IsCommon old new (longestHere old new) := by
  induction new with
  | nil => rfl
  | cons b bs ih =>
    unfold longestHere
    apply isCommon_longer
    . exact take_commonLength old (b :: bs)
    . exact ih

theorem isCommon_longestRun (old new : List α) : IsCommon old new (longestRun old new) := by
  induction old with
  | nil =>
    cases new <;> rfl
  | cons a as ih =>
    unfold longestRun
    apply isCommon_longer
    . exact isCommon_longestHere (a :: as) new
    . exact ih

theorem leads_between (old new : List α) : Leads (between old new) old new := by
  fun_induction between old new with
  | case1 old new => exact leads_replace old new
  | case2 old new i j n h hle ihfront ihback =>
    -- the run is the same in both lists, so keeping it from the old one puts it into the new one
    have hcommon := isCommon_longestRun old new
    rw [h] at hcommon
    unfold IsCommon at hcommon
    dsimp at hcommon
    have hlength : ((old.drop i).take (n + 1)).length = n + 1 := by
      rw [List.length_take, List.length_drop]
      omega
    have hmiddle := Leads.keep ((old.drop i).take (n + 1)) ihback
    rw [hlength] at hmiddle
    have hleads := ihfront.append hmiddle
    rw [take_append_drop_add] at hleads
    rw [hcommon, take_append_drop_add] at hleads
    exact hleads

end EditScript

end DebianPackaging
