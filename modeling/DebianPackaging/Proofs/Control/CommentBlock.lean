import DebianPackaging.Proofs.Control.Comment

/-!
This module contains how comment lines are put into a new value. Each block of comments goes in front of
one line behind the first one, and a value with comments in between is cut into the same lines again.
-/

namespace DebianPackaging

open Text
open ControlDocument (isComment isContinuation takeContinuation)

namespace CommentBlock

theorem flatMap_lines_ofLines {position : Nat} {pending ls : List Text}
    (hlast : ∀ l ∈ ls.getLast?, isComment l = false) (hne : pending = [] ∨ ls ≠ [])
    : (ofLines position pending ls).flatMap (·.lines) = pending ++ ls.filter isComment := by
  induction ls generalizing position pending with
  | nil =>
    rw [hne.resolve_right (by simp)]
    rfl
  | cons l ls ih =>
    have hlast' : ∀ l' ∈ ls.getLast?, isComment l' = false := by
      intro l' hl'
      apply hlast
      simp [List.getLast?_cons, Option.mem_def.mp hl']
    unfold ofLines
    split
    . next hl =>
      have hls : ls ≠ [] := by
        rintro rfl
        rw [hlast l rfl] at hl
        cases hl
      rw [ih hlast' (.inr hls), List.filter_cons_of_pos hl, List.append_assoc]
      rfl
    . next hl =>
      rw [List.filter_cons_of_neg hl]
      dsimp only
      split
      . next hpending =>
        rw [List.isEmpty_iff.mp hpending]
        exact ih hlast' (.inl rfl)
      . rw [List.flatMap_cons, ih hlast' (.inl rfl)]
        rfl

theorem of_mem_ofLines {position : Nat} {pending ls : List Text} {b : CommentBlock}
    (h : b ∈ ofLines position pending ls) : position ≤ b.position ∧ b.lines ≠ [] := by
  induction ls generalizing position pending with
  | nil => cases h
  | cons l ls ih =>
    unfold ofLines at h
    split at h
    . exact ih h
    . dsimp only at h
      split at h
      . obtain ⟨hposition, hlines⟩ := ih h
        exact ⟨by omega, hlines⟩
      . next hpending =>
        cases List.mem_cons.mp h with
        | inl h =>
          rw [h]
          refine ⟨Nat.le_refl _, ?_⟩
          rw [List.isEmpty_iff] at hpending
          exact hpending
        | inr h =>
          obtain ⟨hposition, hlines⟩ := ih h
          exact ⟨by omega, hlines⟩

theorem target_bounds {b : CommentBlock} {ls : List Text} (hposition : 1 ≤ b.position)
    (hlength : 2 ≤ ls.length) : 1 ≤ b.target ls ∧ b.target ls < ls.length := by
  unfold target
  split
  . next i hi =>
    have hlt := (List.findIdx?_eq_some_iff_getElem.mp hi).1
    rw [List.length_drop] at hlt
    omega
  . omega

def commentsAt (blocks : List CommentBlock) (ls : List Text) (i : Nat) : List Text :=
  (blocks.filter fun b => b.target ls == i).flatMap (·.lines)

/-- The lines of a value behind the first one, each with the comments that go in front of it. -/
def rows (blocks : List CommentBlock) (ls : List Text) : List (List Text × Text) :=
  (ls.tail.zipIdx 1).map fun (l, i) => (commentsAt blocks ls i, l)

def joinRows (rows : List (List Text × Text)) : List Text := rows.flatMap fun r => r.1 ++ [r.2]

theorem joinRows_cons (r : List Text × Text) (rows : List (List Text × Text))
    : joinRows (r :: rows) = r.1 ++ r.2 :: joinRows rows := by
  unfold joinRows
  rw [List.flatMap_cons, List.append_assoc]
  rfl

theorem insertAll_cons {blocks : List CommentBlock} {l : Text} {ls : List Text}
    (h : ∀ b ∈ blocks, 1 ≤ b.target (l :: ls))
    : insertAll blocks (l :: ls) = l :: joinRows (rows blocks (l :: ls)) := by
  have hnone : commentsAt blocks (l :: ls) 0 = [] := by
    unfold commentsAt
    rw [List.filter_eq_nil_iff.mpr]
    . rfl
    . intro b hb htarget
      rw [beq_iff_eq] at htarget
      have := h b hb
      omega
  unfold insertAll
  rw [List.zipIdx_cons, List.flatMap_cons]
  change commentsAt blocks (l :: ls) 0 ++ [l] ++ _ = _
  rw [hnone, List.nil_append, List.singleton_append]
  unfold joinRows rows
  rw [List.flatMap_map]
  rfl

theorem map_rows (blocks : List CommentBlock) (l : Text) (ls : List Text)
    : (rows blocks (l :: ls)).map (·.2) = ls := by
  unfold rows
  rw [List.map_map]
  exact List.zipIdx_map_fst 1 ls

theorem mem_of_mem_rows {blocks : List CommentBlock} {ls : List Text} {r : List Text × Text}
    (hr : r ∈ rows blocks ls) {c : Text} (hc : c ∈ r.1) : c ∈ blocks.flatMap (·.lines) := by
  obtain ⟨x, _, rfl⟩ := List.mem_map.mp hr
  obtain ⟨b, hb, hcb⟩ := List.mem_flatMap.mp hc
  exact List.mem_flatMap.mpr ⟨b, (List.mem_filter.mp hb).1, hcb⟩

end CommentBlock

theorem filter_append_filter_perm {p q : α → Bool} {items : List α}
    (h : ∀ a ∈ items, p a = true → q a = false)
    : (items.filter p ++ items.filter q).Perm (items.filter fun a => p a || q a) := by
  have hp : (items.filter fun a => p a && (p a || q a)) = items.filter p := by
    apply List.filter_congr
    intro a _
    cases p a <;> rfl
  have hq : (items.filter fun a => !p a && (p a || q a)) = items.filter q := by
    apply List.filter_congr
    intro a ha
    cases hpa : p a with
    | true => rw [h a ha hpa]; rfl
    | false => rfl
  have hperm := List.filter_append_perm p (items.filter fun a => p a || q a)
  rw [List.filter_filter, List.filter_filter, hp, hq] at hperm
  exact hperm

theorem perm_flatMap_filter_zipIdx (items : List α) (place : α → Nat) (p : β → Bool) (xs : List β)
    (n : Nat)
    : (((xs.zipIdx n).filter fun x => p x.1).flatMap fun x => items.filter fun a => place a == x.2).Perm
        (items.filter fun a => decide (n ≤ place a) && (xs[place a - n]?).any p) := by
  induction xs generalizing n with
  | nil => simp
  | cons x xs ih =>
    -- an item has its place at the front or behind it
    have hsplit : items.filter (fun a => decide (n ≤ place a) && ((x :: xs)[place a - n]?).any p) =
        items.filter fun a => (place a == n && p x) ||
          (decide (n + 1 ≤ place a) && (xs[place a - (n + 1)]?).any p) := by
      apply List.filter_congr
      intro a _
      rcases Nat.lt_trichotomy (place a) n with hlt | heq | hgt
      . simp [Nat.not_le.mpr hlt, Nat.ne_of_lt hlt, Nat.not_le.mpr (Nat.lt_succ_of_lt hlt)]
      . simp [heq]
      . obtain ⟨k, hk⟩ : ∃ k, place a - n = k + 1 := ⟨place a - n - 1, by omega⟩
        have hk' : place a - (n + 1) = k := by omega
        simp [hk, hk', Nat.le_of_lt hgt, Nat.ne_of_gt hgt, Nat.succ_le_of_lt hgt]
    have hfront : items.filter (fun a => place a == n && p x) =
        (if p x then items.filter (fun a => place a == n) else []) := by
      split
      . next hx => simp [hx]
      . next hx => simp [hx]
    rw [hsplit]
    refine List.Perm.trans ?_ (filter_append_filter_perm ?_)
    . rw [List.zipIdx_cons, hfront]
      by_cases hx : p x = true
      . rw [List.filter_cons_of_pos (by exact hx), List.flatMap_cons, if_pos hx]
        exact (ih (n + 1)).append_left _
      . rw [List.filter_cons_of_neg (by exact hx), if_neg hx]
        exact ih (n + 1)
    . intro a _ ha
      rw [Bool.and_eq_true, beq_iff_eq] at ha
      simp [ha.1]

namespace CommentBlock

def hasPlace (ls : List Text) (b : CommentBlock) : Bool := (ls[b.target ls]?).any isContinuation

theorem perm_comments_rows {blocks : List CommentBlock} {l : Text} {ls : List Text}
    (h : ∀ b ∈ blocks, 1 ≤ b.target (l :: ls))
    : (((rows blocks (l :: ls)).filter fun r => isContinuation r.2).flatMap (·.1)).Perm
        ((blocks.filter (hasPlace (l :: ls))).flatMap (·.lines)) := by
  have hperm := (perm_flatMap_filter_zipIdx blocks (fun b => b.target (l :: ls)) isContinuation ls
    1).flatMap_right (·.lines)
  rw [List.flatMap_assoc] at hperm
  have hplace : blocks.filter (hasPlace (l :: ls)) = blocks.filter fun b =>
      decide (1 ≤ b.target (l :: ls)) && (ls[b.target (l :: ls) - 1]?).any isContinuation := by
    apply List.filter_congr
    intro b hb
    have hpos := h b hb
    obtain ⟨k, hk⟩ := Nat.exists_eq_add_of_le' hpos
    unfold hasPlace
    simp [hk]
  rw [hplace]
  refine List.Perm.trans (List.Perm.of_eq ?_) hperm
  unfold rows commentsAt
  rw [List.filter_map, List.flatMap_map]
  rfl

theorem forall_count_eq_iff {blocks : List CommentBlock} (hne : ∀ b ∈ blocks, b.lines ≠ [])
    (p : CommentBlock → Bool)
    : (∀ l ∈ blocks.flatMap (·.lines),
          ((blocks.filter p).flatMap (·.lines)).count l = (blocks.flatMap (·.lines)).count l) ↔
        ∀ b ∈ blocks, p b = true := by
  constructor
  . intro h b hb
    rw [← Bool.not_eq_false]
    intro hp
    obtain ⟨l, hl⟩ := List.exists_mem_of_ne_nil _ (hne b hb)
    have hcount := h l (List.mem_flatMap.mpr ⟨b, hb, hl⟩)
    have hperm := ((List.filter_append_perm p blocks).flatMap_right (·.lines)).count_eq l
    rw [List.flatMap_append, List.count_append, hcount] at hperm
    have hpos : 0 < ((blocks.filter fun b => !p b).flatMap (·.lines)).count l := by
      apply List.count_pos_iff.mpr
      exact List.mem_flatMap.mpr ⟨b, List.mem_filter.mpr ⟨hb, by simp [hp]⟩, hl⟩
    omega
  . intro h l _
    rw [List.filter_eq_self.mpr h]

end CommentBlock

namespace ControlDocument

open CommentBlock

theorem takeContinuation_append_cons {comments rest : List Text} {l : Text}
    (hcomments : ∀ c ∈ comments, isComment c = true) (hl : isComment l = false)
    : takeContinuation (comments ++ l :: rest) =
        if isContinuation l then
          (comments ++ l :: (takeContinuation rest).1, (takeContinuation rest).2)
        else ([], comments ++ l :: rest) := by
  have hdrop : (comments ++ l :: rest).dropWhile isComment = l :: rest := by
    rw [List.dropWhile_append_of_pos hcomments, List.dropWhile_cons_of_neg (by simp [hl])]
  have htake : (comments ++ l :: rest).takeWhile isComment = comments := by
    rw [List.takeWhile_append_of_pos hcomments, List.takeWhile_cons_of_neg (by simp [hl]),
      List.append_nil]
  conv => lhs; unfold takeContinuation
  split
  . next h =>
    rw [hdrop] at h
    cases h
  . next l' rest' h =>
    rw [hdrop] at h
    cases h
    rw [htake]

theorem takeContinuation_joinRows {rows : List (List Text × Text)}
    (h : ∀ r ∈ rows, (∀ c ∈ r.1, isComment c = true) ∧ isComment r.2 = false)
    : takeContinuation (joinRows rows) =
        (joinRows (rows.takeWhile fun r => isContinuation r.2),
          joinRows (rows.dropWhile fun r => isContinuation r.2)) := by
  induction rows with
  | nil =>
    unfold takeContinuation
    rfl
  | cons r rows ih =>
    rw [List.forall_mem_cons] at h
    rw [joinRows_cons, takeContinuation_append_cons h.1.1 h.1.2, ih h.2]
    split
    . next hr =>
      rw [List.takeWhile_cons_of_pos (by exact hr), List.dropWhile_cons_of_pos (by exact hr), joinRows_cons]
    . next hr =>
      rw [List.takeWhile_cons_of_neg (by exact hr), List.dropWhile_cons_of_neg (by exact hr), joinRows_cons]
      rfl

theorem filter_isComment_joinRows {rows : List (List Text × Text)}
    (h : ∀ r ∈ rows, (∀ c ∈ r.1, isComment c = true) ∧ isComment r.2 = false)
    : (joinRows rows).filter isComment = rows.flatMap (·.1) := by
  unfold joinRows
  rw [List.filter_flatMap]
  apply List.flatMap_congr
  intro r hr
  rw [List.filter_append, List.filter_eq_self.mpr (h r hr).1,
    List.filter_eq_nil_iff.mpr (by simp [(h r hr).2]), List.append_nil]

end ControlDocument

namespace Text

theorem Precedes.of_isComment {l l' comment : Text} (h : Precedes l l') (hcomment : isComment comment = true)
    : Precedes l comment := by
  refine ⟨h.isEnded, ?_⟩
  unfold isComment at hcomment
  rw [beq_iff_eq.mp hcomment]
  rintro ⟨_, hhead⟩
  cases hhead

theorem isChain_append_of_isWholeLine {ls ls' : List Text} (h : ∀ l ∈ ls, IsWholeLine l)
    (h' : ls'.IsChain Precedes) : (ls ++ ls').IsChain Precedes := by
  induction ls with
  | nil => exact h'
  | cons l ls ih =>
    rw [List.forall_mem_cons] at h
    rw [List.cons_append, List.isChain_cons]
    exact ⟨fun l' _ => h.1.precedes l', ih h.2⟩

theorem isChain_joinRows {l : Text} {rows : List (List Text × Text)}
    (hrows : ∀ r ∈ rows, ∀ c ∈ r.1, IsWholeLine c ∧ isComment c = true)
    (h : (l :: rows.map (·.2)).IsChain Precedes)
    : (l :: CommentBlock.joinRows rows).IsChain Precedes := by
  induction rows generalizing l with
  | nil => exact .singleton l
  | cons r rows ih =>
    rw [List.forall_mem_cons] at hrows
    rw [List.map_cons, List.isChain_cons] at h
    rw [CommentBlock.joinRows_cons, List.isChain_cons]
    have hprecedes := h.1 r.2 rfl
    constructor
    . intro l' hl'
      cases hcomments : r.1 with
      | nil =>
        rw [hcomments] at hl'
        cases hl'
        exact hprecedes
      | cons c comments =>
        rw [hcomments] at hl'
        cases hl'
        exact hprecedes.of_isComment (hrows.1 l' (by simp [hcomments])).2
    . apply isChain_append_of_isWholeLine
      . intro c hc
        exact (hrows.1 c hc).1
      . exact ih hrows.2 h.2

theorem lines_flatten_joinRows {t l : Text} {rows : List (List Text × Text)}
    (hrows : ∀ r ∈ rows, ∀ c ∈ r.1, IsWholeLine c ∧ isComment c = true)
    (h : lines t = l :: rows.map (·.2))
    : lines (l :: CommentBlock.joinRows rows).flatten = l :: CommentBlock.joinRows rows := by
  apply lines_flatten_of_isChain
  . have hlines : ∀ l' ∈ lines t, lines l' = [l'] := fun l' hl' => lines_of_mem_lines hl'
    rw [h, List.forall_mem_cons, List.forall_mem_map] at hlines
    rw [List.forall_mem_cons]
    refine ⟨hlines.1, ?_⟩
    intro l' hl'
    obtain ⟨r, hr, hl'⟩ := List.mem_flatMap.mp hl'
    cases List.mem_append.mp hl' with
    | inl hl' => exact (hrows r hr l' hl').1.lines_eq
    | inr hl' =>
      rw [List.mem_singleton.mp hl']
      exact hlines.2 r hr
  . apply isChain_joinRows hrows
    rw [← h]
    exact isChain_lines t

end Text

end DebianPackaging
