import DebianPackaging.Proofs.Control.KeepComments

/-!
This module contains where the comment lines inside of a value go when the value is replaced. A value is taken
in rows, value lines with the comments in front of them. The comments of an old row go in front of the new line
of the same text, or of the one at the old position, and nothing else about the new lines changes.
-/

namespace DebianPackaging

open Text
open ControlDocument (isComment)

namespace CommentBlock

structure IsRows (ls : List Text) (rows : List (List Text × Text)) : Prop where
  joined : joinRows rows = ls
  comments : ∀ r ∈ rows, (∀ c ∈ r.1, isComment c = true) ∧ isComment r.2 = false

/-- The new line that the comments in front of the line `l` go to: the first one behind the first line that has
the same text, disregarding the blanks around it, or, if there is none, the one at the old position, but no
line behind the last one. -/
inductive GoesTo (ls : List Text) (l : Text) (position : Nat) : Nat → Prop where
  | same {i : Nat} (hpos : 1 ≤ i) (hi : (ls[i]?).map trim = some l.trim)
    (hfirst : ∀ k, 1 ≤ k → k < i → (ls[k]?).map trim ≠ some l.trim) : GoesTo ls l position i
  | position (h : ∀ k, 1 ≤ k → (ls[k]?).map trim ≠ some l.trim)
    : GoesTo ls l position (min position (ls.length - 1))

/-- The comments of each old row go in front of one new line. Those that meet there keep their order. -/
structure IsMoved (old new : List (List Text × Text)) (place : Nat → Nat) : Prop where
  goesTo : ∀ i r, old[i]? = some r → GoesTo (new.map (·.2)) r.2 i (place i)
  comments : ∀ j r, new[j]? = some r →
    r.1 = (old.zipIdx.filter fun x => place x.2 == j).flatMap (·.1.1)

theorem exists_isRows {ls : List Text} (hlast : ∀ l ∈ ls.getLast?, isComment l = false)
    : ∃ rows, IsRows ls rows := by
  induction ls with
  | nil => exact ⟨[], rfl, by simp⟩
  | cons l ls ih =>
    obtain ⟨rows, hjoined, hcomments⟩ := ih (by
      intro l' hl'
      apply hlast
      simp [List.getLast?_cons, Option.mem_def.mp hl'])
    by_cases hl : isComment l = true
    . cases rows with
      | nil =>
        rw [← hjoined] at hlast
        rw [hlast l rfl] at hl
        cases hl
      | cons r rows =>
        rw [List.forall_mem_cons] at hcomments
        refine ⟨(l :: r.1, r.2) :: rows, ?_, ?_⟩
        . rw [← hjoined, joinRows_cons, joinRows_cons]
          rfl
        . rw [List.forall_mem_cons, List.forall_mem_cons]
          exact ⟨⟨⟨hl, hcomments.1.1⟩, hcomments.1.2⟩, hcomments.2⟩
    . refine ⟨([], l) :: rows, ?_, ?_⟩
      . rw [joinRows_cons, hjoined]
        rfl
      . rw [List.forall_mem_cons]
        exact ⟨⟨by simp, by simpa using hl⟩, hcomments⟩

theorem IsRows.head_comments {ls : List Text} {rows : List (List Text × Text)} (h : IsRows ls rows)
    (hfirst : ∀ l ∈ ls.head?, isComment l = false) : ∀ r ∈ rows.head?, r.1 = [] := by
  rintro ⟨comments, l⟩ hr
  cases comments with
  | nil => rfl
  | cons c comments =>
    obtain ⟨rows, rfl⟩ := List.head?_eq_some_iff.mp hr
    have hc := (h.comments _ (List.mem_cons_self ..)).1 c (by simp)
    rw [hfirst c (by rw [← h.joined, joinRows_cons]; rfl)] at hc
    cases hc

theorem filter_joinRows {rows : List (List Text × Text)}
    (h : ∀ r ∈ rows, (∀ c ∈ r.1, isComment c = true) ∧ isComment r.2 = false)
    : (joinRows rows).filter (fun l => !isComment l) = rows.map (·.2) := by
  induction rows with
  | nil => rfl
  | cons r rows ih =>
    rw [List.forall_mem_cons] at h
    rw [joinRows_cons, List.filter_append, List.filter_eq_nil_iff.mpr, List.filter_cons_of_pos, ih h.2]
    . rfl
    . simp [h.1.2]
    . simpa using h.1.1

theorem ofLines_ne_nil (position : Nat) {ls : List Text} (hlast : ∀ l ∈ ls.getLast?, isComment l = false)
    (hcomment : ∃ l ∈ ls, isComment l = true) : ofLines position [] ls ≠ [] := by
  intro hnil
  have hall : (ofLines position [] ls).flatMap (·.lines) = [] ++ ls.filter isComment :=
    flatMap_lines_ofLines hlast (.inl rfl)
  obtain ⟨l, hl, hl'⟩ := hcomment
  have hmem := List.mem_filter.mpr ⟨hl, hl'⟩
  rw [← List.nil_append (ls.filter isComment), ← hall, hnil] at hmem
  cases hmem

theorem ofLines_append_cons {position : Nat} {pending comments rest : List Text} {l : Text}
    (hcomments : ∀ c ∈ comments, isComment c = true) (hl : isComment l = false)
    : ofLines position pending (comments ++ l :: rest) =
        if (pending ++ comments).isEmpty then ofLines (position + 1) [] rest
        else ⟨position, l.trim, pending ++ comments⟩ :: ofLines (position + 1) [] rest := by
  induction comments generalizing pending with
  | nil =>
    rw [List.nil_append, List.append_nil]
    conv => lhs; unfold ofLines
    rw [if_neg (by simp [hl])]
  | cons c comments ih =>
    rw [List.forall_mem_cons] at hcomments
    rw [List.cons_append]
    conv => lhs; unfold ofLines
    rw [if_pos hcomments.1, ih hcomments.2, List.append_assoc]
    rfl

theorem commentsAt_cons (b : CommentBlock) (blocks : List CommentBlock) (ls : List Text) (i : Nat)
    : commentsAt (b :: blocks) ls i =
        (if b.target ls = i then b.lines else []) ++ commentsAt blocks ls i := by
  unfold commentsAt
  by_cases h : b.target ls = i
  . rw [if_pos h, List.filter_cons_of_pos (by simpa using h), List.flatMap_cons]
  . rw [if_neg h, List.filter_cons_of_neg (by simpa using h), List.nil_append]

def rowTarget (ls : List Text) (r : List Text × Text) (position : Nat) : Nat :=
  target ls ⟨position, r.2.trim, r.1⟩

theorem commentsAt_ofLines {rows : List (List Text × Text)}
    (h : ∀ r ∈ rows, (∀ c ∈ r.1, isComment c = true) ∧ isComment r.2 = false) (ls : List Text)
    (position i : Nat)
    : commentsAt (ofLines position [] (joinRows rows)) ls i =
        ((rows.zipIdx position).filter fun x => rowTarget ls x.1 x.2 == i).flatMap (·.1.1) := by
  induction rows generalizing position with
  | nil => rfl
  | cons r rows ih =>
    rw [List.forall_mem_cons] at h
    have hrow : ((((r :: rows).zipIdx position).filter fun x => rowTarget ls x.1 x.2 == i).flatMap (·.1.1)) =
        (if rowTarget ls r position = i then r.1 else []) ++
          ((rows.zipIdx (position + 1)).filter fun x => rowTarget ls x.1 x.2 == i).flatMap (·.1.1) := by
      rw [List.zipIdx_cons]
      by_cases hi : rowTarget ls r position = i
      . rw [if_pos hi, List.filter_cons_of_pos (by simpa using hi), List.flatMap_cons]
      . rw [if_neg hi, List.filter_cons_of_neg (by simpa using hi), List.nil_append]
    rw [hrow, ← ih h.2, joinRows_cons, ofLines_append_cons h.1.1 h.1.2, List.nil_append]
    split
    . next hempty => simp [List.isEmpty_iff.mp hempty]
    . exact commentsAt_cons _ _ _ _

theorem goesTo_rowTarget (ls : List Text) (r : List Text × Text) (position : Nat)
    : GoesTo ls r.2 position (rowTarget ls r position) := by
  unfold rowTarget target
  split
  . next i hi =>
    obtain ⟨hlt, heq, hfirst⟩ := List.findIdx?_eq_some_iff_getElem.mp hi
    rw [List.length_drop] at hlt
    refine .same (by omega) ?_ ?_
    . rw [List.getElem_drop, beq_iff_eq] at heq
      rw [List.getElem?_eq_getElem (by omega), Option.map_some]
      simpa [Nat.add_comm] using heq
    . intro k hk hki
      have hne := hfirst (k - 1) (by omega)
      rw [List.getElem_drop, beq_iff_eq] at hne
      rw [List.getElem?_eq_getElem (by omega), Option.map_some]
      simpa [Nat.add_sub_cancel' hk] using hne
  . next hnone =>
    apply GoesTo.position
    intro k hk heq
    rw [List.findIdx?_eq_none_iff] at hnone
    obtain ⟨l, hl, htrim⟩ := Option.map_eq_some_iff.mp heq
    have hmem : l ∈ ls.drop 1 := by
      rw [List.mem_iff_getElem?]
      refine ⟨k - 1, ?_⟩
      rw [List.getElem?_drop, Nat.add_sub_cancel' hk]
      exact hl
    have hne := hnone l hmem
    rw [htrim] at hne
    simp at hne

theorem IsMoved.exists_mem {old new : List (List Text × Text)} {place : Nat → Nat}
    (h : IsMoved old new place) {r : List Text × Text} (hr : r ∈ new) {c : Text} (hc : c ∈ r.1)
    : ∃ r' ∈ old, c ∈ r'.1 := by
  obtain ⟨j, hj⟩ := List.mem_iff_getElem?.mp hr
  rw [h.comments j r hj] at hc
  obtain ⟨x, hx, hc⟩ := List.mem_flatMap.mp hc
  have hmem := List.mem_zipIdx_iff_getElem?.mp (List.mem_filter.mp hx).1
  exact ⟨x.1, List.mem_of_getElem? hmem, hc⟩

theorem exists_isMoved {old : List (List Text × Text)}
    (hold : ∀ r ∈ old, (∀ c ∈ r.1, isComment c = true) ∧ isComment r.2 = false)
    (hfirst : ∀ r ∈ old.head?, r.1 = []) {ls : List Text} (hlength : 2 ≤ ls.length)
    : ∃ new place, insertAll (ofLines 0 [] (joinRows old)) ls = joinRows new ∧ new.map (·.2) = ls ∧
        (∀ r ∈ new.head?, r.1 = []) ∧ IsMoved old new place := by
  obtain ⟨first, rest, rfl⟩ := List.exists_cons_of_length_pos (l := ls) (by omega)
  have htarget : ∀ b ∈ ofLines 0 [] (joinRows old), 1 ≤ b.target (first :: rest) := by
    intro b hb
    refine (target_bounds ?_ hlength).1
    cases old with
    | nil => cases hb
    | cons r old =>
      rw [List.forall_mem_cons] at hold
      rw [joinRows_cons, ofLines_append_cons hold.1.1 hold.1.2, hfirst r rfl] at hb
      exact (of_mem_ofLines hb).1
  have hcomments := commentsAt_ofLines hold (first :: rest) 0
  generalize hblocks : ofLines 0 [] (joinRows old) = blocks at *
  let place (i : Nat) : Nat := ((old[i]?).map fun r => rowTarget (first :: rest) r i).getD 0
  have hplace : ∀ i r, old[i]? = some r → place i = rowTarget (first :: rest) r i := by
    intro i r hr
    simp only [place, hr, Option.map_some, Option.getD_some]
  have hmap : (([], first) :: rows blocks (first :: rest)).map (·.2) = first :: rest := by
    rw [List.map_cons, map_rows]
  refine ⟨([], first) :: rows blocks (first :: rest), place, ?_, hmap, ?_, ?_, ?_⟩
  . rw [insertAll_cons htarget, joinRows_cons]
    rfl
  . rintro r ⟨⟩
    rfl
  . intro i r hr
    rw [hmap, hplace i r hr]
    exact goesTo_rowTarget _ r i
  . intro j r hr
    have hrow : r.1 = commentsAt blocks (first :: rest) j := by
      cases j with
      | zero =>
        cases hr
        symm
        unfold commentsAt
        rw [List.filter_eq_nil_iff.mpr]
        . rfl
        . intro b hb htarget'
          have := htarget b hb
          rw [beq_iff_eq] at htarget'
          omega
      | succ j =>
        rw [List.getElem?_cons_succ] at hr
        unfold rows at hr
        rw [List.getElem?_map, List.getElem?_zipIdx] at hr
        obtain ⟨x, hx, rfl⟩ := Option.map_eq_some_iff.mp hr
        obtain ⟨l, _, rfl⟩ := Option.map_eq_some_iff.mp hx
        rw [Nat.add_comm]
    rw [hrow, hcomments]
    congr 1
    apply List.filter_congr
    intro x hx
    rw [hplace x.2 x.1 (List.mem_zipIdx_iff_getElem?.mp hx)]

end CommentBlock

namespace Text

theorem isWholeLine_of_isComment {t c : Text} (hlast : ∀ l ∈ (lines t).getLast?, isComment l = false)
    (hc : c ∈ lines t) (hcomment : isComment c = true) (hreturn : c.getLast? ≠ some '\r')
    : IsWholeLine c := by
  obtain ⟨before, behind, hsplit⟩ := List.append_of_mem hc
  cases behind with
  | nil =>
    rw [hsplit, List.getLast?_concat] at hlast
    rw [hlast c rfl] at hcomment
    cases hcomment
  | cons l behind =>
    have hchain := isChain_lines t
    rw [hsplit] at hchain
    have hprecedes := (List.isChain_append.mp hchain).2.1.rel
    exact ⟨lines_of_mem_lines hc, fun l' => ⟨hprecedes.isEnded, fun h => hreturn h.1⟩⟩

end Text

namespace Paragraph

open CommentBlock

/-- A relationship field that takes a new value keeps the comment lines inside of the old one. The new value
keeps its lines, none of the comments comes in front of the first one, and the comments of each old line go in
front of the new line of the same text or of the one at the old position. What is written is cut into these
lines again, unless a carriage return at the end of a comment becomes one line end with the line feed behind
it. -/
theorem setKeepingComments_rows (p : Paragraph) (name value : Text) (f : ControlField)
    (hfind : p.find? name = some f) (hfirst : ∀ l ∈ (lines f.rawValue).head?, isComment l = false)
    (hlast : ∀ l ∈ (lines f.rawValue).getLast?, isComment l = false)
    (hcomment : ∃ l ∈ lines f.rawValue, isComment l = true) (hlength : 2 ≤ (f.newLines value).length)
    (hfree : ∀ l ∈ f.newLines value, isComment l = false)
    : ∃ old new place, IsRows (lines f.rawValue) old ∧
        p.setKeepingComments name value = p.setRaw name (joinRows new).flatten ∧
        new.map (·.2) = f.newLines value ∧
        (joinRows new).filter (fun l => !isComment l) = f.newLines value ∧
        (∀ r ∈ new.head?, r.1 = []) ∧ IsMoved old new place ∧
        ((∀ l ∈ lines f.rawValue, isComment l = true → l.getLast? ≠ some '\r') →
          lines (joinRows new).flatten = joinRows new) := by
  obtain ⟨old, hold⟩ := exists_isRows hlast
  obtain ⟨new, place, hinsert, hnew, hhead, hmoved⟩ :=
    exists_isMoved hold.comments (hold.head_comments hfirst) hlength
  rw [hold.joined] at hinsert
  have hcomments : ∀ r ∈ new, ∀ c ∈ r.1, c ∈ lines f.rawValue ∧ isComment c = true := by
    intro r hr c hc
    obtain ⟨r', hr', hc'⟩ := hmoved.exists_mem hr hc
    refine ⟨?_, (hold.comments r' hr').1 c hc'⟩
    rw [← hold.joined]
    exact List.mem_flatMap.mpr ⟨r', hr', List.mem_append_left _ hc'⟩
  have hrows : ∀ r ∈ new, (∀ c ∈ r.1, isComment c = true) ∧ isComment r.2 = false := by
    intro r hr
    refine ⟨fun c hc => (hcomments r hr c hc).2, hfree r.2 ?_⟩
    rw [← hnew]
    exact List.mem_map_of_mem hr
  refine ⟨old, new, place, hold, ?_, hnew, ?_, hhead, hmoved, ?_⟩
  . have hblocks := ofLines_ne_nil 0 hlast hcomment
    unfold setKeepingComments
    rw [hfind, Option.bind_some, ControlField.withComments?_eq, if_neg (by simpa using hblocks),
      if_neg (by omega), hinsert]
  . rw [filter_joinRows hrows, hnew]
  . intro hreturn
    obtain ⟨r, new, rfl⟩ := List.exists_cons_of_ne_nil (l := new) (by
      rintro rfl
      rw [← hnew] at hlength
      simp at hlength)
    rw [List.map_cons] at hnew
    rw [joinRows_cons, hhead r rfl, List.nil_append]
    apply lines_flatten_joinRows _ hnew.symm
    intro r' hr' c hc
    obtain ⟨hmem, hc'⟩ := hcomments r' (List.mem_cons_of_mem _ hr') c hc
    exact ⟨isWholeLine_of_isComment hlast hmem hc' (hreturn c hmem hc'), hc'⟩

theorem setKeepingComments_rows_stacked
    : ∃ (p : Paragraph) (f : ControlField) (old new : List (List Text × Text)) (place : Nat → Nat),
        p.find? "Build-Depends" = some f ∧
        f.rawValue = " a,\n# one\n b,\n# two\n e,\n# three\n d\n".toList ∧
        IsRows (lines f.rawValue) old ∧ new.map (·.2) = ([" a,\n", " e,\n", " b\n"] : List Text) ∧
        (∀ r ∈ new.head?, r.1 = []) ∧ IsMoved old new place ∧
        lines (joinRows new).flatten = joinRows new ∧
        p.setRaw "Build-Depends" (joinRows new).flatten = .ok ⟨[⟨[], "Build-Depends", " a,\n",
          ["# one\n", "# two\n", " e,\n", "# three\n", " b\n"]⟩]⟩ := by
  let f : ControlField := ⟨[], "Build-Depends", " a,\n",
    ["# one\n", " b,\n", "# two\n", " e,\n", "# three\n", " d\n"]⟩
  let p : Paragraph := ⟨[f]⟩
  have hnew : f.newLines "a,\n e,\n b" = ([" a,\n", " e,\n", " b\n"] : List Text) := by decide +kernel
  obtain ⟨old, new, place, hold, hset, hmap, _, hhead, hmoved, hlines⟩ :=
    setKeepingComments_rows p "Build-Depends" "a,\n e,\n b" f
      (by decide +kernel) (by decide +kernel) (by decide +kernel) (by decide +kernel) (by decide +kernel)
      (by decide +kernel)
  refine ⟨p, f, old, new, place, by decide +kernel, by decide +kernel, hold, hmap.trans hnew, hhead, hmoved,
    hlines (by decide +kernel), ?_⟩
  rw [← hset]
  decide +kernel

end Paragraph

end DebianPackaging
