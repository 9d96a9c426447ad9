import DebianPackaging.Relation.Floor
import DebianPackaging.Proofs.Relation.Meaning
import DebianPackaging.Proofs.Relation.Order

/-!
This module contains the edits of fields on clauses, which do not say how entries are written, and the
proof that the edits of fields do just that to what the entries mean.
-/

namespace DebianPackaging

namespace Clause

def sortName : Clause → Text
  | r :: _ => r.name
  | [] => []

def le (c d : Clause) : Bool := packageLe c.sortName d.sortName

def areSorted : List Clause → Bool
  | c :: d :: cs => le c d && areSorted (d :: cs)
  | _ => true

def insertSorted (c : Clause) : List Clause → List Clause
  | [] => [c]
  | d :: cs => if le d c then d :: insertSorted c cs else c :: d :: cs

theorem insertSorted_append {c : Clause} {front back : List Clause}
    (hfront : ∀ d ∈ front, le d c = true) (hback : ∀ d ∈ back, le d c = false)
    : insertSorted c (front ++ back) = front ++ c :: back := by
  induction front with
  | nil =>
    cases back with
    | nil => rfl
    | cons d back => simp [insertSorted, hback d]
  | cons d front ih =>
    rw [List.forall_mem_cons] at hfront
    rw [List.cons_append, insertSorted, if_pos hfront.1, ih hfront.2]
    rfl

def add (cs : List Clause) (c : Clause) : List Clause :=
  if areSorted cs then insertSorted c cs else cs ++ [c]

def isOnly (c : Clause) (name : Text) : Bool := c.map (·.name) == [name]

def hasFloor (minimum : Version) : Clause → Except Error Bool
  | r :: _ => r.hasFloor minimum
  | [] => .ok false

def raiseFirst (minimum : Version) : Clause → Clause
  | r :: rs => { r with constraint := some (r.raisedConstraint minimum) } :: rs
  | [] => []

def raise (name : Text) (minimum : Version) : List Clause → List Clause × Except Error Raised
  | [] => ([], .ok {})
  | c :: cs =>
    if c.isOnly name then
      match c.hasFloor minimum with
      | .error err => (c :: cs, .error err)
      | .ok true =>
        let (cs, result) := raise name minimum cs
        (c :: cs, result.map fun r => { r with found := true })
      | .ok false =>
        let (cs, result) := raise name minimum cs
        (c.raiseFirst minimum :: cs, result.map fun _ => ⟨true, true⟩)
    else
      let (cs, result) := raise name minimum cs
      (c :: cs, result)

def ofFloor (name : Text) (minimum : Version) : Clause :=
  [{ name, constraint := some ⟨">=", minimum.text⟩ }]

def ensureVersion (cs : List Clause) (name : Text) (minimum : Version)
    : List Clause × Except Error Bool :=
  match raise name minimum cs with
  | (cs, .error err) => (cs, .error err)
  | (cs, .ok r) => if r.found then (cs, .ok r.changed) else (add cs (ofFloor name minimum), .ok true)

end Clause

def Segment.clauses (ss : List Segment) : List Clause :=
  (ss.filterMap (·.content?)).map (·.relations)

namespace Segment

@[simp]
theorem clauses_nil : clauses [] = [] := rfl

@[simp]
theorem clauses_blank (t : Text) (ss : List Segment) : clauses (.blank t :: ss) = clauses ss := rfl

@[simp]
theorem clauses_entry (lead trail : Text) (e : Entry) (ss : List Segment)
    : clauses (.entry lead e trail :: ss) = e.relations :: clauses ss := rfl

end Segment

namespace Entry

theorem areSorted_relations (es : List Entry)
    : Clause.areSorted (es.map (·.relations)) = areSorted es := by
  induction es with
  | nil => rfl
  | cons a es ih =>
    cases es with
    | nil => rfl
    | cons b es =>
      unfold areSorted
      rw [← ih]
      rfl

theorem names_eq_map_relations (e : Entry) : e.names = e.relations.map (·.name) := by
  unfold names relations
  rw [List.map_map]
  rfl

theorem isOnly_relations (e : Entry) (name : Text)
    : Clause.isOnly e.relations name = e.isOnly name := by
  unfold isOnly Clause.isOnly
  rw [names_eq_map_relations]

theorem raise_relations (e : Entry) (minimum : Version)
    : (e.raise minimum).relations = Clause.raiseFirst minimum e.relations := rfl

end Entry

namespace RelationField

theorem clauses_eq (f : RelationField) : f.clauses = Segment.clauses f.segments := rfl

theorem clauses_add (f : RelationField) (e : Entry)
    : (f.add e).1.clauses = Clause.add f.clauses e.relations := by
  obtain ⟨front, back, hold, hnew, hplace⟩ := exists_entries_add f e
  unfold clauses Clause.add
  rw [Entry.areSorted_relations, hold, hnew, List.map_append, List.map_append, List.map_cons]
  split
  . next hsorted =>
    have horder := Entry.areSorted_iff.mp hsorted
    rw [Clause.insertSorted_append (List.forall_mem_map.mpr (hplace.le horder))
      (List.forall_mem_map.mpr (hplace.not_le horder))]
  . next hsorted =>
    rw [Entry.areSorted_iff] at hsorted
    rw [hplace.last hsorted]
    simp

theorem clauses_ensure (f : RelationField) (e : Entry)
    : (f.ensure e).1.clauses = (if e.relations ∈ f.clauses then f.clauses
        else Clause.add f.clauses e.relations) ∧
      (f.ensure e).2 = decide (e.relations ∉ f.clauses) := by
  have hany : f.entries.any (·.same e) = decide (e.relations ∈ f.clauses) := by
    rw [Bool.eq_iff_iff, List.any_eq_true]
    simp [clauses, Entry.same]
  unfold RelationField.ensure
  rw [hany]
  by_cases h : e.relations ∈ f.clauses
  . simp [h]
  . simp [h, clauses_add]

theorem clauses_raise (name : Text) (minimum : Version) (ss : List Segment)
    : Segment.clauses (raise name minimum ss).1 = (Clause.raise name minimum (Segment.clauses ss)).1 ∧
      (raise name minimum ss).2 = (Clause.raise name minimum (Segment.clauses ss)).2 := by
  induction ss with
  | nil => exact ⟨rfl, rfl⟩
  | cons s ss ih =>
    obtain ⟨hclauses, hresult⟩ := ih
    cases s with
    | blank t => exact ⟨hclauses, hresult⟩
    | entry lead e trail =>
      rw [Segment.clauses_entry]
      unfold raise Clause.raise
      rw [Entry.isOnly_relations]
      have hfloor : Clause.hasFloor minimum e.relations = e.first.spelled.relation.hasFloor minimum :=
        rfl
      rw [hfloor]
      split
      . cases e.first.spelled.relation.hasFloor minimum with
        | error err => exact ⟨rfl, rfl⟩
        | ok enough =>
          cases enough with
          | true =>
            dsimp
            rw [hclauses, hresult]
            exact ⟨rfl, rfl⟩
          | false =>
            dsimp
            rw [hclauses, hresult, Entry.raise_relations]
            exact ⟨rfl, rfl⟩
      . dsimp
        rw [hclauses, hresult]
        exact ⟨rfl, rfl⟩

theorem clauses_ensureVersion (f : RelationField) (name : Text) (minimum : Version)
    : (f.ensureVersion name minimum).1.clauses = (Clause.ensureVersion f.clauses name minimum).1 ∧
      (f.ensureVersion name minimum).2 = (Clause.ensureVersion f.clauses name minimum).2 := by
  obtain ⟨hclauses, hresult⟩ := clauses_raise name minimum f.segments
  unfold RelationField.ensureVersion Clause.ensureVersion
  rw [clauses_eq f]
  rcases h : raise name minimum f.segments with ⟨ss, result⟩
  rcases h' : Clause.raise name minimum (Segment.clauses f.segments) with ⟨cs, result'⟩
  rw [h, h'] at hclauses hresult
  dsimp at hclauses hresult
  subst hclauses hresult
  cases result with
  | error err => exact ⟨rfl, rfl⟩
  | ok r =>
    dsimp
    split
    . exact ⟨rfl, rfl⟩
    . exact ⟨clauses_add { segments := ss } (Entry.ofFloor name minimum), rfl⟩

end RelationField

end DebianPackaging
