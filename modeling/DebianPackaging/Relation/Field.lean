import DebianPackaging.Relation.Entry

/-!
This module contains relationship fields such as `Build-Depends`: lists of entries, written with
commas between them. A field keeps the blanks around each entry and the segments between commas that
hold no entry, so that a field that was read is written back as it was.
-/

namespace DebianPackaging

/-- What stands between two commas of a field. -/
inductive Segment where
  | blank (text : Text)
  | entry (lead : Text) (entry : Entry) (trail : Text)
  deriving DecidableEq, Repr

namespace Segment

def text : Segment → Text
  | blank t => t
  | entry lead e trail => lead ++ e.text ++ trail

def content? : Segment → Option Entry
  | blank _ => none
  | entry _ e _ => some e

def read (t : Text) : Except Error Segment :=
  match t.trim with
  | [] => .ok (.blank t)
  | content => do
    let e ← Entry.read content
    return .entry t.lead e t.trimStart.trail

end Segment

structure RelationField where
  segments : List Segment := []
  deriving DecidableEq, Repr

namespace RelationField

def text (f : RelationField) : Text := Text.join "," (f.segments.map (·.text))

def entries (f : RelationField) : List Entry := f.segments.filterMap (·.content?)

def ofEntries : List Entry → RelationField
  | [] => {}
  | e :: es => { segments := .entry [] e [] :: es.map fun e => .entry " " e [] }

def read (t : Text) : Except Error RelationField := do
  if t.isEmpty then return {}
  let segments ← (t.splitOn ',').mapM Segment.read
  return { segments }

def contains (f : RelationField) (name : Text) : Bool := f.entries.any fun e => e.names.contains name

def occurrences (f : RelationField) (name : Text) : List (Nat × Entry) :=
  (f.entries.zipIdx.filter fun (e, _) => e.names.contains name).map fun (e, i) => (i, e)

def modifyEntry (f : RelationField) (i : Nat) (change : Entry → Entry) : RelationField :=
  { segments := go i f.segments }
where
  go (i : Nat) : List Segment → List Segment
    | [] => []
    | .blank t :: ss => .blank t :: go i ss
    | .entry lead e trail :: ss =>
      match i with
      | 0 => .entry lead (change e) trail :: ss
      | i + 1 => .entry lead e trail :: go i ss

def setConstraint (f : RelationField) (i j : Nat) (c : Option Constraint)
    : Except Error (RelationField × SpelledRelation) :=
  match f.entries[i]? with
  | none => .error .noSuchIndex
  | some e =>
    match e.alternatives[j]? with
    | none => .error .noSuchIndex
    | some a =>
      let new := a.spelled.setConstraint c
      let change (a : Alternative) : Alternative := { a with spelled := new }
      let edit (e : Entry) : Entry :=
        match j with
        | 0 => { e with first := change e.first }
        | j + 1 => { e with others := e.others.modify j change }
      .ok (f.modifyEntry i edit, new)

end RelationField

end DebianPackaging
