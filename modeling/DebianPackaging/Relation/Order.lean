import DebianPackaging.Relation.Field

/-!
This module contains the order of packages in relationship fields and the insertion of entries that
keeps a sorted field sorted.
-/

namespace DebianPackaging

/-- The names of packages stand before variables and all other names. -/
def packageRank (name : Text) : Nat :=
  match name with
  | c :: _ => if ('a' ≤ c ∧ c ≤ 'z') ∨ c.isDigit then 0 else 1
  | [] => 1

def packageLe (a b : Text) : Bool :=
  packageRank a < packageRank b || (packageRank a == packageRank b && Text.le a b)

def sortPackages (names : List Text) : List Text := names.mergeSort packageLe

namespace Entry

def sortName (e : Entry) : Text := e.first.name

def le (a b : Entry) : Bool := packageLe a.sortName b.sortName

def areSorted : List Entry → Bool
  | a :: b :: es => le a b && areSorted (b :: es)
  | _ => true

end Entry

namespace RelationField

def leads (ss : List Segment) : List Text :=
  ss.filterMap fun s =>
    match s with
    | .blank _ => none
    | .entry lead _ _ => some lead

/-- The blanks that separate entries: those in front of the last entry. A single entry tells them only
if it stands on a line of its own. -/
def separator (ss : List Segment) : Text :=
  match leads ss with
  | [lead] => if lead.contains '\n' then lead else " "
  | leads => leads.getLastD " "

/-- Insert an entry in front of the first one that sorts behind it, and tell its position. It takes
over the blanks in front of the entry that it displaces. -/
def insertBefore? (sep : Text) (e : Entry) : List Segment → Option (Nat × List Segment)
  | [] => none
  | .blank t :: ss => (insertBefore? sep e ss).map fun (i, ss) => (i, .blank t :: ss)
  | .entry lead o trail :: ss =>
    if o.le e then
      (insertBefore? sep e ss).map fun (i, ss) => (i + 1, .entry lead o trail :: ss)
    else some (0, .entry lead e [] :: .entry sep o trail :: ss)

def insertLast (sep : Text) (e : Entry) : List Segment → List Segment
  | [] => []
  | s :: ss =>
    if s.content?.isSome && ss.all (·.content?.isNone) then s :: .entry sep e [] :: ss
    else s :: insertLast sep e ss

/-- Add an entry and tell its position. It goes to its place if the entries are sorted, and to the end
otherwise. -/
def add (f : RelationField) (e : Entry) : RelationField × Nat :=
  let entries := f.entries
  if entries.isEmpty then ({ segments := [.entry [] e []] }, 0)
  else
    let sep := separator f.segments
    let sorted := if Entry.areSorted entries then insertBefore? sep e f.segments else none
    match sorted with
    | some (i, segments) => ({ segments }, i)
    | none => ({ segments := insertLast sep e f.segments }, entries.length)

def ensure (f : RelationField) (e : Entry) : RelationField × Bool :=
  if f.entries.any (·.same e) then (f, false) else ((f.add e).1, true)

end RelationField

end DebianPackaging
