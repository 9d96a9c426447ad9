import DebianPackaging.Relation.Order
import DebianPackaging.Version.Basic

/-!
This module contains lower bounds on versions: the check whether a relation is bounded from below and
the edit that makes a field require a package in at least some version.
-/

namespace DebianPackaging

def Version.read (text : Text) : Except Error Version :=
  match Version.read? text with
  | some v => .ok v
  | none => .error (.invalidVersion text)

def floorOperators : List Text := [">=", ">>", "="]

def keptOperators : List Text := [">=", "="]

namespace Relation

def hasFloor (r : Relation) (minimum : Version) : Except Error Bool :=
  match r.constraint with
  | none => .ok false
  | some c =>
    if floorOperators.contains c.op then do
      let v ← Version.read c.version
      return v.atLeast minimum
    else .ok false

def raisedConstraint (r : Relation) (minimum : Version) : Constraint :=
  match r.constraint with
  | some c => ⟨if keptOperators.contains c.op then c.op else ">=", minimum.text⟩
  | none => ⟨">=", minimum.text⟩

end Relation

namespace Entry

def isOnly (e : Entry) (name : Text) : Bool := e.names == [name]

/-- Raise the first relation of an entry to the version `minimum`. -/
def raise (e : Entry) (minimum : Version) : Entry :=
  let a := e.first
  let c := a.spelled.relation.raisedConstraint minimum
  { e with first := { a with spelled := a.spelled.setConstraint (some c) } }

def ofFloor (name : Text) (minimum : Version) : Entry where
  first := ⟨[], ⟨{ name, constraint := some ⟨">=", minimum.text⟩ }, none⟩, []⟩
  others := []

end Entry

structure Raised where
  found : Bool := false
  changed : Bool := false
  deriving DecidableEq, Repr

namespace RelationField

/-- Raise the entries that are a single relation on the package. A bound that is no version ends this;
the entries in front of it keep their new bounds. -/
def raise (name : Text) (minimum : Version) : List Segment → List Segment × Except Error Raised
  | [] => ([], .ok {})
  | .blank t :: ss =>
    let (ss, result) := raise name minimum ss
    (.blank t :: ss, result)
  | .entry lead e trail :: ss =>
    if e.isOnly name then
      match e.first.spelled.relation.hasFloor minimum with
      | .error err => (.entry lead e trail :: ss, .error err)
      | .ok true =>
        let (ss, result) := raise name minimum ss
        (.entry lead e trail :: ss, result.map fun r => { r with found := true })
      | .ok false =>
        let (ss, result) := raise name minimum ss
        (.entry lead (e.raise minimum) trail :: ss, result.map fun _ => ⟨true, true⟩)
    else
      let (ss, result) := raise name minimum ss
      (.entry lead e trail :: ss, result)

/-- Make a field ask for the package in at least the version `minimum`, and tell whether that changed
it. Where no entry is a single relation on the package, one is added. -/
def ensureVersion (f : RelationField) (name : Text) (minimum : Version)
    : RelationField × Except Error Bool :=
  match raise name minimum f.segments with
  | (segments, .error err) => ({ segments }, .error err)
  | (segments, .ok r) =>
    if r.found then ({ segments }, .ok r.changed)
    else ((RelationField.add { segments } (Entry.ofFloor name minimum)).1, .ok true)

def ensureMinimum (f : RelationField) (name minimum : Text) : RelationField × Except Error Bool :=
  match Version.read minimum with
  | .error err => (f, .error err)
  | .ok v => f.ensureVersion name v

end RelationField

end DebianPackaging
