import DebianPackaging.Error
import DebianPackaging.Toml.Reader

/-!
This module contains the check that no key of a document is defined twice, and the reading of documents
that pass it. Sections are checked in groups: a section belongs to the group of the sections in front of
it if its path goes on from that of the first one. A key that is defined twice within a group is reported
as such; a conflict between groups makes the document unreadable.
-/

namespace DebianPackaging.Toml

inductive DefinitionKind where
  | value (base : List Text)
  | table
  | element
  deriving DecidableEq, Repr

structure Definition where
  path : List Text
  kind : DefinitionKind
  deriving DecidableEq, Repr

inductive Conflict where
  | key
  | table
  /-- Definitions of different groups contradict each other. -/
  | groups
  deriving DecidableEq, Repr

def goesOnFrom (path base : List Text) : Bool := base.isPrefixOf path && path != base

namespace Definition

def isDottedThrough (path : List Text) (d : Definition) : Bool :=
  match d.kind with
  | .value base => goesOnFrom d.path path && !path.isPrefixOf base
  | _ => false

def conflict? (new old : Definition) : Option Conflict :=
  match new.kind, old.kind with
  | .value _, .value _ => if related new.path old.path then some .key else none
  | .value _, _ => none
  | .table, .value _ =>
    if old.path.isPrefixOf new.path then some .key
    else if old.isDottedThrough new.path then some .table
    else none
  | .table, _ => if old.path = new.path then some .key else none
  | .element, .value _ =>
    if old.path.isPrefixOf new.path || old.isDottedThrough new.path then some .key else none
  | .element, .table => if new.path.isPrefixOf old.path then some .key else none
  | .element, .element => if goesOnFrom old.path new.path then some .key else none

end Definition

structure DefinitionGroup where
  old : List Definition := []
  own : List Definition := []
  crossed : Bool := false

namespace DefinitionGroup

/-- The definitions that are in the way of a new one: the next element of an array of tables has nothing
to do with what is in those in front of it. -/
def beside (ds : List Definition) (d : Definition) : List Definition :=
  if d.kind = .element then ds.filter fun o => !goesOnFrom o.path d.path else ds

def add (g : DefinitionGroup) (d : Definition) : Except Conflict DefinitionGroup :=
  let again := g.own.contains d || g.old.contains d
  let old := if again then beside g.old d else g.old
  let own := if again then beside g.own d else g.own
  match own.findSome? d.conflict? with
  | some e => .error e
  | none => .ok { old, own := d :: own, crossed := g.crossed || (old.findSome? d.conflict?).isSome }

def addAll (g : DefinitionGroup) (ds : List Definition) : Except Conflict DefinitionGroup :=
  ds.foldlM add g

def next (g : DefinitionGroup) : Except Conflict DefinitionGroup :=
  if g.crossed then .error .groups else .ok { old := g.own ++ g.old }

end DefinitionGroup

def itemDefinitions (base : List Text) (items : List Item) : List Definition :=
  (items.filterMap (·.binding?)).map fun (p, _) => ⟨base ++ p, .value base⟩

def Section.definitions (s : Section) : List Definition :=
  ⟨s.key.path, if s.isElement then .element else .table⟩ :: itemDefinitions s.key.path s.items

namespace Document

def checkSections (g : DefinitionGroup) (head : List Text) : List Section → Except Conflict Unit
  | [] => g.next.map fun _ => ()
  | s :: ss =>
    if goesOnFrom s.key.path head then do checkSections (← g.addAll s.definitions) head ss
    else do checkSections (← (← g.next).addAll s.definitions) s.key.path ss

/-- Check that no key of a document is defined twice. The items in front of the sections are as apart as
groups are. -/
def check (d : Document) : Except Conflict Unit :=
  match DefinitionGroup.addAll {} (itemDefinitions [] d.items) with
  | .error _ => .error .groups
  | .ok g =>
    match g.next with
    | .error e => .error e
    | .ok g =>
      match d.sections with
      | [] => .ok ()
      | s :: ss => do checkSections (← g.addAll s.definitions) s.key.path ss

def read (name t : Text) : Except Error Document :=
  let (d, fault) := readDocument t
  match d.check, fault with
  | .error .key, _ => .error .keyAlreadyPresent
  | .error .table, _ => .error .tableRedefined
  | .error .groups, _ => .error (.unreadable name)
  | .ok _, some .duplicateKey => .error .keyAlreadyPresent
  | .ok _, some _ => .error (.unreadable name)
  | .ok _, none => .ok d

end Document

end DebianPackaging.Toml
