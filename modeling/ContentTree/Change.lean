/-!
# Changes

A request reports what it did to the tree as a list of changes, in the order in which they happened.
-/

namespace ContentTree

inductive ChangeKind where
  | created
  | modified
  | deleted
  | moved
  | copied
  | ordered
  | checkedOut
  | checkedIn
  deriving DecidableEq, Repr

/-- One observable change of the tree. A move or a copy leads to a destination; an ordering may name
the sibling that comes next. -/
structure Change where
  kind : ChangeKind
  source : String
  destination : Option String := none
  deriving DecidableEq, Repr

namespace Change

def created (path : String) : Change := { kind := .created, source := path }

def modified (path : String) : Change := { kind := .modified, source := path }

def deleted (path : String) : Change := { kind := .deleted, source := path }

def moved (source destination : String) : Change := ⟨.moved, source, some destination⟩

def copied (source destination : String) : Change := ⟨.copied, source, some destination⟩

def ordered (path : String) (nextSibling : Option String) : Change := ⟨.ordered, path, nextSibling⟩

def checkedOut (path : String) : Change := { kind := .checkedOut, source := path }

def checkedIn (path : String) : Change := { kind := .checkedIn, source := path }

end Change

end ContentTree
