import ContentTree.Tree.Basic

/-!
# Versioning

A versionable node carries a checkout flag for itself and for everything below it, down to the next
versionable nodes. Whether a node may be changed is therefore decided by the flag of the nearest
versionable node at or above it; without such a node it always may.
-/

namespace ContentTree

namespace Tree

def isVersionable (tree : Tree) (address : Address) : Bool :=
  (tree.node? address).any (·.isVersionable)

/-- Whether the flag of a node itself says that it is checked out. -/
def isFlagged (tree : Tree) (address : Address) : Bool :=
  (tree.node? address).all (·.checkedOut)

/-- Whether a node may be changed. -/
def isCheckedOut (tree : Tree) (address : Address) : Bool :=
  if tree.isVersionable address then tree.isFlagged address
  else
    match address with
    | [] => true
    | _ :: above => tree.isCheckedOut above

/-- The nearest versionable node at or above an address. -/
def nearestVersionable? (tree : Tree) (address : Address) : Option Address :=
  if tree.isVersionable address then some address
  else
    match address with
    | [] => none
    | _ :: above => tree.nearestVersionable? above

/-- Insist that a node may be changed. -/
def requireCheckedOut (tree : Tree) (address : Address) : Except Fault Unit := do
  unless tree.isCheckedOut address do
    throw (.checkedIn (← Address.path address))

theorem isCheckedOut_of_isVersionable {tree : Tree} {address : Address}
    (versionable : tree.isVersionable address) :
    tree.isCheckedOut address = tree.isFlagged address := by
  unfold isCheckedOut
  exact if_pos versionable

theorem isCheckedOut_cons {tree : Tree} {name : String} {above : Address}
    (plain : ¬tree.isVersionable (name :: above)) :
    tree.isCheckedOut (name :: above) = tree.isCheckedOut above := by
  rw [isCheckedOut]
  exact if_neg plain

theorem nearestVersionable?_of_isVersionable {tree : Tree} {address : Address}
    (versionable : tree.isVersionable address) :
    tree.nearestVersionable? address = some address := by
  unfold nearestVersionable?
  exact if_pos versionable

theorem nearestVersionable?_cons {tree : Tree} {name : String} {above : Address}
    (plain : ¬tree.isVersionable (name :: above)) :
    tree.nearestVersionable? (name :: above) = tree.nearestVersionable? above := by
  rw [nearestVersionable?]
  exact if_neg plain

end Tree

end ContentTree
