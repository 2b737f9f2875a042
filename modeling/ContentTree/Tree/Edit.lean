import ContentTree.Tree.Versioning

/-!
# Edits

The edits of a content tree. Each is given the address of a node and answers with the changed tree
or with the fault for which it is refused. Adding a child and changing the mixin types are refused
below a node that is checked in; the properties of a node and its checkout flag can be set at any
time.
-/

namespace ContentTree

namespace Tree

/-- Add a child without properties to a node. A missing or empty type stands for the default. -/
def addNode (tree : Tree) (parent : Address) (name : String) (type : Option String)
    (defaultType : String) : Except Fault Tree := do
  if present : parent ∈ tree then
    let path ← Path.join (← Address.path parent) name
    if name :: parent ∈ tree ∨ (tree.property? parent name).isSome then
      throw (.itemExists path)
    tree.requireCheckedOut parent
    return tree.insertChild parent present name
      { primaryType := (type.filter (· ≠ "")).getD defaultType }
  else
    throw (.itemNotFound (← Address.path parent))

/-- Add a mixin type to a node; the versionable one also checks the node out. -/
def addMixin (tree : Tree) (address : Address) (mixin : String) : Except Fault Tree := do
  let _ ← tree.node address
  tree.requireCheckedOut address
  return tree.modify address fun node =>
    { node with
      mixins := node.mixins.insert mixin
      checkedOut := node.checkedOut || mixin = versionableType }

def removeMixin (tree : Tree) (address : Address) (mixin : String) : Except Fault Tree := do
  let node ← tree.node address
  unless mixin ∈ node.mixins do
    throw (.mixinNotAssigned mixin (← Address.path address))
  tree.requireCheckedOut address
  return tree.modify address fun node => { node with mixins := node.mixins.erase mixin }

/-- Set the checkout flag of a versionable node. -/
def setCheckedOut (tree : Tree) (address : Address) (checkedOut : Bool) : Except Fault Tree := do
  let node ← tree.node address
  unless node.isVersionable do
    throw (.notVersionable (← Address.path address))
  return tree.modify address fun node => { node with checkedOut }

def checkout (tree : Tree) (address : Address) : Except Fault Tree :=
  tree.setCheckedOut address true

def checkin (tree : Tree) (address : Address) : Except Fault Tree :=
  tree.setCheckedOut address false

/-- Set a property of a node, which must not have a child of that name. -/
def setProperty (tree : Tree) (owner : Address) (name : String) (values : List String) :
    Except Fault Tree := do
  let _ ← tree.node owner
  if name :: owner ∈ tree then
    throw (.itemExists (← Path.join (← Address.path owner) name))
  return tree.modify owner fun node =>
    { node with properties := node.properties.insert name values }

end Tree

end ContentTree
