import ContentTree.Tree.Versioning

/-!
# Items

An item is a node or a property of a node. A path leads to an item through its segments that are not
empty, each taken literally as a name; where it leads to a node, no property is meant. The view of
an item is what a client gets to see of it.
-/

namespace ContentTree

/-- A node by its address, or a property by the address of its node and its name. -/
inductive Item where
  | node (address : Address)
  | property (owner : Address) (name : String)
  deriving DecidableEq, Repr

/-- What can be seen of an item; the mixin types are in increasing order. -/
inductive ItemView where
  | node (path name primaryType : String) (mixins : List String) (checkedOut : Bool)
  | property (path name parent : String) (values : List String)
  deriving DecidableEq, Repr

namespace Item

/-- The path of an item. -/
def path : Item → Except Fault String
  | node address => Address.path address
  | property owner name => do
    let base ← Address.path owner
    Path.join base name

end Item

namespace Tree

/-- The item to which a list of names leads, given with the last name first. -/
def itemAt? (tree : Tree) (address : Address) : Option Item :=
  if address ∈ tree then some (.node address)
  else
    match address with
    | [] => none
    | name :: owner =>
      if (tree.property? owner name).isSome then some (.property owner name) else none

/-- The item to which a path leads. -/
def item? (tree : Tree) (path : String) : Option Item :=
  tree.itemAt? (Path.segments path).reverse

/-- What can be seen of an item. -/
def view (tree : Tree) : Item → Except Fault ItemView
  | .node address => do
    let node ← tree.node address
    let path ← Address.path address
    return .node path (Address.name address) node.primaryType node.mixins.names
      (tree.isCheckedOut address)
  | .property owner name => do
    let values ← tree.property owner name
    let path ← Item.path (.property owner name)
    return .property path name (← Address.path owner) values

end Tree

end ContentTree
