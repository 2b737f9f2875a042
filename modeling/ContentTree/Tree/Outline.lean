import ContentTree.Tree.Versioning

/-!
# Outlines

The outline of a tree lists its nodes from the root downwards, each node before its children and
the children in the order of their addition. An address is never longer than there are nodes in the
tree, so the number of nodes bounds the depth of the outline.
-/

namespace ContentTree

/-- One node of an outline. -/
structure OutlineRow where
  depth : Nat
  name : String
  primaryType : String
  mixins : List String
  checkedOut : Bool
  properties : List (String × List String)
  deriving DecidableEq, Repr

namespace Tree

def outlineRow? (tree : Tree) (address : Address) : Option OutlineRow := do
  let node ← tree.node? address
  return {
    depth := address.length
    name := Address.name address
    primaryType := node.primaryType
    mixins := node.mixins.names
    checkedOut := tree.isCheckedOut address
    properties := node.properties.entries }

/-- The addresses at and below a node, down to a number of levels. -/
def below (tree : Tree) (address : Address) : Nat → List Address
  | 0 => []
  | levels + 1 =>
    address :: (tree.childNames address).flatMap fun name => tree.below (name :: address) levels

def outline (tree : Tree) : List OutlineRow :=
  (tree.below [] tree.nodes.entries.length).filterMap tree.outlineRow?

end Tree

end ContentTree
