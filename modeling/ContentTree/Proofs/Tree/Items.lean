import ContentTree.Proofs.Tree.Reach

/-!
# The items of a tree

A list of names leads to at most one item. To a node it leads if the node is there, and to a
property only where there is no node, so it finds every item of a tree in which no node has a child
and a property of one name (`itemAt?_eq_some_iff`).

The properties of a node are changed by a change of this very node only. A child that is added to it
does not touch them.
-/

namespace ContentTree

/-- The names that lead to an item, the last one first. -/
def Item.address : Item → Address
  | node address => address
  | property owner name => name :: owner

theorem Item.path_eq (item : Item) : item.path = Address.path item.address := by
  cases item <;> rfl

namespace Tree

variable {tree : Tree} {address owner other : Address} {name : String} {node : Node}

/-- An item of a tree is one of its nodes or a property of one of them. -/
def HasItem (tree : Tree) : Item → Prop
  | .node address => address ∈ tree
  | .property owner name => (tree.property? owner name).isSome

theorem property?_of_node? (stored : tree.node? owner = some node) (name : String) :
    tree.property? owner name = node.properties.get? name := by
  simp [property?, stored]

theorem isVersionable_of_node? (stored : tree.node? address = some node) :
    tree.isVersionable address = node.isVersionable := by
  simp [isVersionable, stored]

theorem isFlagged_of_node? (stored : tree.node? address = some node) :
    tree.isFlagged address = node.checkedOut := by
  simp [isFlagged, stored]

theorem property?_modify (tree : Tree) (address owner : Address) (change : Node → Node)
    (name : String) :
    (tree.modify address change).property? owner name =
      if owner = address then (tree.node? owner).bind fun node => (change node).properties.get? name
      else tree.property? owner name := by
  simp only [property?, node?_modify, Option.bind_eq_bind]
  split
  · rw [Option.bind_map]
    rfl
  · rfl

theorem property?_modify_of_properties {change : Node → Node}
    (kept : ∀ node, (change node).properties = node.properties) (address owner : Address)
    (name : String) :
    (tree.modify address change).property? owner name = tree.property? owner name := by
  rw [property?_modify]
  split
  · simp only [kept]
    rfl
  · rfl

theorem property?_insertChild (present : owner ∈ tree) (name : String) (node : Node)
    (other : Address) (asked : String) :
    (tree.insertChild owner present name node).property? other asked =
      if other = name :: owner then node.properties.get? asked else tree.property? other asked := by
  simp only [property?, node?_insertChild, Option.bind_eq_bind]
  split <;> rfl

/-! ### Where items are found -/

theorem eq_of_itemAt? {item : Item} (found : tree.itemAt? address = some item) :
    item.address = address ∧ tree.HasItem item := by
  unfold itemAt? at found
  split at found
  case isTrue present =>
    cases found
    exact ⟨rfl, present⟩
  case isFalse =>
    split at found
    · cases found
    · split at found
      case isTrue isProperty =>
        cases found
        exact ⟨rfl, isProperty⟩
      case isFalse => cases found

/-- Where children and properties have names of their own, the names that lead to an item find it
and nothing else. -/
theorem itemAt?_eq_some_iff
    (disjoint : ∀ owner name, name :: owner ∈ tree → tree.property? owner name = none)
    {item : Item} :
    tree.itemAt? address = some item ↔ item.address = address ∧ tree.HasItem item := by
  refine ⟨eq_of_itemAt?, ?_⟩
  rintro ⟨rfl, present⟩
  cases item with
  | node address => exact itemAt?_of_mem present
  | property owner name =>
      have isProperty : (tree.property? owner name).isSome := present
      have absent : name :: owner ∉ tree := by
        intro childThere
        rw [disjoint owner name childThere] at isProperty
        cases isProperty
      rw [Item.address, itemAt?_cons_of_notMem absent, if_pos isProperty]

end Tree

end ContentTree
