import ContentTree.NameSet
import ContentTree.Path.Basic
import ContentTree.Table

/-!
# Content trees

A content tree is a table of nodes by their addresses. The address of a node is the list of the
names that lead to it, the node's own name first and the root's child last, so the address of the
parent is the tail of a node's address and the root has the empty address. The root is always there
and so is the parent of every node; both facts belong to the type.

The order of the table is the order in which the nodes were added, and hence gives the children of
every node in the order of their addition. Everything else that a tree stores about a node, its
types, its checkout flag and its properties, is in its `Node` record.

Names are any texts, even ones with a separator in them. The path of a node is therefore not read
off its address but obtained by resolving each name against the path of the parent.
-/

namespace ContentTree

/-- The names on the way from a node up to the root, the node's own name first. -/
abbrev Address := List String

namespace Address

/-- The path of the item at an address. -/
def path : Address → Except Fault String
  | [] => .ok Path.root
  | name :: above => do
    let base ← path above
    Path.join base name

/-- The name at the end of an address; the root has the empty name. -/
def name (address : Address) : String :=
  address.head?.getD ""

/-- The address of the parent of a node, which the root does not have. -/
def parent : Address → Except Fault Address
  | [] => .error (.itemNotFound (Path.root ++ ".."))
  | _ :: above => .ok above

end Address

/-- The type that makes a node versionable, as its primary type or as one of its mixin types. -/
def versionableType : String := "mix:versionable"

/-- What is stored about a node. -/
structure Node where
  primaryType : String
  mixins : NameSet := ∅
  checkedOut : Bool := true
  properties : Table String (List String) := ∅
  deriving DecidableEq

namespace Node

def hasType (node : Node) (type : String) : Bool :=
  type = node.primaryType || type ∈ node.mixins

def isVersionable (node : Node) : Bool :=
  node.hasType versionableType

end Node

/-- A tree of nodes: the root is there, and every other node's parent. -/
structure Tree where
  nodes : Table Address Node
  rooted : [] ∈ nodes
  closed : ∀ {name : String} {above : Address}, name :: above ∈ nodes → above ∈ nodes
  deriving DecidableEq

namespace Tree

@[ext]
theorem ext {left right : Tree} (sameNodes : left.nodes = right.nodes) : left = right := by
  cases left
  cases right
  cases sameNodes
  rfl

instance : Membership Address Tree := ⟨fun tree address => address ∈ tree.nodes⟩

instance (address : Address) (tree : Tree) : Decidable (address ∈ tree) :=
  inferInstanceAs (Decidable (address ∈ tree.nodes))

@[simp]
theorem mem_nodes {tree : Tree} {address : Address} : address ∈ tree.nodes ↔ address ∈ tree :=
  Iff.rfl

def rootType : String := "rep:root"

/-- The tree that consists of the root alone. -/
def fresh : Tree where
  nodes := Table.ofList [([], { primaryType := rootType })]
  rooted := by simp [Table.ofList]
  closed := by simp [Table.ofList]

instance : Inhabited Tree := ⟨fresh⟩

def node? (tree : Tree) (address : Address) : Option Node :=
  tree.nodes.get? address

/-- The node at an address, which is reported missing when there is none. -/
def node (tree : Tree) (address : Address) : Except Fault Node :=
  match tree.node? address with
  | some node => .ok node
  | none => do throw (.itemNotFound (← Address.path address))

/-- Change what is stored about a node. -/
def modify (tree : Tree) (address : Address) (change : Node → Node) : Tree where
  nodes := tree.nodes.modify address change
  rooted := by simpa using tree.rooted
  closed := fun member => Table.mem_modify.2 (tree.closed (Table.mem_modify.1 member))

/-- Put a node below an existing one, after the children that are already there. -/
def insertChild (tree : Tree) (parent : Address) (present : parent ∈ tree) (name : String)
    (node : Node) : Tree where
  nodes := tree.nodes.insert (name :: parent) node
  rooted := by simp [tree.rooted]
  closed := by
    intro other above member
    rcases Table.mem_insert.1 member with new | old
    · obtain ⟨-, rfl⟩ := List.cons.inj new
      exact Table.mem_insert.2 (.inr present)
    · exact Table.mem_insert.2 (.inr (tree.closed old))

/-- The names of the children of a node, in the order of their addition. -/
def childNames (tree : Tree) (parent : Address) : List String :=
  tree.nodes.keys.filterMap fun
    | [] => none
    | name :: above => if above = parent then some name else none

/-- The address of the child of a node. -/
def child (tree : Tree) (parent : Address) (name : String) : Except Fault Address := do
  if name :: parent ∈ tree then return name :: parent
  throw (.itemNotFound (← Path.join (← Address.path parent) name))

/-- The address of the node to which a list of names leads from the root, child by child. -/
def locate (tree : Tree) (names : List String) : Except Fault Address :=
  names.foldlM tree.child []

def property? (tree : Tree) (owner : Address) (name : String) : Option (List String) := do
  let node ← tree.node? owner
  node.properties.get? name

/-- The values of a property of a node. -/
def property (tree : Tree) (owner : Address) (name : String) : Except Fault (List String) := do
  match tree.property? owner name with
  | some values => return values
  | none => throw (.itemNotFound (← Path.join (← Address.path owner) name))

/-! ### What the operations do to the nodes -/

theorem node?_isSome_iff {tree : Tree} {address : Address} :
    (tree.node? address).isSome ↔ address ∈ tree :=
  Table.get?_isSome_iff

theorem node?_eq_none_iff {tree : Tree} {address : Address} :
    tree.node? address = none ↔ address ∉ tree :=
  Table.get?_eq_none_iff

theorem nil_mem (tree : Tree) : [] ∈ tree :=
  tree.rooted

theorem mem_of_cons_mem {tree : Tree} {name : String} {above : Address}
    (member : name :: above ∈ tree) : above ∈ tree :=
  tree.closed member

@[simp]
theorem mem_modify {tree : Tree} {address other : Address} {change : Node → Node} :
    other ∈ tree.modify address change ↔ other ∈ tree :=
  Table.mem_modify

@[simp]
theorem mem_insertChild {tree : Tree} {parent other : Address} {present : parent ∈ tree}
    {name : String} {node : Node} :
    other ∈ tree.insertChild parent present name node ↔
      other = name :: parent ∨ other ∈ tree :=
  Table.mem_insert

theorem node?_modify (tree : Tree) (address other : Address) (change : Node → Node) :
    (tree.modify address change).node? other =
      if other = address then (tree.node? other).map change else tree.node? other :=
  Table.get?_modify tree.nodes address other change

theorem node?_insertChild (tree : Tree) {parent : Address} (present : parent ∈ tree)
    (name : String) (node : Node) (other : Address) :
    (tree.insertChild parent present name node).node? other =
      if other = name :: parent then some node else tree.node? other :=
  Table.get?_insert tree.nodes (name :: parent) other node

theorem modify_congr {tree : Tree} {address : Address} {change other : Node → Node}
    (same : ∀ node, tree.node? address = some node → change node = other node) :
    tree.modify address change = tree.modify address other :=
  ext (Table.modify_congr same)

theorem modify_modify (tree : Tree) (address : Address) (change later : Node → Node) :
    (tree.modify address change).modify address later =
      tree.modify address fun node => later (change node) :=
  ext (Table.modify_modify tree.nodes address change later)

theorem modify_id (tree : Tree) (address : Address) :
    (tree.modify address fun node => node) = tree :=
  ext (Table.modify_id tree.nodes address)

@[simp]
theorem childNames_modify (tree : Tree) (address parent : Address) (change : Node → Node) :
    (tree.modify address change).childNames parent = tree.childNames parent := by
  simp [childNames, modify]

theorem childNames_insertChild (tree : Tree) {parent : Address} (present : parent ∈ tree)
    {name : String} (new : name :: parent ∉ tree) (node : Node) (other : Address) :
    (tree.insertChild parent present name node).childNames other =
      if other = parent then tree.childNames other ++ [name] else tree.childNames other := by
  have newKeys : (tree.nodes.insert (name :: parent) node).keys =
      tree.nodes.keys ++ [name :: parent] := Table.keys_insert_of_notMem new node
  simp only [childNames, insertChild, newKeys, List.filterMap_append]
  by_cases same : other = parent
  · simp [same]
  · simp [same, Ne.symm same]

end Tree

end ContentTree
