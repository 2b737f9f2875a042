import ContentTree.Session.Basic

/-!
# Queries

The questions that a session answers without changing anything. Most are about the node to which a
list of names leads from the root, child by child.
-/

namespace ContentTree

inductive Query where
  | hasNode (place : List String) (name : String)
  | hasProperty (place : List String) (name : String)
  | getNode (place : List String) (name : String)
  | getProperty (place : List String) (name : String)
  | getParent (place : List String)
  | describe (place : List String)
  | isNodeType (place : List String) (type : String)
  | nearestVersionable (place : List String)
  | itemExists (path : Option String)
  | getItem (path : Option String)
  deriving DecidableEq, Repr

/-- What is found out about a session or an item. -/
inductive Finding where
  | flag (value : Bool)
  | path (path : Option String)
  | item (view : ItemView)
  deriving DecidableEq, Repr

namespace Query

def answer (session : Session) : Query → Except Fault Finding
  | hasNode place name => do
    let address ← session.tree.locate place
    return .flag (name :: address ∈ session.tree)
  | hasProperty place name => do
    let address ← session.tree.locate place
    return .flag (session.tree.property? address name).isSome
  | getNode place name => do
    let address ← session.tree.locate place
    let child ← session.tree.child address name
    return .item (← session.tree.view (.node child))
  | getProperty place name => do
    let address ← session.tree.locate place
    return .item (← session.tree.view (.property address name))
  | getParent place => do
    let address ← session.tree.locate place
    return .path (← Address.path (← Address.parent address))
  | describe place => do
    let address ← session.tree.locate place
    return .item (← session.tree.view (.node address))
  | isNodeType place type => do
    let node ← session.tree.node (← session.tree.locate place)
    return .flag (node.hasType type)
  | nearestVersionable place => do
    let address ← session.tree.locate place
    match session.tree.nearestVersionable? address with
    | some versionable => return .path (← Address.path versionable)
    | none => return .path none
  | itemExists path => do
    return .flag (← session.itemExists path)
  | getItem path => do
    return .item (← session.tree.view (← session.getItem path))

end Query

end ContentTree
