import ContentTree.Tree.Edit
import ContentTree.Tree.Item

/-!
# Sessions

A session is a client's access to a content tree. It asks whether items exist and gets them by their
paths. A session may be stale at some paths: asked whether an item exists there it says no, whatever
the tree holds; getting items and following nodes are not affected.
-/

namespace ContentTree

def unstructuredType : String := "nt:unstructured"

structure Session where
  tree : Tree := Tree.fresh
  /-- The primary type of nodes that are added without one. -/
  defaultType : String := unstructuredType
  stale : List String := []
  deriving DecidableEq

namespace Session

instance : Inhabited Session := ⟨{}⟩

/-- Whether a session that is stale at some paths is aware of an item at a path. -/
def knowsExcept (session : Session) (stale : String → Bool) (path : String) : Bool :=
  !stale path && (session.tree.item? path).isSome

/-- Whether the session is aware of an item at a path. -/
def knows (session : Session) (path : String) : Bool :=
  session.knowsExcept (· ∈ session.stale) path

theorem isSome_item?_of_knowsExcept (session : Session) {stale : String → Bool} (path : String)
    (isKnown : session.knowsExcept stale path) : (session.tree.item? path).isSome := by
  rw [knowsExcept, Bool.and_eq_true] at isKnown
  exact isKnown.2

theorem isSome_item?_of_knows (session : Session) (path : String) (isKnown : session.knows path) :
    (session.tree.item? path).isSome :=
  session.isSome_item?_of_knowsExcept path isKnown

theorem knows_of_fresh {session : Session} (fresh : session.stale = []) (path : String) :
    session.knows path = (session.tree.item? path).isSome := by
  simp [knows, knowsExcept, fresh]

/-- Whether an item exists at a path, which has to be absolute unless the session is stale there. -/
def itemExists (session : Session) (path : Option String) : Except Fault Bool := do
  if path.any (· ∈ session.stale) then return false
  let path ← Path.required path .notAbsolute
  return session.knows path

def getItem (session : Session) (path : Option String) : Except Fault Item := do
  let path ← Path.required path .notAbsolute
  match session.tree.item? path with
  | some item => return item
  | none => throw (.itemNotFound path)

end Session

end ContentTree
