import ContentTree.Creation
import ContentTree.Descriptor.Collection
import ContentTree.Reconciliation

/-!
# Requests

A request addresses a path with parameters. If no item is known at the path, a node is created
there; if one is, and the request asks for mixin types, these are reconciled, provided the item is a
node. The response tells which of the two it was, what has changed, and what the request said about
properties; writing the values of properties is left to others.
-/

namespace ContentTree

namespace Work

/-- Create the node at a path, or bring the mixin types of the one that is there in line with the
request. The answer is whether the node was created. It is believed that there is an item at a path
if `knows` says so, and mixin types are listed in some arrangement. -/
def createOrUpdateKnowing (knows : String → Bool) (arrange : List String → List String)
    (checkout : Checkout) (descriptors : Descriptors) (policy : Policy) (path : Option String) :
    Work Bool := do
  let path ← Path.normalize (← Path.required path .targetNotAbsolute)
  if knows path then
    match ← descriptors.mixinTypes? path with
    | none => return false
    | some mixins =>
      match ← (← get).session.getItem path with
      | .node address => reconcileArranged arrange checkout policy address mixins
      | .property .. => pure ()
      return false
  else
    let _ ← createKnowing knows (checkout.prepare policy) descriptors path
    return true

/-- Create the node at a path, or bring the mixin types of the one that is there in line with the
request. -/
def createOrUpdate (checkout : Checkout) (descriptors : Descriptors) (policy : Policy)
    (path : Option String) : Work Bool := do
  createOrUpdateKnowing (← get).session.knows id checkout descriptors policy path

theorem runFrom_createOrUpdate (checkout : Checkout) (descriptors : Descriptors) (policy : Policy)
    (path : Option String) (progress : Progress) :
    (createOrUpdate checkout descriptors policy path).runFrom progress =
      (createOrUpdateKnowing progress.session.knows id checkout descriptors policy path).runFrom
        progress := by
  simp only [createOrUpdate, runFrom_bind, runFrom_get]

end Work

structure Request where
  path : Option String
  parameters : Parameters
  /-- The policy to follow, whatever the parameters say. -/
  policy : Option Policy := none
  deriving DecidableEq

structure Response where
  path : String
  created : Bool
  changes : List Change
  descriptors : Descriptors
  deriving DecidableEq

namespace Request

/-- The policy of a request: the one it is given, else the base policy as its parameters refine
it. -/
def effectivePolicy (request : Request) (base : Policy) : Policy :=
  request.policy.getD (base.refine request.parameters)

/-- Carry out a request: the path it addresses, whether a node was created there, and what it says
about properties. It is believed that there is an item at a path if `knows` says so, and mixin types
are listed in some arrangement. -/
def workKnowing (request : Request) (knows : String → Bool) (arrange : List String → List String)
    (checkout : Checkout) (base : Policy) : Work (String × Bool × Descriptors) := do
  let path ← Path.normalize (← Path.required request.path .notAbsolute)
  let descriptors ← request.parameters.collect path none
  let policy := request.effectivePolicy base
  let created ← Work.createOrUpdateKnowing knows arrange checkout descriptors policy path
  return (path, created, descriptors)

/-- Respond to a request on a session, with a log of its own, believing that there is an item at a
path if `knows` says so, and with mixin types listed in some arrangement. -/
def respondKnowing (request : Request) (knows : String → Bool)
    (arrange : List String → List String) (checkout : Checkout) (base : Policy)
    (session : Session) : Except Fault Response × Progress :=
  let (outcome, progress) :=
    (request.workKnowing knows arrange checkout base).runFrom { session }
  let response := fun (path, created, descriptors) =>
    { path, created, changes := progress.changes, descriptors }
  (outcome.map response, progress)

/-- Respond to a request on a session, with a log of its own. -/
def respond (request : Request) (checkout : Checkout) (base : Policy) (session : Session) :
    Except Fault Response × Progress :=
  request.respondKnowing session.knows id checkout base session

end Request

end ContentTree
