import ContentTree.Descriptor.NodeType
import ContentTree.Session.Work

/-!
# Creation of nodes

The node at a path is created together with all of its ancestors that are missing. The search for a
place to start climbs up from the path until the session knows an item, at the latest the root. From
there the way leads down name by name: into the child of that name if there is one after all, else
into a new node, whose types are those that the request wants for the new node's own path. Every new
node is reported.
-/

namespace ContentTree

namespace Work

/-- Add a child to a node that is prepared for it, with the types that a request wants for it. -/
def addRequested (prepare : Address → Work Unit) (descriptors : Descriptors) (parent : Address)
    (name : String) : Work Address := do
  let created := name :: parent
  let path := Path.ofNames created.reverse
  let type ← descriptors.primaryType? path
  prepare parent
  let defaultType := (← get).session.defaultType
  edit (·.addNode parent name type defaultType)
  let mixins ← descriptors.mixinTypes? path
  forM (mixins.getD []) fun mixin => edit (·.addMixin created mixin)
  report (.created (← Address.path created))
  return created

/-- Go from a node to its child of some name, which is added if it is missing. -/
def enter (prepare : Address → Work Unit) (descriptors : Descriptors) (parent : Address)
    (name : String) : Work Address := do
  if name :: parent ∈ (← tree) then
    return name :: parent
  addRequested prepare descriptors parent name

section Enter

variable {prepare : Address → Work Unit} {descriptors : Descriptors} {parent : Address}
  {name : String} {progress : Progress}

theorem runFrom_enter_of_mem (present : name :: parent ∈ progress.session.tree) :
    (enter prepare descriptors parent name).runFrom progress =
      (.ok (name :: parent), progress) := by
  simp only [enter, runFrom_bind, runFrom_tree, present, ↓reduceIte, runFrom_pure]

theorem runFrom_enter_of_notMem (absent : name :: parent ∉ progress.session.tree) :
    (enter prepare descriptors parent name).runFrom progress =
      (addRequested prepare descriptors parent name).runFrom progress := by
  simp only [enter, runFrom_bind, runFrom_tree, absent, ↓reduceIte]

end Enter

/-- The item at the known path that is nearest to a path, together with that path. -/
def nearestKnown (knows : String → Bool) (path : String) : Work (String × Item) := do
  match (Path.climb knows path).reached with
  | none => throw (.invalidPath none .notAbsolute)
  | some start =>
    if start = Path.root then return (start, .node [])
    return (start, ← (← get).session.getItem start)

/-- The node at a path, which is created with its missing ancestors. The search for a place to start
believes that there is an item at a path if `knows` says so. -/
def createKnowing (knows : String → Bool) (prepare : Address → Work Unit)
    (descriptors : Descriptors) (path : Option String) : Work Address := do
  let path ← Path.normalize (← Path.required path .targetNotAbsolute)
  match ← nearestKnown knows path with
  | (start, .property ..) => throw (.notANode start)
  | (start, .node address) =>
    let missing := (Path.segments path).drop (Path.segments start).length
    missing.foldlM (enter prepare descriptors) address

/-- The node at a path, which is created with its missing ancestors. -/
def create (checkout : Checkout) (descriptors : Descriptors) (policy : Policy)
    (path : Option String) : Work Address := do
  createKnowing (← get).session.knows (checkout.prepare policy) descriptors path

theorem runFrom_create (checkout : Checkout) (descriptors : Descriptors) (policy : Policy)
    (path : Option String) (progress : Progress) :
    (create checkout descriptors policy path).runFrom progress =
      (createKnowing progress.session.knows (checkout.prepare policy) descriptors path).runFrom
        progress :=
  rfl

end Work

end ContentTree
