import ContentTree.Descriptor.Basic

/-!
# Requested node types

The types that a request wants for a node are the effective values of two reserved properties of
that very node; nothing is taken over from the nodes around it.
-/

namespace ContentTree

def primaryTypeName : String := "jcr:primaryType"

def mixinTypesName : String := "jcr:mixinTypes"

namespace Descriptors

/-- The primary type requested for the node at a path. -/
def primaryType? (descriptors : Descriptors) (path : String) : Except Fault (Option String) := do
  let typePath ← Path.join path primaryTypeName
  return do
    let descriptor ← descriptors.get? typePath
    let values ← descriptor.effectiveValues
    values.head?

/-- The mixin types requested for the node at a path. A descriptor without anything to write
requests none in particular, a removal requests that there be no mixin types. -/
def mixinTypes? (descriptors : Descriptors) (path : String) :
    Except Fault (Option (List String)) := do
  let typesPath ← Path.join path mixinTypesName
  return do
    let descriptor ← descriptors.get? typesPath
    if descriptor.hasValues then some (descriptor.effectiveValues.getD []) else none

end Descriptors

end ContentTree
