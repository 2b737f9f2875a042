import ContentTree.Descriptor.Basic

/-!
# Collecting the descriptors of a request

The accepted parameters are taken in the order of their submission. Each is resolved to the path it
addresses, a relative name against the base path of the request, and then either gives the values of
the descriptor at that path or, where the path ends in a directive, changes the descriptor at the
path before the suffix. A descriptor comes into being when its path is addressed for the first time,
even by a directive that has no effect.
-/

namespace ContentTree

namespace Parameter

/-- The path that a parameter name denotes; absolute names are taken as they are. -/
def path (base name : String) : Except Fault String :=
  if Path.isAbsolute name then .ok name else Path.join base name

end Parameter

namespace Descriptors

/-- Change the descriptor at a path, which is made if there is none yet. -/
def update (descriptors : Descriptors) (path : String) (change : Descriptor → Descriptor) :
    Except Fault Descriptors :=
  match descriptors.get? path with
  | some descriptor => .ok (descriptors.insert path (change descriptor))
  | none => do
    let descriptor ← Descriptor.checked { path }
    return descriptors.insert path (change descriptor)

/-- Take in one parameter. -/
def add (parameters : Parameters) (base : String) (descriptors : Descriptors)
    (entry : String × Submission) : Except Fault Descriptors := do
  let (name, submission) := entry
  let path ← Parameter.path base name
  match Directive.match? path with
  | none =>
    descriptors.update path fun descriptor => { descriptor with values := some submission.values }
  | some directive =>
    descriptors.update (directive.strip path) (·.apply directive submission.values parameters)

end Descriptors

namespace Parameters

/-- The descriptors of a request whose relative names are resolved against a base path. Unless it is
given, the names themselves tell whether they have to begin like a path. -/
def collect (parameters : Parameters) (base : String) (pathsOnly : Option Bool) :
    Except Fault Descriptors :=
  let pathsOnly := pathsOnly.getD (Parameter.pathsRequired parameters.keys)
  (parameters.entries.filter (Parameter.isAccepted pathsOnly ·.1)).foldlM
    (Descriptors.add parameters base) ∅

end Parameters

end ContentTree
