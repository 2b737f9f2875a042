/-!
# Faults

Everything that can go wrong when paths are resolved, parameters are collected or the content tree
is changed. A `Fault` names the cause together with the paths and names that are involved, and
`Fault.message` is the one place where a cause is put into words.
-/

namespace ContentTree

/-- Outcomes can be compared where their faults and values can. -/
instance decidableEqOutcome {Cause Value : Type} [DecidableEq Cause] [DecidableEq Value] :
    DecidableEq (Except Cause Value)
  | .ok left, .ok right => decidable_of_iff (left = right) (by simp)
  | .error left, .error right => decidable_of_iff (left = right) (by simp)
  | .ok _, .error _ => isFalse nofun
  | .error _, .ok _ => isFalse nofun

/-- What is wrong with a path. -/
inductive PathFlaw where
  | notAbsolute
  | aboveRoot
  | targetNotAbsolute
  deriving DecidableEq, Repr

def PathFlaw.reason : PathFlaw → String
  | notAbsolute => "path must be absolute"
  | aboveRoot => "'..' leads above the root"
  | targetNotAbsolute => "path must be an absolute path"

/-- The causes for which an operation is refused. -/
inductive Fault where
  /-- The path, if one was given at all, cannot be resolved. -/
  | invalidPath (path : Option String) (flaw : PathFlaw)
  | itemNotFound (path : String)
  | itemExists (path : String)
  /-- The nearest versionable node at or above the path is checked in. -/
  | checkedIn (path : String)
  | notVersionable (path : String)
  | mixinNotAssigned (mixin path : String)
  | notANode (path : String)
  | relativeProperty
  deriving DecidableEq, Repr

/-- The text that stands for a path which may be missing. -/
def Path.shown (path : Option String) : String :=
  path.getD "None"

/-- The wording of a fault; paths and names are inserted as they are. -/
def Fault.message : Fault → String
  | invalidPath path flaw => "Invalid path '" ++ Path.shown path ++ "': " ++ flaw.reason
  | itemNotFound path => "No item found at '" ++ path ++ "'"
  | itemExists path => "Item already exists at '" ++ path ++ "'"
  | checkedIn path => "Cannot modify '" ++ path ++ "': node is checked in"
  | notVersionable path => "'" ++ path ++ "' is not versionable"
  | mixinNotAssigned mixin path => "Mixin '" ++ mixin ++ "' is not assigned to '" ++ path ++ "'"
  | notANode path => "'" ++ path ++ "' is a property, not a node"
  | relativeProperty => "Value error, property path must be absolute"

end ContentTree
