import ContentTree.Table

/-!
# Request parameters

A request submits values under parameter names, in an order that matters. Names that begin with a
colon, and the name browsers use for the form's encoding, steer the request and carry no content.
Every other name denotes a property or a directive about one; it may say so explicitly by beginning
like a path, and as soon as one name of the request begins with `./`, the names that do not begin
like a path are left alone.
-/

namespace ContentTree

/-- What was submitted under one parameter name. -/
inductive Submission where
  | absent
  | single (value : String)
  | several (values : List String)
  deriving DecidableEq, Repr

/-- The submitted values as a list. -/
def Submission.values : Submission → List String
  | absent => []
  | single value => [value]
  | several values => values

/-- The parameters of a request by name, in the order of their submission. -/
abbrev Parameters := Table String Submission

namespace Parameter

/-- Whether a text begins with another one. -/
def startsWith (name start : String) : Bool :=
  start.toList.isPrefixOf name.toList

def charset : String := "_charset_"

/-- Whether a parameter steers the request instead of carrying content. -/
def isControl (name : String) : Bool :=
  startsWith name ":" || name = charset

/-- Whether a name begins like a path and is so marked as denoting a property. -/
def beginsLikePath (name : String) : Bool :=
  startsWith name "/" || startsWith name "./" || startsWith name "../"

/-- Whether names have to begin like a path in order to denote properties. -/
def pathsRequired (names : List String) : Bool :=
  names.any (startsWith · "./")

/-- Whether a parameter carries content. -/
def isAccepted (pathsOnly : Bool) (name : String) : Bool :=
  !isControl name && (!pathsOnly || beginsLikePath name)

@[simp]
theorem isAccepted_of_isControl {name : String} (control : isControl name) (pathsOnly : Bool) :
    isAccepted pathsOnly name = false := by
  simp [isAccepted, control]

theorem isAccepted_eq_true_iff {name : String} {pathsOnly : Bool} :
    isAccepted pathsOnly name ↔
      ¬isControl name ∧ (pathsOnly → beginsLikePath name) := by
  cases pathsOnly <;> simp [isAccepted]

end Parameter

end ContentTree
