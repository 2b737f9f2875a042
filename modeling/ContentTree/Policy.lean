import ContentTree.Parameter

/-!
# Versioning policies

A policy says which nodes a request may check out and check in by itself. Two control parameters of
a request refine the policy that it starts from.
-/

namespace ContentTree

structure Policy where
  /-- Check out a node that is checked in before changing anything below it. -/
  autoCheckout : Bool := false
  /-- Report a node that becomes versionable as checked out, so that it is checked in later. -/
  checkinOnNewVersionable : Bool := false
  /-- Check in again, once the request is done, what was checked out for it. -/
  autoCheckin : Bool := true
  deriving DecidableEq, Repr

namespace Policy

instance : Inhabited Policy := ⟨{}⟩

def autoCheckoutParameter : String := ":autoCheckout"

def autoCheckinParameter : String := ":autoCheckin"

/-- Read a switch; only the words `true` and `false` count, in any case. Lowering the letters from
`A` to `Z` is enough, for no other character has a letter of these words as its lower case. -/
def flag? (value : String) : Option Bool :=
  let word := value.toList.map Char.toLower
  if word = "true".toList then some true
  else if word = "false".toList then some false
  else none

/-- The switch that the first value under a control parameter sets. -/
def flagOf? (parameters : Parameters) (name : String) : Option Bool := do
  let submission ← parameters.get? name
  let value ← submission.values.head?
  flag? value

/-- Refine a policy by the control parameters of a request. -/
def refine (policy : Policy) (parameters : Parameters) : Policy :=
  { policy with
    autoCheckout := (flagOf? parameters autoCheckoutParameter).getD policy.autoCheckout
    autoCheckin := (flagOf? parameters autoCheckinParameter).getD policy.autoCheckin }

end Policy

end ContentTree
