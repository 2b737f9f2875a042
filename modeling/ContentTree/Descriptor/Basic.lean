import ContentTree.Directive
import ContentTree.Parameter
import ContentTree.Path.Ascent

/-!
# Property descriptors

A `Descriptor` gathers what a request says about one property: the submitted values and the effect
of every directive addressed to its path. From these follow the values that are to be written
(`Descriptor.effectiveValues`) and whether there is anything to write (`Descriptor.hasValues`).

A blank submission, that is at most one value and no text in it, falls back on a single default.
Two defaults are reserved: one says that nothing is to be written, the other that the property is to
be removed; a removal is the effective value `none`.
-/

namespace ContentTree

/-- An existing property whose values are copied or moved to a descriptor's path. -/
structure Source where
  path : String
  isMove : Bool := false
  deriving DecidableEq, Repr

/-- What a request says about the property at a path. -/
structure Descriptor where
  path : String
  values : Option (List String) := none
  typeHint : Option String := none
  defaultValues : List String := []
  delete : Bool := false
  source : Option Source := none
  ignoreBlanks : Bool := false
  useDefaultWhenMissing : Bool := false
  deriving DecidableEq, Repr

namespace Descriptor

/-- The default that keeps a blank submission from being written. -/
def ignoreDefault : String := ":ignore"

/-- The default that turns a blank submission into the removal of the property. -/
def removeDefault : String := ":null"

/-- Descriptors are addressed to absolute paths only. -/
def checked (descriptor : Descriptor) : Except Fault Descriptor :=
  if Path.isAbsolute descriptor.path then .ok descriptor else .error .relativeProperty

def name (descriptor : Descriptor) : String :=
  Path.name descriptor.path

/-- The path of the node that owns the property. -/
def parentPath? (descriptor : Descriptor) : Option String :=
  Path.parent? descriptor.path

def manyMark : String := "[]"

/-- Whether the type hint names a type of several values. -/
def hasManyHint (descriptor : Descriptor) : Bool :=
  descriptor.typeHint.any fun hint => manyMark.toList.isSuffixOf hint.toList

/-- The type hint without the mark for several values. -/
def valueType? (descriptor : Descriptor) : Option String :=
  if descriptor.hasManyHint then
    descriptor.typeHint.map fun hint =>
      String.ofList (hint.toList.take (hint.length - manyMark.length))
  else descriptor.typeHint

def hasSource (descriptor : Descriptor) : Bool :=
  descriptor.source.isSome

/-- What a blank submission stands for. -/
def blankValues (descriptor : Descriptor) : Option (List String) :=
  if descriptor.ignoreBlanks then some []
  else
    match descriptor.defaultValues with
    | [default] =>
      if default = ignoreDefault then some []
      else if default = removeDefault then none
      else some [default]
    | _ => some [""]

/-- The values to write once blanks and defaults are accounted for; `none` asks for the property to
be removed. -/
def effectiveValues (descriptor : Descriptor) : Option (List String) :=
  match descriptor.values with
  | none => some (if descriptor.useDefaultWhenMissing then descriptor.defaultValues.take 1 else [])
  | some [] => descriptor.blankValues
  | some [value] => if value = "" then descriptor.blankValues else some [value]
  | some values => some (values.filter fun value => value ≠ "" || !descriptor.ignoreBlanks)

/-- Whether there is anything to write: defaults for a missing submission count, and a submission
does unless it is to be ignored for having blanks only. -/
def hasValues (descriptor : Descriptor) : Bool :=
  if descriptor.useDefaultWhenMissing && !descriptor.defaultValues.isEmpty then true
  else if descriptor.ignoreBlanks then
    descriptor.values.isSome && !(descriptor.effectiveValues.getD []).isEmpty
  else descriptor.values.isSome

/-- Apply a directive that was submitted with some values. Most directives take exactly one value
and have no effect with any other number; the values named by a reference are looked up among all
parameters of the request. -/
def apply (descriptor : Descriptor) (directive : Directive) (values : List String)
    (parameters : Parameters) : Descriptor :=
  match directive with
  | .typeHint =>
    match values with
    | [] => descriptor
    | hint :: _ => { descriptor with typeHint := some hint }
  | .defaultValue => { descriptor with defaultValues := values }
  | .delete => { descriptor with delete := true }
  | .valueFrom =>
    match values with
    | [reference] =>
      match parameters.get? reference with
      | some submission => { descriptor with values := some submission.values }
      | none => descriptor
    | _ => descriptor
  | .moveFrom =>
    match values with
    | [path] => { descriptor with source := some ⟨path, true⟩ }
    | _ => descriptor
  | .copyFrom =>
    match values with
    | [path] => { descriptor with source := some ⟨path, false⟩ }
    | _ => descriptor
  | .ignoreBlanks =>
    match values with
    | [_] => { descriptor with ignoreBlanks := true }
    | _ => descriptor
  | .useDefaultWhenMissing =>
    match values with
    | [_] => { descriptor with useDefaultWhenMissing := true }
    | _ => descriptor

@[simp]
theorem path_apply (descriptor : Descriptor) (directive : Directive) (values : List String)
    (parameters : Parameters) :
    (descriptor.apply directive values parameters).path = descriptor.path := by
  cases directive <;> unfold apply <;> (repeat' split) <;> rfl

end Descriptor

/-- The descriptors of a request by path, in the order in which the paths were first addressed. -/
abbrev Descriptors := Table String Descriptor

end ContentTree
