/-!
# Directives

A parameter whose name ends in one of eight suffixes gives no value to a property of that name; it
says how the property named before the suffix is to be written. `Directive.match?` finds the
directive that a text ends in and `Directive.strip` takes its suffix away.
-/

namespace ContentTree

/-- The ways in which a parameter can say how a property is to be written. -/
inductive Directive where
  | typeHint
  | defaultValue
  | valueFrom
  | delete
  | moveFrom
  | copyFrom
  | ignoreBlanks
  | useDefaultWhenMissing
  deriving DecidableEq, Repr

namespace Directive

def suffix : Directive → String
  | typeHint => "@TypeHint"
  | defaultValue => "@DefaultValue"
  | valueFrom => "@ValueFrom"
  | delete => "@Delete"
  | moveFrom => "@MoveFrom"
  | copyFrom => "@CopyFrom"
  | ignoreBlanks => "@IgnoreBlanks"
  | useDefaultWhenMissing => "@UseDefaultWhenMissing"

/-- The directives in the order in which they are tried, longer suffixes first. -/
def all : List Directive :=
  [useDefaultWhenMissing, defaultValue, ignoreBlanks, valueFrom, typeHint, moveFrom, copyFrom,
    delete]

theorem mem_all (directive : Directive) : directive ∈ all := by
  cases directive <;> decide

/-- Whether a text ends in the suffix of a directive. -/
def marks (directive : Directive) (text : String) : Bool :=
  directive.suffix.toList.isSuffixOf text.toList

/-- A text without the suffix of a directive, where it ends in it. -/
def strip (directive : Directive) (text : String) : String :=
  if directive.marks text then
    String.ofList (text.toList.take (text.length - directive.suffix.length))
  else text

/-- The directive that a text ends in. -/
def match? (text : String) : Option Directive :=
  all.find? (·.marks text)

theorem marks_iff {directive : Directive} {text : String} :
    directive.marks text ↔ ∃ base : String, text = base ++ directive.suffix := by
  rw [marks, List.isSuffixOf_iff_suffix]
  refine ⟨fun ⟨base, split⟩ => ⟨String.ofList base, ?_⟩, fun ⟨base, split⟩ => ⟨base.toList, ?_⟩⟩
  · rw [← String.toList_inj, String.toList_append, String.toList_ofList, split]
  · rw [split, String.toList_append]

@[simp]
theorem marks_append_suffix (directive : Directive) (base : String) :
    directive.marks (base ++ directive.suffix) :=
  marks_iff.2 ⟨base, rfl⟩

@[simp]
theorem strip_append_suffix (directive : Directive) (base : String) :
    directive.strip (base ++ directive.suffix) = base := by
  rw [strip, if_pos (marks_append_suffix directive base), String.length_append,
    Nat.add_sub_cancel, String.toList_append, ← String.length_toList, List.take_left',
    String.ofList_toList]
  rfl

theorem strip_of_not_marks {directive : Directive} {text : String}
    (unmarked : ¬directive.marks text) : directive.strip text = text :=
  if_neg unmarked

/-- No suffix ends in another one, so that a text ends in one of them at most. -/
theorem eq_of_marks {directive other : Directive} {text : String} (marked : directive.marks text)
    (otherMarked : other.marks text) : directive = other := by
  have distinct : ∀ first ∈ all, ∀ second ∈ all,
      first.suffix.toList <:+ second.suffix.toList → first = second := by decide
  rw [marks, List.isSuffixOf_iff_suffix] at marked otherMarked
  rcases List.suffix_or_suffix_of_suffix marked otherMarked with ends | ends
  · exact distinct directive directive.mem_all other other.mem_all ends
  · exact (distinct other other.mem_all directive directive.mem_all ends).symm

theorem marks_of_match? {directive : Directive} {text : String}
    (matched : match? text = some directive) : directive.marks text := by
  have marked := List.find?_some matched
  exact marked

theorem match?_eq_some_iff {directive : Directive} {text : String} :
    match? text = some directive ↔ directive.marks text := by
  refine ⟨marks_of_match?, fun marked => ?_⟩
  cases matched : match? text with
  | none =>
    have unmarked := List.find?_eq_none.1 matched directive directive.mem_all
    exact absurd marked unmarked
  | some other => rw [eq_of_marks (marks_of_match? matched) marked]

end Directive

end ContentTree
