import ContentTree.Directive

/-!
# Texts with a directive's suffix

A text tells in one way only which directive it ends in and what stands before the suffix: from
`base ++ directive.suffix` both are read back, whatever the base ends in
(`Directive.eq_append_suffix_iff`), because no suffix ends in another one. It does not matter,
therefore, in which order the directives are tried, and a text is left as it is by every directive
exactly if it ends in none of them (`Directive.match?_unambiguous`).
-/

namespace ContentTree

namespace Directive

variable {directive : Directive} {base text : String}

theorem append_suffix_strip (marked : directive.marks text) :
    directive.strip text ++ directive.suffix = text := by
  rcases marks_iff.1 marked with ⟨base, rfl⟩
  rw [strip_append_suffix]

/-- The directive and what stands before it are read back from a text. -/
theorem eq_append_suffix_iff : text = base ++ directive.suffix ↔
    match? text = some directive ∧ directive.strip text = base := by
  constructor
  · rintro rfl
    exact ⟨match?_eq_some_iff.2 (marks_append_suffix directive base),
      strip_append_suffix directive base⟩
  · rintro ⟨matched, rfl⟩
    exact (append_suffix_strip (marks_of_match? matched)).symm

theorem match?_eq_none_iff :
    match? text = none ↔ ∀ directive : Directive, ¬directive.marks text := by
  simp only [Option.eq_none_iff_forall_ne_some, ne_eq, match?_eq_some_iff]

/-- Suffixes are not empty, so that taking one away changes the text. -/
theorem strip_eq_self_iff : directive.strip text = text ↔ ¬directive.marks text := by
  constructor
  · intro unchanged marked
    have lengths := congrArg String.length (append_suffix_strip marked)
    rw [String.length_append, unchanged] at lengths
    have nonempty : directive.suffix.length ≠ 0 := by cases directive <;> decide
    omega
  · exact strip_of_not_marks

theorem find?_marks_eq_match? {order : List Directive}
    (complete : ∀ directive, directive ∈ order) (text : String) :
    order.find? (·.marks text) = match? text := by
  cases found : order.find? (·.marks text) with
  | some directive =>
      have marked := List.find?_some found
      exact (match?_eq_some_iff.2 marked).symm
  | none =>
      have unmarked := List.find?_eq_none.1 found
      exact (match?_eq_none_iff.2 fun directive => unmarked directive (complete directive)).symm

/-- A text ends in one directive at most, which is found and taken away once in whatever order the
directives are tried. -/
theorem match?_unambiguous (text : String) :
    (∀ directive : Directive, match? (text ++ directive.suffix) = some directive ∧
      directive.strip (text ++ directive.suffix) = text) ∧
    (∀ directive, match? text = some directive →
      text = directive.strip text ++ directive.suffix ∧
        ∀ other base, text = base ++ other.suffix → other = directive) ∧
    (∀ order : List Directive, (∀ directive, directive ∈ order) →
      order.find? (·.marks text) = match? text) ∧
    (match? text = none ↔ ∀ directive : Directive, directive.strip text = text) := by
  refine ⟨fun directive => eq_append_suffix_iff.1 rfl, ?_, ?_, ?_⟩
  · intro directive matched
    refine ⟨eq_append_suffix_iff.2 ⟨matched, rfl⟩, ?_⟩
    intro other base isText
    have otherMatched := (eq_append_suffix_iff.1 isText).1
    exact Option.some.inj (otherMatched.symm.trans matched)
  · intro order complete
    exact find?_marks_eq_match? complete text
  · simp only [match?_eq_none_iff, strip_eq_self_iff]

theorem match?_unambiguous_stacked :
    let text := "/page/title@Delete@TypeHint"
    match? text = some typeHint ∧ text = typeHint.strip text ++ typeHint.suffix ∧
      typeHint.strip text = "/page/title@Delete" ∧
      all.reverse.find? (·.marks text) = some typeHint ∧
      (∀ base, text ≠ base ++ delete.suffix) ∧ delete.strip text = text := by
  intro text
  rcases match?_unambiguous text with ⟨-, whole, anyOrder, -⟩
  have matched : match? text = some typeHint := by decide +kernel
  have complete : ∀ directive, directive ∈ all.reverse :=
    fun directive => List.mem_reverse.2 directive.mem_all
  rcases whole typeHint matched with ⟨isText, only⟩
  refine ⟨matched, isText, ((match?_unambiguous "/page/title@Delete").1 typeHint).2,
    (anyOrder all.reverse complete).trans matched, ?_, by decide +kernel⟩
  intro base ends
  cases only delete base ends

end Directive

end ContentTree
