import ContentTree.Descriptor.Collection
import ContentTree.Proofs.Outcomes
import Mathlib.Tactic.ByContra
import Mathlib.Tactic.Push

/-!
# Parameters as mentions of properties

An accepted parameter mentions the property at one path: the path that its name denotes, without the
suffix of the directive that it ends in, if it ends in one. Understanding a parameter is the only
part of collecting that can fail, and it fails as resolving the name does. All that is understood
is addressed to absolute paths, so a descriptor can always be made. Hence collecting is to
understand the accepted parameters one after the other and then to note down what they mention
(`Parameters.collect_eq`).
-/

namespace ContentTree

/-- A parameter as it is understood. -/
structure Mention where
  path : String
  directive : Option Directive
  values : List String
  deriving DecidableEq, Repr

namespace Mention

/-- What is mentioned by values that are submitted for a path. -/
def ofPath (path : String) (submission : Submission) : Mention :=
  match Directive.match? path with
  | none => { path, directive := none, values := submission.values }
  | some directive =>
      { path := directive.strip path, directive := some directive, values := submission.values }

/-- What is mentioned by a parameter whose name is resolved against a base path. -/
def ofEntry (base : String) (entry : String × Submission) : Except Fault Mention := do
  return ofPath (← Parameter.path base entry.1) entry.2

/-- What a parameter mentions, if its name can be resolved. -/
def ofEntry? (base : String) (entry : String × Submission) : Option Mention :=
  (ofEntry base entry).toOption

theorem ofEntry?_eq_some_iff {base : String} {entry : String × Submission} {mention : Mention} :
    ofEntry? base entry = some mention ↔ ofEntry base entry = .ok mention := by
  unfold ofEntry?
  cases ofEntry base entry <;> simp [Except.toOption]

/-- What a mention makes of the descriptor of its path. -/
def amend (mention : Mention) (parameters : Parameters) (descriptor : Descriptor) : Descriptor :=
  match mention.directive with
  | none => { descriptor with values := some mention.values }
  | some directive => descriptor.apply directive mention.values parameters

end Mention

namespace Directive

theorem not_isAbsolute_suffix (directive : Directive) : ¬Path.isAbsolute directive.suffix := by
  cases directive <;> decide

theorem isAbsolute_strip {directive : Directive} {path : String} (absolute : Path.isAbsolute path) :
    Path.isAbsolute (directive.strip path) := by
  by_cases marked : directive.marks path
  · rcases marks_iff.1 marked with ⟨start, rfl⟩
    rw [strip_append_suffix]
    rcases Path.isAbsolute_append.1 absolute with startAbsolute | ⟨-, suffixAbsolute⟩
    · exact startAbsolute
    · exact absurd suffixAbsolute directive.not_isAbsolute_suffix
  · rwa [strip_of_not_marks marked]

end Directive

namespace Parameter

theorem isAbsolute_of_path {base name path : String}
    (resolved : Parameter.path base name = .ok path) : Path.isAbsolute path := by
  unfold Parameter.path at resolved
  split at resolved
  case isTrue absolute =>
    cases resolved
    exact absolute
  case isFalse => exact Path.isAbsolute_of_normalize resolved

end Parameter

namespace Mention

theorem isAbsolute_path_ofPath {path : String} (absolute : Path.isAbsolute path)
    (submission : Submission) : Path.isAbsolute (ofPath path submission).path := by
  unfold ofPath
  split
  · exact absolute
  · exact Directive.isAbsolute_strip absolute

end Mention

namespace Descriptors

/-- Note down what is mentioned; a path that is mentioned for the first time gets a descriptor. -/
def note (parameters : Parameters) (descriptors : Descriptors) (mention : Mention) : Descriptors :=
  descriptors.insert mention.path
    (mention.amend parameters ((descriptors.get? mention.path).getD { path := mention.path }))

theorem update_eq_note (parameters : Parameters) (descriptors : Descriptors) {mention : Mention}
    (absolute : Path.isAbsolute mention.path) :
    descriptors.update mention.path (mention.amend parameters) =
      .ok (descriptors.note parameters mention) := by
  unfold update note
  cases descriptors.get? mention.path with
  | some descriptor => rfl
  | none =>
      rw [Descriptor.checked, if_pos absolute]
      rfl

theorem add_eq (parameters : Parameters) (base : String) (descriptors : Descriptors)
    (entry : String × Submission) :
    add parameters base descriptors entry =
      (Mention.ofEntry base entry).map (descriptors.note parameters) := by
  rcases entry with ⟨name, submission⟩
  simp only [add, Mention.ofEntry, bind, Except.bind]
  cases resolved : Parameter.path base name with
  | error fault => rfl
  | ok path =>
      have absolute := Mention.isAbsolute_path_ofPath (Parameter.isAbsolute_of_path resolved)
        submission
      have noted := update_eq_note parameters descriptors absolute
      cases matched : Directive.match? path with
      | none =>
          simp only [Mention.ofPath, matched] at noted ⊢
          exact noted
      | some directive =>
          simp only [Mention.ofPath, matched] at noted ⊢
          exact noted

theorem foldlM_add (parameters : Parameters) (base : String) (descriptors : Descriptors)
    (entries : List (String × Submission)) :
    entries.foldlM (add parameters base) descriptors =
      (entries.mapM (Mention.ofEntry base)).map (·.foldl (note parameters) descriptors) := by
  induction entries generalizing descriptors with
  | nil => rfl
  | cons entry rest ih =>
      rw [List.foldlM_cons, List.mapM_cons, add_eq]
      cases Mention.ofEntry base entry with
      | error fault => rfl
      | ok mention =>
          refine (ih (descriptors.note parameters mention)).trans ?_
          simp only [bind, Except.bind]
          cases rest.mapM (Mention.ofEntry base) <;> rfl

end Descriptors

namespace Parameters

/-- The parameters that carry content, given whether names have to begin like a path; unless this is
given, the names themselves tell. -/
def accepted (parameters : Parameters) (pathsOnly : Option Bool) : List (String × Submission) :=
  parameters.entries.filter fun entry =>
    Parameter.isAccepted (pathsOnly.getD (Parameter.pathsRequired parameters.keys)) entry.1

/-- Collecting is to understand the accepted parameters and then to note down what they mention. -/
theorem collect_eq (parameters : Parameters) (base : String) (pathsOnly : Option Bool) :
    parameters.collect base pathsOnly =
      ((parameters.accepted pathsOnly).mapM (Mention.ofEntry base)).map
        (·.foldl (Descriptors.note parameters) ∅) :=
  Descriptors.foldlM_add parameters base ∅ _

/-- Collecting succeeds exactly if every accepted name can be resolved. -/
theorem collect_eq_ok_iff {parameters : Parameters} {base : String} {pathsOnly : Option Bool}
    {descriptors : Descriptors} :
    parameters.collect base pathsOnly = .ok descriptors ↔
      (∀ entry ∈ parameters.accepted pathsOnly, ∃ mention,
        Mention.ofEntry base entry = .ok mention) ∧
      descriptors = ((parameters.accepted pathsOnly).filterMap (Mention.ofEntry? base)).foldl
        (Descriptors.note parameters) ∅ := by
  rw [collect_eq, map_eq_ok_iff]
  constructor
  · rintro ⟨mentions, understood, rfl⟩
    rcases mapM_eq_ok_iff.1 understood with ⟨all, rfl⟩
    exact ⟨all, rfl⟩
  · rintro ⟨all, rfl⟩
    exact ⟨_, mapM_eq_ok_iff.2 ⟨all, rfl⟩, rfl⟩

/-- Collecting fails exactly if some accepted name cannot be resolved. -/
theorem collect_fails_iff {parameters : Parameters} {base : String} {pathsOnly : Option Bool} :
    (∃ fault, parameters.collect base pathsOnly = .error fault) ↔
      ∃ entry ∈ parameters.accepted pathsOnly, ∀ mention,
        Mention.ofEntry base entry ≠ .ok mention := by
  cases collected : parameters.collect base pathsOnly with
  | error fault =>
      refine ⟨fun _ => ?_, fun _ => ⟨fault, rfl⟩⟩
      by_contra resolved
      push Not at resolved
      cases collected.symm.trans (collect_eq_ok_iff.2 ⟨resolved, rfl⟩)
  | ok descriptors =>
      refine ⟨nofun, ?_⟩
      rintro ⟨entry, entryMem, unresolved⟩
      rcases (collect_eq_ok_iff.1 collected).1 entry entryMem with ⟨mention, understood⟩
      exact absurd understood (unresolved mention)

/-- Parameters whose keys are computed are collected to descriptors with these keys. -/
theorem exists_collect_of_map_keys {parameters : Parameters} {base : String}
    {pathsOnly : Option Bool} {keys : List String}
    (hasKeys : (parameters.collect base pathsOnly).map Table.keys = .ok keys) :
    ∃ descriptors, parameters.collect base pathsOnly = .ok descriptors ∧
      descriptors.keys = keys :=
  map_eq_ok_iff.1 hasKeys

end Parameters

end ContentTree
