import ContentTree.Proofs.Descriptor.NormalKeys
import ContentTree.Proofs.Path.Canonical

/-!
# Why collecting fails

The only thing that can go wrong while parameters are collected is that a relative name cannot be
resolved against the base path (`Parameter.Refused`). Names that are absolute are taken as they
are, and parameters that carry no content are passed over. Neither do the suffixes of directives do
any harm: what is left of an absolute path without them is an absolute path. So collecting stops at
the first accepted parameter whose name is refused and fails for the reason for which it is, and if
there is none, every descriptor that is collected is addressed to the absolute path under which it
is found (`Parameters.collect_refusal`).
-/

namespace ContentTree

namespace Parameter

/-- A relative name that cannot be resolved against a base path, and the fault for which it is
refused. -/
def Refused (base name : String) (fault : Fault) : Prop :=
  ¬Path.isAbsolute name ∧ Path.normalize (base ++ "/" ++ name) = .error fault

variable {base name : String} {fault : Fault}

theorem path_eq_error_iff : Parameter.path base name = .error fault ↔ Refused base name fault := by
  unfold Parameter.path Refused
  by_cases absolute : Path.isAbsolute name
  · simp [absolute]
  · simp [absolute, Path.join]

/-- Names are refused for their paths, and for nothing else. -/
theorem Refused.exists_flaw (refused : Refused base name fault) :
    ∃ flaw, Path.HasFlaw (base ++ "/" ++ name) flaw ∧
      fault = .invalidPath (some (base ++ "/" ++ name)) flaw :=
  Path.normalize_eq_error_iff.1 refused.2

end Parameter

namespace Mention

variable {base : String} {entry : String × Submission}

theorem ofEntry_eq_error_iff {fault : Fault} :
    ofEntry base entry = .error fault ↔ Parameter.Refused base entry.1 fault := by
  rw [← Parameter.path_eq_error_iff, ofEntry, bind_eq_error_iff]
  constructor
  · rintro (failed | ⟨path, -, returned⟩)
    · exact failed
    · cases returned
  · exact .inl

theorem exists_ofEntry_iff : (∃ mention, ofEntry base entry = .ok mention) ↔
    ∀ fault, ¬Parameter.Refused base entry.1 fault := by
  simp only [← ofEntry_eq_error_iff]
  cases ofEntry base entry <;> simp

end Mention

namespace Parameters

variable {parameters : Parameters} {base : String} {pathsOnly : Option Bool}
  {descriptors : Descriptors}

theorem collect_eq_error_iff {fault : Fault} : parameters.collect base pathsOnly = .error fault ↔
    ∃ earlier entry later, parameters.accepted pathsOnly = earlier ++ entry :: later ∧
      (∀ other ∈ earlier, ∀ cause, ¬Parameter.Refused base other.1 cause) ∧
      Parameter.Refused base entry.1 fault := by
  have fromMentions : parameters.collect base pathsOnly = .error fault ↔
      (parameters.accepted pathsOnly).mapM (Mention.ofEntry base) = .error fault := by
    rw [collect_eq]
    cases (parameters.accepted pathsOnly).mapM (Mention.ofEntry base) <;> simp [Except.map]
  simp only [fromMentions, mapM_eq_error_iff, Mention.exists_ofEntry_iff,
    Mention.ofEntry_eq_error_iff]

/-- Every descriptor is found under the absolute path that it is addressed to. -/
theorem isAbsolute_of_collect (collected : parameters.collect base pathsOnly = .ok descriptors)
    {path : String} {descriptor : Descriptor} (found : descriptors.get? path = some descriptor) :
    Path.isAbsolute path ∧ descriptor.path = path := by
  have present : path ∈ descriptors := Table.get?_isSome_iff.1 (Option.isSome_of_eq_some found)
  rcases (mem_collect_iff collected).1 present with ⟨entry, -, mention, understood, rfl⟩
  constructor
  · rcases bind_eq_ok_iff.1 understood with ⟨resolved, isResolved, returned⟩
    cases returned
    exact Mention.isAbsolute_path_ofPath (Parameter.isAbsolute_of_path isResolved) entry.2
  · rw [(collect_eq_ok_iff.1 collected).2, Descriptors.get?_foldl_note,
      Option.ite_none_right_eq_some] at found
    rcases found with ⟨-, made⟩
    cases made
    rfl

/-- Collecting fails exactly if an accepted parameter has a relative name that cannot be resolved,
and then for the path and the reason of the first of them. If it returns, every descriptor is found
under the absolute path that it is addressed to. -/
theorem collect_refusal (parameters : Parameters) (base : String) (pathsOnly : Option Bool) :
    (∀ fault, parameters.collect base pathsOnly = .error fault →
      ∃ path flaw, fault = .invalidPath (some path) flaw) ∧
    ((∃ fault, parameters.collect base pathsOnly = .error fault) ↔
      ∃ entry ∈ parameters.accepted pathsOnly, ¬Path.isAbsolute entry.1 ∧
        ∃ fault, Path.normalize (base ++ "/" ++ entry.1) = .error fault) ∧
    (∀ fault, parameters.collect base pathsOnly = .error fault ↔
      ∃ earlier entry later, parameters.accepted pathsOnly = earlier ++ entry :: later ∧
        (∀ other ∈ earlier, ∀ cause, ¬Parameter.Refused base other.1 cause) ∧
        ¬Path.isAbsolute entry.1 ∧
        ∃ flaw, Path.HasFlaw (base ++ "/" ++ entry.1) flaw ∧
          fault = .invalidPath (some (base ++ "/" ++ entry.1)) flaw) ∧
    (∀ descriptors, parameters.collect base pathsOnly = .ok descriptors →
      ∀ path descriptor, descriptors.get? path = some descriptor →
        Path.isAbsolute path ∧ descriptor.path = path) := by
  refine ⟨?_, ?_, ?_, ?_⟩
  · intro fault failed
    rcases collect_eq_error_iff.1 failed with ⟨-, entry, -, -, -, refused⟩
    rcases refused.exists_flaw with ⟨flaw, -, isFault⟩
    exact ⟨base ++ "/" ++ entry.1, flaw, isFault⟩
  · have refusedIff : ∀ entry : String × Submission, (∀ mention,
        Mention.ofEntry base entry ≠ .ok mention) ↔ ¬Path.isAbsolute entry.1 ∧
          ∃ fault, Path.normalize (base ++ "/" ++ entry.1) = .error fault := by
      intro entry
      rw [← not_exists, Mention.exists_ofEntry_iff]
      simp [Parameter.Refused]
    simp only [collect_fails_iff, refusedIff]
  · intro fault
    simp only [collect_eq_error_iff, Parameter.Refused, ← Path.normalize_eq_error_iff]
  · intro descriptors collected path descriptor
    exact isAbsolute_of_collect collected

theorem collect_refusal_text :
    let parameters : Parameters := .ofList
      [("./title", .single "new"), (":done", .single "/done"), ("a/../../..", .single "unmarked"),
        ("/../up@Delete", .absent), ("../../text@TypeHint", .single "Name"),
        ("../../../other", .single "late")]
    parameters.collect "/page" none =
        .error (.invalidPath (some "/page/../../text@TypeHint") .aboveRoot) ∧
      Path.HasFlaw "/page/../../text@TypeHint" .aboveRoot := by
  intro parameters
  have hasFlaw : Path.HasFlaw "/page/../../text@TypeHint" .aboveRoot :=
    .aboveRoot (by decide +kernel) (Path.resolve_eq_none_iff.1 (by decide +kernel))
  refine ⟨?_, hasFlaw⟩
  apply ((collect_refusal parameters "/page" none).2.2.1 _).2
  refine ⟨[("./title", .single "new"), ("/../up@Delete", .absent)],
    ("../../text@TypeHint", .single "Name"), [("../../../other", .single "late")],
    by decide +kernel, ?_, by decide, .aboveRoot, hasFlaw, rfl⟩
  rintro other otherMem cause ⟨relative, failed⟩
  rcases List.mem_pair.1 otherMem with rfl | rfl
  · have resolved : Path.normalize ("/page" ++ "/" ++ "./title") = .ok "/page/title" := by
      decide +kernel
    cases resolved.symm.trans failed
  · exact absurd (by decide) relative

end Parameters

end ContentTree
