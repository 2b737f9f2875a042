import ContentTree.Proofs.Path.Ascent

/-!
# The last segment of a path

The last separator of a text divides it into the part above and the last segment in one way only.
A path is normal if its last segment is a name below a path that is normal, too, or if it is the
root.
-/

namespace ContentTree

namespace Path

variable {above other name last : String}

theorem append_separator_inj (clean : '/' ∉ name.toList) (lastClean : '/' ∉ last.toList)
    (same : above ++ "/" ++ name = other ++ "/" ++ last) : above = other ∧ name = last := by
  have sameSegments := congrArg split same
  rw [split_append_separator, split_append_separator, split_of_notMem clean,
    split_of_notMem lastClean] at sameSegments
  have sameName : name = last := List.singleton_inj.1 (List.append_inj_right' sameSegments rfl)
  subst sameName
  have sameText := congrArg String.toList same
  simp only [String.toList_append, List.append_cancel_right_eq] at sameText
  exact ⟨String.toList_inj.1 sameText, rfl⟩

theorem exists_last_of_mem {path : String} (divided : '/' ∈ path.toList) :
    ∃ above last, path = above ++ "/" ++ last ∧ '/' ∉ last.toList := by
  rcases List.eq_append_cons_of_mem (List.mem_reverse.2 divided) with ⟨last, above, parts, clean⟩
  refine ⟨String.ofList above.reverse, String.ofList last.reverse, ?_, by simpa using clean⟩
  rw [← String.toList_inj, ← List.reverse_inj, parts]
  simp

theorem exists_last_of_isAbsolute {path : String} (absolute : isAbsolute path) :
    ∃ above last, path = above ++ "/" ++ last ∧ '/' ∉ last.toList :=
  exists_last_of_mem (List.mem_of_mem_head? (of_decide_eq_true absolute))

theorem normalize_eq_self_iff {path : String} :
    normalize path = .ok path ↔
      ∃ names, (∀ name ∈ names, IsSegment name) ∧ path = ofNames names := by
  constructor
  · exact exists_segments_of_normalize
  · rintro ⟨names, proper, rfl⟩
    exact normalize_ofNames proper

/-- A normal path is the root or ends in a segment below a normal path. -/
theorem eq_root_or_exists_last {path : String} (isNormal : normalize path = .ok path) :
    path = root ∨ ∃ init last, (∀ name ∈ init, IsSegment name) ∧ IsSegment last ∧
      path = ofNames (init ++ [last]) := by
  rcases normalize_eq_self_iff.1 isNormal with ⟨names, proper, rfl⟩
  cases names using List.reverseRecOn with
  | nil => exact .inl rfl
  | append_singleton init last =>
      rcases List.forall_mem_append.1 proper with ⟨initProper, lastProper⟩
      exact .inr ⟨init, last, initProper, lastProper last List.mem_cons_self, rfl⟩

theorem normalize_append_separator_iff (clean : '/' ∉ name.toList) :
    normalize (above ++ "/" ++ name) = .ok (above ++ "/" ++ name) ↔
      above = "" ∧ name = "" ∨
        IsName name ∧ (above = "" ∨ above ≠ root ∧ normalize above = .ok above) := by
  constructor
  · intro isNormal
    rcases eq_root_or_exists_last isNormal with
      isRoot | ⟨init, last, initProper, lastProper, isText⟩
    · exact .inl (append_separator_inj clean (by simp) (isRoot : _ = "" ++ "/" ++ ""))
    · right
      by_cases isFirst : init = []
      · subst init
        have isBelowRoot : above ++ "/" ++ name = "" ++ "/" ++ last := by
          rw [isText, List.nil_append, ofNames_singleton, String.empty_append]
        rcases append_separator_inj clean lastProper.2 isBelowRoot with ⟨isTop, rfl⟩
        exact ⟨lastProper.1, .inl isTop⟩
      · rw [ofNames_append_singleton isFirst] at isText
        rcases append_separator_inj clean lastProper.2 isText with ⟨rfl, rfl⟩
        exact ⟨lastProper.1, .inr ⟨ofNames_ne_root initProper isFirst,
          normalize_ofNames initProper⟩⟩
  · rintro (⟨rfl, rfl⟩ | ⟨isName, rfl | ⟨notRoot, isNormal⟩⟩)
    · have rootNormal : normalize (ofNames []) = .ok (ofNames []) :=
        normalize_ofNames (List.forall_mem_nil _)
      exact rootNormal
    · have proper : ∀ other ∈ [name], IsSegment other := by simpa using ⟨isName, clean⟩
      have isText : "" ++ "/" ++ name = ofNames [name] := by
        rw [ofNames_singleton, String.empty_append]
      rw [isText]
      exact normalize_ofNames proper
    · rcases normalize_eq_self_iff.1 isNormal with ⟨init, initProper, rfl⟩
      have nonempty : init ≠ [] := by
        rintro rfl
        exact notRoot rfl
      rw [← ofNames_append_singleton nonempty]
      apply normalize_ofNames
      simpa [or_imp, forall_and] using ⟨initProper, isName, clean⟩

end Path

end ContentTree
