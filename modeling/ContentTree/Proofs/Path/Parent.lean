import ContentTree.Proofs.Path.LastSegment
import Mathlib.Data.List.TakeWhile

/-!
# Parent, name and segments

The parent and the name of a path are cut from the end of the text, and its segments are found
between all the separators. The three agree on every text, absolute or not: the name is the last
segment, and the parent has the segments before it. A text ends in its name, which stands alone or
below a separator, and in separators after the name (`Ending`); this is what the parent and the name
depend on, and each way to end adds the same to the segments.

For normal paths, joining the name to the parent leads back to the path
(`exists_parent?_of_normal`).
-/

namespace ContentTree

namespace Path

/-- How a text ends: in a name that stands alone or below a separator, and in any number of
separators after it, or in separators only. -/
inductive Ending : String → Prop
  | empty : Ending ""
  | alone {name : String} (nonempty : name ≠ "") (clean : '/' ∉ name.toList) : Ending name
  | divided {base name : String} (nonempty : name ≠ "") (clean : '/' ∉ name.toList) :
      Ending (base ++ "/" ++ name)
  | trailing {path : String} (before : Ending path) : Ending (path ++ "/")

theorem ending (path : String) : Ending path := by
  by_cases divided : '/' ∈ path.toList
  · rcases exists_last_of_mem divided with ⟨base, last, isText, clean⟩
    by_cases nameless : last = ""
    · have shorter : base.length < path.length := by
        have oneMore : "/".length = 1 := rfl
        simp only [isText, String.length_append, oneMore]
        omega
      rw [isText, nameless, String.append_empty]
      exact .trailing (ending base)
    · rw [isText]
      exact .divided nameless clean
  · by_cases nameless : path = ""
    · rw [nameless]
      exact .empty
    · exact .alone nameless divided
termination_by path.length

/-! ### Separators at the end -/

@[simp]
theorem segments_empty : segments "" = [] := by
  decide

@[simp]
theorem segments_root : segments root = [] := by
  decide

@[simp]
theorem segments_trailing (path : String) : segments (path ++ "/") = segments path := by
  simpa using segments_append_separator path ""

@[simp]
theorem trimmedReverse_trailing (path : String) :
    trimmedReverse (path ++ "/") = trimmedReverse path := by
  simp [trimmedReverse]

@[simp]
theorem parent?_trailing (path : String) : parent? (path ++ "/") = parent? path := by
  simp only [parent?, trimmedReverse_trailing]

@[simp]
theorem name_trailing (path : String) : name (path ++ "/") = name path := by
  simp only [name, trimmedReverse_trailing]

/-! ### A name at the end -/

section LastName

variable {base last : String} (nonempty : last ≠ "") (clean : '/' ∉ last.toList)

include nonempty clean

theorem segments_of_notMem : segments last = [last] := by
  simp [segments, split_of_notMem clean, nonempty]

theorem trimmedReverse_of_notMem : trimmedReverse last = last.toList.reverse := by
  simpa [trimmedReverse] using dropWhile_reverse_append nonempty clean []

theorem parent?_of_notMem : parent? last = some root := by
  have trimmed := trimmedReverse_of_notMem nonempty clean
  have nothingAbove : last.toList.reverse.dropWhile (· ≠ '/') = [] :=
    List.dropWhile_eq_nil_iff.2 (ne_separator_of_mem_reverse clean)
  have parent : parent? last = some (if "" = "" then root else "") := by
    apply parent?_of_trimmedReverse
    · simpa [trimmed] using nonempty
    · rw [trimmed, nothingAbove]
      rfl
  simpa using parent

theorem name_of_notMem : name last = last := by
  have wholeName : last.toList.reverse.takeWhile (· ≠ '/') = last.toList.reverse :=
    List.takeWhile_eq_self_iff.2 (ne_separator_of_mem_reverse clean)
  rw [name, trimmedReverse_of_notMem nonempty clean, wholeName]
  simp

theorem name_append_separator : name (base ++ "/" ++ last) = last := by
  rw [name, trimmedReverse_append_separator nonempty clean,
    List.takeWhile_append_of_pos (ne_separator_of_mem_reverse clean)]
  simp

end LastName

/-! ### Agreement -/

variable {path above : String}

/-- The texts without a parent are the root and all others without a segment. -/
theorem parent?_eq_none_iff : parent? path = none ↔ segments path = [] := by
  induction ending path with
  | empty => decide
  | alone nonempty clean =>
      simp [parent?_of_notMem nonempty clean, segments_of_notMem nonempty clean]
  | divided nonempty clean =>
      simp [parent?_append_separator nonempty clean, segments_append_separator,
        segments_of_notMem nonempty clean]
  | trailing _ ih => simpa using ih

theorem segments_of_parent? (parent : parent? path = some above) :
    segments path = segments above ++ [name path] := by
  induction ending path with
  | empty => cases parent
  | alone nonempty clean =>
      obtain rfl : root = above := by simpa [parent?_of_notMem nonempty clean] using parent
      simp [segments_of_notMem nonempty clean, name_of_notMem nonempty clean]
  | @divided base last nonempty clean =>
      have sameSegments : segments above = segments base := by
        rw [parent?_append_separator nonempty clean, Option.some.injEq] at parent
        by_cases noBase : base = ""
        · simp [← parent, noBase]
        · simp [← parent, noBase]
      simp [sameSegments, segments_append_separator, segments_of_notMem nonempty clean,
        name_append_separator nonempty clean]
  | trailing _ ih => simpa using ih (by simpa using parent)

/-- A normal path other than the root is the join of its parent, a normal path, and its name. -/
theorem exists_parent?_of_normal (isNormal : normalize path = .ok path) (notRoot : path ≠ root) :
    ∃ above, parent? path = some above ∧ normalize above = .ok above ∧
      join above (name path) = .ok path := by
  rcases eq_root_or_exists_last isNormal with isRoot | ⟨init, last, initProper, lastProper, rfl⟩
  · exact absurd isRoot notRoot
  · have parent : parent? (ofNames (init ++ [last])) = some (ofNames init) :=
      parent?_ofNames lastProper
    have proper : ∀ name ∈ init ++ [last], IsSegment name := by
      simpa [or_imp, forall_and] using ⟨initProper, lastProper⟩
    have isName : last = name (ofNames (init ++ [last])) := by
      simpa [segments_ofNames proper, segments_ofNames initProper] using segments_of_parent? parent
    refine ⟨ofNames init, parent, normalize_ofNames initProper, ?_⟩
    rw [← isName]
    exact join_ofNames initProper lastProper

/-- A text without segments has no parent, and in any other one the name is the segment after those
of the parent. A normal path is the join of its parent, which is normal, too, and its name. -/
theorem parent_name_segments (path : String) :
    (parent? path = none ↔ segments path = []) ∧
    (∀ above, parent? path = some above → segments path = segments above ++ [name path]) ∧
    (normalize path = .ok path → path ≠ root →
      ∃ above, parent? path = some above ∧ normalize above = .ok above ∧
        join above (name path) = .ok path) := by
  refine ⟨parent?_eq_none_iff, ?_, ?_⟩
  · intro above parent
    exact segments_of_parent? parent
  · intro isNormal notRoot
    exact exists_parent?_of_normal isNormal notRoot

theorem parent_name_segments_page :
    parent? "content//page//" = some "content/" ∧
      segments "content//page//" = segments "content/" ++ [name "content//page//"] ∧
    normalize "/content/page" = .ok "/content/page" ∧ "/content/page" ≠ root ∧
      normalize "/content" = .ok "/content" ∧
        join "/content" (name "/content/page") = .ok "/content/page" := by
  have parent : parent? "content//page//" = some "content/" := by decide +kernel
  have isNormal : normalize "/content/page" = .ok "/content/page" := by decide +kernel
  have notRoot : "/content/page" ≠ root := by decide
  rcases (parent_name_segments "/content/page").2.2 isNormal notRoot with
    ⟨above, isAbove, aboveNormal, joined⟩
  obtain rfl : above = "/content" := by
    have sameParent : parent? "/content/page" = some "/content" := by decide +kernel
    exact Option.some.inj (isAbove.symm.trans sameParent)
  exact ⟨parent, (parent_name_segments "content//page//").2.1 _ parent, isNormal, notRoot,
    aboveNormal, joined⟩

end Path

end ContentTree
