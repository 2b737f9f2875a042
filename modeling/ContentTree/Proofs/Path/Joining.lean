import ContentTree.Proofs.Outcomes
import ContentTree.Proofs.Path.NormalForm
import ContentTree.Tree.Basic

/-!
# Joining step by step

A relative path is resolved against a base path by walking on from the place to which the base
leads (`join_eq_ok_iff`). The normal form of the base leads to the same place, so that the walk can
be interrupted at any separator and taken up again from the path reached so far
(`join_join_eq_ok_iff`). Hence a relative path can as well be resolved segment by segment. This is
how the path of a node comes about: the names on the way to it are joined, one after the other, to
the paths of its ancestors (`join_stepwise`).
-/

namespace ContentTree

namespace Path

variable {base name path : String}

/-- A base can be normalized before something is joined to it, unless it is empty: then there is no
normal form, although joining takes it for the root. -/
theorem normalize_join_eq_ok_iff (nonempty : base ≠ "") :
    (do join (← normalize base) name) = .ok path ↔ join base name = .ok path := by
  rw [bind_eq_ok_iff]
  constructor
  · rintro ⟨normal, normalized, joined⟩
    have absolute := isAbsolute_of_normalize_eq_ok normalized
    rcases join_eq_ok_iff.1 joined with ⟨-, above, place, leads, walked, isPath⟩
    rw [resolve_of_normalize normalized] at leads
    exact join_eq_ok_iff.2 ⟨.inr absolute, above, place, leads, walked, isPath⟩
  · intro joined
    rcases join_eq_ok_iff.1 joined with ⟨absolute, above, place, leads, walked, isPath⟩
    have normalized := normalize_of_resolve (absolute.resolve_left nonempty) leads
    rw [← resolve_of_normalize normalized] at leads
    exact ⟨_, normalized, join_eq_ok_iff.2
      ⟨.inr (isAbsolute_ofNames _), above, place, leads, walked, isPath⟩⟩

/-- The walk along a relative path can be interrupted at a separator. -/
theorem join_join_eq_ok_iff {rest : String} :
    (do join (← join base name) rest) = .ok path ↔ join base (name ++ "/" ++ rest) = .ok path := by
  have wholeWay : join base (name ++ "/" ++ rest) = join (base ++ "/" ++ name) rest := by
    simp only [join, String.append_assoc]
  have nonempty : base ++ "/" ++ name ≠ "" := by simp
  rw [wholeWay, ← normalize_join_eq_ok_iff nonempty]
  rfl

/-- Joining parts one after the other is joining all of them at once. -/
theorem foldlM_join_eq_ok_iff {parts : List String} (nonempty : parts ≠ []) :
    parts.foldlM join base = .ok path ↔ join base ("/".intercalate parts) = .ok path := by
  induction parts generalizing base with
  | nil => exact absurd rfl nonempty
  | cons part rest ih =>
      by_cases isLast : rest = []
      · subst isLast
        rw [String.intercalate_singleton, List.foldlM_cons]
        simp
      · rw [String.intercalate_cons_of_ne_nil isLast, ← join_join_eq_ok_iff, List.foldlM_cons,
          bind_eq_ok_iff, bind_eq_ok_iff]
        simp only [ih isLast]

end Path

theorem Address.path_eq_foldlM_join (address : Address) :
    path address = address.reverse.foldlM Path.join Path.root := by
  induction address with
  | nil => rfl
  | cons name above ih =>
      rw [List.reverse_cons, List.foldlM_append, ← ih]
      simp [path]

namespace Path

/-- Two joins are one join with the concatenation, and so a relative path leads to the same path
whether it is resolved as a whole or segment by segment, as the paths of nodes are. -/
theorem join_stepwise (base name rest : String) :
    (∀ path, (do join (← join base name) rest) = .ok path ↔
      join base (name ++ "/" ++ rest) = .ok path) ∧
    (∀ path, (split name).foldlM join base = .ok path ↔ join base name = .ok path) ∧
    ∀ (address : Address) path, address.path = .ok path ↔
      join root ("/".intercalate address.reverse) = .ok path := by
  refine ⟨fun path => join_join_eq_ok_iff, ?_, ?_⟩
  · intro path
    have nonempty : split name ≠ [] := by simp [split]
    rw [foldlM_join_eq_ok_iff nonempty, intercalate_split]
  · intro address path
    rw [Address.path_eq_foldlM_join]
    by_cases isRoot : address = []
    · -- The root has no names to join, and joining the empty text to it leads nowhere else.
      subst isRoot
      have atRoot : join root "" = .ok root := by decide +kernel
      rw [List.reverse_nil, String.intercalate_nil, atRoot]
      rfl
    · exact foldlM_join_eq_ok_iff (mt List.reverse_eq_nil_iff.1 isRoot)

end Path

end ContentTree
