import Mathlib.Data.List.Basic
import Mathlib.Data.List.Induction
import Mathlib.Data.List.Nodup

/-!
# The order of lists

Repetitions are dropped from a list so that the first occurrences stay, in their order. Lists that
differ in their order only agree in what they select, as long as the selected items keep their order
(`filter_eq_of_perm`).
-/

namespace ContentTree

/-! ### First occurrences -/

theorem nodup_eraseDups : ∀ names : List String, names.eraseDups.Nodup
  | [] => List.nodup_nil
  | name :: rest => by
      rw [List.eraseDups_cons, List.nodup_cons, List.mem_eraseDups]
      exact ⟨by simp, nodup_eraseDups _⟩
  termination_by names => names.length
  decreasing_by exact Nat.lt_succ_of_le (List.length_filter_le _ _)

theorem eraseDups_append_singleton (names : List String) (name : String) :
    (names ++ [name]).eraseDups =
      if name ∈ names then names.eraseDups else names.eraseDups ++ [name] := by
  rw [List.eraseDups_append]
  by_cases isThere : name ∈ names
  · simp [List.removeAll, isThere]
  · simp [List.removeAll, isThere, List.eraseDups_cons]

/-- First occurrences come in the order in which they occur. -/
theorem pairwise_idxOf_eraseDups (names : List String) :
    names.eraseDups.Pairwise fun first second => names.idxOf first < names.idxOf second := by
  induction names using List.reverseRecOn with
  | nil => exact .nil
  | append_singleton names name ih =>
      have keeps : ∀ other ∈ names, (names ++ [name]).idxOf other = names.idxOf other :=
        fun other isThere => List.idxOf_append_of_mem isThere
      have stillInOrder : names.eraseDups.Pairwise fun first second =>
          (names ++ [name]).idxOf first < (names ++ [name]).idxOf second := by
        apply ih.imp_of_mem
        intro first second firstMem secondMem precedes
        rwa [keeps first (List.mem_eraseDups.1 firstMem),
          keeps second (List.mem_eraseDups.1 secondMem)]
      rw [eraseDups_append_singleton]
      split
      next isThere => exact stillInOrder
      next isNew =>
        refine List.pairwise_append.2 ⟨stillInOrder, List.pairwise_singleton _ _, ?_⟩
        intro other otherMem last lastMem
        have otherMem' := List.mem_eraseDups.1 otherMem
        rw [List.mem_singleton.1 lastMem, keeps other otherMem',
          List.idxOf_append_of_notMem isNew]
        exact Nat.lt_add_right _ (List.idxOf_lt_length_of_mem otherMem')

theorem count_filter_of_nodup {names : List String} (distinct : names.Nodup)
    (selects : String → Bool) (name : String) :
    (names.filter selects).count name = if name ∈ names ∧ selects name then 1 else 0 := by
  rw [(distinct.filter selects).count]
  simp only [List.mem_filter]

/-! ### Lists in another order -/

theorem pairwise_idxOf_lt {Item : Type} [DecidableEq Item] {items : List Item}
    (distinct : items.Nodup) :
    items.Pairwise fun first second => items.idxOf first < items.idxOf second := by
  rw [List.pairwise_iff_getElem]
  intro index later inside laterInside precedes
  rwa [distinct.idxOf_getElem, distinct.idxOf_getElem]

/-- What is selected from two orders of a list is the same if selected items keep their order. -/
theorem filter_eq_of_perm {Item : Type} [DecidableEq Item] {items others : List Item}
    {selects : Item → Bool} (perm : items.Perm others) (distinct : others.Nodup)
    (keeps : items.Pairwise fun first second =>
      selects first → selects second → [first, second].Sublist others) :
    items.filter selects = others.filter selects := by
  have inOrder := pairwise_idxOf_lt distinct
  have before : ∀ first second, [first, second].Sublist others →
      others.idxOf first ≤ others.idxOf second := by
    intro first second kept
    have related : others.idxOf first < others.idxOf second := by
      simpa using inOrder.sublist kept
    exact Nat.le_of_lt related
  -- Both selections are sorted by the places that their items have in the other order.
  have sorted : (items.filter selects).Pairwise fun first second =>
      others.idxOf first ≤ others.idxOf second := by
    rw [List.pairwise_filter]
    apply keeps.imp
    intro first second kept firstSelected secondSelected
    exact before first second (kept firstSelected secondSelected)
  have othersSorted : (others.filter selects).Pairwise fun first second =>
      others.idxOf first ≤ others.idxOf second :=
    (inOrder.filter selects).imp Nat.le_of_lt
  refine (perm.filter selects).eq_of_pairwise ?_ sorted othersSorted
  intro first second _ secondMem ahead behind
  have isThere : second ∈ others := (List.mem_filter.1 secondMem).1
  exact ((List.idxOf_inj isThere).1 (Nat.le_antisymm behind ahead)).symm

/-- What is selected from the images of a list are the images of what is selected from the list. -/
theorem filter_filterMap_eq {Item Value : Type} (items : List Item)
    (understand : Item → Option Value) (selects : Value → Bool) :
    (items.filterMap understand).filter selects =
      (items.filter fun item => (understand item).any selects).filterMap understand := by
  rw [List.filter_filterMap, List.filterMap_filter]
  apply List.filterMap_congr
  intro item _
  cases understand item <;> simp [Option.filter]

end ContentTree
