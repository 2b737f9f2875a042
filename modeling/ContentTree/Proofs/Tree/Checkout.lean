import ContentTree.Tree.Edit

/-!
# Locks

The nearest versionable node at or above an address decides whether it may be changed. If that node
is checked in, it is the lock of the address (`lock?`), and an address may be changed exactly if it
has no lock (`isCheckedOut_iff_lock?_eq_none`).

Only what is stored at an address and above it matters, so a change elsewhere neither locks nor
unlocks it (`isCheckedOut_congr`). Setting the flag of the lock unlocks it
(`isCheckedOut_unlock`).
-/

namespace ContentTree

namespace Tree

variable {tree other : Tree} {address versionable : Address}

/-- The node that keeps an address from being changed. -/
def lock? (tree : Tree) (address : Address) : Option Address :=
  (tree.nearestVersionable? address).filter fun versionable => !tree.isFlagged versionable

/-- Set the checkout flag of a node. -/
def unlock (tree : Tree) (address : Address) : Tree :=
  tree.modify address fun node => { node with checkedOut := true }

/-- Whether the nodes above an address allow its node to be changed. -/
def isCheckedOutAbove (tree : Tree) : Address → Bool
  | [] => true
  | _ :: above => tree.isCheckedOut above

theorem isCheckedOut_eq_ite : tree.isCheckedOut address =
    if tree.isVersionable address then tree.isFlagged address
    else tree.isCheckedOutAbove address := by
  cases address with
  | nil => rw [isCheckedOut, isCheckedOutAbove]
  | cons name above => rw [isCheckedOut, isCheckedOutAbove]

theorem isCheckedOut_eq_all :
    tree.isCheckedOut address = (tree.nearestVersionable? address).all tree.isFlagged := by
  induction address with
  | nil =>
      by_cases isVersionable : tree.isVersionable []
      · rw [isCheckedOut_of_isVersionable isVersionable,
          nearestVersionable?_of_isVersionable isVersionable, Option.all_some]
      · rw [isCheckedOut, nearestVersionable?, if_neg isVersionable, if_neg isVersionable,
          Option.all_none]
  | cons name above ih =>
      by_cases isVersionable : tree.isVersionable (name :: above)
      · rw [isCheckedOut_of_isVersionable isVersionable,
          nearestVersionable?_of_isVersionable isVersionable, Option.all_some]
      · rw [isCheckedOut_cons isVersionable, nearestVersionable?_cons isVersionable, ih]

theorem isCheckedOut_iff_lock?_eq_none : tree.isCheckedOut address ↔ tree.lock? address = none := by
  rw [isCheckedOut_eq_all, lock?]
  cases tree.nearestVersionable? address with
  | none => simp
  | some versionable => simp [Option.filter_some]

theorem isSome_lock?_iff : (tree.lock? address).isSome ↔ tree.isCheckedOut address = false := by
  rw [← Bool.not_eq_true, isCheckedOut_iff_lock?_eq_none, Option.isSome_iff_ne_none]

theorem lock?_eq_some_iff : tree.lock? address = some versionable ↔
    tree.nearestVersionable? address = some versionable ∧ tree.isFlagged versionable = false := by
  rw [lock?, Option.filter_eq_some_iff]
  simp

theorem suffix_of_nearestVersionable?
    (found : tree.nearestVersionable? address = some versionable) : versionable <:+ address := by
  induction address with
  | nil =>
      rw [nearestVersionable?] at found
      split at found
      · cases found
        exact List.suffix_refl _
      · cases found
  | cons name above ih =>
      by_cases isVersionable : tree.isVersionable (name :: above)
      · rw [nearestVersionable?_of_isVersionable isVersionable] at found
        cases found
        exact List.suffix_refl _
      · rw [nearestVersionable?_cons isVersionable] at found
        exact (ih found).trans (List.suffix_cons name above)

theorem isVersionable_of_nearestVersionable?
    (found : tree.nearestVersionable? address = some versionable) :
    tree.isVersionable versionable := by
  induction address with
  | nil =>
      rw [nearestVersionable?] at found
      split at found
      · cases found
        assumption
      · cases found
  | cons name above ih =>
      by_cases isVersionable : tree.isVersionable (name :: above)
      · rw [nearestVersionable?_of_isVersionable isVersionable] at found
        cases found
        exact isVersionable
      · rw [nearestVersionable?_cons isVersionable] at found
        exact ih found

theorem mem_of_isVersionable (isVersionable : tree.isVersionable address) : address ∈ tree := by
  rw [← node?_isSome_iff]
  rw [Tree.isVersionable] at isVersionable
  cases stored : tree.node? address with
  | none => simp [stored] at isVersionable
  | some node => rfl

/-! ### What does not matter for an address -/

theorem nearestVersionable?_congr
    (same : ∀ above, above <:+ address → tree.isVersionable above = other.isVersionable above) :
    tree.nearestVersionable? address = other.nearestVersionable? address := by
  induction address with
  | nil => rw [nearestVersionable?, nearestVersionable?, same [] (List.suffix_refl _)]
  | cons name above ih =>
      have sameAbove := ih fun higher suffix => same higher (suffix.trans (List.suffix_cons _ _))
      rw [nearestVersionable?, nearestVersionable?, same _ (List.suffix_refl _), sameAbove]

theorem isVersionable_congr (same : tree.node? address = other.node? address) :
    tree.isVersionable address = other.isVersionable address := by
  rw [isVersionable, isVersionable, same]

theorem isFlagged_congr (same : tree.node? address = other.node? address) :
    tree.isFlagged address = other.isFlagged address := by
  rw [isFlagged, isFlagged, same]

theorem isCheckedOut_congr
    (same : ∀ above, above <:+ address → tree.node? above = other.node? above) :
    tree.isCheckedOut address = other.isCheckedOut address := by
  rw [isCheckedOut_eq_all, isCheckedOut_eq_all,
    nearestVersionable?_congr fun above suffix => isVersionable_congr (same above suffix)]
  cases found : other.nearestVersionable? address with
  | none => rfl
  | some versionable =>
      rw [Option.all_some, Option.all_some,
        isFlagged_congr (same versionable (suffix_of_nearestVersionable? found))]

theorem lock?_congr
    (same : ∀ above, above <:+ address → tree.node? above = other.node? above) :
    tree.lock? address = other.lock? address := by
  rw [lock?, lock?,
    nearestVersionable?_congr fun above suffix => isVersionable_congr (same above suffix)]
  cases found : other.nearestVersionable? address with
  | none => rfl
  | some versionable =>
      rw [Option.filter_some, Option.filter_some,
        isFlagged_congr (same versionable (suffix_of_nearestVersionable? found))]

theorem not_cons_suffix {name : String} {above higher : Address} (suffix : higher <:+ above) :
    higher ≠ name :: above := by
  rintro rfl
  have lengths := suffix.length_le
  simp only [List.length_cons] at lengths
  omega

theorem isCheckedOutAbove_modify (change : Node → Node) :
    (tree.modify address change).isCheckedOutAbove address = tree.isCheckedOutAbove address := by
  cases address with
  | nil => rfl
  | cons name above =>
      apply isCheckedOut_congr
      intro higher suffix
      rw [node?_modify, if_neg (not_cons_suffix suffix)]

theorem isCheckedOut_insertChild {parent : Address} (present : parent ∈ tree) (name : String)
    (node : Node) :
    (tree.insertChild parent present name node).isCheckedOut parent = tree.isCheckedOut parent := by
  apply isCheckedOut_congr
  intro higher suffix
  rw [node?_insertChild, if_neg (not_cons_suffix suffix)]

/-! ### Unlocking -/

theorem checkout_of_isVersionable (isVersionable : tree.isVersionable address) :
    tree.checkout address = .ok (tree.unlock address) := by
  cases stored : tree.node? address with
  | none => simp [Tree.isVersionable, stored] at isVersionable
  | some node =>
      have nodeVersionable : node.isVersionable := by
        simpa [Tree.isVersionable, stored] using isVersionable
      simp [checkout, setCheckedOut, Tree.node, stored, nodeVersionable, bind, Except.bind, unlock,
        pure, Except.pure]

theorem node?_unlock (other : Address) : (tree.unlock address).node? other =
    if other = address then (tree.node? other).map fun node => { node with checkedOut := true }
    else tree.node? other :=
  node?_modify tree address other _

@[simp]
theorem mem_unlock {other : Address} : other ∈ tree.unlock address ↔ other ∈ tree :=
  mem_modify

theorem isVersionable_unlock (other : Address) :
    (tree.unlock address).isVersionable other = tree.isVersionable other := by
  rw [isVersionable, isVersionable, node?_unlock]
  split
  · rw [Option.any_map]
    rfl
  · rfl

theorem isFlagged_unlock : (tree.unlock address).isFlagged address := by
  rw [isFlagged, node?_unlock, if_pos rfl, Option.all_map]
  cases tree.node? address <;> rfl

theorem isFlagged_unlock_of_ne {other : Address} (distinct : other ≠ address) :
    (tree.unlock address).isFlagged other = tree.isFlagged other :=
  isFlagged_congr (by rw [node?_unlock, if_neg distinct])

/-- Setting the flag of a node takes it off as a lock, and no other lock. -/
theorem lock?_unlock (tree : Tree) (versionable address : Address) :
    (tree.unlock versionable).lock? address = (tree.lock? address).filter (· ≠ versionable) := by
  rw [lock?, lock?, nearestVersionable?_congr fun above _ => isVersionable_unlock above]
  cases tree.nearestVersionable? address with
  | none => rfl
  | some nearest =>
      rw [Option.filter_some, Option.filter_some]
      by_cases isUnlocked : nearest = versionable
      · subst isUnlocked
        cases tree.isFlagged nearest <;> simp [isFlagged_unlock, Option.filter_some]
      · rw [isFlagged_unlock_of_ne isUnlocked]
        cases tree.isFlagged nearest <;> simp [isUnlocked, Option.filter_some]

theorem isCheckedOut_unlock (locked : tree.lock? address = some versionable) :
    (tree.unlock versionable).isCheckedOut address := by
  have nearest : (tree.unlock versionable).nearestVersionable? address = some versionable := by
    rw [← (lock?_eq_some_iff.1 locked).1]
    exact nearestVersionable?_congr fun above _ => isVersionable_unlock above
  rw [isCheckedOut_eq_all, nearest, Option.all_some]
  exact isFlagged_unlock

theorem property?_unlock (owner : Address) (name : String) :
    (tree.unlock address).property? owner name = tree.property? owner name := by
  rw [property?, property?, node?_unlock]
  split
  · cases tree.node? owner <;> rfl
  · rfl

end Tree

end ContentTree
