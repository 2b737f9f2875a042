import ContentTree.Proofs.Tree.Checkout
import ContentTree.Session.Work

/-!
# Preparing a node

Before a node is changed, the lock of its address is taken off if the policy allows it
(`Policy.unlocks?`), and that is all the preparation does: without such a lock it leaves everything
as it is (`Progress.Prepares`). Under a policy that checks nodes out, a prepared node may always be
changed.
-/

namespace ContentTree

namespace Policy

variable {policy : Policy} {tree : Tree} {address lock : Address}

/-- The lock that is taken off an address before its node is changed. -/
def unlocks? (policy : Policy) (tree : Tree) (address : Address) : Option Address :=
  if policy.autoCheckout then tree.lock? address else none

theorem lock?_of_unlocks? (unlocked : policy.unlocks? tree address = some lock) :
    tree.lock? address = some lock := by
  unfold unlocks? at unlocked
  split at unlocked
  · exact unlocked
  · cases unlocked

theorem unlocks?_of_isCheckedOut (isOpen : tree.isCheckedOut address) :
    policy.unlocks? tree address = none := by
  unfold unlocks?
  split
  · exact Tree.isCheckedOut_iff_lock?_eq_none.1 isOpen
  · rfl

theorem unlocks?_of_not_autoCheckout (isOff : policy.autoCheckout = false) :
    policy.unlocks? tree address = none := by
  simp [unlocks?, isOff]

theorem isCheckedOut_of_unlocks?_eq_none (isOn : policy.autoCheckout)
    (nothing : policy.unlocks? tree address = none) : tree.isCheckedOut address := by
  apply Tree.isCheckedOut_iff_lock?_eq_none.2
  simpa [unlocks?, isOn] using nothing

theorem mem_of_unlocks? (unlocked : policy.unlocks? tree address = some lock) :
    lock ∈ tree ∧ lock <:+ address := by
  rcases Tree.lock?_eq_some_iff.1 (lock?_of_unlocks? unlocked) with ⟨nearest, -⟩
  exact ⟨Tree.mem_of_isVersionable (Tree.isVersionable_of_nearestVersionable? nearest),
    Tree.suffix_of_nearestVersionable? nearest⟩

end Policy

namespace Progress

/-- What progress becomes when a lock is taken off. -/
def unlock (progress : Progress) (lock : Address) (path : String) : Progress :=
  (progress.withTree (progress.session.tree.unlock lock)).reporting [.checkedOut path]

/-- Nothing has happened, or one lock has been taken off and reported. -/
inductive Prepares (before : Progress) : Progress → Prop
  | nothing : Prepares before before
  | unlock (lock : Address) (path : String) : Prepares before (before.unlock lock path)

namespace Prepares

variable {before prepared : Progress} {address : Address}

theorem mem_iff (prepares : before.Prepares prepared) :
    address ∈ prepared.session.tree ↔ address ∈ before.session.tree := by
  cases prepares with
  | nothing => exact Iff.rfl
  | unlock lock path => exact Tree.mem_unlock

theorem exists_changes (prepares : before.Prepares prepared) :
    ∃ opened, prepared.changes = before.changes ++ opened := by
  cases prepares with
  | nothing => exact ⟨[], by simp⟩
  | unlock lock path => exact ⟨[.checkedOut path], rfl⟩

end Prepares

end Progress

namespace Work

variable {policy : Policy} {address lock : Address} {progress : Progress}

theorem runFrom_checkoutIfNecessary_of_none
    (nothing : policy.unlocks? progress.session.tree address = none) :
    (checkoutIfNecessary policy address).runFrom progress = (.ok (), progress) := by
  unfold checkoutIfNecessary
  by_cases isOn : policy.autoCheckout
  · have isOpen := Policy.isCheckedOut_of_unlocks?_eq_none isOn nothing
    simp only [isOn, ↓reduceIte, runFrom_bind, runFrom_tree]
    cases found : progress.session.tree.nearestVersionable? address with
    | none => rfl
    | some versionable =>
        have isVersionable := Tree.isVersionable_of_nearestVersionable? found
        have flagged : progress.session.tree.isCheckedOut versionable := by
          rw [Tree.isCheckedOut_eq_all, found, Option.all_some] at isOpen
          rwa [Tree.isCheckedOut_of_isVersionable isVersionable]
        simp only [flagged, ↓reduceIte, runFrom_pure]
  · simp only [isOn, Bool.false_eq_true, ↓reduceIte, runFrom_pure]

theorem runFrom_checkoutIfNecessary_of_some {path : String}
    (unlocked : policy.unlocks? progress.session.tree address = some lock)
    (named : Address.path lock = .ok path) :
    (checkoutIfNecessary policy address).runFrom progress =
      (.ok (), progress.unlock lock path) := by
  have isOn : policy.autoCheckout := by
    cases isOn : policy.autoCheckout with
    | false => simp [Policy.unlocks?, isOn] at unlocked
    | true => rfl
  rcases Tree.lock?_eq_some_iff.1 (Policy.lock?_of_unlocks? unlocked) with ⟨found, unflagged⟩
  have isVersionable := Tree.isVersionable_of_nearestVersionable? found
  have checkedIn : progress.session.tree.isCheckedOut lock = false := by
    rwa [Tree.isCheckedOut_of_isVersionable isVersionable]
  simp only [checkoutIfNecessary, isOn, ↓reduceIte, runFrom_bind, runFrom_tree, found, checkedIn,
    Bool.false_eq_true, runFrom_edit, Tree.checkout_of_isVersionable isVersionable, named,
    runFrom_liftExcept, runFrom_report]
  rfl

theorem isCheckedOut_unlock {path : String}
    (unlocked : policy.unlocks? progress.session.tree address = some lock) :
    (progress.unlock lock path).session.tree.isCheckedOut address :=
  Tree.isCheckedOut_unlock (Policy.lock?_of_unlocks? unlocked)

end Work

end ContentTree
