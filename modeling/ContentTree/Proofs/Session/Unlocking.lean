import ContentTree.Proofs.Path.Canonical
import ContentTree.Proofs.Session.Preparation
import ContentTree.Proofs.Session.Reachable
import ContentTree.Proofs.Tree.Region

/-!
# Preparing a node agrees with the rule of the tree

Whether a node may be changed is decided on the way up from it, by the first versionable node. The
preparation looks for the same node and checks it out, so that the node which is about to be changed
may be changed afterwards: none of its edits is refused for being checked in
(`Tree.unblocked_apply`). The lock is all that it takes off (`CheckoutEffect`). Preparing the node
again does nothing, and neither does preparing any node under a policy that checks nothing out.
-/

namespace ContentTree

/-- A lock has been taken off and its node been reported as checked out, if there is a lock. -/
structure CheckoutEffect (lock : Option Address) (before after : Progress) : Prop where
  node? : ∀ address, after.session.tree.node? address =
    (before.session.tree.node? address).map fun node =>
      { node with checkedOut := node.checkedOut || lock = some address }
  keys : after.session.tree.nodes.keys = before.session.tree.nodes.keys
  changes : ∃ paths, lock.toList.mapM Address.path = .ok paths ∧
    after.changes = before.changes ++ paths.map .checkedOut
  defaultType : after.session.defaultType = before.session.defaultType
  stale : after.session.stale = before.session.stale
  checkouts : after.checkouts = before.checkouts

namespace CheckoutEffect

variable {progress : Progress} {lock : Address} {path : String}

theorem of_nothing (progress : Progress) : CheckoutEffect none progress progress where
  node? address := by simp
  keys := rfl
  changes := ⟨[], rfl, by simp⟩
  defaultType := rfl
  stale := rfl
  checkouts := rfl

theorem of_unlock (named : Address.path lock = .ok path) :
    CheckoutEffect (some lock) progress (progress.unlock lock path) where
  node? address := by
    rw [Progress.unlock, Progress.session_reporting, Progress.tree_withTree, Tree.node?_unlock]
    by_cases isLock : address = lock
    · simp [isLock]
    · simp [isLock, Ne.symm isLock]
  keys := Table.keys_modify progress.session.tree.nodes lock _
  changes := ⟨[path], by simp [named, bind, Except.bind, pure, Except.pure], rfl⟩
  defaultType := rfl
  stale := rfl
  checkouts := rfl

end CheckoutEffect

/-! ### Edits of a node that may be changed -/

/-- Whatever the outcome is, it is not that a node is checked in. -/
def Unblocked {Value : Type} (outcome : Except Fault Value) : Prop :=
  ∀ path, outcome ≠ .error (.checkedIn path)

section Unblocked

variable {First Second : Type} {outcome : Except Fault First}

theorem unblocked_ok (value : First) : Unblocked (.ok value) :=
  nofun

theorem unblocked_bind {next : First → Except Fault Second} (first : Unblocked outcome)
    (second : ∀ value, outcome = .ok value → Unblocked (next value)) :
    Unblocked (outcome >>= next) := by
  intro path failed
  rcases bind_eq_error_iff.1 failed with firstFailed | ⟨value, succeeded, nextFailed⟩
  · exact first path firstFailed
  · exact second value succeeded path nextFailed

theorem unblocked_throw {fault : Fault} (isOther : ∀ path, fault ≠ .checkedIn path) :
    Unblocked (throw fault : Except Fault First) := by
  intro path failed
  exact isOther path (Except.error.inj failed)

theorem unblocked_throw_bind {fault : Fault} (isOther : ∀ path, fault ≠ .checkedIn path)
    (next : First → Except Fault Second) : Unblocked (throw fault >>= next) :=
  unblocked_throw isOther

theorem unblocked_join (base name : String) : Unblocked (Path.join base name) := by
  intro path failed
  rcases Path.normalize_eq_error_iff.1 failed with ⟨flaw, -, isFault⟩
  cases isFault

theorem unblocked_path (address : Address) : Unblocked (Address.path address) := by
  induction address with
  | nil => exact unblocked_ok _
  | cons name above ih => exact unblocked_bind ih fun base _ => unblocked_join base name

end Unblocked

namespace Tree

variable {tree : Tree} {address : Address}

theorem unblocked_node (tree : Tree) (address : Address) : Unblocked (tree.node address) := by
  unfold Tree.node
  split
  · exact unblocked_ok _
  · exact unblocked_bind (unblocked_path address) fun _ _ => unblocked_throw (by simp)

theorem unblocked_requireCheckedOut (isOpen : tree.isCheckedOut address) :
    Unblocked (tree.requireCheckedOut address) := by
  simp only [requireCheckedOut, isOpen, ↓reduceIte]
  exact unblocked_ok ()

theorem unblocked_setCheckedOut (tree : Tree) (address : Address) (flag : Bool) :
    Unblocked (tree.setCheckedOut address flag) := by
  refine unblocked_bind (tree.unblocked_node address) fun node _ => ?_
  split
  · exact unblocked_ok _
  · exact unblocked_bind (unblocked_path address) fun _ _ => unblocked_throw_bind (by simp) _

/-- No edit of a node that may be changed is refused for a node that is checked in. -/
theorem unblocked_apply (isOpen : tree.isCheckedOut address) (change : Edit)
    (defaultType : String) : Unblocked (change.apply tree address defaultType) := by
  have required := unblocked_requireCheckedOut isOpen
  cases change with
  | addNode name type =>
      simp only [Edit.apply, addNode]
      split
      case isFalse =>
        exact unblocked_bind (unblocked_path address) fun _ _ => unblocked_throw (by simp)
      case isTrue =>
        refine unblocked_bind (unblocked_path address) fun base _ => ?_
        refine unblocked_bind (unblocked_join base name) fun path _ => ?_
        split
        · exact unblocked_throw_bind (by simp) _
        · exact unblocked_bind required fun _ _ => unblocked_ok _
  | addMixin mixin =>
      refine unblocked_bind (tree.unblocked_node address) fun _ _ => ?_
      exact unblocked_bind required fun _ _ => unblocked_ok _
  | removeMixin mixin =>
      refine unblocked_bind (tree.unblocked_node address) fun node _ => ?_
      split
      · exact unblocked_bind required fun _ _ => unblocked_ok _
      · exact unblocked_bind (unblocked_path address) fun _ _ => unblocked_throw_bind (by simp) _
  | checkout => exact tree.unblocked_setCheckedOut address true
  | checkin => exact tree.unblocked_setCheckedOut address false
  | setProperty name values =>
      refine unblocked_bind (tree.unblocked_node address) fun _ _ => ?_
      split
      · refine unblocked_bind (unblocked_path address) fun base _ => ?_
        exact unblocked_bind (unblocked_join base name) fun _ _ => unblocked_throw_bind (by simp) _
      · exact unblocked_ok _

/-! ### The node that decides -/

theorem isCheckedOut_iff_nearest : tree.isCheckedOut address ↔
    tree.nearestVersionable? address = none ∨
      ∃ versionable, tree.nearestVersionable? address = some versionable ∧
        tree.isCheckedOut versionable := by
  cases nearest : tree.nearestVersionable? address with
  | none => simp [isCheckedOut_eq_all, nearest]
  | some versionable => simp [isCheckedOut_of_nearestVersionable? nearest]

theorem nearestVersionable?_eq_none_iff : tree.nearestVersionable? address = none ↔
    ∀ above, above <:+ address → ¬tree.isVersionable above := by
  constructor
  · intro nothing above suffix isVersionable
    induction address with
    | nil =>
        rw [List.suffix_nil.1 suffix] at isVersionable
        cases nothing.symm.trans (nearestVersionable?_of_isVersionable isVersionable)
    | cons name higher ih =>
        by_cases atOnce : tree.isVersionable (name :: higher)
        · cases nothing.symm.trans (nearestVersionable?_of_isVersionable atOnce)
        · rw [nearestVersionable?_cons atOnce] at nothing
          rcases List.suffix_cons_iff.1 suffix with rfl | further
          · exact atOnce isVersionable
          · exact ih nothing further
  · intro nothing
    cases nearest : tree.nearestVersionable? address with
    | none => rfl
    | some versionable =>
        have isVersionable := isVersionable_of_nearestVersionable? nearest
        exact absurd isVersionable (nothing versionable (suffix_of_nearestVersionable? nearest))

theorem lock?_eq_some_iff_nearest {versionable : Address} :
    tree.lock? address = some versionable ↔
      tree.nearestVersionable? address = some versionable ∧
        tree.isCheckedOut versionable = false := by
  rw [lock?_eq_some_iff]
  apply and_congr_right
  intro nearest
  rw [isCheckedOut_of_isVersionable (isVersionable_of_nearestVersionable? nearest)]

end Tree

namespace Work

/-- Preparing a node of a reachable session always succeeds and takes its lock off, if the policy is
to check nodes out. -/
theorem exists_checkoutEffect {before : Progress} (reachable : before.session.Reachable)
    (policy : Policy) (address : Address) :
    ∃ after, (checkoutIfNecessary policy address).runFrom before = (.ok (), after) ∧
      CheckoutEffect (policy.unlocks? before.session.tree address) before after ∧
      (policy.autoCheckout → after.session.tree.isCheckedOut address) := by
  cases unlocked : policy.unlocks? before.session.tree address with
  | none =>
      exact ⟨before, runFrom_checkoutIfNecessary_of_none unlocked, .of_nothing before,
        fun isOn => Policy.isCheckedOut_of_unlocks?_eq_none isOn unlocked⟩
  | some lock =>
      rcases reachable.exists_path (Policy.mem_of_unlocks? unlocked).1 with ⟨path, named⟩
      exact ⟨before.unlock lock path, runFrom_checkoutIfNecessary_of_some unlocked named,
        .of_unlock named, fun _ => isCheckedOut_unlock unlocked⟩

/-- Whether a node may be changed is decided by the node that the preparation finds. Prepared under
a policy that checks nodes out, the node may be changed: exactly the lock of the node is taken off,
none of its edits is refused for being checked in, and preparing it again does nothing. Under any
other policy nothing happens at all. -/
theorem checkoutIfNecessary_agrees (before : Progress) (reachable : before.session.Reachable)
    (address : Address) :
    let tree := before.session.tree
    (tree.isCheckedOut address ↔ tree.nearestVersionable? address = none ∨
      ∃ versionable, tree.nearestVersionable? address = some versionable ∧
        tree.isCheckedOut versionable) ∧
    (tree.nearestVersionable? address = none ↔
      ∀ above, above <:+ address → ¬tree.isVersionable above) ∧
    (∀ versionable, tree.nearestVersionable? address = some versionable ↔
      versionable <:+ address ∧ tree.isVersionable versionable ∧
        ∀ between, versionable <:+ between → between <:+ address → tree.isVersionable between →
          between = versionable) ∧
    (∀ versionable, tree.lock? address = some versionable ↔
      tree.nearestVersionable? address = some versionable ∧
        tree.isCheckedOut versionable = false) ∧
    (∀ policy : Policy, policy.autoCheckout →
      ∃ after, (checkoutIfNecessary policy address).runFrom before = (.ok (), after) ∧
        after.session.tree.isCheckedOut address ∧
        (∀ change : Edit, Unblocked
          (change.apply after.session.tree address after.session.defaultType)) ∧
        CheckoutEffect (tree.lock? address) before after ∧
        (checkoutIfNecessary policy address).runFrom after = (.ok (), after)) ∧
    ∀ policy : Policy, policy.autoCheckout = false →
      (checkoutIfNecessary policy address).runFrom before = (.ok (), before) := by
  intro tree
  refine ⟨Tree.isCheckedOut_iff_nearest, Tree.nearestVersionable?_eq_none_iff,
    fun _ => Tree.nearestVersionable?_eq_some_iff, fun _ => Tree.lock?_eq_some_iff_nearest, ?_, ?_⟩
  · intro policy isOn
    rcases exists_checkoutEffect reachable policy address with ⟨after, ran, effect, opened⟩
    have isOpen := opened isOn
    have unlocks : policy.unlocks? tree address = tree.lock? address := if_pos isOn
    rw [unlocks] at effect
    exact ⟨after, ran, isOpen, fun change => Tree.unblocked_apply isOpen change _, effect,
      runFrom_checkoutIfNecessary_of_none (Policy.unlocks?_of_isCheckedOut isOpen)⟩
  · intro policy isOff
    exact runFrom_checkoutIfNecessary_of_none (Policy.unlocks?_of_not_autoCheckout isOff)

/-- A session with a page that is versionable by its primary type, checked in, and has a part. -/
def pageWithPart : Session :=
  (Session.performAll {}
    [.edit [] (.addMixin versionableType),
      .edit [] (.addNode "page" (some versionableType)), .edit ["page"] (.addNode "part" none),
      .edit ["page"] .checkin]).2

theorem reachable_pageWithPart : pageWithPart.Reachable :=
  Session.Reachable.performAll ⟨unstructuredType, .refl⟩ _

theorem checkoutIfNecessary_agrees_part :
    pageWithPart.tree.isCheckedOut ["part", "page"] = false ∧
      ∃ after, (checkoutIfNecessary { autoCheckout := true } ["part", "page"]).runFrom
          { session := pageWithPart } = (.ok (), after) ∧
        after.session.tree.isCheckedOut ["part", "page"] ∧
        CheckoutEffect (some ["page"]) { session := pageWithPart } after := by
  have lock : pageWithPart.tree.lock? ["part", "page"] = some ["page"] := by decide +kernel
  rcases checkoutIfNecessary_agrees { session := pageWithPart } reachable_pageWithPart
    ["part", "page"] with ⟨-, -, -, -, opens, -⟩
  rcases opens { autoCheckout := true } rfl with ⟨after, ran, isOpen, -, effect, -⟩
  rw [lock] at effect
  exact ⟨by decide +kernel, after, ran, isOpen, effect⟩

end Work

end ContentTree
