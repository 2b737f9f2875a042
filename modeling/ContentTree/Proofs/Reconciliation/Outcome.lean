import ContentTree.Proofs.Reconciliation.Effect
import ContentTree.Proofs.Session.Consistency
import ContentTree.Proofs.Session.Unlocking

/-!
# How a reconciliation ends

A reconciliation that returns has given its node exactly the requested mixin types. Apart from that
only one thing that is stored in the tree may have changed, the flag of the lock, and the log tells
of nothing but checkouts: that of the lock, and that of the node if it has become versionable and is
to be checked in later (`ReconciliationEffect`). Adding the versionable type sets the flag of the
node, but this changes nothing: a node that is not versionable has its flag set anyway, and one that
is versionable by its primary type could not have been changed without it.

A node that stays locked can keep its mixin types and nothing else. The reconciliation fails at the
first edit of its script, if there is one, and has not changed anything by then
(`Work.runFrom_forM_carryOut_of_isLocked`).
-/

namespace ContentTree

/-- What a reconciliation that returns makes of the progress before it, given what was stored about
the node. -/
structure ReconciliationEffect (policy : Policy) (address : Address) (node : Node)
    (requested : List String) (before after : Progress) : Prop where
  node? : ∀ other, after.session.tree.node? other =
    (before.session.tree.node? other).map fun stored =>
      { stored with
        mixins := if other = address then .ofList requested else stored.mixins
        checkedOut := stored.checkedOut ||
          policy.unlocks? before.session.tree address = some other }
  keys : after.session.tree.nodes.keys = before.session.tree.nodes.keys
  changes : ∃ unlocked path,
    (policy.unlocks? before.session.tree address).toList.mapM Address.path = .ok unlocked ∧
    Address.path address = .ok path ∧
    after.changes = before.changes ++ unlocked.map .checkedOut ++
      if versionableType ∈ requested ∧ versionableType ∉ node.mixins ∧
        policy.checkinOnNewVersionable then [.checkedOut path] else []
  defaultType : after.session.defaultType = before.session.defaultType
  stale : after.session.stale = before.session.stale
  checkouts : after.checkouts = before.checkouts

theorem Policy.unlocks?_eq_some_iff {policy : Policy} {tree : Tree} {address lock : Address} :
    policy.unlocks? tree address = some lock ↔ policy.autoCheckout ∧
      tree.nearestVersionable? address = some lock ∧ tree.isCheckedOut lock = false := by
  rw [unlocks?, Option.ite_none_right_eq_some, Tree.lock?_eq_some_iff_nearest]

theorem Session.Reachable.consistent {session : Session} (reachable : session.Reachable) :
    session.tree.Consistent := by
  rcases reachable with ⟨defaultType, leads⟩
  exact consistent_of_leads Tree.consistent_fresh leads

/-- A node whose flag is set whenever it becomes versionable only changes its mixin types. -/
theorem Node.reconciled_of_flagged {node : Node} {requested : List String}
    (flagged : versionableType ∈ requested → versionableType ∉ node.mixins → node.checkedOut) :
    node.reconciled requested = { node with mixins := .ofList requested } := by
  rw [reconciled]
  by_cases isNew : versionableType ∈ requested ∧ versionableType ∉ node.mixins
  · simp [isNew, flagged isNew.1 isNew.2]
  · simp [isNew]

/-- There is nothing to edit exactly if a node has the requested mixin types already. -/
theorem mixinEdits_eq_nil_iff {node : Node} {listed requested : List String}
    (complete : ∀ mixin, mixin ∈ listed ↔ mixin ∈ node.mixins) :
    mixinEdits listed requested = [] ↔ node.mixins = .ofList requested := by
  constructor
  · intro nothing
    rw [← Node.mixins_foldl_mixinEdits complete, nothing, List.foldl_nil]
  · intro isSame
    apply mixinEdits_eq_nil
    intro mixin
    rw [complete, isSame, NameSet.mem_ofList]

namespace Work

variable {arrange : List String → List String} {policy : Policy} {progress : Progress}
  {address : Address} {node : Node} {path : String} {requested : List String}

theorem runFrom_reconcileArranged_of_isLocked {checkout : Checkout} {prepared : Progress}
    (arranges : ∀ names, (arrange names).Perm names)
    (prepares : (checkout.prepare policy address).runFrom progress = (.ok (), prepared))
    (stored : prepared.session.tree.node? address = some node)
    (named : Address.path address = .ok path)
    (isLocked : prepared.session.tree.isCheckedOut address = false) :
    (reconcileArranged arrange checkout policy address requested).runFrom progress =
      (if node.mixins = .ofList requested then .ok () else .error (.checkedIn path), prepared) := by
  have holds : prepared.session.tree.Holds address node
      (prepared.session.tree.isCheckedOutAbove address) := ⟨stored, rfl⟩
  have complete : ∀ mixin, mixin ∈ arrange node.mixins.names ↔ mixin ∈ node.mixins :=
    fun mixin => (arranges node.mixins.names).mem_iff
  have feasible : node.Feasible (mixinEdits (arrange node.mixins.names) requested) :=
    Node.feasible_mixinEdits_of_perm (arranges node.mixins.names)
  rw [holds.isCheckedOut_eq] at isLocked
  rw [runFrom_reconcileArranged arrange policy prepares stored,
    runFrom_forM_carryOut_of_isLocked arrange policy holds named feasible isLocked]
  simp only [mixinEdits_eq_nil_iff complete]

/-- A node that a reconciliation makes versionable has its flag set by then. -/
theorem checkedOut_of_runFrom_reconcileArranged {checkout : Checkout} {prepared later : Progress}
    (arranges : ∀ names, (arrange names).Perm names)
    (prepares : (checkout.prepare policy address).runFrom progress = (.ok (), prepared))
    (stored : prepared.session.tree.node? address = some node)
    (named : Address.path address = .ok path)
    (flagged : node.isVersionable = false → node.checkedOut)
    (ran : (reconcileArranged arrange checkout policy address requested).runFrom progress =
      (.ok (), later))
    (wanted : versionableType ∈ requested) (isNew : versionableType ∉ node.mixins) :
    node.checkedOut := by
  cases isVersionable : node.isVersionable with
  | false => exact flagged isVersionable
  | true =>
      by_contra unflagged
      have isLocked : prepared.session.tree.isCheckedOut address = false := by
        have treeVersionable := (Tree.isVersionable_of_node? stored).trans isVersionable
        rw [Tree.isCheckedOut_of_isVersionable treeVersionable, Tree.isFlagged_of_node? stored]
        exact Bool.eq_false_iff.2 unflagged
      have differs : node.mixins ≠ .ofList requested := by
        intro isSame
        exact isNew (isSame ▸ NameSet.mem_ofList.2 wanted)
      rw [runFrom_reconcileArranged_of_isLocked arranges prepares stored named isLocked,
        if_neg differs] at ran
      cases ran

/-- A reconciliation that returns has the effect that it should have. -/
theorem reconciliationEffect_of_runFrom {before after : Progress}
    (reachable : before.session.Reachable)
    (stored : before.session.tree.node? address = some node)
    (arranges : ∀ names, (arrange names).Perm names)
    (ran : (reconcileArranged arrange .ifNecessary policy address requested).runFrom before =
      (.ok (), after)) :
    ReconciliationEffect policy address node requested before after := by
  have present : address ∈ before.session.tree :=
    Tree.node?_isSome_iff.1 (Option.isSome_of_eq_some stored)
  rcases reachable.exists_path present with ⟨path, named⟩
  rcases exists_checkoutEffect reachable policy address with ⟨prepared, checkoutRan, effect, -⟩
  have prepares : (Checkout.ifNecessary.prepare policy address).runFrom before =
      (.ok (), prepared) := checkoutRan
  let lock := policy.unlocks? before.session.tree address
  let opened : Node := { node with checkedOut := node.checkedOut || lock = some address }
  have storedAfter : prepared.session.tree.node? address = some opened := by
    rw [effect.node?, stored, Option.map_some]
  have flagged : opened.isVersionable = false → opened.checkedOut := by
    intro plain
    have wasFlagged := reachable.consistent.flagged address node stored plain
    simp [opened, wasFlagged]
  have reconciled : opened.reconciled requested = { opened with mixins := .ofList requested } :=
    Node.reconciled_of_flagged fun wanted isNew =>
      checkedOut_of_runFrom_reconcileArranged arranges prepares storedAfter named flagged ran
        wanted isNew
  rw [eq_of_runFrom_reconcileArranged arranges prepares storedAfter named ran]
  rcases effect.changes with ⟨unlocked, unlockedNamed, logged⟩
  refine
    { node? := fun other => ?_
      keys := ?_
      changes := ⟨unlocked, path, unlockedNamed, named, ?_⟩
      defaultType := effect.defaultType
      stale := effect.stale
      checkouts := effect.checkouts }
  · rw [Progress.session_reporting, Progress.tree_withTree, Tree.node?_modify]
    split
    case isTrue isTarget =>
      subst isTarget
      rw [storedAfter, stored, Option.map_some, Option.map_some, reconciled]
    case isFalse => rw [effect.node?]
  · exact (Table.keys_modify prepared.session.tree.nodes address _).trans effect.keys
  · rw [Progress.changes_reporting, Progress.changes_withTree, logged]

/-- A reconciliation that returns has made the mixin types of its node the requested ones, has taken
a lock off if there was one to take off, and has changed and reported nothing else. One that is not
allowed to take the lock of its node off fails if there is anything to change, and leaves everything
as it is. -/
theorem reconcile_exact (before : Progress) (reachable : before.session.Reachable)
    (address : Address) (node : Node) (stored : before.session.tree.node? address = some node)
    (policy : Policy) (arrange : List String → List String)
    (arranges : ∀ names, (arrange names).Perm names) (requested : List String) :
    let tree := before.session.tree
    let run := (reconcileArranged arrange .ifNecessary policy address requested).runFrom before
    (∀ lock, policy.unlocks? tree address = some lock ↔ policy.autoCheckout ∧
      tree.nearestVersionable? address = some lock ∧ tree.isCheckedOut lock = false) ∧
    (run.1 = .ok () → ReconciliationEffect policy address node requested before run.2) ∧
    (tree.isCheckedOut address = false → policy.autoCheckout = false →
      ∃ path, Address.path address = .ok path ∧
        run = (if node.mixins = .ofList requested then .ok () else .error (.checkedIn path),
          before)) := by
  intro tree run
  refine ⟨fun lock => Policy.unlocks?_eq_some_iff, ?_, ?_⟩
  · intro returned
    have ran : run = (.ok (), run.2) := by rw [← returned]
    exact reconciliationEffect_of_runFrom reachable stored arranges ran
  · intro isLocked isOff
    have present : address ∈ tree := Tree.node?_isSome_iff.1 (Option.isSome_of_eq_some stored)
    rcases reachable.exists_path present with ⟨path, named⟩
    have prepares : (Checkout.ifNecessary.prepare policy address).runFrom before =
        (.ok (), before) :=
      runFrom_checkoutIfNecessary_of_none (Policy.unlocks?_of_not_autoCheckout isOff)
    exact ⟨path, named,
      runFrom_reconcileArranged_of_isLocked arranges prepares stored named isLocked⟩

theorem reconcile_exact_part :
    let before : Progress := { session := pageWithPart }
    let policy : Policy := { autoCheckout := true, checkinOnNewVersionable := true }
    let requested := [versionableType, "mix:title", versionableType]
    let run := (reconcileArranged id .ifNecessary policy ["part", "page"] requested).runFrom before
    ReconciliationEffect policy ["part", "page"] { primaryType := unstructuredType } requested
        before run.2 ∧
      run.2.changes = [.checkedOut "/page", .checkedOut "/page/part"] ∧
      (reconcileArranged id .ifNecessary {} ["part", "page"] requested).runFrom before =
        (.error (.checkedIn "/page/part"), before) := by
  intro before policy requested run
  have stored : pageWithPart.tree.node? ["part", "page"] =
      some { primaryType := unstructuredType } := by decide +kernel
  have opens := reconcile_exact before reachable_pageWithPart ["part", "page"] _ stored policy id
    (fun _ => .refl _) requested
  have fails := reconcile_exact before reachable_pageWithPart ["part", "page"] _ stored {} id
    (fun _ => .refl _) requested
  refine ⟨opens.2.1 (by decide +kernel), by decide +kernel, ?_⟩
  rcases fails.2.2 (by decide +kernel) rfl with ⟨path, named, ran⟩
  have isPath : path = "/page/part" := Except.ok.inj (named.symm.trans (by decide +kernel))
  rw [ran, isPath, if_neg (by decide +kernel)]

end Work

end ContentTree
