import ContentTree.Proofs.Lists
import ContentTree.Proofs.Reconciliation.Completion

/-!
# What a reconciliation does

A reconciliation that succeeds has carried out its whole script. After it the node has exactly the
requested mixin types, and its own checkout flag is set if it has become versionable by this
(`Node.reconciled`). Nothing else that is stored in the tree has changed since the node was
prepared, and at most one change is reported: the checkout that comes with becoming versionable
(`eq_of_runFrom_reconcileArranged`).
-/

namespace ContentTree

namespace Node

variable {node : Node} {listed requested : List String}

/-- What the script of a reconciliation makes of a node. -/
def reconciled (node : Node) (requested : List String) : Node :=
  { node with
    mixins := .ofList requested
    checkedOut := node.checkedOut || decide (versionableType ∈ requested ∧
      versionableType ∉ node.mixins) }

/-- A script changes mixin types only, except that adding the versionable type sets the flag. -/
theorem foldl_revise (node : Node) (script : List MixinEdit) :
    script.foldl revise node =
      { node with
        mixins := (script.foldl revise node).mixins
        checkedOut := node.checkedOut || decide (.add versionableType ∈ script) } := by
  induction script generalizing node with
  | nil => simp
  | cons change rest ih =>
      refine (ih (node.revise change)).trans ?_
      cases change with
      | remove mixin => simp [revise]
      | add mixin => simp [revise, Bool.or_assoc, eq_comm]

theorem add_mem_mixinEdits_iff {mixin : String} :
    .add mixin ∈ mixinEdits listed requested ↔ mixin ∈ requested ∧ mixin ∉ listed := by
  simp [mixinEdits]

/-- Carried out to its end, the script of a reconciliation gives the node that is wanted. -/
theorem foldl_mixinEdits (complete : ∀ mixin, mixin ∈ listed ↔ mixin ∈ node.mixins) :
    (mixinEdits listed requested).foldl revise node = node.reconciled requested := by
  rw [foldl_revise, mixins_foldl_mixinEdits complete]
  simp only [add_mem_mixinEdits_iff, complete, reconciled]

end Node

namespace MixinEdit

variable {listed requested : List String} {policy : Policy} {path : String}

theorem flatMap_ite_eq_of_nodup {names : List String} (distinct : names.Nodup) (sought : String)
    (change : Change) :
    (names.flatMap fun name => if name = sought then [change] else []) =
      if sought ∈ names then [change] else [] := by
  induction names with
  | nil => rfl
  | cons name rest ih =>
      rcases List.nodup_cons.1 distinct with ⟨notLater, restDistinct⟩
      rw [List.flatMap_cons, ih restDistinct]
      by_cases isSought : name = sought
      · subst isSought
        simp [notLater]
      · simp [isSought, Ne.symm isSought]

/-- The script of a reconciliation reports at most that the node has become versionable. -/
theorem flatMap_changes_mixinEdits :
    (mixinEdits listed requested).flatMap (changes policy path) =
      if versionableType ∈ requested ∧ versionableType ∉ listed ∧ policy.checkinOnNewVersionable
      then [.checkedOut path] else [] := by
  have noRemovals : ((listed.filter (· ∉ requested)).map remove).flatMap (changes policy path) =
      [] := by
    simp [List.flatMap_map, changes]
  have distinct : (requested.eraseDups.filter (· ∉ listed)).Nodup :=
    (nodup_eraseDups requested).filter _
  rw [mixinEdits, List.flatMap_append, noRemovals, List.nil_append, List.flatMap_map]
  cases isOn : policy.checkinOnNewVersionable with
  | false => simp [changes, isOn]
  | true =>
      have added := flatMap_ite_eq_of_nodup distinct versionableType (.checkedOut path)
      simpa [changes, isOn] using added

end MixinEdit

namespace Progress

variable {policy : Policy} {address : Address} {path : String}

theorem foldl_revise (progress : Progress) (script : List MixinEdit) :
    script.foldl (revise · policy address path ·) progress =
      (progress.withTree (progress.session.tree.modify address
        fun node => script.foldl Node.revise node)).reporting
          (script.flatMap (MixinEdit.changes policy path)) := by
  induction script generalizing progress with
  | nil =>
      have unchanged : progress.withTree progress.session.tree = progress := rfl
      simp only [List.foldl_nil, List.flatMap_nil, Tree.modify_id, unchanged, reporting_nil]
  | cons change rest ih =>
      rw [List.foldl_cons, ih, List.flatMap_cons]
      simp only [revise, session_reporting, tree_withTree, Tree.modify_modify, withTree_reporting,
        withTree_withTree, reporting_reporting, List.foldl_cons]

end Progress

namespace Work

variable {arrange : List String → List String} {policy : Policy} {progress later : Progress}
  {address : Address} {node : Node} {path : String}

/-- A script that succeeds has been carried out edit by edit. -/
theorem eq_of_runFrom_forM_carryOut {above : Bool} {script : List MixinEdit}
    (holds : progress.session.tree.Holds address node above)
    (named : Address.path address = .ok path) (feasible : node.Feasible script)
    (ran : (forM script ((mixinHost arrange address).carryOut policy)).runFrom progress =
      (.ok (), later)) :
    later = script.foldl (·.revise policy address path ·) progress := by
  induction script generalizing progress node with
  | nil => exact (congrArg Prod.snd ran).symm
  | cons change rest ih =>
      cases isOpen : node.isOpen above with
      | false =>
          rw [runFrom_forM_carryOut_of_isLocked arrange policy holds named feasible isOpen,
            if_neg (List.cons_ne_nil change rest)] at ran
          cases ran
      | true =>
          rw [runFrom_forM_carryOut_cons arrange policy holds named feasible isOpen] at ran
          exact ih (holds.revise change) feasible.2 ran

/-- A reconciliation that succeeds gives the node the requested mixin types and does nothing else
once the node is prepared. -/
theorem eq_of_runFrom_reconcileArranged {checkout : Checkout} {prepared : Progress}
    {requested : List String} (arranges : ∀ names, (arrange names).Perm names)
    (prepares : (checkout.prepare policy address).runFrom progress = (.ok (), prepared))
    (stored : prepared.session.tree.node? address = some node)
    (named : Address.path address = .ok path)
    (ran : (reconcileArranged arrange checkout policy address requested).runFrom progress =
      (.ok (), later)) :
    later = (prepared.withTree (prepared.session.tree.modify address
      (·.reconciled requested))).reporting
        (if versionableType ∈ requested ∧ versionableType ∉ node.mixins ∧
          policy.checkinOnNewVersionable then [.checkedOut path] else []) := by
  have listedIff : ∀ mixin, mixin ∈ arrange node.mixins.names ↔ mixin ∈ node.mixins :=
    fun mixin => (arranges node.mixins.names).mem_iff
  have feasible : node.Feasible (mixinEdits (arrange node.mixins.names) requested) :=
    Node.feasible_mixinEdits_of_perm (arranges node.mixins.names)
  rw [runFrom_reconcileArranged arrange policy prepares stored] at ran
  rw [eq_of_runFrom_forM_carryOut ⟨stored, rfl⟩ named feasible ran, Progress.foldl_revise,
    MixinEdit.flatMap_changes_mixinEdits]
  have sameTree : (prepared.session.tree.modify address fun node' =>
      (mixinEdits (arrange node.mixins.names) requested).foldl Node.revise node') =
        prepared.session.tree.modify address (·.reconciled requested) := by
    apply Tree.modify_congr
    intro found isStored
    rw [stored, Option.some.injEq] at isStored
    subst isStored
    exact Node.foldl_mixinEdits listedIff
  rw [sameTree]
  simp only [listedIff]

end Work

end ContentTree
