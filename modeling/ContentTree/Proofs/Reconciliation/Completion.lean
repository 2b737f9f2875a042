import ContentTree.Proofs.Reconciliation.Script
import ContentTree.Proofs.Session.Preparation
import ContentTree.Proofs.Session.Reachable

/-!
# When a reconciliation completes

A reconciliation whose node may be changed once it is prepared completes, and then the node has the
requested mixin types, unless its script strands on the way; then it fails. Whether it does depends
on the arrangement of the mixin types only if there is nothing to add.
-/

namespace ContentTree

/-- All that matters for the edits of a node: what is stored about it, and whether the nodes above
allow it to be changed. -/
structure Tree.Holds (tree : Tree) (address : Address) (node : Node) (above : Bool) : Prop where
  stored : tree.node? address = some node
  isCheckedOutAbove : tree.isCheckedOutAbove address = above

namespace Tree.Holds

variable {tree : Tree} {address : Address} {node : Node} {above : Bool} {path mixin : String}

theorem isCheckedOut_eq (holds : tree.Holds address node above) :
    tree.isCheckedOut address = node.isOpen above := by
  rw [isCheckedOut_eq_ite, isVersionable, isFlagged, holds.stored, holds.isCheckedOutAbove,
    Option.any_some, Option.all_some]
  rfl

theorem node_eq (holds : tree.Holds address node above) : tree.node address = .ok node := by
  rw [Tree.node, holds.stored]

theorem revise (holds : tree.Holds address node above) (change : MixinEdit) :
    (tree.modify address (·.revise change)).Holds address (node.revise change) above where
  stored := by rw [node?_modify, if_pos rfl, holds.stored, Option.map_some]
  isCheckedOutAbove := by rw [Tree.isCheckedOutAbove_modify, holds.isCheckedOutAbove]

theorem requireCheckedOut_of_isOpen (holds : tree.Holds address node above)
    (isOpen : node.isOpen above) : tree.requireCheckedOut address = .ok () := by
  simp only [requireCheckedOut, holds.isCheckedOut_eq, isOpen, ↓reduceIte]
  rfl

theorem requireCheckedOut_of_locked (holds : tree.Holds address node above)
    (isLocked : node.isOpen above = false) (named : Address.path address = .ok path) :
    tree.requireCheckedOut address = .error (.checkedIn path) := by
  simp only [requireCheckedOut, holds.isCheckedOut_eq, isLocked, named, Bool.false_eq_true,
    ↓reduceIte, bind, Except.bind]
  rfl

theorem addMixin_eq (holds : tree.Holds address node above) (mixin : String) :
    tree.addMixin address mixin = do
      tree.requireCheckedOut address
      return tree.modify address (·.revise (.add mixin)) := by
  rw [addMixin, holds.node_eq]
  rfl

theorem removeMixin_eq (holds : tree.Holds address node above) (assigned : mixin ∈ node.mixins) :
    tree.removeMixin address mixin = do
      tree.requireCheckedOut address
      return tree.modify address (·.revise (.remove mixin)) := by
  rw [removeMixin, holds.node_eq]
  simp only [bind, Except.bind, assigned, ↓reduceIte]
  rfl

end Tree.Holds

/-- What is reported about an edit of the mixin types of the node at a path. -/
def MixinEdit.changes (policy : Policy) (path : String) : MixinEdit → List Change
  | .add mixin =>
      if mixin = versionableType ∧ policy.checkinOnNewVersionable then [.checkedOut path] else []
  | .remove _ => []

/-- What progress becomes by an edit of the mixin types of a node. -/
def Progress.revise (progress : Progress) (policy : Policy) (address : Address) (path : String)
    (change : MixinEdit) : Progress :=
  (progress.withTree (progress.session.tree.modify address (·.revise change))).reporting
    (change.changes policy path)

namespace Work

variable (arrange : List String → List String) (policy : Policy) {progress : Progress}
  {address : Address} {node : Node} {above : Bool} {path : String} {change : MixinEdit}
  {script : List MixinEdit}

theorem runFrom_carryOut_of_isOpen (holds : progress.session.tree.Holds address node above)
    (named : Address.path address = .ok path)
    (removable : ∀ mixin, change = .remove mixin → mixin ∈ node.mixins)
    (isOpen : node.isOpen above) :
    ((mixinHost arrange address).carryOut policy change).runFrom progress =
      (.ok (), progress.revise policy address path change) := by
  have required := holds.requireCheckedOut_of_isOpen isOpen
  let changed := progress.withTree (progress.session.tree.modify address (·.revise change))
  have holdsLater : changed.session.tree.Holds address (node.revise change) above :=
    holds.revise change
  cases change with
  | remove mixin =>
      have removed := holds.removeMixin_eq (removable mixin rfl)
      rw [required] at removed
      simp only [MixinHost.carryOut, mixinHost, runFrom_edit, removed]
      exact congrArg (Prod.mk _) (Progress.reporting_nil changed).symm
  | add mixin =>
      have added := holds.addMixin_eq mixin
      rw [required] at added
      have edited : (edit (·.addMixin address mixin)).runFrom progress = (.ok (), changed) := by
        rw [runFrom_edit, added]
        rfl
      have stillOpen : changed.session.tree.isCheckedOut address := by
        rw [holdsLater.isCheckedOut_eq]
        exact Node.isOpen_revise isOpen nofun
      simp only [MixinHost.carryOut, MixinHost.addReporting, mixinHost, runFrom_bind, edited,
        Progress.revise, MixinEdit.changes]
      split
      · simp only [runFrom_bind, runFrom_tree, runFrom_pure, stillOpen, ↓reduceIte, named,
          runFrom_liftExcept, runFrom_report]
        rfl
      · exact congrArg (Prod.mk _) (Progress.reporting_nil changed).symm

theorem runFrom_carryOut_of_locked (holds : progress.session.tree.Holds address node above)
    (named : Address.path address = .ok path)
    (removable : ∀ mixin, change = .remove mixin → mixin ∈ node.mixins)
    (isLocked : node.isOpen above = false) :
    ((mixinHost arrange address).carryOut policy change).runFrom progress =
      (.error (.checkedIn path), progress) := by
  have refused := holds.requireCheckedOut_of_locked isLocked named
  cases change with
  | remove mixin =>
      have removed := holds.removeMixin_eq (removable mixin rfl)
      rw [refused] at removed
      simp only [MixinHost.carryOut, mixinHost, runFrom_edit, removed]
      rfl
  | add mixin =>
      have added := holds.addMixin_eq mixin
      rw [refused] at added
      simp only [MixinHost.carryOut, MixinHost.addReporting, mixinHost, runFrom_bind, runFrom_edit,
        added]
      rfl

/-- A script goes on with the rest after an edit of a node that may be changed. -/
theorem runFrom_forM_carryOut_cons (holds : progress.session.tree.Holds address node above)
    (named : Address.path address = .ok path) (feasible : node.Feasible (change :: script))
    (isOpen : node.isOpen above) :
    (forM (change :: script) ((mixinHost arrange address).carryOut policy)).runFrom progress =
      (forM script ((mixinHost arrange address).carryOut policy)).runFrom
        (progress.revise policy address path change) := by
  have ran := runFrom_carryOut_of_isOpen arrange policy holds named feasible.1 isOpen
  simp only [List.forM_cons, runFrom_bind, ran]

/-- A script fails at once at a node that may not be changed, unless there is nothing to do. -/
theorem runFrom_forM_carryOut_of_isLocked (holds : progress.session.tree.Holds address node above)
    (named : Address.path address = .ok path) (feasible : node.Feasible script)
    (isLocked : node.isOpen above = false) :
    (forM script ((mixinHost arrange address).carryOut policy)).runFrom progress =
      (if script = [] then .ok () else .error (.checkedIn path), progress) := by
  cases script with
  | nil => rfl
  | cons first rest =>
      have refused := runFrom_carryOut_of_locked arrange policy holds named feasible.1 isLocked
      rw [List.forM_cons, runFrom_bind, refused, if_neg (List.cons_ne_nil first rest)]

/-- A script that starts at a node that may be changed is carried out to its end. -/
theorem runFrom_forM_carryOut (holds : progress.session.tree.Holds address node above)
    (named : Address.path address = .ok path) (feasible : node.Feasible script)
    (isOpen : node.isOpen above) (finishes : ¬node.Strands above script) :
    ∃ later, (forM script ((mixinHost arrange address).carryOut policy)).runFrom progress =
        (.ok (), later) ∧
      later.session.tree.Holds address (script.foldl Node.revise node) above := by
  induction script generalizing progress node with
  | nil => exact ⟨progress, rfl, holds⟩
  | cons first rest ih =>
      have holdsLater : (progress.revise policy address path first).session.tree.Holds address
          (node.revise first) above := holds.revise first
      rw [runFrom_forM_carryOut_cons arrange policy holds named feasible isOpen, List.foldl_cons]
      cases rest with
      | nil => exact ⟨_, rfl, holdsLater⟩
      | cons next others =>
          rw [Node.strands_cons_iff_of_isOpen isOpen, not_or, Bool.not_eq_false] at finishes
          exact ih holdsLater feasible.2 finishes.1 finishes.2

/-- A script that strands fails at the edit after the removal that strands it. -/
theorem runFrom_forM_carryOut_of_strands (holds : progress.session.tree.Holds address node above)
    (named : Address.path address = .ok path) (feasible : node.Feasible script)
    (isOpen : node.isOpen above) (strands : node.Strands above script) :
    ((forM script ((mixinHost arrange address).carryOut policy)).runFrom progress).1 =
      .error (.checkedIn path) := by
  induction script generalizing progress node with
  | nil => cases strands.2.2
  | cons first rest ih =>
      have holdsLater : (progress.revise policy address path first).session.tree.Holds address
          (node.revise first) above := holds.revise first
      rw [runFrom_forM_carryOut_cons arrange policy holds named feasible isOpen]
      cases rest with
      | nil => cases strands.2.2
      | cons next others =>
          cases isOpenLater : (node.revise first).isOpen above with
          | false =>
              rw [runFrom_forM_carryOut_of_isLocked arrange policy holdsLater named feasible.2
                isOpenLater, if_neg (List.cons_ne_nil next others)]
          | true =>
              have notLocked : ¬(node.revise first).isOpen above = false := by simp [isOpenLater]
              have later := ((Node.strands_cons_iff_of_isOpen isOpen).1 strands).resolve_left
                notLocked
              exact ih holdsLater feasible.2 isOpenLater later

theorem runFrom_reconcileArranged {checkout : Checkout} {prepared : Progress}
    (prepares : (checkout.prepare policy address).runFrom progress = (.ok (), prepared))
    (stored : prepared.session.tree.node? address = some node) (requested : List String) :
    (reconcileArranged arrange checkout policy address requested).runFrom progress =
      (forM (mixinEdits (arrange node.mixins.names) requested)
        ((mixinHost arrange address).carryOut policy)).runFrom prepared := by
  have found : prepared.session.tree.node address = .ok node := by rw [Tree.node, stored]
  have listed : (mixinHost arrange address).mixins.runFrom prepared =
      (.ok (arrange node.mixins.names), prepared) := by
    simp only [mixinHost, runFrom_bind, runFrom_tree, found, runFrom_liftExcept, runFrom_pure]
  simp only [reconcileArranged, MixinHost.reconcile_eq_forM, runFrom_bind, prepares, listed]

end Work

namespace Session.Reachable

variable {session : Session}

/-- Preparing a node of a reachable session never fails; it opens the node if the policy is to check
nodes out, and it is silent if no lock has to be taken off for that. -/
theorem exists_prepares (before : Progress) (reachable : before.session.Reachable)
    (policy : Policy) (address : Address) :
    ∃ prepared, (Checkout.ifNecessary.prepare policy address).runFrom before =
        (.ok (), prepared) ∧
      before.Prepares prepared ∧
      (policy.autoCheckout → prepared.session.tree.isCheckedOut address) ∧
      (prepared.changes = before.changes ↔
        policy.unlocks? before.session.tree address = none) := by
  cases unlocked : policy.unlocks? before.session.tree address with
  | none =>
      exact ⟨before, Work.runFrom_checkoutIfNecessary_of_none unlocked, .nothing,
        fun isOn => Policy.isCheckedOut_of_unlocks?_eq_none isOn unlocked, by simp⟩
  | some lock =>
      rcases reachable.exists_path (Policy.mem_of_unlocks? unlocked).1 with ⟨path, named⟩
      exact ⟨before.unlock lock path, Work.runFrom_checkoutIfNecessary_of_some unlocked named,
        .unlock lock path, fun _ => Work.isCheckedOut_unlock unlocked,
        by simp [Progress.unlock]⟩

theorem exists_runFrom_checkoutIfNecessary (reachable : session.Reachable) (policy : Policy)
    (address : Address) (changes : List Change) (checkouts : List String) :
    ∃ prepared, (checkoutIfNecessary policy address).runFrom { session, changes, checkouts } =
        (.ok (), prepared) ∧
      (policy.autoCheckout → prepared.session.tree.isCheckedOut address) ∧
      ∀ other, other ∈ prepared.session.tree ↔ other ∈ session.tree := by
  rcases exists_prepares { session, changes, checkouts } reachable policy address with
    ⟨prepared, ran, prepares, opened, -⟩
  exact ⟨prepared, ran, opened, fun _ => prepares.mem_iff⟩

end Session.Reachable

namespace Work

/-- A reconciliation of a node that may be changed once it is prepared gives it the requested mixin
types, unless its script strands; then it fails. -/
theorem reconcile_completes_unless_stranded (session : Session) (reachable : session.Reachable)
    (address : Address) (present : address ∈ session.tree) (changes : List Change)
    (checkouts : List String) (policy : Policy) (arrange : List String → List String)
    (arranges : ∀ names, (arrange names).Perm names) (requested : List String) :
    let before : Progress := { session, changes, checkouts }
    let prepared := ((checkoutIfNecessary policy address).runFrom before).2
    let run := (reconcileArranged arrange .ifNecessary policy address requested).runFrom before
    (policy.autoCheckout → prepared.session.tree.isCheckedOut address) ∧
    (prepared.session.tree.isCheckedOut address →
      ∃ node path, prepared.session.tree.node? address = some node ∧
        Address.path address = .ok path ∧
        let strands := node.Strands (prepared.session.tree.isCheckedOutAbove address)
          (mixinEdits (arrange node.mixins.names) requested)
        (¬strands → run.1 = .ok () ∧ ∃ last, run.2.session.tree.node? address = some last ∧
          last.mixins = .ofList requested) ∧
        (strands → run.1 = .error (.checkedIn path))) := by
  intro before prepared run
  rcases reachable.exists_runFrom_checkoutIfNecessary policy address changes checkouts with
    ⟨after, ran, opened, sameNodes⟩
  have isPrepared : prepared = after := congrArg Prod.snd ran
  refine ⟨by rwa [isPrepared], ?_⟩
  intro isOpen
  rw [isPrepared] at isOpen ⊢
  rcases Option.isSome_iff_exists.1 (Tree.node?_isSome_iff.2 ((sameNodes address).2 present)) with
    ⟨node, stored⟩
  rcases reachable.exists_path present with ⟨path, named⟩
  have holds : after.session.tree.Holds address node
      (after.session.tree.isCheckedOutAbove address) := ⟨stored, rfl⟩
  have nodeOpen : node.isOpen (after.session.tree.isCheckedOutAbove address) := by
    rwa [← holds.isCheckedOut_eq]
  have listedIff : ∀ mixin, mixin ∈ arrange node.mixins.names ↔ mixin ∈ node.mixins :=
    fun mixin => (arranges node.mixins.names).mem_iff
  have distinct : (arrange node.mixins.names).Nodup :=
    (arranges node.mixins.names).nodup_iff.2 node.mixins.nodup_names
  have feasible : node.Feasible (mixinEdits (arrange node.mixins.names) requested) :=
    Node.feasible_mixinEdits distinct fun mixin => (listedIff mixin).1
  have prepares : (Checkout.ifNecessary.prepare policy address).runFrom before = (.ok (), after) :=
    ran
  have runEq : run = (forM (mixinEdits (arrange node.mixins.names) requested)
      ((mixinHost arrange address).carryOut policy)).runFrom after :=
    runFrom_reconcileArranged arrange policy prepares stored requested
  refine ⟨node, path, stored, named, ?_, ?_⟩
  · intro finishes
    rcases runFrom_forM_carryOut arrange policy holds named feasible nodeOpen finishes with
      ⟨last, done, lastHolds⟩
    rw [runEq, done]
    exact ⟨rfl, _, lastHolds.stored, Node.mixins_foldl_mixinEdits listedIff⟩
  · intro strands
    rw [runEq]
    exact runFrom_forM_carryOut_of_strands arrange policy holds named feasible nodeOpen strands

/-- A session with a versionable node below another one, which is checked in. -/
def nested : Session :=
  (Session.performAll {}
    [.edit [] (.addNode "a" none), .edit ["a"] (.addNode "b" none),
      .edit ["a"] (.addMixin versionableType), .edit ["a", "b"] (.addMixin versionableType),
      .edit ["a"] .checkin]).2

theorem reachable_nested : nested.Reachable :=
  Session.Reachable.performAll ⟨unstructuredType, .refl⟩ _

theorem reconcile_completes_unless_stranded_nested :
    ((reconcileArranged id .ifNecessary { autoCheckout := true } ["b", "a"] []).runFrom
      { session := nested }).1 = .ok () := by
  rcases reconcile_completes_unless_stranded nested reachable_nested ["b", "a"]
    (by decide +kernel) [] [] { autoCheckout := true } id (fun _ => .refl _) [] with
    ⟨opened, completes⟩
  rcases completes (opened rfl) with ⟨node, path, stored, named, finishes, -⟩
  refine (finishes ?_).1
  rintro ⟨-, -, notLast⟩
  have mixins : (((checkoutIfNecessary { autoCheckout := true } ["b", "a"]).runFrom
      { session := nested }).2.session.tree.node? ["b", "a"]).map (·.mixins.names) =
        some [versionableType] := by decide +kernel
  rw [stored, Option.map_some, Option.some.injEq] at mixins
  rw [id_eq, mixins] at notLast
  revert notLast
  decide +kernel

/-- That the node may be changed once it is prepared is not enough for a reconciliation. -/
theorem not_reconcile_completes : ¬∀ (session : Session) (address : Address) (policy : Policy)
    (requested : List String), session.Reachable → address ∈ session.tree →
    ((checkoutIfNecessary policy address).runFrom { session }).2.session.tree.isCheckedOut address →
    ((reconcile .ifNecessary policy address requested).runFrom { session }).1 = .ok () := by
  intro completes
  have completed := completes nested ["b", "a"] { autoCheckout := true } ["mix:title"]
    reachable_nested (by decide +kernel) (by decide +kernel)
  have failed : ((reconcile .ifNecessary { autoCheckout := true } ["b", "a"] ["mix:title"]).runFrom
      { session := nested }).1 = .error (.checkedIn "/a/b") := by decide +kernel
  rw [failed] at completed
  cases completed

end Work

end ContentTree
