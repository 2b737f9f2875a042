import ContentTree.Proofs.Creation.Effect
import ContentTree.Proofs.Creation.Refusal
import ContentTree.Proofs.Creation.Staleness
import ContentTree.Proofs.Reconciliation.Effect
import ContentTree.Request

/-!
# How creating or updating ends

When creating or updating the node at a path returns, one of three things has happened
(`Work.Settled`). Either no item was known at the path; then whatever was missing has been created,
which may be nothing. Or an item was known and the request wants nothing of it, be it that it asks
for no mixin types or that the item is a property; then everything is as before. Or the item is a
node; then it has been prepared and its mixin types are the requested ones.
-/

namespace ContentTree

namespace Progress

/-- What progress becomes when a node is prepared and gets the requested mixin types. -/
def updated (progress : Progress) (policy : Policy) (address : Address) (node : Node)
    (requested : List String) : Progress :=
  let opened := progress.unlocking (policy.unlocks? progress.session.tree address)
  (opened.withTree (opened.session.tree.modify address (·.reconciled requested))).reporting
    (if versionableType ∈ requested ∧ versionableType ∉ node.mixins ∧
      policy.checkinOnNewVersionable then [.checkedOut (Path.ofNames address.reverse)] else [])

section Views

variable {progress : Progress} {policy : Policy} {address : Address} {node : Node}
  {requested : List String}

theorem node?_updated (stored : progress.session.tree.node? address = some node) :
    ((progress.updated policy address node requested).session.tree.node? address).map
      (·.mixins) = some (.ofList requested) := by
  simp only [updated, session_reporting, tree_withTree, Tree.node?_modify, ↓reduceIte,
    node?_unlocking, stored, Option.map_some]
  rfl

theorem mem_updated {other : Address} :
    other ∈ (progress.updated policy address node requested).session.tree ↔
      other ∈ progress.session.tree := by
  simp only [updated, session_reporting, tree_withTree, Tree.mem_modify, mem_unlocking]

/-- An update reports checkouts only. -/
theorem exists_changes_updated : ∃ checkouts : List String,
    (progress.updated policy address node requested).changes =
      progress.changes ++ checkouts.map .checkedOut := by
  refine ⟨((policy.unlocks? progress.session.tree address).toList.map fun lock =>
    Path.ofNames lock.reverse) ++ if versionableType ∈ requested ∧ versionableType ∉ node.mixins ∧
      policy.checkinOnNewVersionable then [Path.ofNames address.reverse] else [], ?_⟩
  simp only [updated, changes_reporting, changes_withTree, changes_unlocking, List.map_append,
    List.map_map, List.append_assoc, apply_ite (List.map Change.checkedOut), List.map_cons,
    List.map_nil]
  rfl

variable {names : List String} {descriptors : Descriptors}

theorem getLast?_changes_grown (absent : names.reverse ∉ progress.session.tree) :
    (progress.grown descriptors policy names).changes.getLast? =
      some (.created (Path.ofNames names)) := by
  have missing : progress.session.tree.missing names ≠ [] :=
    mt Tree.missing_eq_nil_iff.1 absent
  rw [grown, changes_reporting, List.getLast?_append, Work.getLast?_creations _ missing,
    Tree.deepest_append_missing, Option.some_or]

end Views

end Progress

namespace Work

/-- How creating or updating the node to which a list of names leads may end when it returns: its
answer and the progress after it. -/
inductive Settled (knows : String → Bool) (descriptors : Descriptors) (policy : Policy)
    (names : List String) (before : Progress) : Bool → Progress → Prop where
  | created (unknown : knows (Path.ofNames names) = false)
      (free : before.session.tree.obstacle? names = none) :
      Settled knows descriptors policy names before true (before.grown descriptors policy names)
  | kept (known : knows (Path.ofNames names))
      (nothing : descriptors.mixinTypes? (Path.ofNames names) = .ok none ∨
        names.reverse ∉ before.session.tree) :
      Settled knows descriptors policy names before false before
  | updated {node : Node} {requested : List String} (known : knows (Path.ofNames names))
      (stored : before.session.tree.node? names.reverse = some node)
      (wanted : descriptors.mixinTypes? (Path.ofNames names) = .ok (some requested)) :
      Settled knows descriptors policy names before false
        (before.updated policy names.reverse node requested)

variable {knows : String → Bool} {arrange : List String → List String} {descriptors : Descriptors}
  {policy : Policy} {names : List String} {progress later : Progress} {path : String}

/-- A creation that returns has grown the whole chain, with no property in its way. -/
theorem eq_of_runFrom_createKnowing {address : Address}
    (trusted : ∀ asked, knows asked → (progress.session.tree.item? asked).isSome)
    (proper : ∀ name ∈ names, Path.IsSegment name)
    (normalized : Path.normalize path = .ok (Path.ofNames names))
    (ran : (createKnowing knows (Checkout.ifNecessary.prepare policy) descriptors
      (some path)).runFrom progress = (.ok address, later)) :
    progress.session.tree.obstacle? names = none ∧
      later = progress.grown descriptors policy names := by
  cases obstacle : progress.session.tree.obstacle? names with
  | some name =>
      have crosses : progress.session.tree.CrossesProperty (some path) := by
        rw [Tree.crossesProperty_iff normalized, Path.segments_ofNames proper, obstacle]
        rfl
      rcases runFrom_createKnowing_of_crossesProperty .ifNecessary descriptors policy trusted
        crosses with ⟨named, after, failed | failed, -⟩
      · cases failed.symm.trans ran
      · cases failed.symm.trans ran
  | none =>
      refine ⟨rfl, ?_⟩
      have notObstructed : ¬((progress.session.tree.obstacle? names).isSome ∧
          knows (Path.ofNames (names.take (progress.session.tree.reach [] names + 1)))) := by
        simp [obstacle]
      have creates := runFrom_createMissing descriptors policy proper obstacle
      rw [runFrom_createKnowing trusted proper normalized, if_neg notObstructed] at ran
      cases refused : progress.session.tree.refusal? policy names with
      | some fault =>
          rw [refused] at creates
          cases creates.symm.trans ran
      | none =>
          rw [refused] at creates
          exact (congrArg Prod.snd (creates.symm.trans ran)).symm

/-- An update of a node that returns has given it the requested mixin types. -/
theorem eq_of_runFrom_reconcile_ifNecessary {node : Node} {requested : List String}
    (arranges : ∀ names, (arrange names).Perm names)
    (proper : ∀ name ∈ names, Path.IsSegment name)
    (stored : progress.session.tree.node? names.reverse = some node)
    (ran : (reconcileArranged arrange .ifNecessary policy names.reverse requested).runFrom
      progress = (.ok (), later)) :
    later = progress.updated policy names.reverse node requested := by
  have reversedProper : ∀ name ∈ names.reverse, Path.IsSegment name := by simpa using proper
  let lock := policy.unlocks? progress.session.tree names.reverse
  have prepares : (Checkout.ifNecessary.prepare policy names.reverse).runFrom progress =
      (.ok (), progress.unlocking lock) := runFrom_checkoutIfNecessary reversedProper
  have storedAfter : (progress.unlocking lock).session.tree.node? names.reverse =
      some (if lock = some names.reverse then { node with checkedOut := true } else node) := by
    rw [Progress.node?_unlocking, stored, Option.map_some]
  have sameMixins : (if lock = some names.reverse then { node with checkedOut := true }
      else node).mixins = node.mixins := by
    split <;> rfl
  rw [eq_of_runFrom_reconcileArranged arranges prepares storedAfter
    (Address.path_of_segments reversedProper) ran, sameMixins]
  rfl

/-- Creating or updating where an item is known only asks what mixin types it is to have, if it is a
node. -/
theorem runFrom_createOrUpdateKnowing_of_known (checkout : Checkout)
    (proper : ∀ name ∈ names, Path.IsSegment name)
    (normalized : Path.normalize path = .ok (Path.ofNames names))
    (known : knows (Path.ofNames names))
    (there : (progress.session.tree.item? (Path.ofNames names)).isSome) :
    (createOrUpdateKnowing knows arrange checkout descriptors policy (some path)).runFrom progress =
      match descriptors.mixinsAt? names.reverse,
        progress.session.tree.item? (Path.ofNames names) with
      | some requested, some (.node address) =>
          (do
            reconcileArranged arrange checkout policy address requested
            return false : Work Bool).runFrom progress
      | _, _ => (.ok false, progress) := by
  have absolute := Path.isAbsolute_of_normalize_eq_ok normalized
  rcases Option.isSome_iff_exists.1 there with ⟨item, found⟩
  simp only [createOrUpdateKnowing, runFrom_bind, Path.required_of_isAbsolute absolute,
    runFrom_liftExcept, normalized, known, ↓reduceIte,
    descriptors.mixinTypes?_eq_mixinsAt? proper, found]
  cases descriptors.mixinsAt? names.reverse with
  | none => rfl
  | some requested =>
      simp only [runFrom_bind, runFrom_get, runFrom_getItem (Path.isAbsolute_ofNames names) found]
      cases item with
      | node address => simp only [runFrom_bind]
      | property owner name => rfl

section Settling

variable {answer : Bool}

theorem settled_of_unknown
    (trusted : ∀ asked, knows asked → (progress.session.tree.item? asked).isSome)
    (proper : ∀ name ∈ names, Path.IsSegment name)
    (normalized : Path.normalize path = .ok (Path.ofNames names))
    (unknown : knows (Path.ofNames names) = false)
    (ran : (createOrUpdateKnowing knows arrange .ifNecessary descriptors policy
      (some path)).runFrom progress = (.ok answer, later)) :
    Settled knows descriptors policy names progress answer later := by
  rw [runFrom_createOrUpdateKnowing_of_unknown normalized unknown] at ran
  rcases created : (createKnowing knows (Checkout.ifNecessary.prepare policy) descriptors
    (some (Path.ofNames names))).runFrom progress with ⟨_ | address, after⟩
  · rw [created] at ran
    cases ran
  · rw [created] at ran
    cases ran
    rcases eq_of_runFrom_createKnowing trusted proper (Path.normalize_normalize normalized)
      created with ⟨free, rfl⟩
    exact .created unknown free

theorem settled_of_node {requested : List String} (arranges : ∀ names, (arrange names).Perm names)
    (proper : ∀ name ∈ names, Path.IsSegment name) (known : knows (Path.ofNames names))
    (present : names.reverse ∈ progress.session.tree)
    (wanted : descriptors.mixinTypes? (Path.ofNames names) = .ok (some requested))
    (ran : (do
      reconcileArranged arrange .ifNecessary policy names.reverse requested
      return false : Work Bool).runFrom progress = (.ok answer, later)) :
    Settled knows descriptors policy names progress answer later := by
  rcases Option.isSome_iff_exists.1 (Tree.node?_isSome_iff.2 present) with ⟨node, stored⟩
  rcases (runFrom_bind_eq_ok_iff _).1 ran with ⟨_, after, reconciled, returned⟩
  cases returned
  rw [eq_of_runFrom_reconcile_ifNecessary arranges proper stored reconciled]
  exact .updated known stored wanted

theorem settled_of_known (arranges : ∀ names, (arrange names).Perm names)
    (proper : ∀ name ∈ names, Path.IsSegment name)
    (normalized : Path.normalize path = .ok (Path.ofNames names))
    (known : knows (Path.ofNames names))
    (there : (progress.session.tree.item? (Path.ofNames names)).isSome)
    (ran : (createOrUpdateKnowing knows arrange .ifNecessary descriptors policy
      (some path)).runFrom progress = (.ok answer, later)) :
    Settled knows descriptors policy names progress answer later := by
  have asked := descriptors.mixinTypes?_eq_mixinsAt? proper
  rw [runFrom_createOrUpdateKnowing_of_known .ifNecessary proper normalized known there] at ran
  rcases Option.isSome_iff_exists.1 there with ⟨item, found⟩
  cases wanted : descriptors.mixinsAt? names.reverse with
  | none =>
      rw [wanted] at ran asked
      cases ran
      exact .kept known (.inl asked)
  | some requested =>
      rw [wanted, found] at ran
      rw [wanted] at asked
      rw [Tree.item?_ofNames proper] at found
      cases item with
      | property owner name =>
          cases ran
          refine .kept known (.inr ?_)
          intro present
          rw [Tree.itemAt?_of_mem present] at found
          cases found
      | node address =>
          rcases Tree.eq_of_itemAt?_eq_node found with ⟨rfl, present⟩
          exact settled_of_node arranges proper known present asked ran

/-- Creating or updating ends as it should whenever it returns. -/
theorem settled_of_runFrom_createOrUpdateKnowing (arranges : ∀ names, (arrange names).Perm names)
    (trusted : ∀ asked, knows asked → (progress.session.tree.item? asked).isSome)
    (proper : ∀ name ∈ names, Path.IsSegment name)
    (normalized : Path.normalize path = .ok (Path.ofNames names))
    (ran : (createOrUpdateKnowing knows arrange .ifNecessary descriptors policy
      (some path)).runFrom progress = (.ok answer, later)) :
    Settled knows descriptors policy names progress answer later := by
  cases known : knows (Path.ofNames names) with
  | false => exact settled_of_unknown trusted proper normalized known ran
  | true => exact settled_of_known arranges proper normalized known (trusted _ known) ran

end Settling

end Work

end ContentTree
