import ContentTree.Proofs.Request.Outcome
import ContentTree.Proofs.Session.Reachable

/-!
# The mixin types of the nodes of a tree

A request leaves the mixin types of most nodes alone. Taking a lock off changes none
(`Progress.Prepares`), a creation only gives some to the nodes it adds (`mixins?_grown`), and a
reconciliation changes those of one node, whose types are the requested ones afterwards
(`mixins?_reconciling`).
-/

namespace ContentTree

namespace Tree

variable {tree : Tree} {address lock other : Address} {node : Node} {policy : Policy}
  {names : List String}

/-- The mixin types of a node. -/
def mixins? (tree : Tree) (address : Address) : Option NameSet :=
  (tree.node? address).map (·.mixins)

theorem mixins?_of_node? (stored : tree.node? address = some node) :
    tree.mixins? address = some node.mixins := by
  rw [mixins?, stored, Option.map_some]

theorem mixins?_isSome_iff : (tree.mixins? address).isSome ↔ address ∈ tree := by
  rw [mixins?, Option.isSome_map, node?_isSome_iff]

theorem mixins?_unlock : (tree.unlock lock).mixins? other = tree.mixins? other := by
  simp only [mixins?, node?_unlock]
  split
  · rw [Option.map_map]
    rfl
  · rfl

theorem mixins?_modify_reconciled {requested : List String} (present : address ∈ tree) :
    (tree.modify address (·.reconciled requested)).mixins? other =
      if other = address then some (.ofList requested) else tree.mixins? other := by
  simp only [mixins?, node?_modify]
  split
  case isTrue isTarget =>
    subst isTarget
    rcases Option.isSome_iff_exists.1 (node?_isSome_iff.2 present) with ⟨node, stored⟩
    rw [stored]
    rfl
  case isFalse => rfl

theorem mem_of_opened? (unlocked : tree.opened? policy names = some lock) :
    lock ∈ tree ∧ lock <:+ names.reverse := by
  rw [opened?, Option.ite_none_left_eq_some] at unlocked
  rcases Policy.mem_of_unlocks? unlocked.2 with ⟨present, suffix⟩
  refine ⟨present, suffix.trans ?_⟩
  rw [← missing_reverse_append_deepest tree names]
  exact List.suffix_append _ _

end Tree

namespace Progress

/-- What prepared progress becomes when a node gets the requested mixin types. -/
def reconciling (prepared : Progress) (policy : Policy) (address : Address) (path : String)
    (node : Node) (requested : List String) : Progress :=
  (prepared.withTree (prepared.session.tree.modify address (·.reconciled requested))).reporting
    (if versionableType ∈ requested ∧ versionableType ∉ node.mixins ∧
      policy.checkinOnNewVersionable then [.checkedOut path] else [])

variable {before prepared progress : Progress} {policy : Policy} {address other : Address}
  {node : Node} {requested : List String} {descriptors : Descriptors} {names : List String}

theorem Prepares.mixins? (prepares : before.Prepares prepared) (address : Address) :
    prepared.session.tree.mixins? address = before.session.tree.mixins? address := by
  cases prepares with
  | nothing => rfl
  | unlock lock path => exact Tree.mixins?_unlock

theorem prepares_unlocking (lock : Option Address) :
    progress.Prepares (progress.unlocking lock) := by
  cases lock with
  | none => exact .nothing
  | some lock => exact .unlock lock _

theorem updated_eq_reconciling : progress.updated policy address node requested =
    (progress.unlocking (policy.unlocks? progress.session.tree address)).reconciling policy address
      (Path.ofNames address.reverse) node requested :=
  rfl

theorem mixins?_reconciling {path : String} (present : address ∈ prepared.session.tree) :
    (prepared.reconciling policy address path node requested).session.tree.mixins? other =
      if other = address then some (.ofList requested) else prepared.session.tree.mixins? other :=
  Tree.mixins?_modify_reconciled present

/-- A creation leaves the mixin types of the nodes that are there alone. -/
theorem mixins?_grown (present : address ∈ progress.session.tree) :
    (progress.grown descriptors policy names).session.tree.mixins? address =
      progress.session.tree.mixins? address := by
  rw [Tree.mixins?, node?_grown_of_mem descriptors policy names present, ← Tree.mixins?,
    (prepares_unlocking _).mixins?]

end Progress

namespace Work

variable {before after : Progress} {policy : Policy} {address : Address}
  {arrange : List String → List String} {requested : List String}

/-- In a reachable session a reconciliation that returns has given the node the requested mixin
types. -/
theorem exists_reconciling (reachable : before.session.Reachable)
    (present : address ∈ before.session.tree) (arranges : ∀ names, (arrange names).Perm names)
    (ran : (reconcileArranged arrange .ifNecessary policy address requested).runFrom before =
      (.ok (), after)) :
    ∃ prepared path node, before.Prepares prepared ∧ Address.path address = .ok path ∧
      before.session.tree.mixins? address = some node.mixins ∧
      (prepared.changes = before.changes ↔ policy.unlocks? before.session.tree address = none) ∧
      after = prepared.reconciling policy address path node requested := by
  rcases Session.Reachable.exists_prepares before reachable policy address with
    ⟨prepared, prepareRan, prepares, -, silentIff⟩
  rcases reachable.exists_path present with ⟨path, named⟩
  have isThere : address ∈ prepared.session.tree := prepares.mem_iff.2 present
  rcases Option.isSome_iff_exists.1 (Tree.node?_isSome_iff.2 isThere) with ⟨node, stored⟩
  have sameMixins := prepares.mixins? address
  rw [Tree.mixins?_of_node? stored] at sameMixins
  exact ⟨prepared, path, node, prepares, named, sameMixins.symm, silentIff,
    eq_of_runFrom_reconcileArranged arranges prepareRan stored named ran⟩

end Work

end ContentTree
