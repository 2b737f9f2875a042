import ContentTree.Proofs.Tree.Checkout

/-!
# The region of a versionable node

A versionable node decides about itself and about everything below it, down to the next versionable
nodes. This is its region: the addresses whose nearest versionable node it is. An address is in the
region exactly if it is the versionable node's own or lies below it with no other versionable node
in between (`nearestVersionable?_eq_some_iff`).

A change freezes the region of a node that is checked in if it leaves the node checked in, keeps the
types and the children of all nodes in the region, and so takes no address out of it
(`Freezes.of_types`). Changes of nodes outside the region do, and so does adding a child to one of
them.
-/

namespace ContentTree

/-- What makes a node versionable or not: its primary type and its mixin types. -/
def Node.types (node : Node) : String × NameSet :=
  (node.primaryType, node.mixins)

namespace Tree

variable {tree changed : Tree} {address versionable : Address}

theorem nearestVersionable?_eq_some_iff :
    tree.nearestVersionable? address = some versionable ↔
      versionable <:+ address ∧ tree.isVersionable versionable ∧
        ∀ between, versionable <:+ between → between <:+ address → tree.isVersionable between →
          between = versionable := by
  constructor
  · intro nearest
    refine ⟨suffix_of_nearestVersionable? nearest, isVersionable_of_nearestVersionable? nearest, ?_⟩
    intro between below above isVersionable
    induction address with
    | nil =>
        rw [List.suffix_nil.1 above] at below ⊢
        exact (List.suffix_nil.1 below).symm
    | cons name higher ih =>
        by_cases atOnce : tree.isVersionable (name :: higher)
        · rw [nearestVersionable?_of_isVersionable atOnce, Option.some.injEq] at nearest
          subst nearest
          exact above.eq_of_length_le below.length_le
        · rw [nearestVersionable?_cons atOnce] at nearest
          rcases List.suffix_cons_iff.1 above with rfl | further
          · exact absurd isVersionable atOnce
          · exact ih nearest further
  · rintro ⟨suffix, isVersionable, alone⟩
    induction address with
    | nil =>
        rw [List.suffix_nil.1 suffix] at isVersionable ⊢
        exact nearestVersionable?_of_isVersionable isVersionable
    | cons name higher ih =>
        by_cases atOnce : tree.isVersionable (name :: higher)
        · rw [nearestVersionable?_of_isVersionable atOnce,
            alone _ suffix (List.suffix_refl _) atOnce]
        · rw [nearestVersionable?_cons atOnce]
          rcases List.suffix_cons_iff.1 suffix with rfl | further
          · exact absurd isVersionable atOnce
          · apply ih further
            intro between below above
            exact alone between below (above.trans (List.suffix_cons name higher))

/-- Inside a region the versionable node decides about everything on the way down. -/
theorem nearestVersionable?_of_between {between : Address}
    (nearest : tree.nearestVersionable? address = some versionable)
    (below : versionable <:+ between) (above : between <:+ address) :
    tree.nearestVersionable? between = some versionable := by
  rcases nearestVersionable?_eq_some_iff.1 nearest with ⟨-, isVersionable, alone⟩
  refine nearestVersionable?_eq_some_iff.2 ⟨below, isVersionable, ?_⟩
  intro other otherBelow otherAbove
  exact alone other otherBelow (otherAbove.trans above)

theorem isCheckedOut_of_nearestVersionable?
    (nearest : tree.nearestVersionable? address = some versionable) :
    tree.isCheckedOut address = tree.isCheckedOut versionable := by
  have isVersionable := isVersionable_of_nearestVersionable? nearest
  rw [isCheckedOut_eq_all, nearest, Option.all_some, isCheckedOut_of_isVersionable isVersionable]

theorem isVersionable_congr_types {other : Tree}
    (same : (tree.node? address).map Node.types = (other.node? address).map Node.types) :
    tree.isVersionable address = other.isVersionable address := by
  have readOff : ∀ tree : Tree, tree.isVersionable address =
      ((tree.node? address).map Node.types).any fun types =>
        versionableType = types.1 || versionableType ∈ types.2 := by
    intro tree
    rw [isVersionable, Option.any_map]
    rfl
  rw [readOff, readOff, same]

/-! ### Freezing -/

/-- A versionable node is checked in after a change, and the change has left its region as it
was. -/
structure Freezes (versionable : Address) (before after : Tree) : Prop where
  isVersionable : after.isVersionable versionable
  checkedIn : after.isCheckedOut versionable = false
  nearest : ∀ address, before.nearestVersionable? address = some versionable →
    after.nearestVersionable? address = some versionable
  types : ∀ address, before.nearestVersionable? address = some versionable →
    (after.node? address).map Node.types = (before.node? address).map Node.types
  childNames : ∀ address, before.nearestVersionable? address = some versionable →
    after.childNames address = before.childNames address

theorem Freezes.refl (isVersionable : tree.isVersionable versionable)
    (checkedIn : tree.isCheckedOut versionable = false) : tree.Freezes versionable tree where
  isVersionable := isVersionable
  checkedIn := checkedIn
  nearest _ inRegion := inRegion
  types _ _ := rfl
  childNames _ _ := rfl

theorem Freezes.trans {last : Tree} (first : tree.Freezes versionable changed)
    (second : changed.Freezes versionable last) : tree.Freezes versionable last where
  isVersionable := second.isVersionable
  checkedIn := second.checkedIn
  nearest address inRegion := second.nearest address (first.nearest address inRegion)
  types address inRegion :=
    (second.types address (first.nearest address inRegion)).trans (first.types address inRegion)
  childNames address inRegion :=
    (second.childNames address (first.nearest address inRegion)).trans
      (first.childNames address inRegion)

/-- A change that keeps types and children in the region keeps the region itself. -/
theorem Freezes.of_types (isVersionable : tree.isVersionable versionable)
    (unflagged : changed.isFlagged versionable = false)
    (types : ∀ address, tree.nearestVersionable? address = some versionable →
      (changed.node? address).map Node.types = (tree.node? address).map Node.types)
    (childNames : ∀ address, tree.nearestVersionable? address = some versionable →
      changed.childNames address = tree.childNames address) :
    tree.Freezes versionable changed := by
  have stillVersionable : changed.isVersionable versionable := by
    rwa [isVersionable_congr_types
      (types versionable (nearestVersionable?_of_isVersionable isVersionable))]
  refine ⟨stillVersionable, ?_, ?_, types, childNames⟩
  · rwa [isCheckedOut_of_isVersionable stillVersionable]
  · intro address inRegion
    rcases nearestVersionable?_eq_some_iff.1 inRegion with ⟨suffix, -, alone⟩
    refine nearestVersionable?_eq_some_iff.2 ⟨suffix, stillVersionable, ?_⟩
    intro between below above betweenVersionable
    have betweenInRegion := nearestVersionable?_of_between inRegion below above
    rw [isVersionable_congr_types (types between betweenInRegion)] at betweenVersionable
    exact alone between below above betweenVersionable

/-- A node that may be changed is not in the region of one that is checked in. -/
theorem ne_of_isCheckedOut (checkedIn : tree.isCheckedOut versionable = false)
    (isOpen : tree.isCheckedOut address) {other : Address}
    (inRegion : tree.nearestVersionable? other = some versionable) : other ≠ address := by
  rintro rfl
  rw [isCheckedOut_of_nearestVersionable? inRegion, checkedIn] at isOpen
  cases isOpen

section Changes

variable (isVersionable : tree.isVersionable versionable)
  (checkedIn : tree.isCheckedOut versionable = false)
include isVersionable checkedIn

theorem isFlagged_of_checkedIn : tree.isFlagged versionable = false := by
  rwa [← isCheckedOut_of_isVersionable isVersionable]

theorem freezes_modify {change : Node → Node}
    (typesKept : tree.nearestVersionable? address = some versionable →
      ∀ node, (change node).types = node.types)
    (flagKept : address = versionable →
      ∀ node, node.checkedOut = false → (change node).checkedOut = false) :
    tree.Freezes versionable (tree.modify address change) := by
  apply Freezes.of_types isVersionable
  · have unflagged := isFlagged_of_checkedIn isVersionable checkedIn
    rw [isFlagged] at unflagged ⊢
    rw [node?_modify]
    split
    case isFalse => exact unflagged
    case isTrue same =>
      cases stored : tree.node? versionable with
      | none => simp [stored] at unflagged
      | some node =>
          rw [stored, Option.all_some] at unflagged
          exact flagKept same.symm node unflagged
  · intro other inRegion
    rw [node?_modify]
    split
    case isFalse => rfl
    case isTrue same =>
      rw [Option.map_map]
      apply Option.map_congr
      intro node _
      exact typesKept (same ▸ inRegion) node
  · intro other _
    exact childNames_modify tree address other change

theorem freezes_insertChild (present : address ∈ tree) {name : String}
    (absent : name :: address ∉ tree) (isOpen : tree.isCheckedOut address) (node : Node) :
    tree.Freezes versionable (tree.insertChild address present name node) := by
  have parentOutside : ∀ other, tree.nearestVersionable? other = some versionable →
      other ≠ address := fun _ => ne_of_isCheckedOut checkedIn isOpen
  -- The new address is not in the region either: its parent would be, or it would be a node.
  have childOutside : ∀ other, tree.nearestVersionable? other = some versionable →
      other ≠ name :: address := by
    rintro _ inRegion rfl
    have plain : ¬tree.isVersionable (name :: address) :=
      fun isVersionable => absent (mem_of_isVersionable isVersionable)
    rw [nearestVersionable?_cons plain] at inRegion
    exact parentOutside address inRegion rfl
  have sameNode : ∀ other, tree.nearestVersionable? other = some versionable →
      (tree.insertChild address present name node).node? other = tree.node? other := by
    intro other inRegion
    rw [node?_insertChild, if_neg (childOutside other inRegion)]
  apply Freezes.of_types isVersionable
  · have inRegion := nearestVersionable?_of_isVersionable isVersionable
    rw [isFlagged_congr (sameNode versionable inRegion)]
    exact isFlagged_of_checkedIn isVersionable checkedIn
  · intro other inRegion
    rw [sameNode other inRegion]
  · intro other inRegion
    rw [childNames_insertChild tree present absent, if_neg (parentOutside other inRegion)]

end Changes

end Tree

end ContentTree
