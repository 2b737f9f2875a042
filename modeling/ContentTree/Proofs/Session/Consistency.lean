import ContentTree.Proofs.Session.Reachable
import ContentTree.Proofs.Tree.Items

/-!
# What holds of every tree

Whatever is done to a fresh session, with whatever names and types, three facts hold of its tree
(`Tree.Consistent`). No name is both that of a child and that of a property of one node: adding a
child and setting a property each look for the other. A node that is not versionable has its own
checkout flag set: only a versionable node is ever checked in, and it cannot stop being versionable
until it is checked out again. And every node has a path, which is a normal one: the path of a new
node is resolved before the node is added.
-/

namespace ContentTree

/-- The path of a node is its own normal form. -/
theorem Address.normalize_path {address : Address} {path : String}
    (named : Address.path address = .ok path) : Path.normalize path = .ok path := by
  cases address with
  | nil =>
      cases named
      exact Path.normalize_ofNames (List.forall_mem_nil Path.IsSegment)
  | cons name above =>
      rcases bind_eq_ok_iff.1 named with ⟨base, -, joined⟩
      exact Path.normalize_normalize joined

/-- What every tree satisfies that edits lead to from a fresh one. -/
structure Tree.Consistent (tree : Tree) : Prop where
  disjoint : ∀ owner name, name :: owner ∈ tree → tree.property? owner name = none
  flagged : ∀ address node, tree.node? address = some node → node.isVersionable = false →
    node.checkedOut = true
  named : ∀ address ∈ tree, ∃ path, Address.path address = .ok path ∧
    Path.normalize path = .ok path

namespace Tree

variable {tree changed : Tree} {address owner : Address} {name : String} {node : Node}

theorem consistent_fresh : fresh.Consistent where
  disjoint owner name member := by
    simp [fresh, Table.ofList, ← mem_nodes] at member
  flagged address node stored _ := by
    simp only [node?, fresh, Table.ofList, List.foldl_cons, List.foldl_nil, Table.get?_insert,
      Table.get?_empty] at stored
    split at stored
    · cases stored
      rfl
    · cases stored
  named address member := by
    have isRoot : address = [] := by
      simpa [fresh, Table.ofList, ← mem_nodes] using member
    subst isRoot
    have isPath : Address.path [] = .ok Path.root := rfl
    exact ⟨Path.root, isPath, Address.normalize_path isPath⟩

namespace Consistent

/-- A change of a node keeps a tree consistent if it gives the node no property with the name of a
child and leaves its flag set unless it is versionable. -/
theorem modify (consistent : tree.Consistent) {change : Node → Node}
    (properties : ∀ node, tree.node? address = some node → ∀ name, name :: address ∈ tree →
      (change node).properties.get? name = node.properties.get? name)
    (flag : ∀ node, tree.node? address = some node → (change node).isVersionable = false →
      (change node).checkedOut = true) : (tree.modify address change).Consistent where
  disjoint owner name member := by
    have childThere := mem_modify.1 member
    have free := consistent.disjoint owner name childThere
    rw [property?_modify]
    split
    case isFalse => exact free
    case isTrue isOwner =>
      subst isOwner
      have ownerThere := mem_of_cons_mem childThere
      rcases Option.isSome_iff_exists.1 (node?_isSome_iff.2 ownerThere) with ⟨node, stored⟩
      rw [stored, Option.bind_some, properties node stored name childThere,
        ← property?_of_node? stored, free]
  flagged other node stored plain := by
    rw [node?_modify] at stored
    split at stored
    case isTrue same =>
      subst same
      rcases Option.map_eq_some_iff.1 stored with ⟨before, storedBefore, rfl⟩
      exact flag before storedBefore plain
    case isFalse => exact consistent.flagged other node stored plain
  named other member := consistent.named other (mem_modify.1 member)

/-- A new node without properties keeps a tree consistent if it has a name of its own, a path, and
its flag set. -/
theorem insertChild (consistent : tree.Consistent) (present : owner ∈ tree)
    (absent : name :: owner ∉ tree) (free : tree.property? owner name = none)
    (named : ∃ path, Address.path (name :: owner) = .ok path) (bare : node.properties = ∅)
    (flag : node.checkedOut = true) :
    (tree.insertChild owner present name node).Consistent where
  disjoint other asked member := by
    rw [property?_insertChild]
    split
    case isTrue => rw [bare, Table.get?_empty]
    case isFalse =>
      rcases mem_insertChild.1 member with same | old
      · rcases List.cons.inj same with ⟨rfl, rfl⟩
        exact free
      · exact consistent.disjoint other asked old
  flagged other found stored plain := by
    rw [node?_insertChild] at stored
    split at stored
    · cases stored
      exact flag
    · exact consistent.flagged other found stored plain
  named other member := by
    rcases mem_insertChild.1 member with rfl | old
    · rcases named with ⟨path, isPath⟩
      exact ⟨path, isPath, Address.normalize_path isPath⟩
    · exact consistent.named other old

/-- An edit that is not refused keeps a tree consistent. -/
theorem apply (consistent : tree.Consistent) {change : Edit} {defaultType : String}
    (applied : change.apply tree address defaultType = .ok changed) : changed.Consistent := by
  cases change with
  | addNode name type =>
      rcases addNode_eq_ok applied with ⟨present, named, absent, free, -, rfl⟩
      exact consistent.insertChild present absent free named rfl rfl
  | addMixin mixin =>
      rcases addMixin_eq_ok applied with ⟨-, -, rfl⟩
      refine consistent.modify (fun _ _ _ _ => rfl) ?_
      intro node stored plain
      have wasPlain : node.isVersionable = false := by
        simp only [Node.isVersionable, Node.hasType, Bool.or_eq_false_iff, decide_eq_false_iff_not,
          NameSet.mem_insert, not_or] at plain ⊢
        exact ⟨plain.1, plain.2.2⟩
      simp [consistent.flagged address node stored wasPlain]
  | removeMixin mixin =>
      rcases removeMixin_eq_ok applied with ⟨-, isOpen, rfl⟩
      refine consistent.modify (fun _ _ _ _ => rfl) ?_
      intro node stored _
      -- A node that was versionable may only be changed because its own flag is set.
      cases wasVersionable : node.isVersionable with
      | false => exact consistent.flagged address node stored wasVersionable
      | true =>
          have isVersionable := (isVersionable_of_node? stored).trans wasVersionable
          rwa [isCheckedOut_of_isVersionable isVersionable, isFlagged_of_node? stored] at isOpen
  | checkout =>
      rcases setCheckedOut_eq_ok applied with ⟨-, rfl⟩
      exact consistent.modify (fun _ _ _ _ => rfl) fun _ _ _ => rfl
  | checkin =>
      rcases setCheckedOut_eq_ok applied with ⟨isVersionable, rfl⟩
      refine consistent.modify (fun _ _ _ _ => rfl) ?_
      intro node stored plain
      rw [isVersionable_of_node? stored] at isVersionable
      exact absurd isVersionable (Bool.eq_false_iff.1 plain)
  | setProperty name values =>
      rcases setProperty_eq_ok applied with ⟨-, absent, rfl⟩
      refine consistent.modify ?_ (consistent.flagged address)
      intro node _ other childThere
      apply Table.get?_insert_of_ne
      rintro rfl
      exact absent childThere

end Consistent

end Tree

namespace Session

theorem consistent_of_leads {allowed : Tree → Address → Edit → Prop} {session last : Session}
    (consistent : session.tree.Consistent) (leads : session.Leads allowed last) :
    last.tree.Consistent := by
  induction leads with
  | refl => exact consistent
  | edit _ _ applied ih => exact ih.apply applied

/-- The tree is consistent after any steps that are performed on a fresh session, and after any
other edits of it. -/
theorem consistent_performAll (defaultType : String) (stale : List String) :
    (∀ steps : List Step, (performAll { defaultType, stale } steps).2.tree.Consistent) ∧
    ∀ last, Leads anyEdit { defaultType, stale } last → last.tree.Consistent := by
  constructor
  · intro steps
    have leads : Leads anyEdit { defaultType, stale } (performAll { defaultType, stale } steps).2 :=
      leads_performAll fun _ _ _ _ _ _ => trivial
    exact consistent_of_leads Tree.consistent_fresh leads
  · intro last
    exact consistent_of_leads Tree.consistent_fresh

theorem consistent_performAll_slash :
    let last := (performAll { defaultType := versionableType, stale := ["/a/b"] }
      [.edit [] (.addNode "a/b" none), .edit ["a/b"] (.addNode ".." (some "nt:folder")),
        .edit ["a/b"] (.setProperty ".." ["x"]), .edit ["a/b"] .checkin,
        .edit [] (.addMixin versionableType), .edit [] .checkin,
        .edit [] (.removeMixin versionableType),
        .create { target := some "/a/b", parameters := ∅, policy := { autoCheckout := true } }]).2
    last.tree.Consistent ∧ Address.path ["..", "a/b"] = .ok "/a" ∧ ["..", "a/b"] ∈ last.tree ∧
      last.tree.isFlagged ["a/b"] = false := by
  intro last
  have leads : Leads anyEdit { defaultType := versionableType, stale := ["/a/b"] } last :=
    leads_performAll fun _ _ _ _ _ _ => trivial
  exact ⟨(consistent_performAll versionableType ["/a/b"]).2 last leads, by decide +kernel,
    by decide +kernel, by decide +kernel⟩

end Session

end ContentTree
