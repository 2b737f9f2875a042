import ContentTree.Proofs.Outcomes
import ContentTree.Proofs.Tree.Checkout

/-!
# What an edit has done

An edit that was not refused found what it requires and has changed the tree as it should. The
lemmas of this module say so for each of the edits, and for the way to the node that an edit is
about, so that none of them has to be taken apart again.
-/

namespace ContentTree

namespace Tree

variable {tree changed : Tree} {address : Address} {name mixin : String}

theorem node?_of_node {node : Node} (found : tree.node address = .ok node) :
    tree.node? address = some node := by
  unfold Tree.node at found
  cases stored : tree.node? address with
  | some other =>
      simp only [stored, Except.ok.injEq] at found
      rw [found]
  | none =>
      simp only [stored, bind_eq_ok_iff] at found
      rcases found with ⟨path, -, thrown⟩
      exact absurd thrown throw_ne_ok

theorem isCheckedOut_of_requireCheckedOut {result : Unit}
    (required : tree.requireCheckedOut address = .ok result) : tree.isCheckedOut address := by
  cases isOpen : tree.isCheckedOut address with
  | true => rfl
  | false =>
      simp only [requireCheckedOut, isOpen, Bool.false_eq_true, ↓reduceIte, bind_eq_ok_iff]
        at required
      rcases required with ⟨path, -, thrown⟩
      exact absurd thrown throw_ne_ok

theorem child_eq_ok {child : Address} (found : tree.child address name = .ok child) :
    child = name :: address := by
  unfold Tree.child at found
  split at found
  case isTrue => exact (Except.ok.inj found).symm
  case isFalse =>
    simp only [bind_eq_ok_iff] at found
    rcases found with ⟨above, -, path, -, thrown⟩
    exact absurd thrown throw_ne_ok

theorem foldlM_child_eq_ok {names : List String} {above : Address}
    (found : names.foldlM tree.child above = .ok address) : address = names.reverse ++ above := by
  induction names generalizing above with
  | nil => exact (Except.ok.inj found).symm
  | cons name rest ih =>
      rw [List.foldlM_cons, bind_eq_ok_iff] at found
      rcases found with ⟨child, step, found⟩
      rw [ih found, child_eq_ok step, List.reverse_cons, List.append_assoc]
      rfl

theorem locate_eq_ok {names : List String} (found : tree.locate names = .ok address) :
    address = names.reverse := by
  simpa using foldlM_child_eq_ok found

theorem addNode_eq_ok {type : Option String} {defaultType : String}
    (added : tree.addNode address name type defaultType = .ok changed) :
    ∃ present : address ∈ tree, (∃ path, Address.path (name :: address) = .ok path) ∧
      name :: address ∉ tree ∧ tree.property? address name = none ∧ tree.isCheckedOut address ∧
      changed = tree.insertChild address present name
        { primaryType := (type.filter (· ≠ "")).getD defaultType } := by
  unfold addNode at added
  split at added
  case isFalse =>
    rcases bind_eq_ok_iff.1 added with ⟨path, -, thrown⟩
    exact absurd thrown throw_ne_ok
  case isTrue present =>
    simp only [bind_eq_ok_iff] at added
    rcases added with ⟨above, abovePath, path, joined, added⟩
    split at added
    case isTrue =>
      rcases bind_eq_ok_iff.1 added with ⟨_, thrown, -⟩
      exact absurd thrown throw_ne_ok
    case isFalse free =>
      rcases bind_eq_ok_iff.1 added with ⟨_, required, result⟩
      rcases not_or.1 free with ⟨absent, noProperty⟩
      refine ⟨present, ⟨path, ?_⟩, absent, Option.not_isSome_iff_eq_none.1 noProperty,
        isCheckedOut_of_requireCheckedOut required, (Except.ok.inj result).symm⟩
      rw [Address.path, abovePath]
      exact joined

theorem addMixin_eq_ok (added : tree.addMixin address mixin = .ok changed) :
    address ∈ tree ∧ tree.isCheckedOut address ∧ changed = tree.modify address fun node =>
      { node with
        mixins := node.mixins.insert mixin
        checkedOut := node.checkedOut || mixin = versionableType } := by
  simp only [addMixin, bind_eq_ok_iff] at added
  rcases added with ⟨node, found, _, required, result⟩
  have stored := node?_of_node found
  refine ⟨node?_isSome_iff.1 (Option.isSome_of_eq_some stored),
    isCheckedOut_of_requireCheckedOut required, ?_⟩
  cases result
  rfl

theorem removeMixin_eq_ok (removed : tree.removeMixin address mixin = .ok changed) :
    (∃ node, tree.node? address = some node ∧ mixin ∈ node.mixins) ∧ tree.isCheckedOut address ∧
      changed =
        tree.modify address fun node => { node with mixins := node.mixins.erase mixin } := by
  simp only [removeMixin, bind_eq_ok_iff] at removed
  rcases removed with ⟨node, found, removed⟩
  split at removed
  case isTrue assigned =>
    rcases bind_eq_ok_iff.1 removed with ⟨_, required, result⟩
    exact ⟨⟨node, node?_of_node found, assigned⟩, isCheckedOut_of_requireCheckedOut required,
      (Except.ok.inj result).symm⟩
  case isFalse =>
    rcases bind_eq_ok_iff.1 removed with ⟨path, -, thrown⟩
    rcases bind_eq_ok_iff.1 thrown with ⟨_, thrown, -⟩
    exact absurd thrown throw_ne_ok

theorem setCheckedOut_eq_ok {flag : Bool}
    (done : tree.setCheckedOut address flag = .ok changed) :
    tree.isVersionable address ∧
      changed = tree.modify address fun node => { node with checkedOut := flag } := by
  simp only [setCheckedOut, bind_eq_ok_iff] at done
  rcases done with ⟨node, found, done⟩
  split at done
  case isTrue versionable =>
    refine ⟨?_, (Except.ok.inj done).symm⟩
    rwa [Tree.isVersionable, node?_of_node found, Option.any_some]
  case isFalse =>
    rcases bind_eq_ok_iff.1 done with ⟨path, -, thrown⟩
    rcases bind_eq_ok_iff.1 thrown with ⟨_, thrown, -⟩
    exact absurd thrown throw_ne_ok

theorem setProperty_eq_ok {values : List String}
    (done : tree.setProperty address name values = .ok changed) :
    address ∈ tree ∧ name :: address ∉ tree ∧ changed = tree.modify address fun node =>
      { node with properties := node.properties.insert name values } := by
  simp only [setProperty, bind_eq_ok_iff] at done
  rcases done with ⟨node, found, done⟩
  have present := node?_isSome_iff.1 (Option.isSome_of_eq_some (node?_of_node found))
  split at done
  case isTrue =>
    rcases bind_eq_ok_iff.1 done with ⟨above, -, thrown⟩
    rcases bind_eq_ok_iff.1 thrown with ⟨path, -, thrown⟩
    rcases bind_eq_ok_iff.1 thrown with ⟨_, thrown, -⟩
    exact absurd thrown throw_ne_ok
  case isFalse absent => exact ⟨present, absent, (Except.ok.inj done).symm⟩

end Tree

end ContentTree
