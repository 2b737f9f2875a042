import ContentTree.Proofs.Session.Consistency

/-!
# Paths identify items

As long as nodes and properties are only given names that a path can lead through, every item of a
session is found at its own path, no two items have the same path, and whatever is found at a path
has this path but for separators that are repeated or stand at its end
(`Session.PathsIdentify`). Only edits of single nodes can give other names, because all that a
request adds is named by segments of its path.

The path of such an item consists of the very names that lead to it. Hence the way that a look-up
takes down along the path is the way to the item, and since trees are consistent, nothing else
stands at its end.
-/

namespace ContentTree

/-- The name that an edit gives to a node or a property. -/
def Edit.itemName? : Edit → Option String
  | .addNode name _ | .setProperty name _ => some name
  | .addMixin _ | .removeMixin _ | .checkout | .checkin => none

/-- An edit that gives no other names than segments of paths. -/
def Edit.NamesSegments (change : Edit) : Prop :=
  ∀ name ∈ change.itemName?, Path.IsSegment name

/-- A step that gives no other names than segments of paths, as far as the choice is its own. -/
def Step.NamesSegments : Step → Prop
  | .edit _ change => change.NamesSegments
  | .query _ | .checkoutIfNecessary .. | .reconcile .. | .create _ | .createOrUpdate _
  | .request .. => True

theorem Policy.namesSegments_of_allows (policy : Policy) (tree : Tree) (address : Address)
    {change : Edit} (isAllowed : policy.Allows tree address change) : change.NamesSegments := by
  cases change with
  | addNode name type =>
      rintro _ ⟨⟩
      exact isAllowed
  | setProperty => exact absurd isAllowed id
  | addMixin | removeMixin | checkout | checkin => exact nofun

theorem Step.namesSegments_of_allows {step : Step} (names : step.NamesSegments) {tree : Tree}
    {address : Address} {change : Edit} (isAllowed : step.Allows tree address change) :
    change.NamesSegments := by
  cases step with
  | query => exact absurd isAllowed id
  | edit place made =>
      rcases isAllowed with ⟨-, rfl⟩
      exact names
  | checkoutIfNecessary | reconcile | create | createOrUpdate | request =>
      exact Policy.namesSegments_of_allows _ tree address isAllowed

namespace Tree

variable {tree changed : Tree} {address : Address} {item : Item}

/-- All items of a tree have names that a path can lead through. -/
def SegmentNamed (tree : Tree) : Prop :=
  ∀ item, tree.HasItem item → ∀ name ∈ item.address, Path.IsSegment name

theorem segmentNamed_fresh : fresh.SegmentNamed := by
  rintro (address | ⟨owner, name⟩) present other otherMem
  · have isRoot : address = [] := by
      simpa [HasItem, fresh, Table.ofList, ← mem_nodes] using present
    subst isRoot
    exact absurd otherMem List.not_mem_nil
  · have noProperties : fresh.property? owner name = none := by
      simp only [property?, node?, fresh, Table.ofList, List.foldl_cons, List.foldl_nil,
        Table.get?_insert, Table.get?_empty]
      split <;> rfl
    rw [HasItem, noProperties] at present
    cases present

theorem hasItem_of_modify {change : Node → Node}
    (present : (tree.modify address change).HasItem item)
    (kept : ∀ node, (change node).properties = node.properties) : tree.HasItem item := by
  cases item with
  | node => exact mem_modify.1 present
  | property owner name => rwa [HasItem, property?_modify_of_properties kept] at present

/-- An item that is there after an edit was there before or is the one that the edit has named. -/
theorem hasItem_of_apply {change : Edit} {defaultType : String}
    (applied : change.apply tree address defaultType = .ok changed)
    (present : changed.HasItem item) :
    tree.HasItem item ∨
      ∃ name ∈ change.itemName?, item.address = name :: address ∧ address ∈ tree := by
  cases change with
  | addNode name type =>
      rcases addNode_eq_ok applied with ⟨parentThere, -, -, -, -, rfl⟩
      cases item with
      | node other =>
          rcases mem_insertChild.1 present with rfl | old
          · exact .inr ⟨name, rfl, rfl, parentThere⟩
          · exact .inl old
      | property owner asked =>
          left
          rw [HasItem, property?_insertChild] at present
          split at present
          · cases present
          · exact present
  | addMixin mixin =>
      rcases addMixin_eq_ok applied with ⟨-, -, rfl⟩
      exact .inl (hasItem_of_modify present fun _ => rfl)
  | removeMixin mixin =>
      rcases removeMixin_eq_ok applied with ⟨-, -, rfl⟩
      exact .inl (hasItem_of_modify present fun _ => rfl)
  | checkout =>
      rcases setCheckedOut_eq_ok applied with ⟨-, rfl⟩
      exact .inl (hasItem_of_modify present fun _ => rfl)
  | checkin =>
      rcases setCheckedOut_eq_ok applied with ⟨-, rfl⟩
      exact .inl (hasItem_of_modify present fun _ => rfl)
  | setProperty name values =>
      rcases setProperty_eq_ok applied with ⟨ownerThere, -, rfl⟩
      cases item with
      | node other => exact .inl (mem_modify.1 present)
      | property owner asked =>
          by_cases isNamed : owner = address ∧ asked = name
          · rcases isNamed with ⟨rfl, rfl⟩
            exact .inr ⟨asked, rfl, rfl, ownerThere⟩
          · left
            rw [HasItem, property?_modify] at present
            split at present
            case isFalse => exact present
            case isTrue isOwner =>
              have otherName : asked ≠ name := fun same => isNamed ⟨isOwner, same⟩
              simp only [Table.get?_insert_of_ne _ otherName] at present
              exact present

theorem SegmentNamed.apply (named : tree.SegmentNamed) {change : Edit} {defaultType : String}
    (names : change.NamesSegments)
    (applied : change.apply tree address defaultType = .ok changed) : changed.SegmentNamed := by
  intro item present
  rcases hasItem_of_apply applied present with old | ⟨name, isName, way, parentThere⟩
  · exact named item old
  · rw [way, List.forall_mem_cons]
    exact ⟨names name isName, named (.node address) parentThere⟩

/-- An item is found at its path, which consists of the names that lead to it. -/
theorem SegmentNamed.item?_path (named : tree.SegmentNamed) (consistent : tree.Consistent)
    (present : tree.HasItem item) :
    item.path = .ok (Path.ofNames item.address.reverse) ∧
      tree.item? (Path.ofNames item.address.reverse) = some item := by
  have proper := named item present
  constructor
  · rw [item.path_eq, Address.path_of_segments proper]
  · rw [item?_ofNames (by simpa using proper), List.reverse_reverse,
      itemAt?_eq_some_iff consistent.disjoint]
    exact ⟨rfl, present⟩

/-- What is found at a path has the path that consists of its segments. -/
theorem SegmentNamed.path_of_item? (named : tree.SegmentNamed) {query : String}
    (found : tree.item? query = some item) :
    tree.HasItem item ∧ item.path = .ok (Path.ofNames (Path.segments query)) := by
  rcases eq_of_itemAt? found with ⟨way, present⟩
  refine ⟨present, ?_⟩
  rw [item.path_eq, Address.path_of_segments (named item present), way, List.reverse_reverse]

end Tree

namespace Session

/-- The items of a session and their paths belong together one to one. -/
structure PathsIdentify (session : Session) : Prop where
  getItem_path : ∀ item, session.tree.HasItem item →
    ∃ path, item.path = .ok path ∧ session.getItem (some path) = .ok item
  injective : ∀ item other, session.tree.HasItem item → session.tree.HasItem other →
    item.path = other.path → item = other
  path_of_getItem : ∀ query item, session.getItem (some query) = .ok item →
    session.tree.HasItem item ∧ item.path = .ok (Path.ofNames (Path.segments query))

variable {session last : Session}

theorem getItem_eq_ok_iff {query : String} {item : Item} :
    session.getItem (some query) = .ok item ↔
      Path.isAbsolute query ∧ session.tree.item? query = some item := by
  by_cases absolute : Path.isAbsolute query
  · simp only [getItem, Path.required_of_isAbsolute absolute, bind, Except.bind, absolute,
      true_and]
    cases session.tree.item? query with
    | none => simp [throw, throwThe, MonadExceptOf.throw]
    | some found => simp [pure, Except.pure]
  · simp [getItem, Path.required_of_not_isAbsolute absolute, bind, Except.bind, absolute]

theorem pathsIdentify_of_segmentNamed (consistent : session.tree.Consistent)
    (named : session.tree.SegmentNamed) : session.PathsIdentify := by
  have found : ∀ item, session.tree.HasItem item →
      ∃ path, item.path = .ok path ∧ session.getItem (some path) = .ok item := by
    intro item present
    rcases named.item?_path consistent present with ⟨isPath, isFound⟩
    exact ⟨_, isPath, getItem_eq_ok_iff.2 ⟨Path.isAbsolute_ofNames _, isFound⟩⟩
  refine ⟨found, ?_, ?_⟩
  · intro item other present otherPresent same
    rcases found item present with ⟨path, isPath, isFound⟩
    rcases found other otherPresent with ⟨otherPath, isOtherPath, otherFound⟩
    cases isPath.symm.trans (same.trans isOtherPath)
    exact Except.ok.inj (isFound.symm.trans otherFound)
  · intro query item isFound
    exact named.path_of_item? (getItem_eq_ok_iff.1 isFound).2

theorem segmentNamed_of_leads (named : session.tree.SegmentNamed)
    (leads : session.Leads (fun _ _ => Edit.NamesSegments) last) : last.tree.SegmentNamed := by
  induction leads with
  | refl => exact named
  | edit _ names applied ih => exact ih.apply names applied

/-- Paths identify the items of a session to which steps or other edits lead from a fresh one, if
they only give names that a path can lead through. -/
theorem pathsIdentify_performAll (defaultType : String) (stale : List String) :
    (∀ steps : List Step, (∀ step ∈ steps, step.NamesSegments) →
      (performAll { defaultType, stale } steps).2.PathsIdentify) ∧
    ∀ last, Leads (fun _ _ => Edit.NamesSegments) { defaultType, stale } last →
      last.PathsIdentify := by
  have identify : ∀ last, Leads (fun _ _ => Edit.NamesSegments) { defaultType, stale } last →
      last.PathsIdentify := by
    intro last leads
    exact pathsIdentify_of_segmentNamed (consistent_of_leads Tree.consistent_fresh leads)
      (segmentNamed_of_leads Tree.segmentNamed_fresh leads)
  refine ⟨?_, identify⟩
  intro steps named
  apply identify
  apply leads_performAll
  intro step stepMem _ _ _
  exact Step.namesSegments_of_allows (named step stepMem)

theorem pathsIdentify_performAll_page :
    let last := (performAll {}
      [.edit [] (.addNode "page" none), .edit ["page"] (.setProperty "title" ["Home"]),
        .create { target := some "/page/./part//text", parameters := ∅ }]).2
    last.PathsIdentify ∧
      last.getItem (some "//page//title/") = .ok (.property ["page"] "title") ∧
      Item.path (.property ["page"] "title") = .ok "/page/title" := by
  intro last
  have identify : last.PathsIdentify := by
    apply (pathsIdentify_performAll unstructuredType []).1
    rintro step stepMem
    simp only [List.mem_cons, List.not_mem_nil, or_false] at stepMem
    rcases stepMem with rfl | rfl | rfl
    · rintro _ ⟨⟩
      decide
    · rintro _ ⟨⟩
      decide
    · trivial
  have found : last.getItem (some "//page//title/") = .ok (.property ["page"] "title") := by
    decide +kernel
  have names : Path.segments "//page//title/" = ["page", "title"] := by decide +kernel
  have named := (identify.path_of_getItem _ _ found).2
  rw [names] at named
  exact ⟨identify, found, named⟩

end Session

end ContentTree
