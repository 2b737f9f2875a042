import ContentTree.Proofs.Request.Answer

/-!
# What a request leaves alone

A request adds nodes, takes a lock off and changes the mixin types of the node it addresses. All the
rest is retained, even if the request fails on the way: every node stays where it is, with its type
and its properties, its children stay in their order with at most one new child after them, and no
node is checked in. Nor is anything removed from the log (`content_retained`).

Preparing a node and reconciling it add no children, so that what they retain can be put together
from their edits (`Work.retains_bind`). That a node gets one new child at most does not follow in
this way. It is read off the outcome of a creation as a whole, which is a chain of new nodes or none
at all (`Work.retains_createKnowing`).
-/

namespace ContentTree

/-- A node is of the same type and has the same properties later, and it is not checked in. -/
structure Node.Retains (node later : Node) : Prop where
  primaryType : later.primaryType = node.primaryType
  properties : later.properties = node.properties
  checkedOut : node.checkedOut → later.checkedOut

/-- The nodes of a tree and the order of their children are retained. At most some number of
children are added to a node, and only some nodes may have other mixin types. -/
structure Tree.Retains (revised : Address → Prop) (most : Nat) (before after : Tree) : Prop where
  node? : ∀ address node, before.node? address = some node →
    ∃ later, after.node? address = some later ∧ node.Retains later ∧
      (¬revised address → later.mixins = node.mixins)
  childNames : ∀ parent, ∃ added, added.length ≤ most ∧
    after.childNames parent = before.childNames parent ++ added

/-- What is stored in the tree is retained, and so is what has been reported. -/
structure Progress.Retains (revised : Address → Prop) (most : Nat) (before after : Progress) :
    Prop where
  tree : before.session.tree.Retains revised most after.session.tree
  changes : before.changes <+: after.changes

namespace Node.Retains

variable {node middle later : Node}

theorem refl (node : Node) : node.Retains node :=
  ⟨rfl, rfl, id⟩

theorem trans (first : node.Retains middle) (second : middle.Retains later) :
    node.Retains later where
  primaryType := second.primaryType.trans first.primaryType
  properties := second.properties.trans first.properties
  checkedOut := second.checkedOut ∘ first.checkedOut

end Node.Retains

namespace Tree

variable {revised others : Address → Prop} {most more : Nat} {tree before middle after : Tree}
  {address : Address} {change : Node → Node}

namespace Retains

theorem refl (tree : Tree) : tree.Retains revised most tree where
  node? _ node stored := ⟨node, stored, .refl node, fun _ => rfl⟩
  childNames _ := ⟨[], Nat.zero_le _, (List.append_nil _).symm⟩

theorem trans (first : before.Retains revised most middle)
    (second : middle.Retains revised more after) : before.Retains revised (most + more) after where
  node? address node stored := by
    rcases first.node? address node stored with ⟨between, storedBetween, retains, sameMixins⟩
    rcases second.node? address between storedBetween with
      ⟨later, storedLater, retainsLater, sameLater⟩
    exact ⟨later, storedLater, retains.trans retainsLater,
      fun kept => (sameLater kept).trans (sameMixins kept)⟩
  childNames parent := by
    rcases first.childNames parent with ⟨added, atMost, names⟩
    rcases second.childNames parent with ⟨addedLater, atMostLater, namesLater⟩
    refine ⟨added ++ addedLater, ?_, ?_⟩
    · rw [List.length_append]
      exact Nat.add_le_add atMost atMostLater
    · rw [namesLater, names, List.append_assoc]

theorem mono (includes : ∀ address, revised address → others address) (within : most ≤ more)
    (retains : before.Retains revised most after) : before.Retains others more after where
  node? address node stored := by
    rcases retains.node? address node stored with ⟨later, storedLater, retainsNode, sameMixins⟩
    exact ⟨later, storedLater, retainsNode, fun kept => sameMixins fun isRevised =>
      kept (includes address isRevised)⟩
  childNames parent := by
    rcases retains.childNames parent with ⟨added, atMost, names⟩
    exact ⟨added, atMost.trans within, names⟩

end Retains

/-- A change of what is stored about a node retains the tree if it retains the node. -/
theorem retains_modify (retains : ∀ node : Node, node.Retains (change node))
    (sameMixins : ¬revised address → ∀ node, (change node).mixins = node.mixins) :
    tree.Retains revised 0 (tree.modify address change) where
  node? other node stored := by
    rw [node?_modify, stored, Option.map_some]
    split
    case isTrue isTarget =>
      subst isTarget
      exact ⟨_, rfl, retains node, fun kept => sameMixins kept node⟩
    case isFalse => exact ⟨node, rfl, .refl node, fun _ => rfl⟩
  childNames parent := ⟨[], Nat.le_refl _, by rw [childNames_modify, List.append_nil]⟩

variable {mixin : String}

theorem retains_checkout (done : before.checkout address = .ok after) :
    before.Retains revised 0 after := by
  rw [(setCheckedOut_eq_ok done).2]
  exact retains_modify (fun _ => ⟨rfl, rfl, fun _ => rfl⟩) fun _ _ => rfl

theorem retains_addMixin (isRevised : revised address)
    (added : before.addMixin address mixin = .ok after) : before.Retains revised 0 after := by
  rcases addMixin_eq_ok added with ⟨-, -, rfl⟩
  refine retains_modify (fun node => ⟨rfl, rfl, ?_⟩) (absurd isRevised)
  intro flagged
  simp [flagged]

theorem retains_removeMixin (isRevised : revised address)
    (removed : before.removeMixin address mixin = .ok after) : before.Retains revised 0 after := by
  rcases removeMixin_eq_ok removed with ⟨-, -, rfl⟩
  exact retains_modify (fun _ => ⟨rfl, rfl, id⟩) (absurd isRevised)

end Tree

namespace Progress

variable {revised others : Address → Prop} {most more : Nat} {before middle after : Progress}

namespace Retains

theorem refl (progress : Progress) : progress.Retains revised most progress :=
  ⟨.refl _, List.prefix_refl _⟩

theorem trans (first : before.Retains revised most middle)
    (second : middle.Retains revised more after) : before.Retains revised (most + more) after :=
  ⟨first.tree.trans second.tree, first.changes.trans second.changes⟩

theorem mono (includes : ∀ address, revised address → others address) (within : most ≤ more)
    (retains : before.Retains revised most after) : before.Retains others more after :=
  ⟨retains.tree.mono includes within, retains.changes⟩

end Retains

/-- A creation adds at most one child to each node and changes no mixin types. -/
theorem retains_grown (progress : Progress) (descriptors : Descriptors) (policy : Policy)
    (names : List String) :
    progress.Retains revised 1 (progress.grown descriptors policy names) where
  tree.node? address node stored := by
    have present := Tree.node?_isSome_iff.1 (Option.isSome_of_eq_some stored)
    rw [node?_grown_of_mem descriptors policy names present, node?_unlocking, stored,
      Option.map_some]
    refine ⟨_, rfl, ?_, fun _ => ?_⟩
    · split
      · exact ⟨rfl, rfl, fun _ => rfl⟩
      · exact .refl node
    · split <;> rfl
  tree.childNames parent := by
    refine ⟨_, ?_, (Work.creationEffect_grown progress _ _ _).childNames parent⟩
    split
    · exact List.length_take_le 1 _
    · exact Nat.zero_le _
  changes := by
    rcases exists_changes_grown with ⟨appended, logged, -⟩
    exact ⟨appended, logged.symm⟩

end Progress

namespace Work

variable {Value Result Item : Type} {revised : Address → Prop} {most : Nat} {progress : Progress}

/-- Work retains what is there when it starts from some progress, whether it succeeds or fails. -/
def Retains (revised : Address → Prop) (most : Nat) (work : Work Value) (progress : Progress) :
    Prop :=
  progress.Retains revised most (work.runFrom progress).2

theorem retains_of_unchanged {work : Work Value} (same : (work.runFrom progress).2 = progress) :
    work.Retains revised most progress := by
  rw [Retains, same]
  exact .refl progress

theorem retains_report (change : Change) : (report change).Retains revised most progress :=
  ⟨.refl _, List.prefix_append _ _⟩

theorem retains_edit {change : Tree → Except Fault Tree}
    (retains : ∀ changed, change progress.session.tree = .ok changed →
      progress.session.tree.Retains revised most changed) :
    (edit change).Retains revised most progress := by
  rw [Retains, runFrom_edit]
  cases applied : change progress.session.tree with
  | error fault => exact .refl progress
  | ok changed => exact ⟨retains changed applied, List.prefix_refl _⟩

theorem retains_bind {work : Work Value} {next : Value → Work Result}
    (first : work.Retains revised most progress)
    (second : ∀ value later, (next value).Retains revised 0 later) :
    (work >>= next).Retains revised most progress :=
  snd_runFrom_bind progress (progress.Retains revised most) first
    fun value later _ retains => retains.trans (second value later)

theorem retains_lift_bind {outcome : Except Fault Value} {next : Value → Work Result}
    (continues : ∀ value, outcome = .ok value → (next value).Retains revised most progress) :
    (liftM outcome >>= next).Retains revised most progress := by
  unfold Retains at continues ⊢
  rw [runFrom_bind, runFrom_liftExcept]
  cases outcome with
  | error fault => exact .refl progress
  | ok value => exact continues value rfl

theorem retains_forM {items : List Item} {body : Item → Work PUnit}
    (each : ∀ item progress, (body item).Retains revised 0 progress) :
    (forM items body).Retains revised 0 progress :=
  snd_runFrom_forM progress (progress.Retains revised 0) (.refl progress)
    fun item later retains => retains.trans (each item later)

/-! ### The parts of a request -/

variable {policy : Policy} {descriptors : Descriptors} {address : Address}

theorem retains_checkoutIfNecessary :
    (checkoutIfNecessary policy address).Retains revised 0 progress := by
  simp only [checkoutIfNecessary]
  split
  case isFalse => exact retains_of_unchanged rfl
  case isTrue =>
    apply retains_bind (retains_of_unchanged rfl)
    intro tree later
    split
    · exact retains_of_unchanged rfl
    · split
      · exact retains_of_unchanged rfl
      · apply retains_bind (retains_edit fun _ => Tree.retains_checkout)
        intro _ _
        exact retains_lift_bind fun path _ => retains_report _

theorem retains_prepare (checkout : Checkout) :
    (checkout.prepare policy address).Retains revised 0 progress := by
  cases checkout with
  | ifNecessary => exact retains_checkoutIfNecessary
  | recordOnly => exact retains_lift_bind fun path _ => ⟨.refl _, List.prefix_refl _⟩

theorem retains_carryOut (arrange : List String → List String) (isRevised : revised address)
    (change : MixinEdit) :
    ((mixinHost arrange address).carryOut policy change).Retains revised 0 progress := by
  cases change with
  | remove mixin => exact retains_edit fun _ => Tree.retains_removeMixin isRevised
  | add mixin =>
      apply retains_bind (retains_edit fun _ => Tree.retains_addMixin isRevised)
      intro _ _
      split
      · apply retains_bind (retains_of_unchanged rfl)
        intro isOpen _
        split
        · exact retains_lift_bind fun path _ => retains_report _
        · exact retains_of_unchanged rfl
      · exact retains_of_unchanged rfl

/-- A reconciliation retains what is there but for the mixin types of its node. -/
theorem retains_reconcileArranged (arrange : List String → List String) (checkout : Checkout)
    (requested : List String) (isRevised : revised address) :
    (reconcileArranged arrange checkout policy address requested).Retains revised 0 progress := by
  rw [reconcileArranged, MixinHost.reconcile_eq_forM]
  apply retains_bind (retains_prepare checkout)
  intro _ _
  have listed : ∀ {progress},
      (mixinHost arrange address).mixins.Retains revised 0 progress :=
    retains_bind (retains_of_unchanged rfl) fun _ _ =>
      retains_lift_bind fun _ _ => retains_of_unchanged rfl
  apply retains_bind listed
  intro _ _
  exact retains_forM fun change _ => retains_carryOut arrange isRevised change

theorem retains_of_resembles {work other : Work Value}
    (resembles : work.Resembles other progress progress)
    (retains : other.Retains revised most progress) : work.Retains revised most progress := by
  rcases Progress.withoutNotes_eq_iff.1 resembles.2 with ⟨sameSession, sameChanges⟩
  constructor
  · rw [sameSession]
    exact retains.tree
  · rw [sameChanges]
    exact retains.changes

theorem retains_createKnowing_ifNecessary {knows : String → Bool} {path : Option String}
    (trusted : ∀ asked, knows asked → (progress.session.tree.item? asked).isSome) :
    (createKnowing knows (Checkout.ifNecessary.prepare policy) descriptors path).Retains revised 1
      progress := by
  rcases Path.malformed_or_normal path with ⟨fault, malformed⟩ | ⟨text, normal, rfl, normalized⟩
  · apply retains_of_unchanged
    rw [runFrom_createKnowing_of_malformed malformed]
  · rcases Path.exists_segments_of_normalize normalized with ⟨names, proper, rfl⟩
    rw [Retains, runFrom_createKnowing trusted proper normalized]
    split
    · exact .refl progress
    · cases obstacle : progress.session.tree.obstacle? names with
      | some name =>
          -- The property is only met after the deepest node has been prepared.
          rcases runFrom_createMissing_of_obstacle? .ifNecessary descriptors policy proper obstacle
            with ⟨named, after, prepared, -, refused⟩
          have retains : (Checkout.ifNecessary.prepare policy
              (progress.session.tree.deepest names)).Retains revised 0 progress :=
            retains_prepare .ifNecessary
          rw [Retains, prepared] at retains
          rw [refused]
          exact retains.mono (fun _ => id) (Nat.zero_le 1)
      | none =>
          have usual : Checkout.ifNecessary.prepare policy = checkoutIfNecessary policy := rfl
          rw [usual, runFrom_createMissing descriptors policy proper obstacle]
          split
          · exact .refl progress
          · exact progress.retains_grown descriptors policy names

/-- A creation retains what is there and adds at most one child to a node, however nodes are
prepared and whichever of the items on the way its search believes in. -/
theorem retains_createKnowing {knows : String → Bool} (checkout : Checkout) (path : Option String)
    (trusted : ∀ asked, knows asked → (progress.session.tree.item? asked).isSome) :
    (createKnowing knows (checkout.prepare policy) descriptors path).Retains revised 1
      progress := by
  cases checkout with
  | ifNecessary => exact retains_createKnowing_ifNecessary trusted
  | recordOnly =>
      exact retains_of_resembles (resembles_createKnowing trusted rfl)
        (retains_createKnowing_ifNecessary trusted)

end Work

/-- A path can be resolved, and an address is the one to which it leads. -/
def Address.IsTarget (path : Option String) (address : Address) : Prop :=
  ∃ text normal, path = some text ∧ Path.normalize text = .ok normal ∧
    address = (Path.segments normal).reverse

namespace Work

variable {revised : Address → Prop} {progress : Progress} {descriptors : Descriptors}
  {policy : Policy}

/-- Creating or updating retains what is there but for the mixin types of the node it addresses. -/
theorem retains_createOrUpdateKnowing {knows : String → Bool}
    (arrange : List String → List String) (checkout : Checkout) (descriptors : Descriptors)
    (policy : Policy) (path : Option String)
    (trusted : ∀ asked, knows asked → (progress.session.tree.item? asked).isSome) :
    (createOrUpdateKnowing knows arrange checkout descriptors policy path).Retains
      (Address.IsTarget path) 1 progress := by
  apply retains_lift_bind
  intro text isRequired
  apply retains_lift_bind
  intro normal normalized
  split
  · refine Progress.Retains.mono (fun _ => id) (Nat.zero_le 1) ?_
    apply retains_lift_bind
    intro mixins _
    split
    · exact retains_of_unchanged rfl
    · apply retains_bind (retains_of_unchanged rfl)
      intro current _
      apply retains_lift_bind
      intro item found
      split
      · have isNode := (Tree.eq_of_itemAt?_eq_node (item?_of_getItem found)).1
        have isTarget : Address.IsTarget path _ :=
          ⟨text, normal, Path.eq_some_of_required isRequired, normalized, isNode⟩
        exact retains_bind (retains_reconcileArranged arrange checkout _ isTarget)
          fun _ _ => retains_of_unchanged rfl
      · exact retains_of_unchanged rfl
  · exact retains_bind (retains_createKnowing checkout (some normal) trusted)
      fun _ _ => retains_of_unchanged rfl

end Work

namespace Request

theorem retains_workKnowing (request : Request) {knows : String → Bool}
    (arrange : List String → List String) (checkout : Checkout) (base : Policy)
    {progress : Progress}
    (trusted : ∀ asked, knows asked → (progress.session.tree.item? asked).isSome) :
    (request.workKnowing knows arrange checkout base).Retains (Address.IsTarget request.path) 1
      progress := by
  apply Work.retains_lift_bind
  intro text isRequired
  apply Work.retains_lift_bind
  intro normal normalized
  apply Work.retains_lift_bind
  intro descriptors _
  have sameTarget : ∀ address, Address.IsTarget (some normal) address →
      Address.IsTarget request.path address := by
    rintro address ⟨_, other, ⟨⟩, again, isTarget⟩
    cases (Path.normalize_normalize normalized).symm.trans again
    exact ⟨text, normal, Path.eq_some_of_required isRequired, normalized, isTarget⟩
  have retains := Work.retains_createOrUpdateKnowing arrange checkout descriptors
    (request.effectivePolicy base) (some normal) trusted
  exact Work.retains_bind (Progress.Retains.mono sameTarget (Nat.le_refl 1) retains)
    fun _ _ => Work.retains_of_unchanged rfl

end Request

/-- Whether they succeed or fail, creations, updates, reconciliations and requests retain what is
stored in the tree and what has been reported. Only the node that is addressed may have other mixin
types, and every node gets at most one new child. -/
theorem content_retained (before : Progress) (stale : String → Bool)
    (arrange : List String → List String) (checkout : Checkout) (descriptors : Descriptors)
    (policy : Policy) :
    let knows := before.session.knowsExcept stale
    (∀ path, before.Retains (fun _ => False) 1
      ((Work.createKnowing knows (checkout.prepare policy) descriptors path).runFrom before).2) ∧
    (∀ path, before.Retains (Address.IsTarget path) 1
      ((Work.createOrUpdateKnowing knows arrange checkout descriptors policy path).runFrom
        before).2) ∧
    (∀ address requested, before.Retains (· = address) 0
      ((Work.reconcileArranged arrange checkout policy address requested).runFrom before).2) ∧
    ∀ request : Request, Progress.Retains (Address.IsTarget request.path) 1
      { session := before.session }
      (request.respondKnowing knows arrange checkout policy before.session).2 := by
  intro knows
  have trusted : ∀ asked, knows asked → (before.session.tree.item? asked).isSome :=
    before.session.isSome_item?_of_knowsExcept
  refine ⟨?_, ?_, ?_, ?_⟩
  · intro path
    exact Work.retains_createKnowing checkout path trusted
  · intro path
    exact Work.retains_createOrUpdateKnowing arrange checkout descriptors policy path trusted
  · intro address requested
    exact Work.retains_reconcileArranged arrange checkout requested rfl
  · intro request
    exact request.retains_workKnowing arrange checkout policy trusted

end ContentTree
