import ContentTree.Creation
import ContentTree.Proofs.Session.Preparation
import ContentTree.Proofs.Tree.Chain
import ContentTree.Proofs.Tree.Reach
import Mathlib.Data.List.Infix

/-!
# Growing a chain of requested nodes

What a request wants for a new node is read off the descriptors of two properties of that node
(`Descriptors.newNode`). A node that may be changed and has neither a child nor a property of some
name gets exactly this node as its child (`runFrom_addRequested`), and the new node may be changed
in turn: its own flag is set, and if it is not versionable, the nodes above it decide as before.
Hence nothing can stop the creation of a chain once its first node has been added
(`runFrom_foldlM_enter`).
-/

namespace ContentTree

theorem isSegment_primaryTypeName : Path.IsSegment primaryTypeName := by
  decide

theorem isSegment_mixinTypesName : Path.IsSegment mixinTypesName := by
  decide

namespace Descriptors

variable {descriptors : Descriptors} {address : Address}

/-- What is said about a property of the node at an address. -/
def ofProperty? (descriptors : Descriptors) (address : Address) (property : String) :
    Option Descriptor :=
  descriptors.get? (Path.ofNames (address.reverse ++ [property]))

/-- The primary type of a new node: the first value for its type that is not empty, or else the
default type. -/
def typeAt (descriptors : Descriptors) (defaultType : String) (address : Address) : String :=
  match (descriptors.ofProperty? address primaryTypeName).bind Descriptor.effectiveValues with
  | some (type :: _) => if type = "" then defaultType else type
  | _ => defaultType

/-- The mixin types that are requested for a new node, if any are. -/
def mixinsAt (descriptors : Descriptors) (address : Address) : List String :=
  match descriptors.ofProperty? address mixinTypesName with
  | some descriptor =>
      if descriptor.hasValues then descriptor.effectiveValues.getD [] else []
  | none => []

/-- What a request wants the mixin types of a node to be, if it is understood to want anything. -/
def mixinsAt? (descriptors : Descriptors) (address : Address) : Option (List String) :=
  (descriptors.ofProperty? address mixinTypesName).bind fun descriptor =>
    if descriptor.hasValues then some (descriptor.effectiveValues.getD []) else none

/-- A new node as a request wants it. -/
def newNode (descriptors : Descriptors) (defaultType : String) (address : Address) : Node where
  primaryType := descriptors.typeAt defaultType address
  mixins := .ofList (descriptors.mixinsAt address)
  checkedOut := true
  properties := ∅

theorem primaryType?_ofNames (proper : ∀ name ∈ address, Path.IsSegment name)
    (defaultType : String) :
    ∃ type, descriptors.primaryType? (Path.ofNames address.reverse) = .ok type ∧
      (type.filter (· ≠ "")).getD defaultType = descriptors.typeAt defaultType address := by
  have reversedProper : ∀ name ∈ address.reverse, Path.IsSegment name := by simpa using proper
  simp only [primaryType?, Path.join_ofNames reversedProper isSegment_primaryTypeName, bind,
    Except.bind, pure, Except.pure, typeAt, ofProperty?, Except.ok.injEq, exists_eq_left']
  cases descriptors.get? (Path.ofNames (address.reverse ++ [primaryTypeName])) with
  | none => rfl
  | some descriptor =>
      simp only [Option.bind_some]
      cases descriptor.effectiveValues with
      | none => rfl
      | some values =>
          cases values with
          | nil => rfl
          | cons first others =>
              by_cases isEmpty : first = ""
              · simp [isEmpty, Option.filter_some]
              · simp [isEmpty, Option.filter_some]

theorem mixinTypes?_eq_mixinsAt? {names : List String}
    (proper : ∀ name ∈ names, Path.IsSegment name) :
    descriptors.mixinTypes? (Path.ofNames names) = .ok (descriptors.mixinsAt? names.reverse) := by
  simp only [mixinTypes?, Path.join_ofNames proper isSegment_mixinTypesName, bind, Except.bind,
    pure, Except.pure, mixinsAt?, ofProperty?, List.reverse_reverse]

theorem mixinsAt_eq (descriptors : Descriptors) (address : Address) :
    descriptors.mixinsAt address = (descriptors.mixinsAt? address).getD [] := by
  unfold mixinsAt mixinsAt?
  cases descriptors.ofProperty? address mixinTypesName with
  | none => rfl
  | some descriptor =>
      simp only [Option.bind_some]
      split <;> rfl

end Descriptors

namespace Tree

variable {tree : Tree} {above : Address} {name : String}

theorem addNode_eq_insertChild (proper : ∀ other ∈ name :: above, Path.IsSegment other)
    (present : above ∈ tree) (absent : name :: above ∉ tree)
    (free : tree.property? above name = none) (isOpen : tree.isCheckedOut above)
    (type : Option String) (defaultType : String) :
    tree.addNode above name type defaultType = .ok (tree.insertChild above present name
      { primaryType := (type.filter (· ≠ "")).getD defaultType }) := by
  have abovePath := Address.path_of_segments (List.forall_mem_cons.1 proper).2
  rw [addNode, dif_pos present]
  simp [abovePath, Address.join_of_segments proper, absent, free, requireCheckedOut, isOpen, bind,
    Except.bind, pure, Except.pure]

theorem isCheckedOut_insertChild_new (present : above ∈ tree) (isOpen : tree.isCheckedOut above)
    {node : Node} (flagged : node.checkedOut) :
    (tree.insertChild above present name node).isCheckedOut (name :: above) := by
  have stored : (tree.insertChild above present name node).node? (name :: above) = some node := by
    rw [node?_insertChild, if_pos rfl]
  rw [isCheckedOut_eq_ite, isCheckedOutAbove, isCheckedOut_insertChild, isOpen, isFlagged, stored,
    Option.all_some, flagged]
  simp

/-- The last node of a chain may be changed if the one may be to which the chain is added. -/
theorem isCheckedOut_extend (present : above ∈ tree) (isOpen : tree.isCheckedOut above)
    {make : Address → Node} (flagged : ∀ address, (make address).checkedOut) (names : List String) :
    (tree.extend above present make names).isCheckedOut (names.reverse ++ above) := by
  induction names generalizing tree above with
  | nil => exact isOpen
  | cons name rest ih =>
      rw [List.reverse_cons, List.append_assoc]
      exact ih _ (isCheckedOut_insertChild_new present isOpen (flagged (name :: above)))

theorem addMixin_insertChild (present : above ∈ tree) (isOpen : tree.isCheckedOut above)
    {node : Node} (flagged : node.checkedOut) (mixin : String) :
    (tree.insertChild above present name node).addMixin (name :: above) mixin =
      .ok (tree.insertChild above present name
        { node with mixins := node.mixins.insert mixin }) := by
  have stored : (tree.insertChild above present name node).node? (name :: above) = some node := by
    rw [node?_insertChild, if_pos rfl]
  have childOpen : (tree.insertChild above present name node).isCheckedOut (name :: above) :=
    isCheckedOut_insertChild_new present isOpen flagged
  simp [addMixin, Tree.node, stored, requireCheckedOut, childOpen, bind, Except.bind, pure,
    Except.pure, modify_insertChild, flagged]

end Tree

namespace Work

variable {descriptors : Descriptors} {policy : Policy} {above : Address} {name : String}
  {progress : Progress}

theorem runFrom_forM_addMixin (present : above ∈ progress.session.tree)
    (isOpen : progress.session.tree.isCheckedOut above) (name : String) (mixins : List String)
    (node : Node) (flagged : node.checkedOut) :
    (forM mixins fun mixin => edit (·.addMixin (name :: above) mixin)).runFrom
        (progress.withTree (progress.session.tree.insertChild above present name node)) =
      (.ok (), progress.withTree (progress.session.tree.insertChild above present name
        { node with mixins := mixins.foldl NameSet.insert node.mixins })) := by
  induction mixins generalizing node with
  | nil => rfl
  | cons mixin rest ih =>
      have restRun := ih { node with mixins := node.mixins.insert mixin } flagged
      simp only [List.forM_cons, runFrom_bind, runFrom_edit, Progress.tree_withTree,
        Tree.addMixin_insertChild present isOpen flagged, Progress.withTree_withTree]
      exact restRun

/-- A node that may be changed gets the requested node as its child, unless the name is taken. -/
theorem runFrom_addRequested (proper : ∀ other ∈ name :: above, Path.IsSegment other)
    (present : above ∈ progress.session.tree) (absent : name :: above ∉ progress.session.tree)
    (free : progress.session.tree.property? above name = none)
    (isOpen : progress.session.tree.isCheckedOut above) :
    (addRequested (checkoutIfNecessary policy) descriptors above name).runFrom progress =
      (.ok (name :: above), (progress.withTree (progress.session.tree.insertChild above present name
        (descriptors.newNode progress.session.defaultType (name :: above)))).reporting
          [.created (Path.ofNames (name :: above).reverse)]) := by
  rcases descriptors.primaryType?_ofNames proper progress.session.defaultType with
    ⟨type, typeFound, typeEq⟩
  have mixinsFound : descriptors.mixinTypes? (Path.ofNames (name :: above).reverse) =
      .ok (descriptors.mixinsAt? (name :: above)) := by
    have reversedProper : ∀ other ∈ (name :: above).reverse, Path.IsSegment other :=
      fun other otherMem => proper other (List.mem_reverse.1 otherMem)
    rw [descriptors.mixinTypes?_eq_mixinsAt? reversedProper, List.reverse_reverse]
  have prepared : (checkoutIfNecessary policy above).runFrom progress =
      (.ok (), progress) :=
    runFrom_checkoutIfNecessary_of_none (Policy.unlocks?_of_isCheckedOut isOpen)
  have added := Tree.addNode_eq_insertChild proper present absent free isOpen type
    progress.session.defaultType
  have mixinsAdded := runFrom_forM_addMixin present isOpen name
    (descriptors.mixinsAt (name :: above))
    { primaryType := descriptors.typeAt progress.session.defaultType (name :: above) } rfl
  rw [typeEq] at added
  simp only [addRequested, runFrom_bind, runFrom_liftExcept, typeFound, prepared, runFrom_get,
    runFrom_edit, added, mixinsFound, ← descriptors.mixinsAt_eq, mixinsAdded,
    Address.path_of_segments proper, runFrom_report, runFrom_pure]
  rfl

/-- The reports of the nodes of a chain, from the top downwards. -/
def creations (above : Address) (names : List String) : List Change :=
  names.inits.tail.map fun lead => .created (Path.ofNames (above.reverse ++ lead))

theorem creations_cons (above : Address) (name : String) (rest : List String) :
    creations above (name :: rest) =
      .created (Path.ofNames (name :: above).reverse) :: creations (name :: above) rest := by
  have restInits : rest.inits = [] :: rest.inits.tail := by cases rest <;> rfl
  rw [creations, List.inits_cons, List.tail_cons, restInits, creations]
  simp only [List.map_cons, List.map_map, List.reverse_cons]
  congr 1
  apply List.map_congr_left
  intro lead _
  simp

theorem getLast?_creations (above : Address) {names : List String} (nonempty : names ≠ []) :
    (creations above names).getLast? = some (.created (Path.ofNames (above.reverse ++ names))) := by
  have wholeLast : names.inits.getLast? = some names := by
    cases names using List.reverseRecOn with
    | nil => exact absurd rfl nonempty
    | append_singleton names name => simp
  have several : ¬names.inits.length = 1 := by simpa using nonempty
  rw [creations, List.getLast?_map, List.getLast?_tail, if_neg several, wholeLast, Option.map_some]

/-- A lock that the preparation takes off may as well be taken off beforehand. -/
theorem runFrom_addRequested_unlock {lock : Address} {path : String}
    (proper : ∀ other ∈ name :: above, Path.IsSegment other)
    (unlocked : policy.unlocks? progress.session.tree above = some lock)
    (named : Address.path lock = .ok path) :
    (addRequested (checkoutIfNecessary policy) descriptors above name).runFrom progress =
      (addRequested (checkoutIfNecessary policy) descriptors above name).runFrom
        (progress.unlock lock path) := by
  rcases descriptors.primaryType?_ofNames proper "" with ⟨type, typeFound, -⟩
  have prepared : (checkoutIfNecessary policy above).runFrom progress =
      (.ok (), progress.unlock lock path) :=
    runFrom_checkoutIfNecessary_of_some unlocked named
  have preparedAgain : (checkoutIfNecessary policy above).runFrom
      (progress.unlock lock path) = (.ok (), progress.unlock lock path) :=
    runFrom_checkoutIfNecessary_of_none
      (Policy.unlocks?_of_isCheckedOut (isCheckedOut_unlock unlocked))
  simp only [addRequested, runFrom_bind, runFrom_liftExcept, typeFound, prepared, preparedAgain]

theorem runFrom_addRequested_of_locked (proper : ∀ other ∈ name :: above, Path.IsSegment other)
    (present : above ∈ progress.session.tree) (absent : name :: above ∉ progress.session.tree)
    (free : progress.session.tree.property? above name = none)
    (kept : policy.unlocks? progress.session.tree above = none)
    (locked : progress.session.tree.isCheckedOut above = false) :
    (addRequested (checkoutIfNecessary policy) descriptors above name).runFrom progress =
      (.error (.checkedIn (Path.ofNames above.reverse)), progress) := by
  rcases descriptors.primaryType?_ofNames proper "" with ⟨type, typeFound, -⟩
  have prepared : (checkoutIfNecessary policy above).runFrom progress =
      (.ok (), progress) :=
    runFrom_checkoutIfNecessary_of_none kept
  have abovePath := Address.path_of_segments (List.forall_mem_cons.1 proper).2
  have refused : progress.session.tree.addNode above name type progress.session.defaultType =
      .error (.checkedIn (Path.ofNames above.reverse)) := by
    rw [Tree.addNode, dif_pos present]
    simp [abovePath, Address.join_of_segments proper, absent, free, Tree.requireCheckedOut, locked,
      bind, Except.bind]
    rfl
  simp only [addRequested, runFrom_bind, runFrom_liftExcept, typeFound, prepared, runFrom_get,
    runFrom_edit, refused]

/-- Once its first node can be added, a chain is created to its end. -/
theorem runFrom_foldlM_enter {missing : List String} (descriptors : Descriptors) (policy : Policy)
    (proper : ∀ other ∈ missing.reverse ++ above, Path.IsSegment other)
    (present : above ∈ progress.session.tree)
    (absent : ∀ name ∈ missing.head?, name :: above ∉ progress.session.tree)
    (free : ∀ name ∈ missing.head?, progress.session.tree.property? above name = none)
    (isOpen : progress.session.tree.isCheckedOut above) :
    (missing.foldlM (enter (checkoutIfNecessary policy) descriptors) above).runFrom progress =
      (.ok (missing.reverse ++ above),
        (progress.withTree (progress.session.tree.extend above present
          (descriptors.newNode progress.session.defaultType) missing)).reporting
            (creations above missing)) := by
  induction missing generalizing above progress with
  | nil =>
      have noReports : creations above [] = [] := rfl
      rw [noReports, Progress.reporting_nil]
      rfl
  | cons name rest ih =>
      rw [Tree.reverse_cons_append] at proper ⊢
      have firstProper : ∀ other ∈ name :: above, Path.IsSegment other :=
        fun other otherMem => proper other (List.mem_append_right _ otherMem)
      have firstAbsent : name :: above ∉ progress.session.tree := absent name rfl
      let child := descriptors.newNode progress.session.defaultType (name :: above)
      let grown := progress.session.tree.insertChild above present name child
      let next := (progress.withTree grown).reporting
        [.created (Path.ofNames (name :: above).reverse)]
      have added : (addRequested (checkoutIfNecessary policy) descriptors above name).runFrom
          progress = (.ok (name :: above), next) :=
        runFrom_addRequested firstProper present firstAbsent (free name rfl) isOpen
      have childPresent : name :: above ∈ grown := Tree.mem_insertChild.2 (.inl rfl)
      have childFree : ∀ other, grown.property? (name :: above) other = none := by
        intro other
        have stored : grown.node? (name :: above) = some child := by
          rw [Tree.node?_insertChild, if_pos rfl]
        rw [Tree.property?, stored]
        rfl
      have restRun : (rest.foldlM (enter (checkoutIfNecessary policy) descriptors)
          (name :: above)).runFrom next = _ :=
        ih proper childPresent
          (fun other _ => Tree.cons_notMem_insertChild present firstAbsent child other)
          (fun other _ => childFree other)
          (Tree.isCheckedOut_insertChild_new present isOpen rfl)
      rw [List.foldlM_cons, runFrom_bind, runFrom_enter_of_notMem firstAbsent, added]
      have logged := Progress.reporting_reporting
        (progress.withTree (progress.session.tree.extend above present
          (descriptors.newNode progress.session.defaultType) (name :: rest)))
        [.created (Path.ofNames (name :: above).reverse)] (creations (name :: above) rest)
      simp only [restRun, creations_cons]
      exact congrArg (Prod.mk (Except.ok (rest.reverse ++ (name :: above)))) logged

end Work

end ContentTree
