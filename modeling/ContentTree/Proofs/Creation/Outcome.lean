import ContentTree.Proofs.Creation.Growth
import ContentTree.Proofs.Creation.Search

/-!
# How a creation ends

Whether the nodes that are missing along a list of names can be created is decided before the first
of them is: they cannot if a property obstructs the way, or if the deepest node on the way has a
lock that the policy does not take off (`Tree.refusal?`). A creation that is refused leaves
everything as it is. Any other takes off the lock of the deepest node, if it has one and something
is missing, and then grows the whole chain (`runFrom_create_of_normalize`).
-/

namespace ContentTree

namespace Tree

variable {tree : Tree} {names : List String} {name : String} {rest : List String}

theorem obstacle?_of_missing (missing : tree.missing names = name :: rest) :
    tree.obstacle? names =
      if (tree.property? (tree.deepest names) name).isSome then some name else none := by
  rw [obstacle?, missing, List.head?_cons, Option.filter_some]

theorem deepest_of_missing_nil (nothing : tree.missing names = []) :
    tree.deepest names = names.reverse := by
  have whole := tree.missing_reverse_append_deepest names
  rwa [nothing] at whole

theorem take_of_missing (missing : tree.missing names = name :: rest) :
    names.take (tree.reach [] names + 1) = (tree.deepest names).reverse ++ [name] := by
  have next : names[tree.reach [] names]? = some name := by
    rw [← List.head?_drop, ← Tree.missing, missing, List.head?_cons]
  rw [List.take_add_one, next, deepest, List.reverse_reverse]
  rfl

/-- Why the nodes that are missing along a list of names cannot be created. -/
def refusal? (tree : Tree) (policy : Policy) (names : List String) : Option Fault :=
  match tree.missing names with
  | [] => none
  | name :: _ =>
      if (tree.property? (tree.deepest names) name).isSome then
        some (.notANode (Path.ofNames ((tree.deepest names).reverse ++ [name])))
      else if policy.autoCheckout = false ∧ (tree.lock? (tree.deepest names)).isSome then
        some (.checkedIn (Path.ofNames (tree.deepest names).reverse))
      else none

/-- The lock that is taken off before the first of the missing nodes is created. -/
def opened? (tree : Tree) (policy : Policy) (names : List String) : Option Address :=
  if tree.missing names = [] then none else policy.unlocks? tree (tree.deepest names)

theorem opened?_of_missing (missing : tree.missing names = name :: rest) (policy : Policy) :
    tree.opened? policy names = policy.unlocks? tree (tree.deepest names) := by
  simp [opened?, missing]

/-- An archive that is checked in and has a folder for one year. -/
def archive : Tree :=
  let checkedIn := fresh.insertChild [] fresh.nil_mem "archive"
    { primaryType := "nt:folder", mixins := .ofList [versionableType], checkedOut := false }
  checkedIn.insertChild ["archive"] (mem_insertChild.2 (.inl rfl)) "2024"
    { primaryType := "nt:folder" }

example : archive.refusal? {} ["archive", "2024", "may"] = some (.checkedIn "/archive/2024") := by
  decide +kernel

end Tree

namespace Progress

variable {progress : Progress}

/-- What progress becomes when a lock is taken off, if there is one. -/
def unlocking (progress : Progress) : Option Address → Progress
  | none => progress
  | some lock => progress.unlock lock (Path.ofNames lock.reverse)

theorem mem_unlocking {lock : Option Address} {address : Address} :
    address ∈ (progress.unlocking lock).session.tree ↔ address ∈ progress.session.tree := by
  cases lock with
  | none => rfl
  | some lock => exact Tree.mem_unlock

theorem property?_unlocking (lock : Option Address) (owner : Address) (name : String) :
    (progress.unlocking lock).session.tree.property? owner name =
      progress.session.tree.property? owner name := by
  cases lock with
  | none => rfl
  | some lock => exact Tree.property?_unlock owner name

theorem node?_unlocking (lock : Option Address) (address : Address) :
    (progress.unlocking lock).session.tree.node? address =
      (progress.session.tree.node? address).map fun node =>
        if lock = some address then { node with checkedOut := true } else node := by
  cases lock with
  | none => simp [unlocking]
  | some lock =>
      have unlocked : (progress.unlocking (some lock)).session.tree.node? address =
          if address = lock then
            (progress.session.tree.node? address).map fun node => { node with checkedOut := true }
          else progress.session.tree.node? address := Tree.node?_unlock address
      rw [unlocked]
      by_cases isLock : address = lock
      · simp [isLock]
      · simp [isLock, Ne.symm isLock]

theorem childNames_unlocking (lock : Option Address) (parent : Address) :
    (progress.unlocking lock).session.tree.childNames parent =
      progress.session.tree.childNames parent := by
  cases lock with
  | none => rfl
  | some lock => exact Tree.childNames_modify _ lock parent _

theorem changes_unlocking (lock : Option Address) :
    (progress.unlocking lock).changes = progress.changes ++
      lock.toList.map fun opened => .checkedOut (Path.ofNames opened.reverse) := by
  cases lock with
  | none => simp [unlocking]
  | some lock => rfl

theorem defaultType_unlocking (lock : Option Address) :
    (progress.unlocking lock).session.defaultType = progress.session.defaultType := by
  cases lock <;> rfl

theorem stale_unlocking (lock : Option Address) :
    (progress.unlocking lock).session.stale = progress.session.stale := by
  cases lock <;> rfl

theorem checkouts_unlocking (lock : Option Address) :
    (progress.unlocking lock).checkouts = progress.checkouts := by
  cases lock <;> rfl

/-- What progress becomes when the nodes that are missing along a list of names are created. -/
def grown (progress : Progress) (descriptors : Descriptors) (policy : Policy)
    (names : List String) : Progress :=
  let tree := progress.session.tree
  let opened := progress.unlocking (tree.opened? policy names)
  (opened.withTree (opened.session.tree.extend (tree.deepest names)
    (mem_unlocking.2 (Tree.deepest_mem names))
    (descriptors.newNode progress.session.defaultType) (tree.missing names))).reporting
      (Work.creations (tree.deepest names) (tree.missing names))

theorem grown_of_missing_nil (descriptors : Descriptors) (policy : Policy) {names : List String}
    (nothing : progress.session.tree.missing names = []) :
    progress.grown descriptors policy names = progress := by
  have noLock : progress.session.tree.opened? policy names = none := if_pos nothing
  simp only [grown, noLock, nothing]
  exact reporting_nil progress

end Progress

namespace Work

variable {descriptors : Descriptors} {policy : Policy} {progress : Progress} {above : Address}
  {name : String} {names rest : List String}

theorem path_of_unlocks? {lock : Address} (proper : ∀ other ∈ above, Path.IsSegment other)
    (unlocked : policy.unlocks? progress.session.tree above = some lock) :
    Address.path lock = .ok (Path.ofNames lock.reverse) := by
  rcases Tree.lock?_eq_some_iff.1 (Policy.lock?_of_unlocks? unlocked) with ⟨nearest, -⟩
  have suffix := Tree.suffix_of_nearestVersionable? nearest
  exact Address.path_of_segments fun other otherMem => proper other (suffix.subset otherMem)

theorem runFrom_checkoutIfNecessary (proper : ∀ other ∈ above, Path.IsSegment other) :
    (checkoutIfNecessary policy above).runFrom progress =
      (.ok (), progress.unlocking (policy.unlocks? progress.session.tree above)) := by
  cases unlocked : policy.unlocks? progress.session.tree above with
  | none => exact runFrom_checkoutIfNecessary_of_none unlocked
  | some lock =>
      exact runFrom_checkoutIfNecessary_of_some unlocked (path_of_unlocks? proper unlocked)

/-- Under a policy that checks nodes out, a node may be changed once its lock is taken off. -/
theorem isCheckedOut_unlocking (isOn : policy.autoCheckout) :
    (progress.unlocking (policy.unlocks? progress.session.tree above)).session.tree.isCheckedOut
      above := by
  cases unlocked : policy.unlocks? progress.session.tree above with
  | none => exact Policy.isCheckedOut_of_unlocks?_eq_none isOn unlocked
  | some lock => exact isCheckedOut_unlock unlocked

theorem runFrom_createMissing_unlock {lock : Address}
    (proper : ∀ other ∈ name :: above, Path.IsSegment other)
    (absent : name :: above ∉ progress.session.tree)
    (unlocked : policy.unlocks? progress.session.tree above = some lock) :
    ((name :: rest).foldlM (enter (checkoutIfNecessary policy) descriptors) above).runFrom
        progress =
      ((name :: rest).foldlM (enter (checkoutIfNecessary policy) descriptors) above).runFrom
        (progress.unlocking (some lock)) := by
  have named : Address.path lock = .ok (Path.ofNames lock.reverse) :=
    path_of_unlocks? (List.forall_mem_cons.1 proper).2 unlocked
  have absentAfter : name :: above ∉ (progress.unlocking (some lock)).session.tree :=
    fun present => absent (Progress.mem_unlocking.1 present)
  rw [List.foldlM_cons, runFrom_bind, runFrom_bind, runFrom_enter_of_notMem absent,
    runFrom_enter_of_notMem absentAfter, runFrom_addRequested_unlock proper unlocked named]
  rfl

theorem runFrom_createMissing_of_isOpen (proper : ∀ name ∈ names, Path.IsSegment name)
    (missing : progress.session.tree.missing names = name :: rest)
    (free : progress.session.tree.property? (progress.session.tree.deepest names) name = none)
    (isOpen : (progress.unlocking
      (progress.session.tree.opened? policy names)).session.tree.isCheckedOut
        (progress.session.tree.deepest names)) :
    ((name :: rest).foldlM (enter (checkoutIfNecessary policy) descriptors)
        (progress.session.tree.deepest names)).runFrom progress =
      (.ok names.reverse, progress.grown descriptors policy names) := by
  let deepest := progress.session.tree.deepest names
  let opened := progress.session.tree.opened? policy names
  have openedEq : opened = policy.unlocks? progress.session.tree deepest :=
    Tree.opened?_of_missing missing policy
  have whole : (name :: rest).reverse ++ deepest = names.reverse := by
    rw [← missing]
    exact Tree.missing_reverse_append_deepest progress.session.tree names
  have wholeProper : ∀ other ∈ (name :: rest).reverse ++ deepest, Path.IsSegment other := by
    simpa only [whole, List.mem_reverse] using proper
  have absent : name :: deepest ∉ progress.session.tree :=
    Tree.cons_deepest_notMem (Tree.mem_head?_missing missing)
  have present : deepest ∈ (progress.unlocking opened).session.tree :=
    Progress.mem_unlocking.2 (Tree.deepest_mem names)
  have firstAbsent : ∀ first ∈ (name :: rest).head?,
      first :: deepest ∉ (progress.unlocking opened).session.tree := by
    rintro _ ⟨⟩
    exact fun present => absent (Progress.mem_unlocking.1 present)
  have firstFree : ∀ first ∈ (name :: rest).head?,
      (progress.unlocking opened).session.tree.property? deepest first = none := by
    rintro _ ⟨⟩
    rwa [Progress.property?_unlocking]
  have grownRun := runFrom_foldlM_enter descriptors policy wholeProper present firstAbsent firstFree
    isOpen
  have sameRun : ((name :: rest).foldlM (enter (checkoutIfNecessary policy) descriptors)
        deepest).runFrom progress =
      ((name :: rest).foldlM (enter (checkoutIfNecessary policy) descriptors) deepest).runFrom
        (progress.unlocking opened) := by
    cases isLocked : opened with
    | none => rfl
    | some lock =>
        rw [isLocked] at openedEq
        have firstProper : ∀ other ∈ name :: deepest, Path.IsSegment other :=
          Tree.isSegment_of_missing proper (Tree.mem_head?_missing missing)
        exact runFrom_createMissing_unlock firstProper absent openedEq.symm
  rw [sameRun, grownRun, whole, Progress.grown, missing, Progress.defaultType_unlocking]

/-- The creation of what is missing is refused and leaves everything as it is, or it grows the whole
chain. -/
theorem runFrom_createMissing (descriptors : Descriptors) (policy : Policy)
    (proper : ∀ name ∈ names, Path.IsSegment name)
    (unobstructed : progress.session.tree.obstacle? names = none) :
    ((progress.session.tree.missing names).foldlM (enter (checkoutIfNecessary policy) descriptors)
        (progress.session.tree.deepest names)).runFrom progress =
      match progress.session.tree.refusal? policy names with
      | some fault => (.error fault, progress)
      | none => (.ok names.reverse, progress.grown descriptors policy names) := by
  cases missing : progress.session.tree.missing names with
  | nil =>
      simp only [Tree.refusal?, missing, Progress.grown_of_missing_nil descriptors policy missing,
        Tree.deepest_of_missing_nil missing]
      rfl
  | cons name rest =>
      have free : progress.session.tree.property? (progress.session.tree.deepest names) name =
          none := by
        simpa [Tree.obstacle?_of_missing missing] using unobstructed
      have absent : name :: progress.session.tree.deepest names ∉ progress.session.tree :=
        Tree.cons_deepest_notMem (Tree.mem_head?_missing missing)
      by_cases kept : policy.autoCheckout = false ∧
          (progress.session.tree.lock? (progress.session.tree.deepest names)).isSome
      · have isLocked : progress.session.tree.isCheckedOut
            (progress.session.tree.deepest names) = false := Tree.isSome_lock?_iff.1 kept.2
        have firstProper : ∀ other ∈ name :: progress.session.tree.deepest names,
            Path.IsSegment other :=
          Tree.isSegment_of_missing proper (Tree.mem_head?_missing missing)
        rw [List.foldlM_cons, runFrom_bind, runFrom_enter_of_notMem absent,
          runFrom_addRequested_of_locked firstProper (Tree.deepest_mem names) absent free
            (Policy.unlocks?_of_not_autoCheckout kept.1) isLocked]
        simp only [Tree.refusal?, missing, free, Option.isSome_none, Bool.false_eq_true, ↓reduceIte,
          kept, and_self]
      · have isOpen : (progress.unlocking
            (progress.session.tree.opened? policy names)).session.tree.isCheckedOut
            (progress.session.tree.deepest names) := by
          rw [Tree.opened?_of_missing missing]
          cases isOn : policy.autoCheckout with
          | true => exact isCheckedOut_unlocking isOn
          | false =>
              rw [Policy.unlocks?_of_not_autoCheckout isOn, Progress.unlocking, ← Bool.not_eq_false]
              exact fun isLocked => kept ⟨isOn, Tree.isSome_lock?_iff.2 isLocked⟩
        rw [runFrom_createMissing_of_isOpen proper missing free isOpen]
        simp only [Tree.refusal?, missing, free, Option.isSome_none, Bool.false_eq_true, ↓reduceIte,
          kept]

/-- On a session that is not stale, a creation is refused and leaves everything as it is, or it
grows the whole chain. -/
theorem runFrom_create_of_normalize {path : String} (descriptors : Descriptors) (policy : Policy)
    (fresh : progress.session.stale = []) (proper : ∀ name ∈ names, Path.IsSegment name)
    (normalized : Path.normalize path = .ok (Path.ofNames names)) :
    (create .ifNecessary descriptors policy (some path)).runFrom progress =
      match progress.session.tree.refusal? policy names with
      | some fault => (.error fault, progress)
      | none => (.ok names.reverse, progress.grown descriptors policy names) := by
  rw [runFrom_create, runFrom_createKnowing progress.session.isSome_item?_of_knows proper
    normalized, Session.knows_of_fresh fresh]
  cases obstacle : progress.session.tree.obstacle? names with
  | none =>
      simp only [Option.isSome_none, Bool.false_eq_true, false_and, ↓reduceIte]
      exact runFrom_createMissing descriptors policy proper obstacle
  | some name =>
      rcases Tree.obstacle?_eq_some_iff.1 obstacle with ⟨rest, missing, isProperty⟩
      have found := Tree.item?_of_obstacle? proper obstacle
      simp only [found, Tree.refusal?, missing, isProperty, ↓reduceIte, Option.isSome_some,
        and_self]
      rw [Tree.take_of_missing missing]

/-- Nothing has to be checked out for a node that has just been created. -/
theorem unlocks?_grown (absent : names.reverse ∉ progress.session.tree) :
    policy.unlocks? (progress.grown descriptors policy names).session.tree names.reverse =
      none := by
  cases isOn : policy.autoCheckout with
  | false => exact Policy.unlocks?_of_not_autoCheckout isOn
  | true =>
      rcases List.exists_cons_of_ne_nil (mt Tree.missing_eq_nil_iff.1 absent) with
        ⟨name, rest, missing⟩
      apply Policy.unlocks?_of_isCheckedOut
      simp only [Progress.grown, Progress.session_reporting, Progress.tree_withTree]
      rw [← progress.session.tree.missing_reverse_append_deepest names]
      apply Tree.isCheckedOut_extend _ _ fun _ => rfl
      rw [Tree.opened?_of_missing missing]
      exact isCheckedOut_unlocking isOn

theorem runFrom_create_eq_ok_iff {path : String} {address : Address} {later : Progress}
    (fresh : progress.session.stale = []) (proper : ∀ name ∈ names, Path.IsSegment name)
    (normalized : Path.normalize path = .ok (Path.ofNames names)) :
    (create .ifNecessary descriptors policy (some path)).runFrom progress = (.ok address, later) ↔
      progress.session.tree.refusal? policy names = none ∧ address = names.reverse ∧
        later = progress.grown descriptors policy names := by
  rw [runFrom_create_of_normalize descriptors policy fresh proper normalized]
  cases progress.session.tree.refusal? policy names with
  | some fault => simp
  | none => simp [eq_comm]

theorem exists_names_of_runFrom_create {path : Option String} {address : Address} {later : Progress}
    (ran : (create .ifNecessary descriptors policy path).runFrom progress = (.ok address, later)) :
    ∃ text names, path = some text ∧ (∀ name ∈ names, Path.IsSegment name) ∧
      Path.normalize text = .ok (Path.ofNames names) := by
  rcases Path.malformed_or_normal path with ⟨fault, malformed⟩ | ⟨text, normal, rfl, normalized⟩
  · rw [runFrom_create, runFrom_createKnowing_of_malformed malformed] at ran
    cases ran
  · rcases Path.exists_segments_of_normalize normalized with ⟨names, proper, rfl⟩
    exact ⟨text, names, rfl, proper, normalized⟩

end Work

end ContentTree
