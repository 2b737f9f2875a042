import ContentTree.Proofs.Creation.Stepwise
import Mathlib.Data.List.Nodup

/-!
# Creations in either order

Two creations that succeed one after the other also succeed the other way round, and but for the
order of siblings and of reports the outcome is the same (`create_commutes`).

What both of them would create may as well be created beforehand, because a creation may be made
step by step. After that their ways part at a node that is there. Neither of them then adds a node
on the way of the other, so that each starts at the same deepest node and is refused or not
whichever comes first (`refusal?_grown`). All that one can do for the other is to take off the lock
that both of them need to be taken off; this is done once, in either order (`opened?_grown`).
-/

namespace ContentTree

namespace Tree

variable {tree other : Tree} {parent : Address} {names others : List String}

theorem mem_childNames_iff {name : String} :
    name ∈ tree.childNames parent ↔ name :: parent ∈ tree := by
  rw [childNames, List.mem_filterMap, ← mem_nodes, ← Table.mem_keys]
  constructor
  · rintro ⟨_ | ⟨first, above⟩, isKey, isChild⟩
    · cases isChild
    · rw [Option.ite_none_right_eq_some, Option.some.injEq] at isChild
      rcases isChild with ⟨rfl, rfl⟩
      exact isKey
  · intro isKey
    exact ⟨name :: parent, isKey, if_pos rfl⟩

theorem nodup_childNames (tree : Tree) (parent : Address) : (tree.childNames parent).Nodup := by
  apply List.Nodup.filterMap _ tree.nodes.nodup_keys
  rintro (_ | ⟨first, above⟩) (_ | ⟨second, higher⟩) name firstName secondName
  · rfl
  · cases firstName
  · cases secondName
  · rw [Option.mem_def, Option.ite_none_right_eq_some, Option.some.injEq] at firstName secondName
    rcases firstName with ⟨rfl, rfl⟩
    rcases secondName with ⟨rfl, rfl⟩
    rfl

/-- Trees that store the same nodes differ in the order of siblings at most. -/
theorem perm_childNames (same : ∀ address, tree.node? address = other.node? address)
    (parent : Address) : (tree.childNames parent).Perm (other.childNames parent) := by
  rw [List.perm_ext_iff_of_nodup (tree.nodup_childNames parent) (other.nodup_childNames parent)]
  intro name
  rw [mem_childNames_iff, mem_childNames_iff, ← node?_isSome_iff, ← node?_isSome_iff, same]

/-- The nodes that the ways along two lists of names have in common are all there. -/
def PartsWithin (tree : Tree) (names others : List String) : Prop :=
  ∀ address, address <:+ names.reverse → address <:+ others.reverse → address ∈ tree

theorem PartsWithin.symm (parts : tree.PartsWithin names others) :
    tree.PartsWithin others names :=
  fun address suffix otherSuffix => parts address otherSuffix suffix

end Tree

/-- Two lists of names have a longest leading part in common. -/
theorem exists_common_prefix (names others : List String) :
    ∃ common, common <+: names ∧ common <+: others ∧
      ∀ lead, lead <+: names → lead <+: others → lead <+: common := by
  induction names generalizing others with
  | nil => exact ⟨[], List.nil_prefix, List.nil_prefix, fun _ isNil _ => isNil⟩
  | cons name rest ih =>
      cases others with
      | nil => exact ⟨[], List.nil_prefix, List.nil_prefix, fun _ _ isNil => isNil⟩
      | cons other others =>
          by_cases same : name = other
          · subst same
            rcases ih others with ⟨common, isPrefix, isOtherPrefix, longest⟩
            refine ⟨name :: common, List.cons_prefix_cons.2 ⟨rfl, isPrefix⟩,
              List.cons_prefix_cons.2 ⟨rfl, isOtherPrefix⟩, ?_⟩
            rintro (_ | ⟨first, lead⟩) leads leadsOther
            · exact List.nil_prefix
            · rcases List.cons_prefix_cons.1 leads with ⟨rfl, restLeads⟩
              rcases List.cons_prefix_cons.1 leadsOther with ⟨-, restLeadsOther⟩
              exact List.cons_prefix_cons.2 ⟨rfl, longest lead restLeads restLeadsOther⟩
          · refine ⟨[], List.nil_prefix, List.nil_prefix, ?_⟩
            rintro (_ | ⟨first, lead⟩) leads leadsOther
            · exact List.nil_prefix
            · rcases List.cons_prefix_cons.1 leads with ⟨rfl, -⟩
              exact absurd (List.cons_prefix_cons.1 leadsOther).1 same

namespace Progress

variable {progress : Progress} {address : Address} {descriptors : Descriptors} {policy : Policy}
  {names others : List String}

theorem lock?_grown (descriptors : Descriptors) (policy : Policy) (names : List String)
    (present : address ∈ progress.session.tree) :
    (progress.grown descriptors policy names).session.tree.lock? address =
      (progress.session.tree.lock? address).filter
        (some · ≠ progress.session.tree.opened? policy names) := by
  have sameLock : (progress.grown descriptors policy names).session.tree.lock? address =
      (progress.unlocking (progress.session.tree.opened? policy names)).session.tree.lock?
        address := by
    apply Tree.lock?_congr
    intro above suffix
    exact node?_grown_of_mem descriptors policy names (Tree.mem_of_suffix suffix present)
  rw [sameLock]
  cases progress.session.tree.opened? policy names with
  | none =>
      simp only [unlocking]
      cases progress.session.tree.lock? address <;> rfl
  | some lock =>
      have unlocked := progress.session.tree.lock?_unlock lock address
      simpa [unlocking, unlock] using unlocked

section Parted

variable (parts : progress.session.tree.PartsWithin names others)
include parts

/-- A creation adds no node on the way along a list of names that parts from its own. -/
theorem reach_grown : (progress.grown descriptors policy names).session.tree.reach [] others =
    progress.session.tree.reach [] others := by
  apply Tree.reach_congr
  intro address suffix
  rw [(Work.creationEffect_grown progress _ _ _).mem_iff]
  constructor
  · rintro (⟨isNew, -⟩ | old)
    · exact parts address isNew suffix
    · exact old
  · exact .inr

theorem deepest_grown : (progress.grown descriptors policy names).session.tree.deepest others =
    progress.session.tree.deepest others := by
  rw [Tree.deepest, Tree.deepest, reach_grown parts]

theorem missing_grown : (progress.grown descriptors policy names).session.tree.missing others =
    progress.session.tree.missing others := by
  rw [Tree.missing, Tree.missing, reach_grown parts]

/-- After a creation a lock need not be taken off that the creation has taken off. -/
theorem opened?_grown :
    (progress.grown descriptors policy names).session.tree.opened? policy others =
      (progress.session.tree.opened? policy others).filter
        (some · ≠ progress.session.tree.opened? policy names) := by
  have present : progress.session.tree.deepest others ∈ progress.session.tree :=
    Tree.deepest_mem others
  have sameLock := lock?_grown descriptors policy names present
  generalize progress.session.tree.opened? policy names = taken at sameLock ⊢
  simp only [Tree.opened?, Policy.unlocks?, missing_grown parts, deepest_grown parts, sameLock]
  split
  · rfl
  · split <;> rfl

/-- Whether a creation is refused does not depend on one whose way parts from its own. -/
theorem refusal?_grown :
    (progress.grown descriptors policy names).session.tree.refusal? policy others =
      progress.session.tree.refusal? policy others := by
  have present : progress.session.tree.deepest others ∈ progress.session.tree :=
    Tree.deepest_mem others
  have sameLock := lock?_grown descriptors policy names present
  simp only [Tree.refusal?, missing_grown parts, deepest_grown parts,
    property?_grown descriptors policy names present]
  cases isOn : policy.autoCheckout with
  | true => simp only [Bool.true_eq_false, false_and]
  | false =>
      have noneOpened : progress.session.tree.opened? policy names = none := by
        simp [Tree.opened?, Policy.unlocks?_of_not_autoCheckout isOn]
      rw [sameLock, noneOpened]
      cases progress.session.tree.lock? (progress.session.tree.deepest others) <;> rfl

/-- The nodes that two creations leave do not depend on their order. -/
theorem node?_grown_grown (address : Address) :
    ((progress.grown descriptors policy names).grown descriptors policy others).session.tree.node?
        address =
      if (address <:+ names.reverse ∧
            progress.session.tree.reach [] names < address.length) ∨
          (address <:+ others.reverse ∧
            progress.session.tree.reach [] others < address.length) then
        some (descriptors.newNode progress.session.defaultType address)
      else
        (progress.session.tree.node? address).map fun node =>
          if progress.session.tree.opened? policy names = some address ∨
              progress.session.tree.opened? policy others = some address then
            { node with checkedOut := true }
          else node := by
  have first := Work.creationEffect_grown progress descriptors policy names
  have second := Work.creationEffect_grown (progress.grown descriptors policy names) descriptors
    policy others
  rw [second.node?, first.node?, first.defaultType, reach_grown parts, opened?_grown parts]
  by_cases isLater : address <:+ others.reverse ∧
      progress.session.tree.reach [] others < address.length
  · rw [if_pos isLater, if_pos (.inr isLater)]
  · rw [if_neg isLater]
    by_cases isFirst : address <:+ names.reverse ∧
        progress.session.tree.reach [] names < address.length
    · rw [if_pos isFirst, if_pos (.inl isFirst), Option.map_some]
      split <;> rfl
    · rw [if_neg isFirst, if_neg (not_or.2 ⟨isFirst, isLater⟩), Option.map_map]
      apply Option.map_congr
      intro node _
      by_cases isTaken : progress.session.tree.opened? policy names = some address
      · simp [isTaken]
      · simp [isTaken, Ne.symm isTaken, Option.filter_eq_some_iff]

end Parted

end Progress

/-- To take off two locks, the second one only if it is another, takes off the same locks in either
order. -/
theorem perm_toList_filter {Value : Type} [DecidableEq Value] (first second : Option Value) :
    (first.toList ++ (second.filter (some · ≠ first)).toList).Perm
      (second.toList ++ (first.filter (some · ≠ second)).toList) := by
  cases first with
  | none => cases second <;> simp [Option.filter_some]
  | some value =>
      cases second with
      | none => simp [Option.filter_some]
      | some other =>
          by_cases same : value = other
          · simp [same]
          · simpa [same, Ne.symm same, Option.filter_some] using List.Perm.swap other value []

open scoped List in
/-- If two lists have the same entries, they still do with the same lists put in between and
after. -/
theorem perm_append_append {Value : Type} {first second laterFirst laterSecond : List Value}
    (perm : first ++ laterSecond ~ second ++ laterFirst) (ofFirst ofSecond : List Value) :
    first ++ ofFirst ++ (laterSecond ++ ofSecond) ~
      second ++ ofSecond ++ (laterFirst ++ ofFirst) := by
  have gather : ∀ left inner right outer : List Value,
      left ++ inner ++ (right ++ outer) ~ left ++ right ++ (inner ++ outer) := by
    intro left inner right outer
    simpa only [List.append_assoc] using
      (List.perm_append_comm_assoc inner right outer).append_left left
  calc first ++ ofFirst ++ (laterSecond ++ ofSecond)
      ~ first ++ laterSecond ++ (ofFirst ++ ofSecond) := gather ..
    _ ~ second ++ laterFirst ++ (ofSecond ++ ofFirst) := perm.append List.perm_append_comm
    _ ~ second ++ ofSecond ++ (laterFirst ++ ofFirst) := gather ..

namespace Progress

/-- The same nodes are left, and the same changes were reported since, but siblings and reports may
come in another order. -/
structure SameButOrder (before left right : Progress) : Prop where
  node? : ∀ address, left.session.tree.node? address = right.session.tree.node? address
  childNames : ∀ parent,
    (left.session.tree.childNames parent).Perm (right.session.tree.childNames parent)
  changes : ∃ reported others, left.changes = before.changes ++ reported ∧
    right.changes = before.changes ++ others ∧ reported.Perm others

section Swap

variable {progress : Progress} {descriptors : Descriptors} {policy : Policy}
  {names others : List String}

/-- Creations whose ways part leave the same nodes and report the same changes in either order. -/
theorem sameButOrder_grown_grown (parts : progress.session.tree.PartsWithin names others) :
    SameButOrder progress
      ((progress.grown descriptors policy names).grown descriptors policy others)
      ((progress.grown descriptors policy others).grown descriptors policy names) := by
  have sameNodes : ∀ address,
      ((progress.grown descriptors policy names).grown descriptors policy
        others).session.tree.node? address =
      ((progress.grown descriptors policy others).grown descriptors policy
        names).session.tree.node? address := by
    intro address
    rw [node?_grown_grown parts, node?_grown_grown parts.symm]
    simp only [or_comm]
  have left := Work.creationEffect_grown (progress.grown descriptors policy names) descriptors
    policy others
  have right := Work.creationEffect_grown (progress.grown descriptors policy others) descriptors
    policy names
  have opened := perm_toList_filter (progress.session.tree.opened? policy names)
    (progress.session.tree.opened? policy others)
  refine ⟨sameNodes, Tree.perm_childNames sameNodes, ?_⟩
  rw [left.changes, right.changes, (Work.creationEffect_grown progress _ _ names).changes,
    (Work.creationEffect_grown progress _ _ others).changes, opened?_grown parts,
    opened?_grown parts.symm, reach_grown parts, reach_grown parts.symm]
  simp only [List.append_assoc]
  refine ⟨_, _, rfl, rfl, ?_⟩
  have reports := opened.map fun lock => Change.checkedOut (Path.ofNames lock.reverse)
  simp only [List.map_append] at reports
  simpa only [List.append_assoc] using perm_append_append reports _ _

end Swap

end Progress

namespace Work

variable {descriptors : Descriptors} {policy : Policy} {progress middle last : Progress}
  {names others rest : List String} {first second path : String}
  {address firstAddress secondAddress : Address}

/-- A creation succeeds exactly if the nodes along a leading part of its path can be created and it
succeeds after that. -/
theorem runFrom_create_eq_ok_iff_of_lead (fresh : progress.session.stale = [])
    (proper : ∀ name ∈ names ++ rest, Path.IsSegment name)
    (normalized : Path.normalize path = .ok (Path.ofNames (names ++ rest))) :
    (create .ifNecessary descriptors policy (some path)).runFrom progress = (.ok address, last) ↔
      progress.session.tree.refusal? policy names = none ∧
        (create .ifNecessary descriptors policy (some path)).runFrom
          (progress.grown descriptors policy names) = (.ok address, last) := by
  have leadProper : ∀ name ∈ names, Path.IsSegment name :=
    fun name nameMem => proper name (List.mem_append_left _ nameMem)
  have leadNormalized := Path.normalize_ofNames leadProper
  rw [← runFrom_create_bind_create fresh proper leadNormalized normalized, runFrom_bind_eq_ok_iff]
  simp only [runFrom_create_eq_ok_iff fresh leadProper leadNormalized]
  constructor
  · rintro ⟨_, _, ⟨unrefused, rfl, rfl⟩, ran⟩
    exact ⟨unrefused, ran⟩
  · rintro ⟨unrefused, ran⟩
    exact ⟨_, _, ⟨unrefused, rfl, rfl⟩, ran⟩

/-- Creations whose ways part can be swapped. -/
theorem runFrom_create_swap (fresh : progress.session.stale = [])
    (parts : progress.session.tree.PartsWithin names others)
    (proper : ∀ name ∈ names, Path.IsSegment name)
    (othersProper : ∀ name ∈ others, Path.IsSegment name)
    (normalized : Path.normalize first = .ok (Path.ofNames names))
    (othersNormalized : Path.normalize second = .ok (Path.ofNames others))
    (firstRan : (create .ifNecessary descriptors policy (some first)).runFrom progress =
      (.ok firstAddress, middle))
    (secondRan : (create .ifNecessary descriptors policy (some second)).runFrom middle =
      (.ok secondAddress, last)) :
    ∃ otherMiddle otherLast,
      (create .ifNecessary descriptors policy (some second)).runFrom progress =
        (.ok secondAddress, otherMiddle) ∧
      (create .ifNecessary descriptors policy (some first)).runFrom otherMiddle =
        (.ok firstAddress, otherLast) ∧
      progress.SameButOrder last otherLast := by
  have freshLater : ∀ names, (progress.grown descriptors policy names).session.stale = [] :=
    fun names => (creationEffect_grown progress descriptors policy names).stale.trans fresh
  rcases (runFrom_create_eq_ok_iff fresh proper normalized).1 firstRan with
    ⟨unrefused, rfl, rfl⟩
  rcases (runFrom_create_eq_ok_iff (freshLater names) othersProper othersNormalized).1 secondRan
    with ⟨othersUnrefused, rfl, rfl⟩
  have sameRefusal : (progress.grown descriptors policy others).session.tree.refusal? policy names =
      progress.session.tree.refusal? policy names := Progress.refusal?_grown parts.symm
  rw [Progress.refusal?_grown parts] at othersUnrefused
  refine ⟨progress.grown descriptors policy others,
    (progress.grown descriptors policy others).grown descriptors policy names, ?_, ?_,
    Progress.sameButOrder_grown_grown parts⟩
  · exact (runFrom_create_eq_ok_iff fresh othersProper othersNormalized).2
      ⟨othersUnrefused, rfl, rfl⟩
  · exact (runFrom_create_eq_ok_iff (freshLater others) proper normalized).2
      ⟨sameRefusal.trans unrefused, rfl, rfl⟩

/-- Two creations that succeed one after the other also succeed the other way round. They answer
with the same nodes and leave the same nodes, and they report the same changes; only the order of
siblings and of reports may differ. -/
theorem create_commutes (tree : Tree) (defaultType : String) (changes : List Change)
    (checkouts : List String) (descriptors : Descriptors) (policy : Policy)
    (first second : Option String) (firstAddress secondAddress : Address) (middle last : Progress)
    (firstRan : (create .ifNecessary descriptors policy first).runFrom
      { session := { tree, defaultType }, changes, checkouts } = (.ok firstAddress, middle))
    (secondRan : (create .ifNecessary descriptors policy second).runFrom middle =
      (.ok secondAddress, last)) :
    ∃ otherMiddle otherLast,
      (create .ifNecessary descriptors policy second).runFrom
        { session := { tree, defaultType }, changes, checkouts } =
          (.ok secondAddress, otherMiddle) ∧
      (create .ifNecessary descriptors policy first).runFrom otherMiddle =
        (.ok firstAddress, otherLast) ∧
      Progress.SameButOrder { session := { tree, defaultType }, changes, checkouts } last
        otherLast := by
  let before : Progress := { session := { tree, defaultType }, changes, checkouts }
  rcases exists_names_of_runFrom_create firstRan with ⟨first, names, rfl, proper, normalized⟩
  rcases exists_names_of_runFrom_create secondRan with
    ⟨second, others, rfl, othersProper, othersNormalized⟩
  rcases exists_common_prefix names others with ⟨common, ⟨rest, rfl⟩, ⟨othersRest, rfl⟩, longest⟩
  -- The nodes on both ways are created beforehand.
  let shared := before.grown descriptors policy common
  have effect : CreationEffect descriptors policy common before shared :=
    creationEffect_grown before descriptors policy common
  have parts : shared.session.tree.PartsWithin (common ++ rest) (common ++ othersRest) := by
    intro address suffix otherSuffix
    have onBoth := longest address.reverse (List.reverse_suffix.1 (by simpa using suffix))
      (List.reverse_suffix.1 (by simpa using otherSuffix))
    exact Tree.mem_of_suffix (by simpa using List.reverse_suffix.2 onBoth) effect.target_mem
  rcases (runFrom_create_eq_ok_iff_of_lead rfl proper normalized).1 firstRan with
    ⟨unrefused, sharedRan⟩
  rcases runFrom_create_swap effect.stale parts proper othersProper normalized othersNormalized
    sharedRan secondRan with ⟨otherMiddle, otherLast, othersRan, lastRan, same⟩
  refine ⟨otherMiddle, otherLast,
    (runFrom_create_eq_ok_iff_of_lead rfl othersProper othersNormalized).2
      ⟨unrefused, othersRan⟩, lastRan, same.node?, same.childNames, ?_⟩
  rcases same.changes with ⟨reported, otherReported, logged, otherLogged, perm⟩
  rw [effect.changes, List.append_assoc, List.append_assoc] at logged otherLogged
  refine ⟨_, _, logged, otherLogged, ?_⟩
  simpa only [List.append_assoc] using (perm.append_left _).append_left _

theorem create_commutes_archive :
    ∃ middle last otherMiddle otherLast,
      (create .ifNecessary ∅ { autoCheckout := true } (some "/archive/2024/may/3")).runFrom
        { session := { tree := Tree.archive } } =
          (.ok ["3", "may", "2024", "archive"], middle) ∧
      (create .ifNecessary ∅ { autoCheckout := true } (some "/archive/2024/may/4")).runFrom middle =
        (.ok ["4", "may", "2024", "archive"], last) ∧
      (create .ifNecessary ∅ { autoCheckout := true } (some "/archive/2024/may/4")).runFrom
        { session := { tree := Tree.archive } } =
          (.ok ["4", "may", "2024", "archive"], otherMiddle) ∧
      (create .ifNecessary ∅ { autoCheckout := true } (some "/archive/2024/may/3")).runFrom
        otherMiddle = (.ok ["3", "may", "2024", "archive"], otherLast) ∧
      Progress.SameButOrder { session := { tree := Tree.archive } } last otherLast := by
  let policy : Policy := { autoCheckout := true }
  let firstRun := (create .ifNecessary ∅ policy (some "/archive/2024/may/3")).runFrom
    { session := { tree := Tree.archive } }
  let secondRun := (create .ifNecessary ∅ policy (some "/archive/2024/may/4")).runFrom firstRun.2
  have firstAnswered : firstRun.1 = .ok ["3", "may", "2024", "archive"] := by decide +kernel
  have secondAnswered : secondRun.1 = .ok ["4", "may", "2024", "archive"] := by decide +kernel
  have firstRan : firstRun = (.ok ["3", "may", "2024", "archive"], firstRun.2) :=
    Prod.ext firstAnswered rfl
  have secondRan : secondRun = (.ok ["4", "may", "2024", "archive"], secondRun.2) :=
    Prod.ext secondAnswered rfl
  have swapped := create_commutes Tree.archive unstructuredType [] [] ∅ policy
    (some "/archive/2024/may/3") (some "/archive/2024/may/4") _ _ _ _ firstRan secondRan
  rcases swapped with ⟨otherMiddle, otherLast, otherRan, lastRan, same⟩
  exact ⟨firstRun.2, secondRun.2, otherMiddle, otherLast, firstRan, secondRan, otherRan, lastRan,
    same⟩

end Work

end ContentTree
