import ContentTree.Proofs.Path.NormalForm
import ContentTree.Tree.Item

/-!
# How far a list of names leads

A list of names leads from the root down to nodes, child by child, until a name is met that is not
the name of a child. The number of names that come before it is the reach of the list in the tree,
and the node they lead to is the deepest one on the way. Since the parent of every node is there,
the leading parts of the list that lead to nodes are those that are not longer than its reach
(`take_mem_iff_le_reach`).

The next name may be that of a property of the deepest node, which then obstructs the way. Apart
from this property no item is found at any longer leading part (`item?_take_of_reach_lt`).
-/

namespace ContentTree

namespace Address

theorem join_of_segments {name : String} {above : Address}
    (proper : ∀ other ∈ name :: above, Path.IsSegment other) :
    Path.join (Path.ofNames above.reverse) name =
      .ok (Path.ofNames (name :: above).reverse) := by
  rcases List.forall_mem_cons.1 proper with ⟨nameProper, aboveProper⟩
  rw [List.reverse_cons]
  exact Path.join_ofNames (by simpa using aboveProper) nameProper

theorem path_of_segments {address : Address} (proper : ∀ name ∈ address, Path.IsSegment name) :
    path address = .ok (Path.ofNames address.reverse) := by
  induction address with
  | nil => rfl
  | cons name above ih =>
      have abovePath := ih (List.forall_mem_cons.1 proper).2
      simp only [path, abovePath, bind, Except.bind, join_of_segments proper]

end Address

namespace Tree

variable {tree : Tree}

/-- How many leading names of a list lead from a node down to nodes, child by child. -/
def reach (tree : Tree) (above : Address) : List String → Nat
  | [] => 0
  | name :: rest => if name :: above ∈ tree then tree.reach (name :: above) rest + 1 else 0

/-- The deepest node on the way along a list of names from the root. -/
def deepest (tree : Tree) (names : List String) : Address :=
  (names.take (tree.reach [] names)).reverse

/-- The names for which there are no nodes on the way along a list of names from the root. -/
def missing (tree : Tree) (names : List String) : List String :=
  names.drop (tree.reach [] names)

/-- The name after the deepest node on the way, if it is that of a property of this node. -/
def obstacle? (tree : Tree) (names : List String) : Option String :=
  (tree.missing names).head?.filter fun name => (tree.property? (tree.deepest names) name).isSome

theorem mem_of_suffix {above address : Address} (suffix : above <:+ address)
    (present : address ∈ tree) : above ∈ tree := by
  rcases suffix with ⟨lower, rfl⟩
  induction lower with
  | nil => exact present
  | cons name rest ih => exact ih (mem_of_cons_mem present)

theorem reach_le (tree : Tree) (above : Address) (names : List String) :
    tree.reach above names ≤ names.length := by
  induction names generalizing above with
  | nil => simp [reach]
  | cons name rest ih =>
      rw [reach]
      split
      · have restBound := ih (name :: above)
        simp only [List.length_cons]
        omega
      · omega

theorem take_reverse_mem_iff_le_reach {above : Address} (present : above ∈ tree)
    {names : List String} {size : Nat} (within : size ≤ names.length) :
    (names.take size).reverse ++ above ∈ tree ↔ size ≤ tree.reach above names := by
  induction names generalizing above size with
  | nil =>
      have isZero : size = 0 := by simpa using within
      subst size
      simpa using present
  | cons name rest ih =>
      rcases size with _ | size
      · simpa using present
      · have shift : ((name :: rest).take (size + 1)).reverse ++ above =
            (rest.take size).reverse ++ (name :: above) := by simp
        rw [shift, reach]
        by_cases child : name :: above ∈ tree
        · rw [if_pos child, ih child (by simpa using within)]
          omega
        · rw [if_neg child]
          have absent : (rest.take size).reverse ++ (name :: above) ∉ tree :=
            fun member => child (mem_of_suffix (List.suffix_append _ _) member)
          constructor
          · intro member
            exact absurd member absent
          · intro impossible
            omega

/-- The leading parts that lead to nodes are those within the reach of the list. -/
theorem take_mem_iff_le_reach {names : List String} {size : Nat} (within : size ≤ names.length) :
    (names.take size).reverse ∈ tree ↔ size ≤ tree.reach [] names := by
  simpa using take_reverse_mem_iff_le_reach tree.nil_mem within

theorem reverse_mem_iff_le_reach {names : List String} :
    names.reverse ∈ tree ↔ names.length ≤ tree.reach [] names := by
  rw [← take_mem_iff_le_reach (Nat.le_refl _), List.take_length]

theorem length_le_reach {names : List String} {address : Address}
    (suffix : address <:+ names.reverse) (present : address ∈ tree) :
    address.length ≤ tree.reach [] names := by
  have isPrefix : address.reverse <+: names := by simpa using List.reverse_prefix.2 suffix
  have taken := List.prefix_iff_eq_take.1 isPrefix
  rwa [← List.reverse_reverse address, taken, take_mem_iff_le_reach isPrefix.length_le,
    List.length_reverse] at present

/-- How far a list of names leads only depends on the nodes on its way. -/
theorem reach_congr {other : Tree} {names : List String}
    (same : ∀ address, address <:+ names.reverse → (address ∈ tree ↔ address ∈ other)) :
    tree.reach [] names = other.reach [] names := by
  have sameLead : ∀ size ≤ names.length,
      (size ≤ tree.reach [] names ↔ size ≤ other.reach [] names) := by
    intro size within
    rw [← take_mem_iff_le_reach within, ← take_mem_iff_le_reach within]
    exact same _ (List.reverse_suffix.2 (List.take_prefix size names))
  apply Nat.le_antisymm
  · exact (sameLead _ (tree.reach_le [] names)).1 (Nat.le_refl _)
  · exact (sameLead _ (other.reach_le [] names)).2 (Nat.le_refl _)

theorem take_add_one_reverse {names : List String} {size : Nat} (within : size < names.length) :
    (names.take (size + 1)).reverse = names[size] :: (names.take size).reverse := by
  rw [List.take_add_one, List.getElem?_eq_getElem within]
  simp

theorem deepest_mem (names : List String) : tree.deepest names ∈ tree :=
  (take_mem_iff_le_reach (reach_le tree [] names)).2 (Nat.le_refl _)

theorem deepest_append_missing (tree : Tree) (names : List String) :
    (tree.deepest names).reverse ++ tree.missing names = names := by
  rw [deepest, missing, List.reverse_reverse, List.take_append_drop]

theorem missing_reverse_append_deepest (tree : Tree) (names : List String) :
    (tree.missing names).reverse ++ tree.deepest names = names.reverse := by
  have whole := congrArg List.reverse (tree.deepest_append_missing names)
  simpa only [List.reverse_append, List.reverse_reverse] using whole

theorem mem_head?_missing {names rest : List String} {name : String}
    (missing : tree.missing names = name :: rest) : name ∈ (tree.missing names).head? := by
  rw [missing]
  rfl

theorem cons_deepest_notMem {names : List String} {name : String}
    (next : name ∈ (tree.missing names).head?) : name :: tree.deepest names ∉ tree := by
  rw [missing, List.head?_drop, Option.mem_def, List.getElem?_eq_some_iff] at next
  rcases next with ⟨within, rfl⟩
  rw [deepest, ← take_add_one_reverse within, take_mem_iff_le_reach within]
  omega

theorem missing_eq_nil_iff {names : List String} :
    tree.missing names = [] ↔ names.reverse ∈ tree := by
  rw [missing, List.drop_eq_nil_iff, reverse_mem_iff_le_reach]

/-- The deepest node on the way is the one that is there while the next one is not. -/
theorem eq_deepest_of_way {names rest : List String} {name : String} {address : Address}
    (way : names = address.reverse ++ name :: rest) (present : address ∈ tree)
    (absent : name :: address ∉ tree) :
    tree.deepest names = address ∧ tree.missing names = name :: rest := by
  have shorter : address.length < names.length := by
    rw [way, List.length_append, List.length_reverse, List.length_cons]
    omega
  have lead : names.take address.length = address.reverse := by
    rw [way]
    exact List.take_left' List.length_reverse
  have longerLead : names.take (address.length + 1) = address.reverse ++ [name] := by
    have regrouped : names = (address.reverse ++ [name]) ++ rest := by simp [way]
    rw [regrouped]
    exact List.take_left' (by simp)
  have lower : address.length ≤ tree.reach [] names := by
    rw [← take_mem_iff_le_reach (by omega), lead, List.reverse_reverse]
    exact present
  have upper : ¬address.length + 1 ≤ tree.reach [] names := by
    rw [← take_mem_iff_le_reach shorter, longerLead]
    simpa using absent
  have exact : tree.reach [] names = address.length := by omega
  constructor
  · rw [deepest, exact, lead, List.reverse_reverse]
  · rw [missing, exact, way]
    exact List.drop_left' List.length_reverse

theorem isSegment_of_missing {names : List String} (proper : ∀ name ∈ names, Path.IsSegment name)
    {name : String} (next : name ∈ (tree.missing names).head?) :
    ∀ other ∈ name :: tree.deepest names, Path.IsSegment other := by
  intro other otherMem
  apply proper other
  rw [← tree.deepest_append_missing names]
  rcases List.mem_cons.1 otherMem with rfl | onTheWay
  · exact List.mem_append_right _ (List.mem_of_mem_head? next)
  · exact List.mem_append_left _ (List.mem_reverse.2 onTheWay)

theorem mem_of_property?_isSome {owner : Address} {name : String}
    (found : (tree.property? owner name).isSome) : owner ∈ tree := by
  rw [← node?_isSome_iff]
  cases stored : tree.node? owner with
  | none => simp [property?, stored] at found
  | some node => rfl

/-! ### Items along a normal path -/

section Items

variable {names : List String}

theorem item?_ofNames (proper : ∀ name ∈ names, Path.IsSegment name) :
    tree.item? (Path.ofNames names) = tree.itemAt? names.reverse := by
  rw [item?, Path.segments_ofNames proper]

theorem itemAt?_of_mem {address : Address} (present : address ∈ tree) :
    tree.itemAt? address = some (.node address) := by
  unfold itemAt?
  exact if_pos present

theorem eq_of_itemAt?_eq_node {address found : Address}
    (isNode : tree.itemAt? address = some (.node found)) : found = address ∧ found ∈ tree := by
  unfold itemAt? at isNode
  split at isNode
  case isTrue present =>
    cases isNode
    exact ⟨rfl, present⟩
  case isFalse =>
    split at isNode
    · cases isNode
    · split at isNode <;> cases isNode

theorem itemAt?_cons_of_notMem {name : String} {owner : Address} (absent : name :: owner ∉ tree) :
    tree.itemAt? (name :: owner) =
      if (tree.property? owner name).isSome then some (.property owner name) else none := by
  unfold itemAt?
  exact if_neg absent

theorem item?_take_of_le_reach (proper : ∀ name ∈ names, Path.IsSegment name) {size : Nat}
    (within : size ≤ tree.reach [] names) :
    tree.item? (Path.ofNames (names.take size)) = some (.node (names.take size).reverse) := by
  have sizeLe : size ≤ names.length := Nat.le_trans within (reach_le tree [] names)
  rw [item?_ofNames fun name nameMem => proper name (List.mem_of_mem_take nameMem)]
  exact itemAt?_of_mem ((take_mem_iff_le_reach sizeLe).2 within)

/-- Past its reach a list leads to nothing but the property that obstructs the way. -/
theorem item?_take_of_reach_lt (proper : ∀ name ∈ names, Path.IsSegment name) {size : Nat}
    (beyond : tree.reach [] names < size) (sizeLe : size ≤ names.length) :
    tree.item? (Path.ofNames (names.take size)) =
      if size = tree.reach [] names + 1 then
        (tree.obstacle? names).map (Item.property (tree.deepest names))
      else none := by
  rcases size with _ | before
  · omega
  have beforeLt : before < names.length := by omega
  have address := take_add_one_reverse beforeLt
  have absent : names[before] :: (names.take before).reverse ∉ tree := by
    rw [← address, take_mem_iff_le_reach sizeLe]
    omega
  rw [item?_ofNames fun name nameMem => proper name (List.mem_of_mem_take nameMem), address,
    itemAt?_cons_of_notMem absent]
  by_cases isNext : before = tree.reach [] names
  · have next : (tree.missing names).head? = some names[before] := by
      rw [missing, List.head?_drop, ← isNext, List.getElem?_eq_getElem beforeLt]
    have owner : (names.take before).reverse = tree.deepest names := by rw [deepest, isNext]
    have sameSize : before + 1 = tree.reach [] names + 1 := by omega
    rw [obstacle?, next, owner, Option.filter_some]
    by_cases found : (tree.property? (tree.deepest names) names[before]).isSome
    · simp only [found, ↓reduceIte, sameSize, Option.map_some]
    · simp only [found, Bool.false_eq_true, ↓reduceIte, sameSize, Option.map_none]
  · have ownerAbsent : (names.take before).reverse ∉ tree := by
      rw [take_mem_iff_le_reach (by omega)]
      omega
    have noProperty : ¬(tree.property? (names.take before).reverse names[before]).isSome :=
      fun found => ownerAbsent (mem_of_property?_isSome found)
    rw [if_neg noProperty, if_neg (by omega)]

/-- An item on the way is a node within the reach of the list, or the property that obstructs it. -/
theorem le_reach_or_of_item?_isSome (proper : ∀ name ∈ names, Path.IsSegment name) {size : Nat}
    (sizeLe : size ≤ names.length)
    (found : (tree.item? (Path.ofNames (names.take size))).isSome) :
    size ≤ tree.reach [] names ∨
      size = tree.reach [] names + 1 ∧ (tree.obstacle? names).isSome := by
  by_cases within : size ≤ tree.reach [] names
  · exact .inl within
  · right
    rw [item?_take_of_reach_lt proper (by omega) sizeLe] at found
    by_cases isNext : size = tree.reach [] names + 1
    · rw [if_pos isNext, Option.isSome_map] at found
      exact ⟨isNext, found⟩
    · rw [if_neg isNext] at found
      cases found

theorem obstacle?_eq_some_iff {name : String} : tree.obstacle? names = some name ↔
    ∃ rest, tree.missing names = name :: rest ∧
      (tree.property? (tree.deepest names) name).isSome := by
  simp [obstacle?, Option.filter_eq_some_iff, List.head?_eq_some_iff]

theorem reach_lt_of_obstacle? {name : String} (obstacle : tree.obstacle? names = some name) :
    tree.reach [] names < names.length := by
  rw [obstacle?, Option.filter_eq_some_iff, missing, List.head?_drop,
    List.getElem?_eq_some_iff] at obstacle
  exact obstacle.1.1

/-- Where no property stands in the way, a path without an item is that of a missing node. -/
theorem item?_ofNames_eq_none_iff (proper : ∀ name ∈ names, Path.IsSegment name)
    (free : tree.obstacle? names = none) :
    tree.item? (Path.ofNames names) = none ↔ names.reverse ∉ tree := by
  constructor
  · intro nothing present
    rw [item?_ofNames proper, itemAt?_of_mem present] at nothing
    cases nothing
  · intro absent
    have beyond : tree.reach [] names < names.length := by
      rw [← missing_eq_nil_iff, missing, List.drop_eq_nil_iff] at absent
      omega
    have whole := item?_take_of_reach_lt proper beyond (Nat.le_refl _)
    rwa [List.take_length, free, Option.map_none, ite_self] at whole

theorem item?_of_obstacle? (proper : ∀ name ∈ names, Path.IsSegment name) {name : String}
    (obstacle : tree.obstacle? names = some name) :
    tree.item? (Path.ofNames (names.take (tree.reach [] names + 1))) =
      some (.property (tree.deepest names) name) := by
  have within := reach_lt_of_obstacle? obstacle
  rw [item?_take_of_reach_lt proper (Nat.lt_add_one _) within, if_pos rfl, obstacle,
    Option.map_some]

end Items

end Tree

end ContentTree
