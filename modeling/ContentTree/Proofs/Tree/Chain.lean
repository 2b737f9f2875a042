import ContentTree.Proofs.Tree.Checkout

/-!
# Chains of new nodes

`extend` adds a chain of nodes below a node, one for each name of a list, each as the last child of
the one before. What can be seen of the longer tree is told by two lemmas: its nodes are the old
ones, stored as before, and those of the chain, stored as they were made (`node?_extend`), and every
node on the way has one child more (`childNames_extend`).
-/

namespace ContentTree

namespace Tree

variable {tree : Tree} {above : Address}

/-- Add a chain of nodes below a node, one for each name, each with what `make` says for it. -/
def extend (tree : Tree) (above : Address) (present : above ∈ tree) (make : Address → Node) :
    List String → Tree
  | [] => tree
  | name :: rest =>
      (tree.insertChild above present name (make (name :: above))).extend (name :: above)
        (mem_insertChild.2 (.inl rfl)) make rest

theorem modify_insertChild (present : above ∈ tree) (name : String) (node : Node)
    (change : Node → Node) :
    (tree.insertChild above present name node).modify (name :: above) change =
      tree.insertChild above present name (change node) :=
  ext (Table.modify_insert tree.nodes (name :: above) node change)

theorem cons_notMem_insertChild {name : String} (present : above ∈ tree)
    (absent : name :: above ∉ tree) (node : Node) (next : String) :
    next :: name :: above ∉ tree.insertChild above present name node := by
  intro inserted
  rcases mem_insertChild.1 inserted with tooLong | old
  · have lengths := congrArg List.length tooLong
    simp only [List.length_cons] at lengths
    omega
  · exact absent (mem_of_cons_mem old)

/-- The addresses on a way that do not end above some place: this place, and those below it. -/
theorem suffix_append_le_iff {chain : List String} {address : Address} :
    address <:+ chain ++ above ∧ above.length ≤ address.length ↔
      address = above ∨ address <:+ chain ++ above ∧ above.length < address.length := by
  constructor
  · rintro ⟨suffix, longEnough⟩
    rcases Nat.eq_or_lt_of_le longEnough with sameLength | longer
    · have within : address <:+ above :=
        List.suffix_of_suffix_length_le suffix (List.suffix_append chain above)
          (Nat.le_of_eq sameLength.symm)
      exact .inl (within.eq_of_length sameLength.symm)
    · exact .inr ⟨suffix, longer⟩
  · rintro (rfl | ⟨suffix, longer⟩)
    · exact ⟨List.suffix_append chain address, Nat.le_refl _⟩
    · exact ⟨suffix, Nat.le_of_lt longer⟩

theorem reverse_cons_append (name : String) (rest : List String) (above : Address) :
    (name :: rest).reverse ++ above = rest.reverse ++ (name :: above) := by
  simp

/-- The addresses of a chain: its first one, and the others. -/
theorem suffix_chain_iff {name : String} {rest : List String} {address : Address} :
    address <:+ (name :: rest).reverse ++ above ∧ above.length < address.length ↔
      address = name :: above ∨
        address <:+ rest.reverse ++ (name :: above) ∧ (name :: above).length < address.length := by
  rw [reverse_cons_append]
  exact suffix_append_le_iff

theorem node?_extend (present : above ∈ tree) (make : Address → Node) (names : List String)
    (address : Address) :
    (tree.extend above present make names).node? address =
      if address <:+ names.reverse ++ above ∧ above.length < address.length then
        some (make address)
      else tree.node? address := by
  induction names generalizing tree above with
  | nil =>
      rw [extend, if_neg]
      rintro ⟨suffix, longer⟩
      have bound := suffix.length_le
      simp only [List.reverse_nil, List.nil_append] at bound
      omega
  | cons name rest ih =>
      simp only [extend, ih, node?_insertChild, suffix_chain_iff]
      by_cases isLater : address <:+ rest.reverse ++ (name :: above) ∧
          (name :: above).length < address.length
      · rw [if_pos isLater, if_pos (.inr isLater)]
      · by_cases isFirst : address = name :: above
        · rw [if_neg isLater, if_pos isFirst, if_pos (.inl isFirst), isFirst]
        · rw [if_neg isLater, if_neg isFirst, if_neg]
          rintro (first | later)
          · exact isFirst first
          · exact isLater later

theorem childNames_extend (present : above ∈ tree) (make : Address → Node) {names : List String}
    (absent : ∀ name ∈ names.head?, name :: above ∉ tree) (address : Address) :
    (tree.extend above present make names).childNames address =
      tree.childNames address ++
        if address <:+ names.reverse ++ above ∧ above.length ≤ address.length then
          (names.drop (address.length - above.length)).take 1
        else [] := by
  induction names generalizing tree above with
  | nil => simp [extend]
  | cons name rest ih =>
      have firstAbsent : name :: above ∉ tree := absent name rfl
      have nextAbsent : ∀ next ∈ rest.head?, next :: name :: above ∉
          tree.insertChild above present name (make (name :: above)) := by
        intro next _
        exact cons_notMem_insertChild present firstAbsent _ next
      have onChain : address <:+ (name :: rest).reverse ++ above ∧ above.length ≤ address.length ↔
          address = above ∨ address <:+ rest.reverse ++ (name :: above) ∧
            (name :: above).length ≤ address.length := by
        rw [suffix_append_le_iff, reverse_cons_append]
        rfl
      rw [extend, ih _ nextAbsent, childNames_insertChild tree present firstAbsent]
      simp only [onChain]
      by_cases isParent : address = above
      · subst address
        have notLater : ¬(above <:+ rest.reverse ++ (name :: above) ∧
            (name :: above).length ≤ above.length) :=
          fun isLater => Nat.not_succ_le_self _ isLater.2
        rw [if_pos rfl, if_neg notLater, if_pos (.inl rfl)]
        simp
      · by_cases isLater : address <:+ rest.reverse ++ (name :: above) ∧
            (name :: above).length ≤ address.length
        · have position : address.length - above.length =
              (address.length - (name :: above).length) + 1 := by
            have longer := isLater.2
            simp only [List.length_cons] at longer ⊢
            omega
          rw [if_neg isParent, if_pos isLater, if_pos (.inr isLater), position,
            List.drop_succ_cons]
        · rw [if_neg isParent, if_neg isLater, if_neg (not_or.2 ⟨isParent, isLater⟩)]

end Tree

end ContentTree
