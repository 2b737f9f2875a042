import ContentTree.Proofs.Creation.Outcome

/-!
# What a creation does

A creation that succeeds adds one chain of nodes to the tree, as the request wants them, and takes
off at most one lock. Nothing else that is stored in the tree changes, and the log tells exactly
this: the lock first, then the new nodes from the top downwards (`CreationEffect`).
-/

namespace ContentTree

/-- What the creation of the node to which a list of names leads makes of the progress before it. -/
structure CreationEffect (descriptors : Descriptors) (policy : Policy) (names : List String)
    (before after : Progress) : Prop where
  node? : ∀ address, after.session.tree.node? address =
    if address <:+ names.reverse ∧ before.session.tree.reach [] names < address.length then
      some (descriptors.newNode before.session.defaultType address)
    else
      (before.session.tree.node? address).map fun node =>
        if before.session.tree.opened? policy names = some address then
          { node with checkedOut := true }
        else node
  childNames : ∀ parent, after.session.tree.childNames parent =
    before.session.tree.childNames parent ++
      if parent <:+ names.reverse ∧ before.session.tree.reach [] names ≤ parent.length then
        (names.drop parent.length).take 1
      else []
  changes : after.changes = before.changes ++
    ((before.session.tree.opened? policy names).toList.map fun lock =>
      .checkedOut (Path.ofNames lock.reverse)) ++
    (names.inits.drop (before.session.tree.reach [] names + 1)).map fun lead =>
      .created (Path.ofNames lead)
  defaultType : after.session.defaultType = before.session.defaultType
  stale : after.session.stale = before.session.stale
  checkouts : after.checkouts = before.checkouts

namespace CreationEffect

variable {descriptors : Descriptors} {policy : Policy} {names : List String}
  {before after : Progress}

theorem mem_iff (effect : CreationEffect descriptors policy names before after)
    {address : Address} : address ∈ after.session.tree ↔
      address <:+ names.reverse ∧ before.session.tree.reach [] names < address.length ∨
        address ∈ before.session.tree := by
  rw [← Tree.node?_isSome_iff, ← Tree.node?_isSome_iff, effect.node?]
  by_cases isNew : address <:+ names.reverse ∧
      before.session.tree.reach [] names < address.length
  · simp only [isNew, and_self, ↓reduceIte, Option.isSome_some, true_or]
  · simp only [isNew, ↓reduceIte, Option.isSome_map, false_or]

theorem target_mem (effect : CreationEffect descriptors policy names before after) :
    names.reverse ∈ after.session.tree := by
  apply effect.mem_iff.2
  by_cases isNew : before.session.tree.reach [] names < names.length
  · exact .inl ⟨List.suffix_refl _, by simpa using isNew⟩
  · right
    exact Tree.reverse_mem_iff_le_reach.2 (by omega)

end CreationEffect

namespace Tree

theorem length_deepest (tree : Tree) (names : List String) :
    (tree.deepest names).length = tree.reach [] names := by
  rw [deepest, List.length_reverse, List.length_take, Nat.min_eq_left (tree.reach_le [] names)]

end Tree

namespace Work

theorem creations_missing (tree : Tree) (names : List String) :
    creations (tree.deepest names) (tree.missing names) =
      (names.inits.drop (tree.reach [] names + 1)).map fun lead =>
        .created (Path.ofNames lead) := by
  have later : names.inits.drop (tree.reach [] names + 1) =
      (tree.missing names).inits.tail.map ((tree.deepest names).reverse ++ ·) := by
    have whole := List.inits_append (tree.deepest names).reverse (tree.missing names)
    rw [tree.deepest_append_missing] at whole
    rw [whole]
    apply List.drop_left'
    rw [List.length_inits, List.length_reverse, tree.length_deepest]
  rw [creations, later, List.map_map]
  rfl

theorem creationEffect_grown (progress : Progress) (descriptors : Descriptors) (policy : Policy)
    (names : List String) :
    CreationEffect descriptors policy names progress
      (progress.grown descriptors policy names) where
  node? address := by
    simp only [Progress.grown, Progress.session_reporting, Progress.tree_withTree,
      Tree.node?_extend, Tree.missing_reverse_append_deepest, Tree.length_deepest,
      Progress.node?_unlocking]
  childNames parent := by
    have firstAbsent : ∀ name ∈ (progress.session.tree.missing names).head?,
        name :: progress.session.tree.deepest names ∉ (progress.unlocking
          (progress.session.tree.opened? policy names)).session.tree := by
      intro name next present
      exact Tree.cons_deepest_notMem next (Progress.mem_unlocking.1 present)
    simp only [Progress.grown, Progress.session_reporting, Progress.tree_withTree,
      Tree.childNames_extend _ _ firstAbsent, Tree.missing_reverse_append_deepest,
      Tree.length_deepest, Progress.childNames_unlocking]
    by_cases onTheWay : parent <:+ names.reverse ∧
        progress.session.tree.reach [] names ≤ parent.length
    · have position : progress.session.tree.reach [] names +
          (parent.length - progress.session.tree.reach [] names) = parent.length := by omega
      simp only [onTheWay, and_self, ↓reduceIte, Tree.missing, List.drop_drop, position]
    · simp only [onTheWay, ↓reduceIte]
  changes := by
    simp only [Progress.grown, Progress.changes_reporting, Progress.changes_withTree,
      Progress.changes_unlocking, creations_missing]
  defaultType := Progress.defaultType_unlocking _
  stale := Progress.stale_unlocking _
  checkouts := Progress.checkouts_unlocking _

variable {descriptors : Descriptors} {policy : Policy} {names : List String}

/-- A node that is created for a path is stored as the request wants it. -/
theorem node?_grown {progress : Progress} (absent : names.reverse ∉ progress.session.tree) :
    (progress.grown descriptors policy names).session.tree.node? names.reverse =
      some (descriptors.newNode progress.session.defaultType names.reverse) := by
  have beyond : progress.session.tree.reach [] names < names.reverse.length := by
    rw [← Tree.missing_eq_nil_iff, Tree.missing, List.drop_eq_nil_iff] at absent
    simpa using absent
  rw [(creationEffect_grown progress _ _ _).node?, if_pos ⟨List.suffix_refl _, beyond⟩]

end Work

namespace Progress

variable {progress : Progress} {address : Address} (descriptors : Descriptors) (policy : Policy)
  (names : List String)

/-- A creation does nothing to the nodes that are there but take a lock off. -/
theorem node?_grown_of_mem (present : address ∈ progress.session.tree) :
    (progress.grown descriptors policy names).session.tree.node? address =
      (progress.unlocking (progress.session.tree.opened? policy names)).session.tree.node?
        address := by
  rw [(Work.creationEffect_grown progress _ _ _).node?, node?_unlocking, if_neg]
  rintro ⟨suffix, beyond⟩
  have within := Tree.length_le_reach suffix present
  omega

theorem property?_grown (present : address ∈ progress.session.tree) (name : String) :
    (progress.grown descriptors policy names).session.tree.property? address name =
      progress.session.tree.property? address name := by
  rw [Tree.property?, node?_grown_of_mem descriptors policy names present, ← Tree.property?,
    property?_unlocking]

end Progress

namespace Work

variable {descriptors : Descriptors} {policy : Policy} {names : List String}

/-- A creation that succeeds answers with the node at its path and has exactly the effect it should
have. -/
theorem create_effect (tree : Tree) (defaultType : String) (changes : List Change)
    (checkouts : List String) (descriptors : Descriptors) (policy : Policy) (path normal : String)
    (normalized : Path.normalize path = .ok normal) (address : Address) (after : Progress)
    (succeeded : (create .ifNecessary descriptors policy (some path)).runFrom
      { session := { tree, defaultType }, changes, checkouts } = (.ok address, after)) :
    address = (Path.segments normal).reverse ∧ Address.path address = .ok normal ∧
      address ∈ after.session.tree ∧
      CreationEffect descriptors policy (Path.segments normal)
        { session := { tree, defaultType }, changes, checkouts } after := by
  rcases Path.exists_segments_of_normalize normalized with ⟨names, proper, rfl⟩
  rw [runFrom_create_of_normalize descriptors policy rfl proper normalized] at succeeded
  rw [Path.segments_ofNames proper]
  cases refused : tree.refusal? policy names with
  | some fault => simp [refused] at succeeded
  | none =>
      simp only [refused, Prod.mk.injEq, Except.ok.injEq] at succeeded
      rcases succeeded with ⟨rfl, rfl⟩
      have named : Address.path names.reverse = .ok (Path.ofNames names) := by
        rw [Address.path_of_segments (by simpa using proper), List.reverse_reverse]
      have effect := creationEffect_grown { session := { tree, defaultType }, changes, checkouts }
        descriptors policy names
      exact ⟨rfl, named, effect.target_mem, effect⟩

theorem create_effect_archive :
    ∃ after, (create .ifNecessary ∅ { autoCheckout := true } (some "/archive/2024/./may/3")).runFrom
        { session := { tree := Tree.archive } } = (.ok ["3", "may", "2024", "archive"], after) ∧
      CreationEffect ∅ { autoCheckout := true } ["archive", "2024", "may", "3"]
        { session := { tree := Tree.archive } } after := by
  let run := (create .ifNecessary ∅ { autoCheckout := true }
    (some "/archive/2024/./may/3")).runFrom { session := { tree := Tree.archive } }
  have answered : run.1 = .ok ["3", "may", "2024", "archive"] := by decide +kernel
  have succeeded : run = (.ok ["3", "may", "2024", "archive"], run.2) := Prod.ext answered rfl
  have effect := create_effect Tree.archive unstructuredType [] [] ∅ { autoCheckout := true }
    "/archive/2024/./may/3" "/archive/2024/may/3" (by decide +kernel) _ _ succeeded
  have names : Path.segments "/archive/2024/may/3" = ["archive", "2024", "may", "3"] := by
    decide +kernel
  rw [names] at effect
  exact ⟨run.2, succeeded, effect.2.2.2⟩

end Work

end ContentTree
