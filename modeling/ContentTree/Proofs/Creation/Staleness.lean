import ContentTree.Proofs.Creation.Outcome

/-!
# Creation on a stale session

A session may be wrong about the existence of items. Where no property stands in the way, a creation
does not notice: whichever of the nodes on the way its search believes in, it comes down to the same
work. Where one does, the creation fails in one of two ways, depending on whether its search
believes in that property, but it never creates a node.
-/

namespace ContentTree

namespace Tree

variable {tree : Tree}

/-- Some leading part of the normal form of a path leads to a property. -/
def CrossesProperty (tree : Tree) (path : Option String) : Prop :=
  ∃ text normal size owner name, path = some text ∧ Path.normalize text = .ok normal ∧
    tree.item? (Path.ofNames ((Path.segments normal).take size)) = some (.property owner name)

theorem crossesProperty_iff {path normal : String} (normalized : Path.normalize path = .ok normal) :
    tree.CrossesProperty (some path) ↔ (tree.obstacle? (Path.segments normal)).isSome := by
  rcases Path.exists_segments_of_normalize normalized with ⟨names, proper, rfl⟩
  rw [Path.segments_ofNames proper]
  constructor
  · rintro ⟨_, _, size, owner, name, ⟨⟩, again, found⟩
    cases normalized.symm.trans again
    rw [Path.segments_ofNames proper] at found
    have cut : names.take size = names.take (min size names.length) := by
      rw [← List.take_eq_take_min]
    rw [cut] at found
    rcases le_reach_or_of_item?_isSome proper (Nat.min_le_right _ _)
      (Option.isSome_of_eq_some found) with within | ⟨-, obstructed⟩
    · rw [item?_take_of_le_reach proper within] at found
      cases found
    · exact obstructed
  · intro obstructed
    rcases Option.isSome_iff_exists.1 obstructed with ⟨name, obstacle⟩
    refine ⟨path, _, tree.reach [] names + 1, tree.deepest names, name, rfl, normalized, ?_⟩
    rw [Path.segments_ofNames proper]
    exact item?_of_obstacle? proper obstacle

theorem addNode_of_property {above : Address} {name : String}
    (proper : ∀ other ∈ name :: above, Path.IsSegment other) (present : above ∈ tree)
    (isProperty : (tree.property? above name).isSome) (type : Option String)
    (defaultType : String) :
    tree.addNode above name type defaultType =
      .error (.itemExists (Path.ofNames (name :: above).reverse)) := by
  have abovePath := Address.path_of_segments (List.forall_mem_cons.1 proper).2
  rw [addNode, dif_pos present]
  simp only [abovePath, Address.join_of_segments proper, isProperty, or_true, ↓reduceIte, bind,
    Except.bind]
  rfl

end Tree

namespace Work

variable {checkout : Checkout} {descriptors : Descriptors} {policy : Policy} {progress : Progress}
  {above : Address} {name : String}

/-- Preparing a node changes none of the nodes and properties that are there. -/
theorem exists_runFrom_prepare (checkout : Checkout) (policy : Policy) (progress : Progress)
    (proper : ∀ other ∈ above, Path.IsSegment other) :
    ∃ after, (checkout.prepare policy above).runFrom progress = (.ok (), after) ∧
      (∀ address, address ∈ after.session.tree ↔ address ∈ progress.session.tree) ∧
      ∀ owner name, after.session.tree.property? owner name =
        progress.session.tree.property? owner name := by
  cases checkout with
  | ifNecessary =>
      exact ⟨_, runFrom_checkoutIfNecessary proper, fun _ => Progress.mem_unlocking,
        Progress.property?_unlocking _⟩
  | recordOnly =>
      refine ⟨{ progress with checkouts := progress.checkouts ++ [Path.ofNames above.reverse] }, ?_,
        fun _ => Iff.rfl, fun _ _ => rfl⟩
      simp only [Checkout.prepare, runFrom_bind, Address.path_of_segments proper,
        runFrom_liftExcept, runFrom_modify]

theorem runFrom_addRequested_of_property (checkout : Checkout) (descriptors : Descriptors)
    (policy : Policy) (proper : ∀ other ∈ name :: above, Path.IsSegment other)
    (present : above ∈ progress.session.tree)
    (isProperty : (progress.session.tree.property? above name).isSome) :
    ∃ after, (checkout.prepare policy above).runFrom progress = (.ok (), after) ∧
      (∀ address, address ∈ after.session.tree ↔ address ∈ progress.session.tree) ∧
      (addRequested (checkout.prepare policy) descriptors above name).runFrom progress =
        (.error (.itemExists (Path.ofNames (name :: above).reverse)), after) := by
  have aboveProper := (List.forall_mem_cons.1 proper).2
  rcases descriptors.primaryType?_ofNames proper "" with ⟨type, typeFound, -⟩
  rcases exists_runFrom_prepare checkout policy progress aboveProper with
    ⟨after, prepared, sameNodes, sameProperties⟩
  have refused := Tree.addNode_of_property proper ((sameNodes above).2 present)
    (by rwa [sameProperties]) type after.session.defaultType
  refine ⟨after, prepared, sameNodes, ?_⟩
  simp only [addRequested, runFrom_bind, runFrom_liftExcept, typeFound, prepared, runFrom_get,
    runFrom_edit, refused]

/-- A creation that only notices at the last moment that a property obstructs the way has prepared
the deepest node and does nothing else. -/
theorem runFrom_createMissing_of_obstacle? {names : List String} (checkout : Checkout)
    (descriptors : Descriptors) (policy : Policy) (proper : ∀ name ∈ names, Path.IsSegment name)
    (obstacle : progress.session.tree.obstacle? names = some name) :
    ∃ named after,
      (checkout.prepare policy (progress.session.tree.deepest names)).runFrom progress =
        (.ok (), after) ∧
      (∀ address, address ∈ after.session.tree ↔ address ∈ progress.session.tree) ∧
      ((progress.session.tree.missing names).foldlM (enter (checkout.prepare policy) descriptors)
        (progress.session.tree.deepest names)).runFrom progress =
          (.error (.itemExists named), after) := by
  rcases Tree.obstacle?_eq_some_iff.1 obstacle with ⟨rest, missing, isProperty⟩
  have next := Tree.mem_head?_missing missing
  have absent := Tree.cons_deepest_notMem next
  rcases runFrom_addRequested_of_property checkout descriptors policy
    (Tree.isSegment_of_missing proper next) (Tree.deepest_mem names) isProperty with
    ⟨after, prepared, sameNodes, refused⟩
  refine ⟨Path.ofNames (name :: progress.session.tree.deepest names).reverse, after, prepared,
    sameNodes, ?_⟩
  rw [missing, List.foldlM_cons, runFrom_bind, runFrom_enter_of_notMem absent, refused]

/-- At a property in its way a creation fails without a new node, whether its search believes in the
property or not. -/
theorem runFrom_createKnowing_of_crossesProperty {knows : String → Bool} (checkout : Checkout)
    (descriptors : Descriptors) (policy : Policy) {path : Option String}
    (trusted : ∀ asked, knows asked → (progress.session.tree.item? asked).isSome)
    (crosses : progress.session.tree.CrossesProperty path) :
    ∃ named after,
      ((createKnowing knows (checkout.prepare policy) descriptors path).runFrom progress =
          (.error (.notANode named), after) ∨
        (createKnowing knows (checkout.prepare policy) descriptors path).runFrom progress =
          (.error (.itemExists named), after)) ∧
      ∀ address, address ∈ after.session.tree ↔ address ∈ progress.session.tree := by
  have ⟨text, normal, _, _, _, isText, normalized, _⟩ := crosses
  subst isText
  have obstructed := (Tree.crossesProperty_iff normalized).1 crosses
  rcases Path.exists_segments_of_normalize normalized with ⟨names, proper, rfl⟩
  rw [Path.segments_ofNames proper] at obstructed
  rw [runFrom_createKnowing trusted proper normalized]
  split
  · exact ⟨_, _, .inl rfl, fun _ => Iff.rfl⟩
  · rcases Option.isSome_iff_exists.1 obstructed with ⟨name, obstacle⟩
    rcases runFrom_createMissing_of_obstacle? checkout descriptors policy proper obstacle with
      ⟨named, after, -, sameNodes, refused⟩
    exact ⟨named, after, .inr refused, sameNodes⟩

end Work

/-- Wrong answers about what exists make no difference to a creation that has no property in its
way; with one in its way it fails and creates no node, whatever the answers. -/
theorem create_stale (tree : Tree) (defaultType : String) (stale : String → Bool)
    (changes : List Change) (checkouts : List String) (descriptors : Descriptors)
    (path : Option String) :
    let session : Session := { tree, defaultType }
    let before : Progress := { session, changes, checkouts }
    (¬tree.CrossesProperty path → ∀ prepare : Address → Work Unit,
      (Work.createKnowing (session.knowsExcept stale) prepare descriptors path).runFrom before =
        (Work.createKnowing session.knows prepare descriptors path).runFrom before) ∧
    (tree.CrossesProperty path → ∀ (checkout : Checkout) (policy : Policy),
      ∀ knows ∈ [session.knowsExcept stale, session.knows], ∃ named after,
        ((Work.createKnowing knows (checkout.prepare policy) descriptors path).runFrom before =
            (.error (.notANode named), after) ∨
          (Work.createKnowing knows (checkout.prepare policy) descriptors path).runFrom before =
            (.error (.itemExists named), after)) ∧
        ∀ address, address ∈ after.session.tree ↔ address ∈ tree) := by
  intro session before
  have staleTrusted : ∀ asked, session.knowsExcept stale asked → (tree.item? asked).isSome :=
    session.isSome_item?_of_knowsExcept
  have plainTrusted : ∀ asked, session.knows asked → (tree.item? asked).isSome :=
    session.isSome_item?_of_knows
  constructor
  · intro notCrossing prepare
    rcases Path.malformed_or_normal path with ⟨fault, malformed⟩ | ⟨text, normal, rfl, normalized⟩
    · rw [Work.runFrom_createKnowing_of_malformed malformed,
        Work.runFrom_createKnowing_of_malformed malformed]
    · rw [Tree.crossesProperty_iff normalized] at notCrossing
      rcases Path.exists_segments_of_normalize normalized with ⟨names, proper, rfl⟩
      rw [Path.segments_ofNames proper] at notCrossing
      rw [Work.runFrom_createKnowing staleTrusted proper normalized,
        Work.runFrom_createKnowing plainTrusted proper normalized,
        if_neg fun stops => notCrossing stops.1, if_neg fun stops => notCrossing stops.1]
  · intro crosses checkout policy knows knowsMem
    have trusted : ∀ asked, knows asked → (tree.item? asked).isSome := by
      rcases List.mem_pair.1 knowsMem with rfl | rfl
      · exact staleTrusted
      · exact plainTrusted
    exact Work.runFrom_createKnowing_of_crossesProperty checkout descriptors policy trusted crosses

theorem create_stale_archive :
    (Work.createKnowing (Session.knowsExcept { tree := Tree.archive } fun _ => true)
        (Checkout.recordOnly.prepare {}) ∅ (some "/archive/2024/may")).runFrom
          { session := { tree := Tree.archive } } =
      (Work.createKnowing (Session.knows { tree := Tree.archive })
        (Checkout.recordOnly.prepare {}) ∅ (some "/archive/2024/may")).runFrom
          { session := { tree := Tree.archive } } := by
  apply (create_stale Tree.archive unstructuredType (fun _ => true) [] [] ∅
    (some "/archive/2024/may")).1
  have normalized : Path.normalize "/archive/2024/may" = .ok "/archive/2024/may" := by
    decide +kernel
  rw [Tree.crossesProperty_iff normalized]
  decide +kernel

end ContentTree
