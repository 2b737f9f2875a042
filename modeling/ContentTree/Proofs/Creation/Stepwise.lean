import ContentTree.Proofs.Creation.Effect

/-!
# Creating step by step

The nodes that are missing along a list of names can be created in one go, or first those along a
leading part of the list and then the others. It makes no difference. If something is missing along
the leading part, then both ways begin at the same deepest node, so that the same fault stops them
or the same lock is taken off; and once the leading part has been created, nothing can stop the
creation of the rest, for a new node may be changed and has no properties that could obstruct the
way (`runFrom_create_bind_create`).
-/

namespace ContentTree

namespace Tree

variable {tree : Tree} {policy : Policy} {names others : List String} {name : String}

/-- A longer list of names has the same deepest node if some of the shorter one are missing. -/
theorem missing_append (missing : tree.missing names = name :: others) (rest : List String) :
    tree.deepest (names ++ rest) = tree.deepest names ∧
      tree.missing (names ++ rest) = tree.missing names ++ rest := by
  have way : names ++ rest = (tree.deepest names).reverse ++ name :: (others ++ rest) := by
    rw [← List.cons_append, ← missing, ← List.append_assoc, deepest_append_missing]
  have absent := cons_deepest_notMem (mem_head?_missing missing)
  rcases eq_deepest_of_way way (tree.deepest_mem names) absent with ⟨sameDeepest, longer⟩
  exact ⟨sameDeepest, by rw [longer, missing, List.cons_append]⟩

theorem refusal?_append (missing : tree.missing names = name :: others) (rest : List String) :
    tree.refusal? policy (names ++ rest) = tree.refusal? policy names := by
  rcases tree.missing_append missing rest with ⟨sameDeepest, longer⟩
  rw [missing, List.cons_append] at longer
  simp only [refusal?, missing, longer, sameDeepest]

theorem obstacle?_of_refusal?_eq_none (unrefused : tree.refusal? policy names = none) :
    tree.obstacle? names = none := by
  cases missing : tree.missing names with
  | nil => simp [obstacle?, missing]
  | cons name others =>
      have free : ¬(tree.property? (tree.deepest names) name).isSome := by
        intro isProperty
        simp [refusal?, missing, isProperty] at unrefused
      rw [obstacle?_of_missing missing, if_neg free]

end Tree

namespace Work

variable {descriptors : Descriptors} {policy : Policy} {progress : Progress}
  {names rest : List String} {lead path : String}

/-- A new node has no children. -/
theorem cons_notMem_grown (absent : names.reverse ∉ progress.session.tree) (name : String) :
    name :: names.reverse ∉ (progress.grown descriptors policy names).session.tree := by
  intro present
  rcases (creationEffect_grown progress _ _ _).mem_iff.1 present with ⟨suffix, -⟩ | old
  · exact Tree.not_cons_suffix (List.suffix_refl _) (suffix.eq_of_length_le (by simp)).symm
  · exact absent (Tree.mem_of_cons_mem old)

/-- What remains to be created after a leading part is the rest, and nothing obstructs it. -/
theorem missing_append_grown (descriptors : Descriptors) (policy : Policy)
    (absent : names.reverse ∉ progress.session.tree) (rest : List String) :
    let later := (progress.grown descriptors policy names).session.tree
    later.deepest (names ++ rest) = names.reverse ∧ later.missing (names ++ rest) = rest ∧
      later.obstacle? (names ++ rest) = none := by
  intro later
  have target : names.reverse ∈ later :=
    (creationEffect_grown progress descriptors policy names).target_mem
  cases rest with
  | nil =>
      have nothing : later.missing names = [] := Tree.missing_eq_nil_iff.2 target
      rw [List.append_nil]
      exact ⟨Tree.deepest_of_missing_nil nothing, nothing, by simp [Tree.obstacle?, nothing]⟩
  | cons name others =>
      have way : names ++ name :: others = names.reverse.reverse ++ name :: others := by
        rw [List.reverse_reverse]
      rcases Tree.eq_deepest_of_way way target (cons_notMem_grown absent name) with
        ⟨isDeepest, isMissing⟩
      have free : later.property? names.reverse name = none := by
        rw [Tree.property?, node?_grown absent]
        rfl
      refine ⟨isDeepest, isMissing, ?_⟩
      rw [Tree.obstacle?_of_missing isMissing, isDeepest, free]
      rfl

/-- Without an obstacle a creation enters, one after the other, the nodes that are missing. -/
theorem runFrom_create_of_obstacle?_eq_none (proper : ∀ name ∈ names, Path.IsSegment name)
    (normalized : Path.normalize path = .ok (Path.ofNames names))
    (unobstructed : progress.session.tree.obstacle? names = none) :
    (create .ifNecessary descriptors policy (some path)).runFrom progress =
      ((progress.session.tree.missing names).foldlM (enter (checkoutIfNecessary policy) descriptors)
        (progress.session.tree.deepest names)).runFrom progress := by
  rw [runFrom_create, runFrom_createKnowing progress.session.isSome_item?_of_knows proper
    normalized, if_neg (by simp [unobstructed])]
  rfl

/-- To create a node along the way first makes no difference to a creation. -/
theorem runFrom_create_bind_create (fresh : progress.session.stale = [])
    (proper : ∀ name ∈ names ++ rest, Path.IsSegment name)
    (leadNormalized : Path.normalize lead = .ok (Path.ofNames names))
    (normalized : Path.normalize path = .ok (Path.ofNames (names ++ rest))) :
    (do
      let _ ← create .ifNecessary descriptors policy (some lead)
      create .ifNecessary descriptors policy (some path) : Work Address).runFrom progress =
        (create .ifNecessary descriptors policy (some path)).runFrom progress := by
  have leadProper : ∀ name ∈ names, Path.IsSegment name :=
    fun name nameMem => proper name (List.mem_append_left _ nameMem)
  have leadRun := runFrom_create_of_normalize descriptors policy fresh leadProper leadNormalized
  cases missing : progress.session.tree.missing names with
  | nil =>
      have unrefused : progress.session.tree.refusal? policy names = none := by
        simp [Tree.refusal?, missing]
      rw [unrefused, Progress.grown_of_missing_nil descriptors policy missing] at leadRun
      rw [runFrom_bind, leadRun]
  | cons name others =>
      have sameRefusal : progress.session.tree.refusal? policy (names ++ rest) =
          progress.session.tree.refusal? policy names := Tree.refusal?_append missing rest
      cases refused : progress.session.tree.refusal? policy names with
      | some fault =>
          rw [refused] at leadRun
          rw [runFrom_bind, leadRun, runFrom_create_of_normalize descriptors policy fresh proper
            normalized, sameRefusal, refused]
      | none =>
          have absent : names.reverse ∉ progress.session.tree := by
            rw [← Tree.missing_eq_nil_iff, missing]
            exact List.cons_ne_nil _ _
          have leadFree := Tree.obstacle?_of_refusal?_eq_none refused
          have free := Tree.obstacle?_of_refusal?_eq_none (sameRefusal.trans refused)
          rcases progress.session.tree.missing_append missing rest with ⟨sameDeepest, longer⟩
          rcases missing_append_grown descriptors policy absent rest with
            ⟨isDeepest, isMissing, freeLater⟩
          -- In one go, the nodes of the leading part are created first as well.
          have chainRun := leadRun
          rw [runFrom_create_of_obstacle?_eq_none leadProper leadNormalized leadFree] at chainRun
          rw [runFrom_create_of_obstacle?_eq_none proper normalized free, sameDeepest, longer,
            List.foldlM_append, runFrom_bind, runFrom_bind, leadRun, chainRun, refused]
          simp only [runFrom_create_of_obstacle?_eq_none proper normalized freeLater, isDeepest,
            isMissing]

/-- To create the node at a path step by step or in one go has the same outcome: the same node or
the same fault, and the same tree and the same log after it. -/
theorem create_stepwise (tree : Tree) (defaultType : String) (changes : List Change)
    (checkouts : List String) (descriptors : Descriptors) (policy : Policy)
    (lead path leadNormal normal : String) (rest : List String)
    (leadNormalized : Path.normalize lead = .ok leadNormal)
    (normalized : Path.normalize path = .ok normal)
    (longer : Path.segments normal = Path.segments leadNormal ++ rest) :
    let before : Progress := { session := { tree, defaultType }, changes, checkouts }
    (do
      let _ ← create .ifNecessary descriptors policy (some lead)
      create .ifNecessary descriptors policy (some path) : Work Address).runFrom before =
        (create .ifNecessary descriptors policy (some path)).runFrom before := by
  intro before
  rcases Path.exists_segments_of_normalize leadNormalized with ⟨names, leadProper, rfl⟩
  rcases Path.exists_segments_of_normalize normalized with ⟨all, proper, rfl⟩
  rw [Path.segments_ofNames proper, Path.segments_ofNames leadProper] at longer
  subst longer
  exact runFrom_create_bind_create rfl proper leadNormalized normalized

theorem create_stepwise_archive :
    (do
      let _ ← create .ifNecessary ∅ { autoCheckout := true } (some "/archive/2024/may")
      create .ifNecessary ∅ { autoCheckout := true } (some "/archive/2024/may/3/notes") :
        Work Address).runFrom { session := { tree := Tree.archive } } =
      (create .ifNecessary ∅ { autoCheckout := true } (some "/archive/2024/may/3/notes")).runFrom
        { session := { tree := Tree.archive } } :=
  create_stepwise Tree.archive unstructuredType [] [] ∅ { autoCheckout := true }
    "/archive/2024/may" "/archive/2024/may/3/notes" "/archive/2024/may" "/archive/2024/may/3/notes"
    ["3", "notes"] (by decide +kernel) (by decide +kernel) (by decide +kernel)

end Work

end ContentTree
