import ContentTree.Creation
import ContentTree.Proofs.Path.Ascent
import ContentTree.Proofs.Tree.Edits
import ContentTree.Proofs.Tree.Reach

/-!
# Where a creation starts

The search for a place to start may believe in any of the items on the way, but it must not believe
in others. Then it does not matter at which of the nodes on the way it stops: the way down passes
through the others without a trace (`runFrom_foldlM_drop`), so that the creation always comes down
to creating what is missing below the deepest node. The only other outcome is that the search stops
at the property that obstructs the way (`runFrom_createKnowing`).
-/

namespace ContentTree

namespace Work

variable {prepare : Address → Work Unit} {descriptors : Descriptors} {progress : Progress}
  {knows : String → Bool} {names : List String}

theorem runFrom_foldlM_drop {size : Nat} (within : size ≤ progress.session.tree.reach [] names) :
    ((names.drop size).foldlM (enter prepare descriptors)
        (names.take size).reverse).runFrom progress =
      ((progress.session.tree.missing names).foldlM (enter prepare descriptors)
        (progress.session.tree.deepest names)).runFrom progress := by
  induction gap : progress.session.tree.reach [] names - size generalizing size with
  | zero =>
      have isDeepest : size = progress.session.tree.reach [] names := by omega
      rw [isDeepest]
      rfl
  | succ gap ih =>
      have reachLe := Tree.reach_le progress.session.tree [] names
      have sizeLt : size < names.length := by omega
      have present : names[size] :: (names.take size).reverse ∈ progress.session.tree := by
        rw [← Tree.take_add_one_reverse sizeLt, Tree.take_mem_iff_le_reach sizeLt]
        omega
      rw [List.drop_eq_getElem_cons sizeLt, List.foldlM_cons, runFrom_bind,
        runFrom_enter_of_mem present, ← Tree.take_add_one_reverse sizeLt]
      exact ih (by omega) (by omega)

theorem runFrom_createKnowing_of_malformed {path : Option String} {fault : Fault}
    (malformed : Path.Malformed path fault) :
    (createKnowing knows prepare descriptors path).runFrom progress = (.error fault, progress) := by
  unfold createKnowing
  cases malformed with
  | absent => rfl
  | notAbsolute relative =>
      simp only [runFrom_bind, Path.required_of_not_isAbsolute relative, runFrom_liftExcept]
  | aboveRoot absolute climbs =>
      simp only [runFrom_bind, Path.required_of_isAbsolute absolute, runFrom_liftExcept,
        Path.normalize_of_climbsAboveRoot absolute climbs]

theorem runFrom_getItem {path : String} {item : Item} (absolute : Path.isAbsolute path)
    (found : progress.session.tree.item? path = some item) :
    (liftM (progress.session.getItem path) : Work Item).runFrom progress =
      (.ok item, progress) := by
  simp [Session.getItem, Path.required_of_isAbsolute absolute, found, bind, Except.bind, pure,
    Except.pure]

theorem item?_of_getItem {session : Session} {path : String} {item : Item}
    (gotten : session.getItem (some path) = .ok item) : session.tree.item? path = some item := by
  rcases bind_eq_ok_iff.1 gotten with ⟨text, isRequired, gotten⟩
  cases Path.eq_some_of_required isRequired
  cases found : session.tree.item? path with
  | none => simp [found, throw, throwThe, MonadExceptOf.throw] at gotten
  | some other =>
      rw [found] at gotten
      exact congrArg some (Except.ok.inj gotten)

theorem runFrom_nearestKnown {kept : Nat}
    (proper : ∀ name ∈ names, Path.IsSegment name)
    (reached : (Path.climb knows (Path.ofNames names)).reached =
      some (Path.ofNames (names.take kept))) {item : Item}
    (found : progress.session.tree.item? (Path.ofNames (names.take kept)) = some item) :
    (nearestKnown knows (Path.ofNames names)).runFrom progress =
      (.ok (Path.ofNames (names.take kept), item), progress) := by
  have takenProper : ∀ name ∈ names.take kept, Path.IsSegment name :=
    fun name nameMem => proper name (List.mem_of_mem_take nameMem)
  unfold nearestKnown
  rw [reached]
  by_cases isRoot : Path.ofNames (names.take kept) = Path.root
  · have noNames : names.take kept = [] := by
      by_cases isEmpty : names.take kept = []
      · exact isEmpty
      · exact absurd isRoot (Path.ofNames_ne_root takenProper isEmpty)
    have rootFound : progress.session.tree.item? (Path.ofNames []) = some (.node []) := by
      rw [Tree.item?_ofNames (by simp)]
      exact Tree.itemAt?_of_mem (Tree.nil_mem _)
    rw [noNames, rootFound, Option.some.injEq] at found
    simp only [isRoot, ↓reduceIte, runFrom_pure, found]
  · simp only [isRoot, ↓reduceIte, runFrom_bind, runFrom_get,
      runFrom_getItem (Path.isAbsolute_ofNames _) found, runFrom_pure]

/-- A creation creates what is missing below the deepest node, unless its search stops at the
property that obstructs the way. -/
theorem runFrom_createKnowing {path : String}
    (trusted : ∀ asked, knows asked → (progress.session.tree.item? asked).isSome)
    (proper : ∀ name ∈ names, Path.IsSegment name)
    (normalized : Path.normalize path = .ok (Path.ofNames names)) :
    (createKnowing knows prepare descriptors (some path)).runFrom progress =
      if (progress.session.tree.obstacle? names).isSome ∧
          knows (Path.ofNames (names.take (progress.session.tree.reach [] names + 1))) then
        (.error (.notANode
          (Path.ofNames (names.take (progress.session.tree.reach [] names + 1)))), progress)
      else
        ((progress.session.tree.missing names).foldlM (enter prepare descriptors)
          (progress.session.tree.deepest names)).runFrom progress := by
  have absolute := Path.isAbsolute_of_normalize_eq_ok normalized
  have keptLength : ∀ {kept : Nat}, kept ≤ names.length →
      (Path.segments (Path.ofNames (names.take kept))).length = kept := by
    intro kept keptLe
    rw [Path.segments_ofNames fun name nameMem => proper name (List.mem_of_mem_take nameMem),
      List.length_take, Nat.min_eq_left keptLe]
  rcases Path.reached_climb_ofNames knows proper with ⟨kept, keptLe, reached, keptKnown, longest⟩
  have position : kept ≤ progress.session.tree.reach [] names ∨
      kept = progress.session.tree.reach [] names + 1 ∧
        (progress.session.tree.obstacle? names).isSome := by
    rcases Nat.eq_zero_or_pos kept with rfl | positive
    · exact .inl (Nat.zero_le _)
    · exact Tree.le_reach_or_of_item?_isSome proper keptLe (trusted _ (keptKnown positive))
  simp only [createKnowing, runFrom_bind, Path.required_of_isAbsolute absolute, runFrom_liftExcept,
    normalized]
  rcases position with atNode | ⟨atProperty, obstructed⟩
  · have found := Tree.item?_take_of_le_reach proper atNode
    have unknown : ¬((progress.session.tree.obstacle? names).isSome ∧
        knows (Path.ofNames (names.take (progress.session.tree.reach [] names + 1)))) := by
      rintro ⟨obstructed, isKnown⟩
      rcases Option.isSome_iff_exists.1 obstructed with ⟨name, obstacle⟩
      have shorter := Tree.reach_lt_of_obstacle? obstacle
      exact longest _ (by omega) (by omega) isKnown
    rw [if_neg unknown, runFrom_nearestKnown proper reached found]
    simp only [Path.segments_ofNames proper, keptLength keptLe]
    exact runFrom_foldlM_drop atNode
  · rcases Option.isSome_iff_exists.1 obstructed with ⟨name, obstacle⟩
    have found : progress.session.tree.item? (Path.ofNames (names.take kept)) =
        some (.property (progress.session.tree.deepest names) name) := by
      rw [atProperty]
      exact Tree.item?_of_obstacle? proper obstacle
    have isKnown := keptKnown (by omega)
    rw [atProperty] at isKnown
    rw [runFrom_nearestKnown proper reached found, if_pos ⟨obstructed, isKnown⟩]
    simp only [runFrom_throw, atProperty]

end Work

end ContentTree
