import ContentTree.Proofs.Request.Outcome
import ContentTree.Proofs.Session.Reachable
import ContentTree.Proofs.Session.Recording

/-!
# What the answer of creating or updating means

Creating or updating answers whether the node was created, and it decides this before it begins to
work, from whether an item is known at the path. On a session that overlooks the item there, the
answer is yes although there is nothing left to create: the way down meets the node after all, and
everything stays as it is. On any path that the session does not overlook the answer is right, that
is, it is yes exactly if the node was not there before and has been added and reported
(`Work.createOrUpdate_answer`).
-/

namespace ContentTree

namespace Progress

variable {progress : Progress} {descriptors : Descriptors} {policy : Policy} {names : List String}

/-- A creation only adds to the log, and a node that was not there is reported in what it adds. -/
theorem exists_changes_grown : ∃ appended,
    (progress.grown descriptors policy names).changes = progress.changes ++ appended ∧
      (names.reverse ∉ progress.session.tree → .created (Path.ofNames names) ∈ appended) := by
  refine ⟨((progress.session.tree.opened? policy names).toList.map fun lock =>
      .checkedOut (Path.ofNames lock.reverse)) ++
    Work.creations (progress.session.tree.deepest names) (progress.session.tree.missing names),
    ?_, ?_⟩
  · rw [grown, changes_reporting, changes_withTree, changes_unlocking, List.append_assoc]
  · intro absent
    have missing : progress.session.tree.missing names ≠ [] :=
      mt Tree.missing_eq_nil_iff.1 absent
    have last := Work.getLast?_creations (progress.session.tree.deepest names) missing
    rw [Tree.deepest_append_missing] at last
    exact List.mem_append_right _ (List.mem_of_getLast? last)

end Progress

namespace Work

variable {knows : String → Bool} {arrange : List String → List String} {checkout : Checkout}
  {descriptors : Descriptors} {policy : Policy} {path : Option String} {progress later : Progress}
  {answer : Bool}

theorem exists_normal_of_runFrom_createOrUpdateKnowing
    (ran : (createOrUpdateKnowing knows arrange checkout descriptors policy path).runFrom progress =
      (.ok answer, later)) :
    ∃ text normal, path = some text ∧ Path.normalize text = .ok normal := by
  rcases (runFrom_lift_bind_eq_ok_iff _).1 ran with ⟨text, isRequired, ran⟩
  rcases (runFrom_lift_bind_eq_ok_iff _).1 ran with ⟨normal, normalized, -⟩
  exact ⟨text, normal, Path.eq_some_of_required isRequired, normalized⟩

/-- Whichever way nodes are prepared, the session and the log end as with the usual preparation
under some policy. -/
theorem exists_settled_of_runFrom_createOrUpdateKnowing {text : String} {names : List String}
    (arranges : ∀ names, (arrange names).Perm names)
    (trusted : ∀ asked, knows asked → (progress.session.tree.item? asked).isSome)
    (proper : ∀ name ∈ names, Path.IsSegment name)
    (normalized : Path.normalize text = .ok (Path.ofNames names))
    (ran : (createOrUpdateKnowing knows arrange checkout descriptors policy (some text)).runFrom
      progress = (.ok answer, later)) :
    ∃ followed other, Settled knows descriptors followed names progress answer other ∧
      later.session = other.session ∧ later.changes = other.changes := by
  cases checkout with
  | ifNecessary =>
      exact ⟨policy, later, settled_of_runFrom_createOrUpdateKnowing arranges trusted proper
        normalized ran, rfl, rfl⟩
  | recordOnly =>
      have resembles : (createOrUpdateKnowing knows arrange .recordOnly descriptors policy
            (some text)).Resembles
          (createOrUpdateKnowing knows arrange .ifNecessary descriptors policy.withoutCheckout
            (some text)) progress progress :=
        resembles_createOrUpdateKnowing trusted rfl
      rcases usual : (createOrUpdateKnowing knows arrange .ifNecessary descriptors
        policy.withoutCheckout (some text)).runFrom progress with ⟨outcome, other⟩
      rw [Resembles, ran, usual] at resembles
      rcases resembles with ⟨rfl, alike⟩
      exact ⟨policy.withoutCheckout, other, settled_of_runFrom_createOrUpdateKnowing arranges
        trusted proper normalized usual, Progress.session_eq_of_alike alike,
        Progress.changes_eq_of_alike alike⟩

/-- What an answer tells about the item at a path, about the changes that were reported and about
the tree that is left. -/
structure AnswerMeans (stale : String → Bool) (tree : Tree) (path : String) (answer : Bool)
    (reported : List Change) (last : Tree) : Prop where
  iff_created_or_overlooked : answer = true ↔
    (tree.item? path = none ∧ .created path ∈ reported) ∨ (stale path ∧ (tree.item? path).isSome)
  created : tree.item? path = none →
    .created path ∈ reported ∧ last.item? path = some (.node (Path.segments path).reverse)
  overlooked : stale path → (tree.item? path).isSome → last = tree ∧ reported = []

namespace AnswerMeans

variable {stale : String → Bool} {tree last : Tree} {path : String} {reported : List Change}

theorem of_known (there : (tree.item? path).isSome) (notStale : stale path = false) :
    AnswerMeans stale tree path false reported last where
  iff_created_or_overlooked := by simp [notStale, Option.ne_none_iff_isSome.2 there]
  created nothing := absurd nothing (Option.ne_none_iff_isSome.2 there)
  overlooked isStale := by simp [notStale] at isStale

theorem of_overlooked (there : (tree.item? path).isSome) (isStale : stale path) :
    AnswerMeans stale tree path true [] tree where
  iff_created_or_overlooked := by simp [there, isStale]
  created nothing := absurd nothing (Option.ne_none_iff_isSome.2 there)
  overlooked _ _ := ⟨rfl, rfl⟩

theorem of_created (nothing : tree.item? path = none) (isReported : .created path ∈ reported)
    (target : last.item? path = some (.node (Path.segments path).reverse)) :
    AnswerMeans stale tree path true reported last where
  iff_created_or_overlooked := by simp [nothing, isReported]
  created _ := ⟨isReported, target⟩
  overlooked _ there := by simp [nothing] at there

end AnswerMeans

theorem Settled.exists_reported {stale : String → Bool} {names : List String}
    (settled : Settled (progress.session.knowsExcept stale) descriptors policy names progress answer
      later)
    (proper : ∀ name ∈ names, Path.IsSegment name) :
    ∃ reported, later.changes = progress.changes ++ reported ∧
      AnswerMeans stale progress.session.tree (Path.ofNames names) answer reported
        later.session.tree := by
  have ofKnown : progress.session.knowsExcept stale (Path.ofNames names) →
      (progress.session.tree.item? (Path.ofNames names)).isSome ∧
        stale (Path.ofNames names) = false := by
    intro known
    simpa [Session.knowsExcept, and_comm] using known
  cases settled with
  | created unknown free =>
      have absentIff := Tree.item?_ofNames_eq_none_iff proper free
      by_cases present : names.reverse ∈ progress.session.tree
      · have there : (progress.session.tree.item? (Path.ofNames names)).isSome := by
          rw [← Option.ne_none_iff_isSome, ne_eq, absentIff, not_not]
          exact present
        have isStale : stale (Path.ofNames names) := by
          simpa [Session.knowsExcept, there] using unknown
        rw [Progress.grown_of_missing_nil descriptors policy (Tree.missing_eq_nil_iff.2 present)]
        exact ⟨[], by simp, .of_overlooked there isStale⟩
      · rcases Progress.exists_changes_grown with ⟨reported, logged, isNew⟩
        have target : (progress.grown descriptors policy names).session.tree.item?
            (Path.ofNames names) =
              some (.node (Path.segments (Path.ofNames names)).reverse) := by
          rw [Path.segments_ofNames proper, Tree.item?_ofNames proper]
          exact Tree.itemAt?_of_mem (creationEffect_grown progress _ _ _).target_mem
        refine ⟨reported, logged, ?_⟩
        exact .of_created (absentIff.2 present) (isNew present) target
  | kept known =>
      rcases ofKnown known with ⟨there, notStale⟩
      exact ⟨[], by simp, .of_known there notStale⟩
  | updated known =>
      rcases ofKnown known with ⟨there, notStale⟩
      rcases Progress.exists_changes_updated with ⟨checkouts, logged⟩
      exact ⟨_, logged, .of_known there notStale⟩

/-- Creating or updating answers yes exactly if it has added the node at the path or if the session
overlooks the item there; in that case it has done nothing at all. -/
theorem createOrUpdate_answer (before : Progress) (stale : String → Bool)
    (arrange : List String → List String) (arranges : ∀ names, (arrange names).Perm names)
    (checkout : Checkout) (descriptors : Descriptors) (policy : Policy) (path : Option String)
    (answer : Bool) (after : Progress)
    (returned : (createOrUpdateKnowing (before.session.knowsExcept stale) arrange checkout
      descriptors policy path).runFrom before = (.ok answer, after)) :
    ∃ text normal reported, path = some text ∧ Path.normalize text = .ok normal ∧
      after.changes = before.changes ++ reported ∧
      AnswerMeans stale before.session.tree normal answer reported after.session.tree := by
  rcases exists_normal_of_runFrom_createOrUpdateKnowing returned with
    ⟨text, normal, rfl, normalized⟩
  rcases Path.exists_segments_of_normalize normalized with ⟨names, proper, rfl⟩
  rcases exists_settled_of_runFrom_createOrUpdateKnowing arranges
    before.session.isSome_item?_of_knowsExcept proper normalized returned with
    ⟨followed, other, settled, sameSession, sameChanges⟩
  rcases settled.exists_reported proper with ⟨reported, logged, means⟩
  rw [sameSession, sameChanges]
  exact ⟨text, _, reported, rfl, normalized, logged, means⟩

theorem createOrUpdate_answer_archive :
    ∃ after, (createOrUpdateKnowing
        (Session.knowsExcept { tree := Tree.archive } (· = "/archive/2024")) id .recordOnly ∅ {}
        (some "/archive//2024")).runFrom { session := { tree := Tree.archive } } =
          (.ok true, after) ∧
      AnswerMeans (· = "/archive/2024") Tree.archive "/archive/2024" true [] Tree.archive := by
  let before : Progress := { session := { tree := Tree.archive } }
  let run := (createOrUpdateKnowing (before.session.knowsExcept (· = "/archive/2024")) id
    .recordOnly ∅ {} (some "/archive//2024")).runFrom before
  have answered : run.1 = .ok true := by decide +kernel
  have succeeded : run = (.ok true, run.2) := Prod.ext answered rfl
  rcases createOrUpdate_answer before (· = "/archive/2024") id (fun _ => .refl _) .recordOnly ∅ {}
    (some "/archive//2024") true run.2 succeeded with
    ⟨text, normal, reported, ⟨⟩, normalized, -, means⟩
  have isNormal : Path.normalize "/archive//2024" = .ok "/archive/2024" := by decide +kernel
  cases isNormal.symm.trans normalized
  rcases means.overlooked (by decide) (by decide +kernel) with ⟨sameTree, rfl⟩
  rw [sameTree] at means
  exact ⟨run.2, succeeded, means⟩

/-- The answer alone does not tell that a node was created. -/
theorem not_createOrUpdate_answers_creation : ¬∀ (session : Session) (stale : String → Bool)
    (policy : Policy) (text normal : String) (answer : Bool) (after : Progress),
    session.Reachable → Path.normalize text = .ok normal →
    (createOrUpdateKnowing (session.knowsExcept stale) id .ifNecessary ∅ policy
      (some text)).runFrom { session } = (.ok answer, after) →
    (answer = true ↔ session.tree.item? normal = none ∧ .created normal ∈ after.changes) := by
  intro answers
  let session : Session := (Session.performAll {} [.edit [] (.addNode "a" none)]).2
  have reachable : session.Reachable := Session.Reachable.performAll ⟨unstructuredType, .refl⟩ _
  let run := (createOrUpdateKnowing (session.knowsExcept (· = "/a")) id .ifNecessary ∅ {}
    (some "/a")).runFrom { session }
  have answered : run.1 = .ok true := by decide +kernel
  have created := (answers session (· = "/a") {} "/a" "/a" true run.2 reachable
    (by decide +kernel) (Prod.ext answered rfl)).1 rfl
  have isThere : session.tree.item? "/a" = some (.node ["a"]) := by decide +kernel
  cases isThere.symm.trans created.1

end Work

end ContentTree
