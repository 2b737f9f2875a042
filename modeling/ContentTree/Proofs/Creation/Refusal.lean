import ContentTree.Proofs.Creation.Outcome
import ContentTree.Proofs.Outcomes
import ContentTree.Request

/-!
# When a creation is refused

A creation is refused if there is no node that its path could lead to, if a property obstructs the
way, or if the deepest node on the way is checked in and may not be checked out; these are the only
reasons (`CreationRefused`). A creation that is refused leaves no trace (`Work.LeavesNoTrace`), and
neither does a request that fails at a path where there is no item.
-/

namespace ContentTree

/-- When the creation of the node at a path is refused, and for what fault. -/
inductive CreationRefused (tree : Tree) (policy : Policy) : Option String → Fault → Prop
  | malformed {path : Option String} {fault : Fault} (malformed : Path.Malformed path fault) :
      CreationRefused tree policy path fault
  | obstructed {path normal name : String} {deepest : Address} {rest : List String}
      (normalized : Path.normalize path = .ok normal)
      (way : Path.segments normal = deepest.reverse ++ name :: rest)
      (present : deepest ∈ tree) (absent : name :: deepest ∉ tree)
      (isProperty : (tree.property? deepest name).isSome) :
      CreationRefused tree policy (some path)
        (.notANode (Path.ofNames (deepest.reverse ++ [name])))
  | locked {path normal name : String} {deepest versionable : Address} {rest : List String}
      (normalized : Path.normalize path = .ok normal)
      (way : Path.segments normal = deepest.reverse ++ name :: rest)
      (present : deepest ∈ tree) (absent : name :: deepest ∉ tree)
      (free : tree.property? deepest name = none)
      (isOff : policy.autoCheckout = false)
      (nearest : tree.nearestVersionable? deepest = some versionable)
      (checkedIn : tree.isFlagged versionable = false) :
      CreationRefused tree policy (some path) (.checkedIn (Path.ofNames deepest.reverse))

namespace Tree

variable {tree : Tree} {policy : Policy} {names : List String} {fault : Fault}

theorem refusal?_eq_some_iff : tree.refusal? policy names = some fault ↔
    ∃ name rest, tree.missing names = name :: rest ∧
      ((tree.property? (tree.deepest names) name).isSome ∧
          fault = .notANode (Path.ofNames ((tree.deepest names).reverse ++ [name])) ∨
        tree.property? (tree.deepest names) name = none ∧ policy.autoCheckout = false ∧
          (tree.lock? (tree.deepest names)).isSome ∧
          fault = .checkedIn (Path.ofNames (tree.deepest names).reverse)) := by
  cases missing : tree.missing names with
  | nil => simp [refusal?, missing]
  | cons name rest =>
      simp only [refusal?, missing, List.cons.injEq]
      cases found : tree.property? (tree.deepest names) name with
      | some values => simp [found, eq_comm (a := fault)]
      | none => simp [found, eq_comm (a := fault), and_assoc]

theorem creationRefused_iff {path normal : String} (normalized : Path.normalize path = .ok normal) :
    CreationRefused tree policy (some path) fault ↔
      tree.refusal? policy (Path.segments normal) = some fault := by
  rw [refusal?_eq_some_iff]
  constructor
  · intro refused
    cases refused with
    | malformed malformed => exact absurd normalized malformed.normalize_ne_ok
    | obstructed same way present absent isProperty =>
        cases normalized.symm.trans same
        rcases eq_deepest_of_way way present absent with ⟨rfl, missing⟩
        exact ⟨_, _, missing, .inl ⟨isProperty, rfl⟩⟩
    | locked same way present absent free isOff nearest checkedIn =>
        cases normalized.symm.trans same
        rcases eq_deepest_of_way way present absent with ⟨rfl, missing⟩
        have locked := lock?_eq_some_iff.2 ⟨nearest, checkedIn⟩
        exact ⟨_, _, missing, .inr ⟨free, isOff, Option.isSome_of_eq_some locked, rfl⟩⟩
  · rintro ⟨name, rest, missing, reason⟩
    have way : Path.segments normal =
        (tree.deepest (Path.segments normal)).reverse ++ name :: rest := by
      rw [← missing, deepest_append_missing]
    have present := tree.deepest_mem (Path.segments normal)
    have absent : name :: tree.deepest (Path.segments normal) ∉ tree :=
      cons_deepest_notMem (mem_head?_missing missing)
    rcases reason with ⟨isProperty, rfl⟩ | ⟨free, isOff, locked, rfl⟩
    · exact .obstructed normalized way present absent isProperty
    · rcases Option.isSome_iff_exists.1 locked with ⟨versionable, lock⟩
      rcases lock?_eq_some_iff.1 lock with ⟨nearest, checkedIn⟩
      exact .locked normalized way present absent free isOff nearest checkedIn

end Tree

namespace Work

section Traces

variable {Value Result : Type} {progress : Progress}

/-- Work that starts from some progress leaves it as it was if it fails. -/
def LeavesNoTrace (work : Work Value) (progress : Progress) : Prop :=
  ∀ fault, (work.runFrom progress).1 = .error fault → (work.runFrom progress).2 = progress

/-- A stage that works something out leaves no trace of its own. -/
theorem leavesNoTrace_lift_bind {outcome : Except Fault Value} {next : Value → Work Result}
    (continues : ∀ value, outcome = .ok value → (next value).LeavesNoTrace progress) :
    (liftM outcome >>= next).LeavesNoTrace progress := by
  unfold LeavesNoTrace at continues ⊢
  rw [runFrom_bind, runFrom_liftExcept]
  cases outcome with
  | error cause => exact fun _ _ => rfl
  | ok value => exact continues value rfl

/-- What is made of the result of work cannot fail any more. -/
theorem leavesNoTrace_bind_pure {work : Work Value} {view : Value → Result}
    (noTrace : work.LeavesNoTrace progress) :
    (work >>= fun value => pure (view value)).LeavesNoTrace progress := by
  intro fault failed
  rw [runFrom_bind] at failed ⊢
  rcases ran : work.runFrom progress with ⟨cause | value, later⟩
  · have untouched := noTrace cause
    rw [ran] at untouched
    exact untouched rfl
  · rw [ran] at failed
    cases failed

end Traces

variable {descriptors : Descriptors} {policy : Policy} {progress : Progress}

theorem runFrom_create_eq_error_iff (fresh : progress.session.stale = []) {path : Option String}
    {fault : Fault} :
    ((create .ifNecessary descriptors policy path).runFrom progress).1 = .error fault ↔
      CreationRefused progress.session.tree policy path fault := by
  rcases Path.malformed_or_normal path with ⟨cause, malformed⟩ | ⟨text, normal, rfl, normalized⟩
  · rw [runFrom_create, runFrom_createKnowing_of_malformed malformed, Except.error.injEq]
    constructor
    · rintro rfl
      exact .malformed malformed
    · intro refused
      cases refused with
      | malformed again => exact malformed.unique again
      | obstructed normalized => exact absurd normalized malformed.normalize_ne_ok
      | locked normalized => exact absurd normalized malformed.normalize_ne_ok
  · rcases Path.exists_segments_of_normalize normalized with ⟨names, proper, rfl⟩
    rw [Tree.creationRefused_iff normalized, Path.segments_ofNames proper,
      runFrom_create_of_normalize descriptors policy fresh proper normalized]
    cases progress.session.tree.refusal? policy names <;> simp

/-- A creation that is refused leaves no trace. -/
theorem leavesNoTrace_create (descriptors : Descriptors) (policy : Policy)
    (fresh : progress.session.stale = []) (path : Option String) :
    (create .ifNecessary descriptors policy path).LeavesNoTrace progress := by
  intro fault failed
  rcases Path.malformed_or_normal path with ⟨cause, malformed⟩ | ⟨text, normal, rfl, normalized⟩
  · rw [runFrom_create, runFrom_createKnowing_of_malformed malformed]
  · rcases Path.exists_segments_of_normalize normalized with ⟨names, proper, rfl⟩
    rw [runFrom_create_of_normalize descriptors policy fresh proper normalized] at failed ⊢
    cases refused : progress.session.tree.refusal? policy names with
    | none => simp [refused] at failed
    | some cause => rfl

theorem runFrom_createOrUpdateKnowing_of_unknown {knows : String → Bool}
    {arrange : List String → List String} {checkout : Checkout} {path normal : String}
    (normalized : Path.normalize path = .ok normal) (unknown : knows normal = false) :
    (createOrUpdateKnowing knows arrange checkout descriptors policy (some path)).runFrom progress =
      ((createKnowing knows (checkout.prepare policy) descriptors (some normal)).runFrom
        progress).map (·.map fun _ => true) id := by
  have absolute := Path.isAbsolute_of_normalize_eq_ok normalized
  simp only [createOrUpdateKnowing, runFrom_bind, Path.required_of_isAbsolute absolute,
    runFrom_liftExcept, normalized, unknown, Bool.false_eq_true, ↓reduceIte]
  rcases (createKnowing knows (checkout.prepare policy) descriptors (some normal)).runFrom progress
    with ⟨_ | _, _⟩ <;> rfl

/-- Where no item is known, creating or updating is a creation. -/
theorem leavesNoTrace_createOrUpdateKnowing (progress : Progress)
    (arrange : List String → List String) (descriptors : Descriptors) (policy : Policy)
    {path normal : String} (fresh : progress.session.stale = [])
    (normalized : Path.normalize path = .ok normal)
    (unknown : progress.session.knows normal = false) :
    (createOrUpdateKnowing progress.session.knows arrange .ifNecessary descriptors policy
      (some path)).LeavesNoTrace progress := by
  intro fault failed
  rw [runFrom_createOrUpdateKnowing_of_unknown normalized unknown, ← runFrom_create] at failed ⊢
  exact leavesNoTrace_create descriptors policy fresh (some normal) fault
    (map_eq_error_iff.1 failed)

end Work

namespace Request

/-- A request is understood without a trace, and at a path where there is no item it only
creates. -/
theorem leavesNoTrace_workKnowing {request : Request} {session : Session}
    (arrange : List String → List String) (base : Policy) (fresh : session.stale = [])
    (nothing : ∀ text normal, request.path = some text → Path.normalize text = .ok normal →
      session.tree.item? normal = none) :
    (request.workKnowing session.knows arrange .ifNecessary base).LeavesNoTrace { session } := by
  apply Work.leavesNoTrace_lift_bind
  intro text isRequired
  apply Work.leavesNoTrace_lift_bind
  intro normal normalized
  apply Work.leavesNoTrace_lift_bind
  intro descriptors _
  have absent := nothing text normal (Path.eq_some_of_required isRequired) normalized
  have unknown : session.knows normal = false := by
    rw [Session.knows_of_fresh fresh, absent, Option.isSome_none]
  apply Work.leavesNoTrace_bind_pure
  exact Work.leavesNoTrace_createOrUpdateKnowing { session } arrange descriptors _ fresh
    (Path.normalize_normalize normalized) unknown

/-- A request that fails where there is no item leaves the session as it is and reports nothing. -/
theorem respond_of_error {request : Request} {base : Policy} {session : Session} {fault : Fault}
    (fresh : session.stale = [])
    (nothing : ∀ text normal, request.path = some text → Path.normalize text = .ok normal →
      session.tree.item? normal = none)
    (failed : (request.respond .ifNecessary base session).1 = .error fault) :
    (request.respond .ifNecessary base session).2 = { session } :=
  leavesNoTrace_workKnowing id base fresh nothing fault (map_eq_error_iff.1 failed)

end Request

/-- A creation fails exactly for the reasons it is refused for, and it leaves no trace when it
fails; neither does a request at a path where there is no item. -/
theorem creation_atomic (tree : Tree) (defaultType : String) :
    (∀ (changes : List Change) (checkouts : List String) (descriptors : Descriptors)
        (policy : Policy) (path : Option String) (fault : Fault),
      let before : Progress := { session := { tree, defaultType }, changes, checkouts }
      let run := (Work.create .ifNecessary descriptors policy path).runFrom before
      (run.1 = .error fault ↔ CreationRefused tree policy path fault) ∧
        (run.1 = .error fault → run.2 = before)) ∧
    ∀ (request : Request) (base : Policy) (fault : Fault),
      (∀ text normal, request.path = some text → Path.normalize text = .ok normal →
        tree.item? normal = none) →
      (request.respond .ifNecessary base { tree, defaultType }).1 = .error fault →
      (request.respond .ifNecessary base { tree, defaultType }).2 =
        { session := { tree, defaultType } } := by
  constructor
  · intro changes checkouts descriptors policy path fault before run
    exact ⟨Work.runFrom_create_eq_error_iff rfl,
      Work.leavesNoTrace_create descriptors policy rfl path fault⟩
  · intro request base fault nothing failed
    exact Request.respond_of_error rfl nothing failed

theorem creation_atomic_archive :
    CreationRefused Tree.archive {} (some "/archive/2024/may") (.checkedIn "/archive/2024") ∧
      (Request.respond { path := some "/archive/2024/may", parameters := ∅ } .ifNecessary {}
        { tree := Tree.archive }).2 = { session := { tree := Tree.archive } } := by
  have noTrace := creation_atomic Tree.archive unstructuredType
  constructor
  · exact (noTrace.1 [] [] ∅ {} (some "/archive/2024/may") _).1.1 (by decide +kernel)
  · refine noTrace.2 _ _ (.checkedIn "/archive/2024") ?_ (by decide +kernel)
    rintro text normal ⟨⟩ normalized
    have isNormal : Path.normalize "/archive/2024/may" = .ok "/archive/2024/may" := by
      decide +kernel
    cases isNormal.symm.trans normalized
    decide +kernel

end ContentTree
