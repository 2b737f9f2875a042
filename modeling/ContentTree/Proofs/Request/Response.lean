import ContentTree.Proofs.Request.Outcome

/-!
# What a response tells

A response names the normal form of the requested path, where there is an item from then on. It says
whether a node was created, and this is so exactly if there was no item before; the log then ends
with the report of that node and otherwise reports no new node at all. The mixin types of a node are
the requested ones, no matter whether it was created or found. If none in particular are requested,
a new node has none and one that was found keeps its own (`Response.Faithful`).
-/

namespace ContentTree

/-- The response to a request is right about what was there before and about what is there after
it. -/
structure Response.Faithful (request : Request) (before : Tree) (response : Response)
    (after : Progress) : Prop where
  path : ∃ text, request.path = some text ∧ Path.normalize text = .ok response.path
  descriptors : request.parameters.collect response.path none = .ok response.descriptors
  log : response.changes = after.changes
  item : (after.session.tree.item? response.path).isSome
  created_iff : response.created = true ↔ before.item? response.path = none
  last : response.created = true → response.changes.getLast? = some (.created response.path)
  noCreation : response.created = false → ∀ change ∈ response.changes, change.kind ≠ .created
  mixins : ∃ requested, response.descriptors.mixinTypes? response.path = .ok requested ∧
    ∀ address, after.session.tree.item? response.path = some (.node address) →
      (after.session.tree.node? address).map (·.mixins) =
        match requested with
        | some names => some (.ofList names)
        | none => if response.created then some ∅ else (before.node? address).map (·.mixins)

namespace Work.Settled

variable {knows : String → Bool} {descriptors : Descriptors} {policy : Policy}
  {names : List String} {before later : Progress} {answer : Bool}

/-- What was found is not reported as new; only checkouts are reported. -/
theorem exists_changes_of_found
    (settled : Settled knows descriptors policy names before answer later)
    (isFound : answer = false) :
    ∃ checkouts : List String, later.changes = before.changes ++ checkouts.map .checkedOut := by
  cases settled with
  | created => cases isFound
  | kept => exact ⟨[], by simp⟩
  | updated => exact Progress.exists_changes_updated

theorem answer_iff (settled : Settled knows descriptors policy names before answer later)
    (exact : ∀ asked, knows asked = (before.session.tree.item? asked).isSome) :
    answer = true ↔ before.session.tree.item? (Path.ofNames names) = none := by
  have asked := exact (Path.ofNames names)
  cases settled with
  | created unknown => simpa [unknown] using asked
  | kept known => simpa [known, Option.ne_none_iff_isSome] using asked
  | updated known => simpa [known, Option.ne_none_iff_isSome] using asked

section Exact

variable (settled : Settled knows descriptors policy names before answer later)
  (proper : ∀ name ∈ names, Path.IsSegment name)
  (exact : ∀ asked, knows asked = (before.session.tree.item? asked).isSome)
include settled proper exact

theorem isSome_item? : (later.session.tree.item? (Path.ofNames names)).isSome := by
  cases settled with
  | created =>
      rw [Tree.item?_ofNames proper,
        Tree.itemAt?_of_mem (creationEffect_grown before _ _ _).target_mem]
      rfl
  | kept known => rwa [← exact]
  | updated _ stored =>
      have present : names.reverse ∈ before.session.tree :=
        Tree.node?_isSome_iff.1 (Option.isSome_of_eq_some stored)
      rw [Tree.item?_ofNames proper, Tree.itemAt?_of_mem (Progress.mem_updated.2 present)]
      rfl

theorem getLast?_changes_of_created (isCreated : answer = true) :
    later.changes.getLast? = some (.created (Path.ofNames names)) := by
  have nothing := (settled.answer_iff exact).1 isCreated
  cases settled with
  | created _ free =>
      exact Progress.getLast?_changes_grown ((Tree.item?_ofNames_eq_none_iff proper free).1 nothing)
  | kept => cases isCreated
  | updated => cases isCreated

theorem mixins : ∃ requested, descriptors.mixinTypes? (Path.ofNames names) = .ok requested ∧
    ∀ address, later.session.tree.item? (Path.ofNames names) = some (.node address) →
      (later.session.tree.node? address).map (·.mixins) =
        match requested with
        | some names => some (.ofList names)
        | none =>
            if answer then some ∅ else (before.session.tree.node? address).map (·.mixins) := by
  have answered := settled.answer_iff exact
  have wanted := descriptors.mixinTypes?_eq_mixinsAt? proper
  refine ⟨descriptors.mixinsAt? names.reverse, wanted, ?_⟩
  intro address isNode
  rw [Tree.item?_ofNames proper] at isNode
  rcases Tree.eq_of_itemAt?_eq_node isNode with ⟨rfl, present⟩
  cases settled with
  | created _ free =>
      have absent := (Tree.item?_ofNames_eq_none_iff proper free).1 (answered.1 rfl)
      have isNew : (descriptors.newNode before.session.defaultType names.reverse).mixins =
          .ofList ((descriptors.mixinsAt? names.reverse).getD []) := by
        rw [← Descriptors.mixinsAt_eq]
        rfl
      rw [node?_grown absent, Option.map_some, isNew]
      cases descriptors.mixinsAt? names.reverse <;> rfl
  | kept _ nothing =>
      rcases nothing with unrequested | absent
      · rw [Except.ok.inj (wanted.symm.trans unrequested)]
        rfl
      · exact absurd present absent
  | updated _ stored requests =>
      rw [Except.ok.inj (wanted.symm.trans requests)]
      exact Progress.node?_updated stored

end Exact

end Work.Settled

namespace Request

variable {request : Request} {knows : String → Bool} {arrange : List String → List String}
  {checkout : Checkout} {base : Policy} {session : Session} {response : Response}
  {after : Progress}

/-- A response is put together from the answer of the work and the log it leaves. -/
theorem respondKnowing_eq_ok
    (ran : request.respondKnowing knows arrange checkout base session = (.ok response, after)) :
    (∃ text, request.path = some text ∧ Path.normalize text = .ok response.path) ∧
      request.parameters.collect response.path none = .ok response.descriptors ∧
      response.changes = after.changes ∧
      (Work.createOrUpdateKnowing knows arrange checkout response.descriptors
        (request.effectivePolicy base) (some response.path)).runFrom { session } =
          (.ok response.created, after) := by
  rcases worked : (request.workKnowing knows arrange checkout base).runFrom { session } with
    ⟨_ | ⟨path, created, descriptors⟩, last⟩
  · simp only [respondKnowing, worked] at ran
    cases ran
  · simp only [respondKnowing, worked] at ran
    cases ran
    rcases (Work.runFrom_lift_bind_eq_ok_iff _).1 worked with ⟨text, isRequired, worked⟩
    rcases (Work.runFrom_lift_bind_eq_ok_iff _).1 worked with ⟨normal, normalized, worked⟩
    rcases (Work.runFrom_lift_bind_eq_ok_iff _).1 worked with ⟨collected, collects, worked⟩
    rcases (Work.runFrom_bind_eq_ok_iff _).1 worked with ⟨answer, _, answered, returned⟩
    cases returned
    exact ⟨⟨text, Path.eq_some_of_required isRequired, normalized⟩, collects, rfl, answered⟩

theorem respondKnowing_of_runFrom {text path : String} {descriptors : Descriptors} {answer : Bool}
    (isText : request.path = some text) (normalized : Path.normalize text = .ok path)
    (collected : request.parameters.collect path none = .ok descriptors)
    (answered : (Work.createOrUpdateKnowing knows arrange checkout descriptors
      (request.effectivePolicy base) (some path)).runFrom { session } = (.ok answer, after)) :
    request.respondKnowing knows arrange checkout base session =
      (.ok { path, created := answer, changes := after.changes, descriptors }, after) := by
  have absolute := Path.isAbsolute_of_normalize_eq_ok normalized
  have worked : (request.workKnowing knows arrange checkout base).runFrom { session } =
      (.ok (path, answer, descriptors), after) := by
    simp only [workKnowing, isText, Path.required_of_isAbsolute absolute, Work.runFrom_bind,
      Work.runFrom_liftExcept, normalized, collected, answered, Work.runFrom_pure]
  simp only [respondKnowing, worked]
  rfl

end Request

/-- A response is faithful, on every session that is not stale. -/
theorem respond_faithful (tree : Tree) (defaultType : String) (request : Request) (base : Policy)
    (arrange : List String → List String) (arranges : ∀ names, (arrange names).Perm names)
    (response : Response) (after : Progress)
    (responds : request.respondKnowing (Session.knows { tree, defaultType }) arrange .ifNecessary
      base { tree, defaultType } = (.ok response, after)) :
    response.Faithful request tree after := by
  rcases Request.respondKnowing_eq_ok responds with
    ⟨⟨text, isText, normalized⟩, collected, sameLog, answered⟩
  let session : Session := { tree, defaultType }
  rcases response with ⟨path, created, changes, descriptors⟩
  rcases Path.exists_segments_of_normalize normalized with ⟨names, proper, rfl⟩
  have exact : ∀ asked, session.knows asked = (tree.item? asked).isSome :=
    Session.knows_of_fresh rfl
  have settled := Work.settled_of_runFrom_createOrUpdateKnowing arranges
    session.isSome_item?_of_knows proper (Path.normalize_normalize normalized) answered
  exact
    { path := ⟨text, isText, normalized⟩
      descriptors := collected
      log := sameLog
      item := settled.isSome_item? proper exact
      created_iff := settled.answer_iff exact
      last := by
        intro isCreated
        rw [sameLog]
        exact settled.getLast?_changes_of_created proper exact isCreated
      noCreation := by
        intro isFound change changeMem
        rcases settled.exists_changes_of_found isFound with ⟨checkouts, reported⟩
        rw [sameLog, reported, List.nil_append, List.mem_map] at changeMem
        rcases changeMem with ⟨path, -, rfl⟩
        exact nofun
      mixins := settled.mixins proper exact }

theorem respond_faithful_archive :
    let request : Request :=
      { path := some "/archive/./2024"
        parameters := .ofList [("/archive/2024/jcr:mixinTypes", .several ["mix:title"])] }
    ∃ response after,
      request.respond .ifNecessary { autoCheckout := true } { tree := Tree.archive } =
          (.ok response, after) ∧
        response.Faithful request Tree.archive after ∧ response.created = false := by
  intro request
  have answered : (request.respond .ifNecessary { autoCheckout := true }
      { tree := Tree.archive }).1.map Response.created = .ok false := by decide +kernel
  rcases ran : request.respond .ifNecessary { autoCheckout := true } { tree := Tree.archive } with
    ⟨_ | response, after⟩
  · rw [ran] at answered
    cases answered
  · rw [ran] at answered
    exact ⟨response, after, rfl, respond_faithful Tree.archive unstructuredType request _ id
      (fun _ => .refl _) response after ran, Except.ok.inj answered⟩

end ContentTree
