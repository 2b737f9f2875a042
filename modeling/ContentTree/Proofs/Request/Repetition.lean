import ContentTree.Proofs.Request.Response
import ContentTree.Proofs.Request.Restraint

/-!
# Repeating a request

A request that was responded to may be repeated: it is responded to again, nothing is created, and
what is stored about the nodes stays the same but for checkout flags (`respond_repeat`). The first
response goes back to a creation or to a reconciliation, the repeated one to a reconciliation at
most. By then the node has the requested mixin types, so that all there is to do is to prepare it
(`Settled.exists_runFrom_again`).

To prepare the node may still mean to take a lock off. If the first request has removed the
versionable type from a node, that node has come under the lock of a node above it. A node that has
just been created has no lock, and so the repeated request does nothing whatsoever.
-/

namespace ContentTree

/-- What is stored about a node apart from its checkout flag. -/
def Node.content (node : Node) : String × NameSet × Table String (List String) :=
  (node.primaryType, node.mixins, node.properties)

/-- Trees with the same nodes in the same order, which differ in checkout flags at most. -/
structure Tree.SameContent (tree other : Tree) : Prop where
  content : ∀ address,
    (tree.node? address).map Node.content = (other.node? address).map Node.content
  childNames : ∀ parent, tree.childNames parent = other.childNames parent

/-- The response to a repeated request tells of no creation, and it leaves the content of the tree
as the first one did. If this one told of a creation, nothing has been done at all. -/
structure Response.Repeats (first : Response) (after : Progress) (repeated : Response)
    (last : Progress) : Prop where
  path : repeated.path = first.path
  found : repeated.created = false
  noCreation : ∀ change ∈ repeated.changes, change.kind ≠ .created
  content : last.session.tree.SameContent after.session.tree
  idle : first.created = true → repeated.changes = [] ∧ last.session = after.session

namespace Progress

variable {progress : Progress}

theorem sameContent_unlocking (lock : Option Address) :
    (progress.unlocking lock).session.tree.SameContent progress.session.tree where
  content address := by
    rw [node?_unlocking, Option.map_map]
    apply Option.map_congr
    intro node _
    rw [Function.comp_apply]
    split <;> rfl
  childNames parent := childNames_unlocking lock parent

end Progress

namespace Work.Settled

variable {knows : String → Bool} {descriptors : Descriptors} {policy : Policy}
  {names : List String} {before later start : Progress} {answer : Bool}
  {arrange : List String → List String}
  (settled : Settled knows descriptors policy names before answer later)
include settled

theorem stale : later.session.stale = before.session.stale := by
  cases settled with
  | created => exact (creationEffect_grown before _ _ _).stale
  | kept => rfl
  | updated => exact Progress.stale_unlocking _

section Exact

variable (proper : ∀ name ∈ names, Path.IsSegment name)
  (exact : ∀ asked, knows asked = (before.session.tree.item? asked).isSome)
include proper exact

/-- Nothing has to be checked out for a node that creating or updating has created. -/
theorem unlocks?_of_created (isCreated : answer = true) :
    policy.unlocks? later.session.tree names.reverse = none := by
  have nothing := (settled.answer_iff exact).1 isCreated
  cases settled with
  | created _ free =>
      exact unlocks?_grown ((Tree.item?_ofNames_eq_none_iff proper free).1 nothing)
  | kept => cases isCreated
  | updated => cases isCreated

theorem mixins?_of_wanted {requested : List String} {address : Address}
    (wanted : descriptors.mixinsAt? names.reverse = some requested)
    (found : later.session.tree.item? (Path.ofNames names) = some (.node address)) :
    later.session.tree.mixins? address = some (.ofList requested) := by
  have asked := descriptors.mixinTypes?_eq_mixinsAt? proper
  rw [wanted] at asked
  rcases settled.mixins proper exact with ⟨_, asks, given⟩
  cases asked.symm.trans asks
  exact given address found

/-- Creating or updating once more takes one lock off at most, and none after a creation. -/
theorem exists_runFrom_again (fresh : before.session.stale = [])
    (arranges : ∀ names, (arrange names).Perm names) (sameSession : start.session = later.session) :
    ∃ lock, (createOrUpdateKnowing later.session.knows arrange .ifNecessary descriptors policy
        (some (Path.ofNames names))).runFrom start = (.ok false, start.unlocking lock) ∧
      (answer = true → lock = none) := by
  have reversedProper : ∀ name ∈ names.reverse, Path.IsSegment name := by simpa using proper
  have there : (start.session.tree.item? (Path.ofNames names)).isSome := by
    rw [sameSession]
    exact settled.isSome_item? proper exact
  have known : later.session.knows (Path.ofNames names) := by
    rwa [Session.knows_of_fresh (settled.stale.trans fresh), ← sameSession]
  rw [runFrom_createOrUpdateKnowing_of_known .ifNecessary proper (Path.normalize_ofNames proper)
    known there]
  cases wanted : descriptors.mixinsAt? names.reverse with
  | none => exact ⟨none, rfl, fun _ => rfl⟩
  | some requested =>
      rcases Option.isSome_iff_exists.1 there with ⟨item, found⟩
      rw [found]
      cases item with
      | property owner name => exact ⟨none, rfl, fun _ => rfl⟩
      | node address =>
          rw [sameSession] at found
          have isTarget : address = names.reverse := by
            rw [Tree.item?_ofNames proper] at found
            exact (Tree.eq_of_itemAt?_eq_node found).1
          subst isTarget
          have prepares : (Checkout.ifNecessary.prepare policy names.reverse).runFrom start =
              (.ok (), start.unlocking (policy.unlocks? start.session.tree names.reverse)) :=
            runFrom_checkoutIfNecessary reversedProper
          have given := settled.mixins?_of_wanted proper exact wanted found
          rw [← sameSession, ← (Progress.prepares_unlocking _).mixins?] at given
          have idle := runFrom_reconcileArranged_of_mixins? arranges prepares given
          refine ⟨policy.unlocks? start.session.tree names.reverse, ?_, ?_⟩
          · simp only [runFrom_bind, idle, runFrom_pure]
          · rw [sameSession]
            exact settled.unlocks?_of_created proper exact

end Exact

end Work.Settled

/-- A request that was responded to is responded to again, and the repeated request creates nothing
and changes nothing but checkout flags. If the first one created a node, the repeated one does
nothing at all. -/
theorem respond_repeat (tree : Tree) (defaultType : String) (request : Request) (base : Policy)
    (arrange rearrange : List String → List String)
    (arranges : ∀ names, (arrange names).Perm names)
    (rearranges : ∀ names, (rearrange names).Perm names) (response : Response) (after : Progress)
    (responds : request.respondKnowing (Session.knows { tree, defaultType }) arrange .ifNecessary
      base { tree, defaultType } = (.ok response, after)) :
    ∃ repeated last,
      request.respondKnowing after.session.knows rearrange .ifNecessary base after.session =
        (.ok repeated, last) ∧
      response.Repeats after repeated last := by
  rcases Request.respondKnowing_eq_ok responds with
    ⟨⟨text, isText, normalized⟩, collected, -, answered⟩
  rcases response with ⟨path, created, changes, descriptors⟩
  rcases Path.exists_segments_of_normalize normalized with ⟨names, proper, rfl⟩
  let session : Session := { tree, defaultType }
  have exact : ∀ asked, session.knows asked = (tree.item? asked).isSome :=
    Session.knows_of_fresh rfl
  have settled := Work.settled_of_runFrom_createOrUpdateKnowing arranges
    session.isSome_item?_of_knows proper (Path.normalize_normalize normalized) answered
  let start : Progress := { session := after.session }
  rcases settled.exists_runFrom_again proper exact rfl rearranges (rfl : start.session = _) with
    ⟨lock, again, noLock⟩
  let repeated : Response :=
    { path := Path.ofNames names
      created := false
      changes := (start.unlocking lock).changes
      descriptors }
  have repeats : request.respondKnowing after.session.knows rearrange .ifNecessary base
      after.session = (.ok repeated, start.unlocking lock) :=
    Request.respondKnowing_of_runFrom isText normalized collected again
  have logged : repeated.changes = lock.toList.map fun opened =>
      .checkedOut (Path.ofNames opened.reverse) := Progress.changes_unlocking lock
  exact ⟨repeated, start.unlocking lock, repeats,
    { path := rfl
      found := rfl
      noCreation := by
        intro change changeMem
        rw [logged, List.mem_map] at changeMem
        rcases changeMem with ⟨opened, -, rfl⟩
        exact nofun
      content := Progress.sameContent_unlocking lock
      idle := by
        intro isCreated
        rw [logged, noLock isCreated]
        exact ⟨rfl, rfl⟩ }⟩

theorem respond_repeat_archive :
    let request : Request :=
      { path := some "/archive/2024/./may"
        parameters := .ofList
          [("/archive/2024/may/jcr:mixinTypes", .several ["mix:title", versionableType])] }
    let base : Policy := { autoCheckout := true }
    ∃ response after repeated last,
      request.respond .ifNecessary base { tree := Tree.archive } = (.ok response, after) ∧
        request.respond .ifNecessary base after.session = (.ok repeated, last) ∧
        response.created = true ∧ repeated.created = false ∧ repeated.changes = [] ∧
        last.session = after.session := by
  intro request base
  have answered : (request.respond .ifNecessary base { tree := Tree.archive }).1.map
      Response.created = .ok true := by decide +kernel
  rcases ran : request.respond .ifNecessary base { tree := Tree.archive } with
    ⟨_ | response, after⟩
  · rw [ran] at answered
    cases answered
  · rw [ran] at answered
    have isCreated : response.created = true := Except.ok.inj answered
    rcases respond_repeat Tree.archive unstructuredType request base id id (fun _ => .refl _)
      (fun _ => .refl _) response after ran with ⟨repeated, last, again, repeats⟩
    rcases repeats.idle isCreated with ⟨noChanges, sameSession⟩
    exact ⟨response, after, repeated, last, rfl, again, isCreated, repeats.found, noChanges,
      sameSession⟩

end ContentTree
