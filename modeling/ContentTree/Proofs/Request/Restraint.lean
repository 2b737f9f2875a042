import ContentTree.Proofs.Descriptor.Blanks
import ContentTree.Proofs.Request.Mixins

/-!
# When a request leaves the mixin types of a node alone

A request need not say anything about the mixin types of a node that is there, and what it says need
not have values in effect. Then creating or updating leaves the node and everything else as it is,
and only a removal takes away all mixin types of a node that has some. There is one exception, the
submissions that count although they have no values in effect. They are taken for the wish that
there be no mixin types, and so they take away all of them (`createOrUpdate_restrained`).
-/

namespace ContentTree

namespace Descriptors

variable {descriptors : Descriptors} {address : Address}

/-- Whether a request has no values in effect for the mixin types of a node. -/
def WantsNothing (descriptors : Descriptors) (address : Address) : Prop :=
  ∀ descriptor ∈ descriptors.ofProperty? address mixinTypesName,
    descriptor.effectiveValues = some []
  deriving Decidable

/-- Whether a submission for the mixin types of a node counts with no values in effect. -/
def Overcounts (descriptors : Descriptors) (address : Address) : Prop :=
  ∃ descriptor ∈ descriptors.ofProperty? address mixinTypesName, descriptor.Overcounts
  deriving Decidable

theorem WantsNothing.mixinsAt?_eq_none (wantsNothing : descriptors.WantsNothing address)
    (notOvercounts : ¬descriptors.Overcounts address) : descriptors.mixinsAt? address = none := by
  unfold mixinsAt?
  cases said : descriptors.ofProperty? address mixinTypesName with
  | none => rfl
  | some descriptor =>
      have nothing := wantsNothing descriptor said
      have ignored : ¬descriptor.hasValues := by
        intro counts
        exact notOvercounts ⟨descriptor, said, Descriptor.overcounts_iff.2 ⟨counts, nothing⟩⟩
      rw [Option.bind_some, if_neg ignored]

/-- What makes a request understood to want no mixin types. -/
theorem mixinsAt?_eq_nil_iff : descriptors.mixinsAt? address = some [] ↔
    ∃ descriptor ∈ descriptors.ofProperty? address mixinTypesName,
      descriptor.effectiveValues = none ∨ descriptor.Overcounts := by
  unfold mixinsAt?
  cases descriptors.ofProperty? address mixinTypesName with
  | none => simp
  | some descriptor =>
      cases counts : descriptor.hasValues with
      | false =>
          have notRemoval : descriptor.effectiveValues ≠ none := by
            intro removal
            rw [Descriptor.hasValues_of_removal removal] at counts
            cases counts
          simp [counts, notRemoval, Descriptor.overcounts_iff]
      | true =>
          cases effective : descriptor.effectiveValues with
          | none => simp [counts, effective]
          | some values => simp [counts, effective, Descriptor.overcounts_iff]

theorem Overcounts.mixinsAt?_eq_nil (overcounts : descriptors.Overcounts address) :
    descriptors.mixinsAt? address = some [] := by
  rcases overcounts with ⟨descriptor, said, overcounts⟩
  exact mixinsAt?_eq_nil_iff.2 ⟨descriptor, said, .inr overcounts⟩

end Descriptors

theorem eq_nil_of_ofList_eq_empty {names : List String} (empty : NameSet.ofList names = ∅) :
    names = [] := by
  apply List.eq_nil_iff_forall_not_mem.2
  intro name nameMem
  have isThere := NameSet.mem_ofList.2 nameMem
  rw [empty] at isThere
  cases isThere

namespace Work

variable {before after : Progress} {descriptors : Descriptors} {policy : Policy}
  {arrange : List String → List String} {knows : String → Bool} {text : String}
  {names : List String} {address : Address} {answer : Bool}

theorem runFrom_createOrUpdateKnowing_of_node (checkout : Checkout)
    (proper : ∀ name ∈ names, Path.IsSegment name)
    (normalized : Path.normalize text = .ok (Path.ofNames names))
    (known : knows (Path.ofNames names)) (present : names.reverse ∈ before.session.tree) :
    (createOrUpdateKnowing knows arrange checkout descriptors policy (some text)).runFrom before =
      match descriptors.mixinsAt? names.reverse with
      | none => (.ok false, before)
      | some requested =>
          (do
            reconcileArranged arrange checkout policy names.reverse requested
            return false : Work Bool).runFrom before := by
  have found : before.session.tree.item? (Path.ofNames names) = some (.node names.reverse) := by
    rw [Tree.item?_ofNames proper, Tree.itemAt?_of_mem present]
  rw [runFrom_createOrUpdateKnowing_of_known checkout proper normalized known
    (Option.isSome_of_eq_some found), found]
  cases descriptors.mixinsAt? names.reverse <;> rfl

/-- A reconciliation does nothing more to a node that has the requested mixin types once it is
prepared. -/
theorem runFrom_reconcileArranged_of_mixins? {checkout : Checkout} {prepared : Progress}
    {requested : List String} (arranges : ∀ names, (arrange names).Perm names)
    (prepares : (checkout.prepare policy address).runFrom before = (.ok (), prepared))
    (settled : prepared.session.tree.mixins? address = some (.ofList requested)) :
    (reconcileArranged arrange checkout policy address requested).runFrom before =
      (.ok (), prepared) := by
  rcases Option.map_eq_some_iff.1 settled with ⟨node, stored, sameMixins⟩
  have listedIff : ∀ mixin, mixin ∈ arrange node.mixins.names ↔ mixin ∈ requested := by
    intro mixin
    rw [(arranges node.mixins.names).mem_iff, sameMixins]
    exact NameSet.mem_ofList
  rw [runFrom_reconcileArranged arrange policy prepares stored, mixinEdits_eq_nil listedIff]
  rfl

/-- Whatever is done about the mixin types of a node, they are the wanted ones in the end. -/
theorem mixins?_of_runFrom_reconcileArranged {requested : List String}
    (reachable : before.session.Reachable) (present : address ∈ before.session.tree)
    (arranges : ∀ names, (arrange names).Perm names)
    (ran : (do
      reconcileArranged arrange .ifNecessary policy address requested
      return false : Work Bool).runFrom before = (.ok answer, after)) :
    answer = false ∧ after.session.tree.mixins? address = some (.ofList requested) ∧
      (after = before → policy.unlocks? before.session.tree address = none) := by
  rcases (runFrom_bind_eq_ok_iff _).1 ran with ⟨_, later, reconciled, returned⟩
  cases returned
  rcases exists_reconciling reachable present arranges reconciled with
    ⟨prepared, path, node, prepares, -, -, silentIff, rfl⟩
  refine ⟨rfl, ?_, ?_⟩
  · rw [Progress.mixins?_reconciling (prepares.mem_iff.2 present), if_pos rfl]
  · intro unchanged
    rcases prepares.exists_changes with ⟨opened, logged⟩
    have nothingMore := congrArg Progress.changes unchanged
    simp only [Progress.reconciling, Progress.changes_reporting, Progress.changes_withTree, logged,
      List.append_assoc, List.append_right_eq_self, List.append_eq_nil_iff] at nothingMore
    exact silentIff.1 (by rw [logged, nothingMore.1, List.append_nil])

/-- How the mixin types of a node fare when it is created or updated although it is there. -/
structure Restrained (descriptors : Descriptors) (policy : Policy) (address : Address)
    (before : Progress) (run : Except Fault Bool × Progress) : Prop where
  kept_iff : descriptors.WantsNothing address →
    (run = (.ok false, before) ↔ ¬descriptors.Overcounts address ∨
      before.session.tree.mixins? address = some ∅ ∧
        policy.unlocks? before.session.tree address = none)
  stripped : descriptors.Overcounts address → ∀ answer after, run = (.ok answer, after) →
    answer = false ∧ after.session.tree.mixins? address = some ∅
  emptied : ∀ answer after, run = (.ok answer, after) →
    before.session.tree.mixins? address ≠ some ∅ → after.session.tree.mixins? address = some ∅ →
    ∃ descriptor ∈ descriptors.ofProperty? address mixinTypesName,
      descriptor.effectiveValues = none ∨ descriptor.Overcounts

namespace Restrained

/-- A request that is not understood to want anything changes nothing. -/
theorem of_nothing (wanted : descriptors.mixinsAt? address = none) :
    Restrained descriptors policy address before (.ok false, before) := by
  have notOvercounts : ¬descriptors.Overcounts address := by
    intro overcounts
    cases wanted.symm.trans overcounts.mixinsAt?_eq_nil
  constructor
  · exact fun _ => iff_of_true rfl (.inl notOvercounts)
  · exact fun overcounts => absurd overcounts notOvercounts
  · rintro _ _ ⟨⟩ someMixins noMixins
    exact absurd noMixins someMixins

/-- A request that is understood to want some mixin types, be it none, brings them about. -/
theorem of_requested {requested : List String}
    (wanted : descriptors.mixinsAt? address = some requested)
    (reachable : before.session.Reachable) (present : address ∈ before.session.tree)
    (arranges : ∀ names, (arrange names).Perm names) :
    Restrained descriptors policy address before ((do
      reconcileArranged arrange .ifNecessary policy address requested
      return false : Work Bool).runFrom before) := by
  constructor
  · intro wantsNothing
    have overcounts : descriptors.Overcounts address := by
      by_contra notOvercounts
      cases wanted.symm.trans (wantsNothing.mixinsAt?_eq_none notOvercounts)
    cases wanted.symm.trans overcounts.mixinsAt?_eq_nil
    constructor
    · intro unchanged
      rcases mixins?_of_runFrom_reconcileArranged reachable present arranges unchanged with
        ⟨-, bare, isOpen⟩
      exact .inr ⟨bare, isOpen rfl⟩
    · rintro (notOvercounts | ⟨bare, isOpen⟩)
      · exact absurd overcounts notOvercounts
      · have idle : (reconcileArranged arrange .ifNecessary policy address []).runFrom before =
            (.ok (), before) :=
          runFrom_reconcileArranged_of_mixins? arranges
            (runFrom_checkoutIfNecessary_of_none isOpen) bare
        simp only [runFrom_bind, idle, runFrom_pure]
  · intro overcounts answer after ran
    cases wanted.symm.trans overcounts.mixinsAt?_eq_nil
    rcases mixins?_of_runFrom_reconcileArranged reachable present arranges ran with
      ⟨isFalse, bare, -⟩
    exact ⟨isFalse, bare⟩
  · intro answer after ran _ bare
    rcases mixins?_of_runFrom_reconcileArranged reachable present arranges ran with
      ⟨-, mixins, -⟩
    rw [bare, Option.some.injEq] at mixins
    rw [eq_nil_of_ofList_eq_empty mixins.symm] at wanted
    exact Descriptors.mixinsAt?_eq_nil_iff.1 wanted

end Restrained

/-- An existing node keeps its mixin types when the request has no values in effect for them, unless
a submission counts all the same. -/
theorem createOrUpdate_restrained (before : Progress) (reachable : before.session.Reachable)
    (arrange : List String → List String) (arranges : ∀ names, (arrange names).Perm names)
    (descriptors : Descriptors) (policy : Policy) (text normal : String) (address : Address)
    (normalized : Path.normalize text = .ok normal)
    (found : before.session.tree.item? normal = some (.node address)) :
    Restrained descriptors policy address before
      ((createOrUpdateKnowing before.session.knows arrange .ifNecessary descriptors policy
        (some text)).runFrom before) := by
  rcases Path.exists_segments_of_normalize normalized with ⟨names, proper, rfl⟩
  have known : before.session.knows (Path.ofNames names) := by
    rw [Session.knows_of_fresh reachable.stale_eq_nil, found, Option.isSome_some]
  rw [Tree.item?_ofNames proper] at found
  rcases Tree.eq_of_itemAt?_eq_node found with ⟨rfl, present⟩
  rw [runFrom_createOrUpdateKnowing_of_node .ifNecessary proper normalized known present]
  cases wanted : descriptors.mixinsAt? names.reverse with
  | none => exact .of_nothing wanted
  | some requested => exact .of_requested wanted reachable present arranges

/-- A session with a page that has a mixin type. -/
def titledPage : Session :=
  (Session.performAll {}
    [.edit [] (.addNode "page" none), .edit ["page"] (.addMixin "mix:title")]).2

theorem createOrUpdate_restrained_page :
    (createOrUpdateKnowing titledPage.knows id .ifNecessary
        (.ofList [("/page/jcr:mixinTypes",
          { path := "/page/jcr:mixinTypes", values := some ["", ""], ignoreBlanks := true })])
        {} (some "//page/.")).runFrom { session := titledPage } =
      (.ok false, { session := titledPage }) := by
  let descriptors : Descriptors := .ofList [("/page/jcr:mixinTypes",
    { path := "/page/jcr:mixinTypes", values := some ["", ""], ignoreBlanks := true })]
  have reachable : titledPage.Reachable := Session.Reachable.performAll ⟨unstructuredType, .refl⟩ _
  have restrained := createOrUpdate_restrained { session := titledPage } reachable id
    (fun _ => .refl _) descriptors {} "//page/." "/page" ["page"] (by decide +kernel)
    (by decide +kernel)
  have wantsNothing : descriptors.WantsNothing ["page"] := by decide +kernel
  have notOvercounts : ¬descriptors.Overcounts ["page"] := by decide +kernel
  exact (restrained.kept_iff wantsNothing).2 (.inl notOvercounts)

/-- A request without values in effect for the mixin types of a node may take all of them away. -/
theorem not_createOrUpdate_keeps_mixins : ¬∀ (session : Session) (policy : Policy)
    (parameters : Parameters) (descriptors : Descriptors) (normal : String) (address : Address),
    session.Reachable → session.tree.item? normal = some (.node address) →
    parameters.collect normal none = .ok descriptors → descriptors.WantsNothing address →
    ((createOrUpdateKnowing session.knows id .ifNecessary descriptors policy
      (some normal)).runFrom { session }).2.session.tree.mixins? address =
        session.tree.mixins? address := by
  intro keeps
  have reachable : titledPage.Reachable := Session.Reachable.performAll ⟨unstructuredType, .refl⟩ _
  have kept := keeps titledPage {}
    (.ofList [("./jcr:mixinTypes", .single ""),
      ("./jcr:mixinTypes@DefaultValue", .single ":ignore")])
    (.ofList [("/page/jcr:mixinTypes",
      { path := "/page/jcr:mixinTypes", values := some [""], defaultValues := [":ignore"] })])
    "/page" ["page"] reachable (by decide +kernel) (by decide +kernel) (by decide +kernel)
  revert kept
  decide +kernel

end Work

end ContentTree
