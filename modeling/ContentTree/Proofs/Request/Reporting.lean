import ContentTree.Proofs.Request.Answer
import ContentTree.Proofs.Request.Mixins

/-!
# Which nodes that become versionable are reported

A policy may want the nodes that become versionable to be checked in later. The step that does so
works from the checkouts in the log, so these nodes have to be reported as checked out. A
reconciliation does that. A creation does not: a node that is created with the versionable type is
reported as created only, and so the later step never hears of it. Therefore, of the nodes that
become versionable while a request is carried out, exactly those are reported that were there before
(`reports_versionable_iff_old`).
-/

namespace ContentTree

/-- Whether the versionable type is among the mixin types of a node. -/
def Tree.hasVersionableMixin (tree : Tree) (address : Address) : Bool :=
  (tree.mixins? address).any (versionableType ∈ ·)

namespace Progress

/-- Whether a node has got the versionable type as a mixin type. -/
def MakesVersionable (before after : Progress) (address : Address) : Prop :=
  before.session.tree.hasVersionableMixin address = false ∧
    after.session.tree.hasVersionableMixin address
  deriving Decidable

/-- Whether a checkout of a node has been added to the log. -/
def ReportsCheckout (before after : Progress) (address : Address) : Prop :=
  ∃ path appended, Address.path address = .ok path ∧
    after.changes = before.changes ++ appended ∧ .checkedOut path ∈ appended

/-- Of the nodes that have become versionable, exactly those are reported that were there before. -/
def ReportsOld (before after : Progress) : Prop :=
  ∀ address, before.MakesVersionable after address →
    (before.ReportsCheckout after address ↔ address ∈ before.session.tree)

variable {before prepared progress : Progress} {policy : Policy} {address : Address}
  {descriptors : Descriptors} {names : List String}

/-- A node that a reconciliation makes versionable is reported. -/
theorem reportsCheckout_reconciling (prepares : before.Prepares prepared) {other : Address}
    {path : String} {node : Node} {requested : List String}
    (isOn : policy.checkinOnNewVersionable) (named : Address.path address = .ok path)
    (mixins : before.session.tree.mixins? address = some node.mixins)
    (makes : before.MakesVersionable (prepared.reconciling policy address path node requested)
      other) : other = address ∧
    before.ReportsCheckout (prepared.reconciling policy address path node requested) other := by
  rcases makes with ⟨lacked, has⟩
  have isThere : address ∈ prepared.session.tree := by
    rw [← Tree.mixins?_isSome_iff, prepares.mixins?, mixins, Option.isSome_some]
  rw [Tree.hasVersionableMixin, mixins?_reconciling isThere, prepares.mixins?] at has
  rw [Tree.hasVersionableMixin] at lacked
  split at has
  case isFalse =>
    rw [lacked] at has
    cases has
  case isTrue isTarget =>
    subst isTarget
    have isWanted : versionableType ∈ requested := by simpa using has
    have isNew : versionableType ∉ node.mixins := by simpa [mixins] using lacked
    rcases prepares.exists_changes with ⟨opened, logged⟩
    refine ⟨rfl, path, opened ++ [.checkedOut path], named, ?_, by simp⟩
    simp only [reconciling, changes_reporting, changes_withTree, logged, isWanted, isNew, isOn,
      not_false_eq_true, and_self, ↓reduceIte, List.append_assoc]

/-- The nodes that a creation makes versionable are new. -/
theorem new_of_makesVersionable_grown
    (makes : progress.MakesVersionable (progress.grown descriptors policy names) address) :
    address <:+ names.reverse ∧ address ∉ progress.session.tree := by
  have effect := Work.creationEffect_grown progress descriptors policy names
  rcases makes with ⟨lacked, has⟩
  have absent : address ∉ progress.session.tree := by
    intro present
    rw [Tree.hasVersionableMixin, mixins?_grown present] at has
    exact absurd has (Bool.eq_false_iff.1 lacked)
  have isThere : address ∈ (progress.grown descriptors policy names).session.tree := by
    rw [← Tree.mixins?_isSome_iff]
    rcases (Option.any_eq_true_iff_get _ _).1 has with ⟨isThere, -⟩
    exact isThere
  rcases effect.mem_iff.1 isThere with isNew | present
  · exact ⟨isNew.1, absent⟩
  · exact absurd present absent

theorem not_reportsCheckout_grown (proper : ∀ name ∈ names, Path.IsSegment name)
    (suffix : address <:+ names.reverse)
    (absent : address ∉ progress.session.tree) :
    ¬progress.ReportsCheckout (progress.grown descriptors policy names) address := by
  rintro ⟨path, appended, named, logged, reported⟩
  have onWay : ∀ {other : Address}, other <:+ names.reverse →
      ∀ name ∈ other, Path.IsSegment name := by
    intro other otherSuffix name nameMem
    exact proper name (List.mem_reverse.1 (otherSuffix.subset nameMem))
  rw [Address.path_of_segments (onWay suffix)] at named
  cases named
  rw [(Work.creationEffect_grown progress _ _ _).changes, List.append_assoc,
    List.append_cancel_left_eq] at logged
  rw [← logged, List.mem_append, List.mem_map, List.mem_map] at reported
  rcases reported with ⟨lock, isLock, sameChange⟩ | ⟨lead, -, sameChange⟩
  · rcases Tree.mem_of_opened? (Option.mem_toList.1 isLock) with ⟨present, lockSuffix⟩
    have sameAddress : lock.reverse = address.reverse := by
      apply Path.ofNames_injective
      · simpa using onWay lockSuffix
      · simpa using onWay suffix
      · exact congrArg Change.source sameChange
    rw [List.reverse_injective sameAddress] at present
    exact absent present
  · cases sameChange

/-- No node that a creation makes versionable was there before, and none is reported. -/
theorem reportsOld_grown (proper : ∀ name ∈ names, Path.IsSegment name) :
    progress.ReportsOld (progress.grown descriptors policy names) := by
  intro address makes
  rcases new_of_makesVersionable_grown makes with ⟨suffix, absent⟩
  constructor
  · intro reported
    exact absurd reported (not_reportsCheckout_grown proper suffix absent)
  · intro present
    exact absurd present absent

end Progress

namespace Work

variable {before : Progress} {policy : Policy} {descriptors : Descriptors}
  {arrange : List String → List String} {path : Option String}

theorem reportsOld_of_create (fresh : before.session.stale = []) {address : Address}
    {after : Progress} (ran : (create .ifNecessary descriptors policy path).runFrom before =
      (.ok address, after)) : before.ReportsOld after := by
  rcases exists_names_of_runFrom_create ran with ⟨text, names, rfl, proper, normalized⟩
  rcases (runFrom_create_eq_ok_iff fresh proper normalized).1 ran with ⟨-, -, rfl⟩
  exact Progress.reportsOld_grown proper

theorem reportsOld_of_createOrUpdateKnowing {answer : Bool} {after : Progress}
    (isOn : policy.checkinOnNewVersionable) (arranges : ∀ names, (arrange names).Perm names)
    (ran : (createOrUpdateKnowing before.session.knows arrange .ifNecessary descriptors policy
      path).runFrom before = (.ok answer, after)) : before.ReportsOld after := by
  rcases exists_normal_of_runFrom_createOrUpdateKnowing ran with ⟨text, normal, rfl, normalized⟩
  rcases Path.exists_segments_of_normalize normalized with ⟨names, proper, rfl⟩
  have settled := settled_of_runFrom_createOrUpdateKnowing arranges
    before.session.isSome_item?_of_knows proper normalized ran
  cases settled with
  | created => exact Progress.reportsOld_grown proper
  | kept =>
      rintro address ⟨lacked, has⟩
      rw [lacked] at has
      cases has
  | updated _ stored =>
      intro address makes
      rw [Progress.updated_eq_reconciling] at makes ⊢
      have reversedProper : ∀ name ∈ names.reverse, Path.IsSegment name := by simpa using proper
      have named := Address.path_of_segments reversedProper
      rcases Progress.reportsCheckout_reconciling (Progress.prepares_unlocking _) isOn named
        (Tree.mixins?_of_node? stored) makes with ⟨rfl, reported⟩
      have present : names.reverse ∈ before.session.tree :=
        Tree.node?_isSome_iff.1 (Option.isSome_of_mem stored)
      exact ⟨fun _ => present, fun _ => reported⟩

/-- Of the nodes that become versionable while a request is carried out, exactly those are reported
as checked out that were there before. In particular, reconciliation reports all of them. -/
theorem reports_versionable_iff_old (before : Progress) (reachable : before.session.Reachable)
    (policy : Policy) (isOn : policy.checkinOnNewVersionable)
    (arrange : List String → List String) (arranges : ∀ names, (arrange names).Perm names) :
    (∀ descriptors path address after,
      (create .ifNecessary descriptors policy path).runFrom before = (.ok address, after) →
        before.ReportsOld after) ∧
    (∀ descriptors path answer after,
      (createOrUpdateKnowing before.session.knows arrange .ifNecessary descriptors policy
        path).runFrom before = (.ok answer, after) → before.ReportsOld after) ∧
    ∀ address ∈ before.session.tree, ∀ requested after,
      (reconcileArranged arrange .ifNecessary policy address requested).runFrom before =
        (.ok (), after) →
      ∀ other, before.MakesVersionable after other → before.ReportsCheckout after other := by
  refine ⟨?_, ?_, ?_⟩
  · intro descriptors path address after
    exact reportsOld_of_create reachable.stale_eq_nil
  · intro descriptors path answer after
    exact reportsOld_of_createOrUpdateKnowing isOn arranges
  · intro address present requested after ran other makes
    rcases exists_reconciling reachable present arranges ran with
      ⟨prepared, path, node, prepares, named, mixins, -, rfl⟩
    exact (Progress.reportsCheckout_reconciling prepares isOn named mixins makes).2

/-- What a request says that wants the node at a path to be versionable. -/
def versionableAt (path : String) : Descriptors :=
  let typesPath := path ++ "/" ++ mixinTypesName
  .ofList [(typesPath, { path := typesPath, values := some [versionableType] })]

theorem reports_versionable_iff_old_page :
    let session := (Session.performAll {} [.edit [] (.addNode "page" none)]).2
    ∃ after, (createOrUpdateKnowing session.knows id .ifNecessary (versionableAt "/page")
        { checkinOnNewVersionable := true } (some "/page")).runFrom { session } =
          (.ok false, after) ∧
      Progress.ReportsCheckout { session } after ["page"] := by
  intro session
  have reachable : session.Reachable := Session.Reachable.performAll ⟨unstructuredType, .refl⟩ _
  let policy : Policy := { checkinOnNewVersionable := true }
  let run := (createOrUpdateKnowing session.knows id .ifNecessary (versionableAt "/page") policy
    (some "/page")).runFrom { session }
  have answered : run.1 = .ok false := by decide +kernel
  have ran : run = (.ok false, run.2) := by rw [← answered]
  have reports := (reports_versionable_iff_old { session } reachable policy rfl id
    fun _ => .refl _).2.1 (versionableAt "/page") (some "/page") false run.2 ran
  have makes : Progress.MakesVersionable { session } run.2 ["page"] := by decide +kernel
  have isThere : ["page"] ∈ session.tree := by decide +kernel
  exact ⟨run.2, ran, (reports ["page"] makes).2 isThere⟩

/-- A node that becomes versionable need not be reported as checked out. -/
theorem not_create_reports_versionable : ¬∀ (session : Session) (policy : Policy)
    (descriptors : Descriptors) (path : Option String) (address : Address) (after : Progress),
    session.Reachable → policy.checkinOnNewVersionable →
    (create .ifNecessary descriptors policy path).runFrom { session } = (.ok address, after) →
    ∀ other, Progress.MakesVersionable { session } after other →
      Progress.ReportsCheckout { session } after other := by
  intro reports
  let policy : Policy := { checkinOnNewVersionable := true }
  let run := (create .ifNecessary (versionableAt "/page") policy (some "/page")).runFrom
    { session := {} }
  have answered : run.1 = .ok ["page"] := by decide +kernel
  have ran : run = (.ok ["page"], run.2) := by rw [← answered]
  have makes : Progress.MakesVersionable { session := {} } run.2 ["page"] := by decide +kernel
  rcases reports {} policy (versionableAt "/page") (some "/page") ["page"] run.2
    ⟨unstructuredType, .refl⟩ rfl ran ["page"] makes with
    ⟨path, appended, -, logged, reported⟩
  have onlyCreated : run.2.changes = [.created "/page"] := by decide +kernel
  rw [onlyCreated, List.nil_append] at logged
  rw [← logged, List.mem_singleton] at reported
  cases reported

end Work

end ContentTree
