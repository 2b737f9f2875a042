import ContentTree.Proofs.Creation.Outcome
import ContentTree.Proofs.Session.Reachable
import ContentTree.Proofs.Tree.Region

/-!
# What is frozen until it is checked out

The region of a node that is checked in stays as it is, whatever is done to the session, until the
node itself is checked out. There are only two ways to do that: to ask for it, or to work below the
node under a policy that checks nodes out. Steps that do neither spare the node (`Step.Spares`), and
all their edits leave its region alone (`freezes_apply`).

Nothing else unlocks a region from within. Adding the versionable type would check a node out, but
is refused for a node in the region; and a node that stops being versionable falls to the node above
it, which makes the region larger.
-/

namespace ContentTree

/-- An edit that does not check out the node at some address. -/
def Edit.Spares (spared : Address) (_ : Tree) (address : Address) (change : Edit) : Prop :=
  change = .checkout → address ≠ spared

/-- A step that neither checks out the node at some address nor follows a policy that checks nodes
out. -/
def Step.Spares (spared : Address) : Step → Prop
  | .query _ => True
  | .edit place change => change = .checkout → place.reverse ≠ spared
  | .checkoutIfNecessary _ policy | .reconcile _ _ policy _ => policy.autoCheckout = false
  | .create task | .createOrUpdate task => task.policy.autoCheckout = false
  | .request posted base _ => (posted.effectivePolicy base).autoCheckout = false

theorem Policy.spares_of_allows {policy : Policy} (isOff : policy.autoCheckout = false)
    (spared : Address) {tree : Tree} {address : Address} {change : Edit}
    (isAllowed : policy.Allows tree address change) : change.Spares spared tree address := by
  rintro rfl
  have isOn : policy.autoCheckout := isAllowed
  rw [isOff] at isOn
  cases isOn

theorem Step.spares_of_allows {step : Step} {spared : Address} (spares : step.Spares spared)
    {tree : Tree} {address : Address} {change : Edit}
    (isAllowed : step.Allows tree address change) : change.Spares spared tree address := by
  cases step with
  | query => exact absurd isAllowed id
  | edit place made =>
      rcases isAllowed with ⟨rfl, rfl⟩
      exact spares
  | checkoutIfNecessary place policy => exact Policy.spares_of_allows spares spared isAllowed
  | reconcile place mixins policy checkout =>
      exact Policy.spares_of_allows spares spared isAllowed
  | create task => exact Policy.spares_of_allows spares spared isAllowed
  | createOrUpdate task => exact Policy.spares_of_allows spares spared isAllowed
  | request posted base checkout => exact Policy.spares_of_allows spares spared isAllowed

namespace Tree

/-- Whatever an edit does, it leaves the region of a node that is checked in as it is, unless it
checks out this very node. -/
theorem freezes_apply {tree changed : Tree} {address versionable : Address} {change : Edit}
    {defaultType : String} (isVersionable : tree.isVersionable versionable)
    (checkedIn : tree.isCheckedOut versionable = false)
    (spares : change.Spares versionable tree address)
    (applied : change.apply tree address defaultType = .ok changed) :
    tree.Freezes versionable changed := by
  have outside : tree.isCheckedOut address →
      tree.nearestVersionable? address ≠ some versionable :=
    fun isOpen inRegion => ne_of_isCheckedOut checkedIn isOpen inRegion rfl
  have notItself : tree.isCheckedOut address → address ≠ versionable := by
    rintro isOpen rfl
    exact outside isOpen (nearestVersionable?_of_isVersionable isVersionable)
  cases change with
  | addNode name type =>
      rcases addNode_eq_ok applied with ⟨present, -, absent, -, isOpen, rfl⟩
      exact freezes_insertChild isVersionable checkedIn present absent isOpen _
  | addMixin mixin =>
      rcases addMixin_eq_ok applied with ⟨-, isOpen, rfl⟩
      apply freezes_modify isVersionable checkedIn
      · exact fun inRegion => absurd inRegion (outside isOpen)
      · exact fun same => absurd same (notItself isOpen)
  | removeMixin mixin =>
      rcases removeMixin_eq_ok applied with ⟨-, isOpen, rfl⟩
      apply freezes_modify isVersionable checkedIn
      · exact fun inRegion => absurd inRegion (outside isOpen)
      · exact fun same => absurd same (notItself isOpen)
  | checkout =>
      rcases setCheckedOut_eq_ok applied with ⟨-, rfl⟩
      apply freezes_modify isVersionable checkedIn
      · exact fun _ _ => rfl
      · exact fun same => absurd same (spares rfl)
  | checkin =>
      rcases setCheckedOut_eq_ok applied with ⟨-, rfl⟩
      apply freezes_modify isVersionable checkedIn
      · exact fun _ _ => rfl
      · exact fun _ _ _ => rfl
  | setProperty name values =>
      rcases setProperty_eq_ok applied with ⟨-, -, rfl⟩
      apply freezes_modify isVersionable checkedIn
      · exact fun _ _ => rfl
      · exact fun _ _ unflagged => unflagged

end Tree

namespace Session

theorem freezes_of_leads {session last : Session} {versionable : Address}
    (isVersionable : session.tree.isVersionable versionable)
    (checkedIn : session.tree.isCheckedOut versionable = false)
    (leads : session.Leads (Edit.Spares versionable) last) :
    session.tree.Freezes versionable last.tree := by
  induction leads with
  | refl => exact .refl isVersionable checkedIn
  | edit _ spares applied ih =>
      exact ih.trans (Tree.freezes_apply ih.isVersionable ih.checkedIn spares applied)

/-- The region of a node that is checked in stays frozen while steps, or any other edits, spare the
node. -/
theorem frozen_until_checkout (session : Session) (versionable : Address)
    (isVersionable : session.tree.isVersionable versionable)
    (checkedIn : session.tree.isCheckedOut versionable = false) :
    (∀ steps : List Step, (∀ step ∈ steps, step.Spares versionable) →
      session.tree.Freezes versionable (session.performAll steps).2.tree) ∧
    ∀ last, session.Leads (Edit.Spares versionable) last →
      session.tree.Freezes versionable last.tree := by
  have freezes : ∀ last, session.Leads (Edit.Spares versionable) last →
      session.tree.Freezes versionable last.tree :=
    fun _ => freezes_of_leads isVersionable checkedIn
  refine ⟨?_, freezes⟩
  intro steps spared
  apply freezes
  apply leads_performAll
  intro step stepMem _ _ _
  exact Step.spares_of_allows (spared step stepMem)

theorem frozen_until_checkout_archive :
    Tree.archive.Freezes ["archive"] (performAll { tree := Tree.archive }
      [.edit ["archive", "2024"] (.addMixin versionableType),
        .create { target := some "/archive/2024/may", parameters := ∅ },
        .edit ["archive"] .checkin, .edit [] (.addNode "news" none)]).2.tree := by
  apply (frozen_until_checkout { tree := Tree.archive } ["archive"] (by decide +kernel)
    (by decide +kernel)).1
  simp [Step.Spares]

end Session

end ContentTree
