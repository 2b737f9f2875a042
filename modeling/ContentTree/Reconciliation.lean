import ContentTree.Session.Work

/-!
# Reconciliation of mixin types

Reconciliation gives a node exactly the mixin types that a request asks for: it removes those that
are not requested and adds those that are missing, in the order in which they are first requested,
and leaves the rest alone. A node that becomes versionable is checked out by that; where the policy
wants such nodes checked in later, the checkout is reported.

It can also be carried out in one walk along the mixin types of the node, which strikes each
requested type off a list and removes the others, so that the missing ones remain
(`MixinHost.reconcileWalking`). As the types of a node are distinct, the walk removes the same types
in the same order, and the same ones remain to be added (`MixinHost.crossOff_eq`).

The node may belong to any store that offers the operations of a `MixinHost`. Two of them are given:
the nodes of the tree that a session works on, and a node that only writes down the edits it is
asked to make.
-/

namespace ContentTree

/-- What reconciliation needs of a node. The mixin types are listed without repetitions, in any
order. -/
structure MixinHost (M : Type → Type) where
  mixins : M (List String)
  addMixin : String → M Unit
  removeMixin : String → M Unit
  isCheckedOut : M Bool
  reportCheckout : M Unit

namespace MixinHost

variable {M : Type → Type} [Monad M]

/-- Add one mixin type, and report the checkout that comes with becoming versionable if the policy
wants the node checked in later. -/
def addReporting (host : MixinHost M) (policy : Policy) (mixin : String) : M Unit := do
  host.addMixin mixin
  if mixin = versionableType ∧ policy.checkinOnNewVersionable then
    if ← host.isCheckedOut then
      host.reportCheckout

/-- Make the mixin types of a node equal to the requested ones. -/
def reconcile (host : MixinHost M) (policy : Policy) (requested : List String) : M Unit := do
  let current ← host.mixins
  forM (current.filter (· ∉ requested)) host.removeMixin
  forM (requested.eraseDups.filter (· ∉ current)) (host.addReporting policy)

/-- Go through mixin types, strike each that is wanted off the list, and remove the others. What
remains of the list is missing. -/
def crossOff (host : MixinHost M) : List String → List String → M (List String)
  | [], wanted => return wanted
  | mixin :: rest, wanted => do
      if mixin ∈ wanted then
        host.crossOff rest (wanted.erase mixin)
      else
        host.removeMixin mixin
        host.crossOff rest wanted

/-- Reconcile the mixin types of a node in one walk along them. -/
def reconcileWalking (host : MixinHost M) (policy : Policy) (requested : List String) :
    M Unit := do
  let missing ← host.crossOff (← host.mixins) requested.eraseDups
  forM missing (host.addReporting policy)

/-- A walk along distinct mixin types removes those that are not wanted, in their order, and leaves
the wanted ones that it does not meet. -/
theorem crossOff_eq [LawfulMonad M] (host : MixinHost M) {current wanted : List String}
    (distinct : current.Nodup) (wantedDistinct : wanted.Nodup) :
    host.crossOff current wanted = (do
      forM (current.filter (· ∉ wanted)) host.removeMixin
      return wanted.filter (· ∉ current)) := by
  induction current generalizing wanted with
  | nil =>
      have allMissing : wanted.filter (· ∉ ([] : List String)) = wanted :=
        List.filter_eq_self.2 (by simp)
      rw [crossOff, allMissing]
      simp
  | cons mixin rest ih =>
      obtain ⟨notLater, restDistinct⟩ := List.nodup_cons.1 distinct
      have sameMissing : (wanted.erase mixin).filter (· ∉ rest) =
          wanted.filter (· ∉ mixin :: rest) := by
        rw [wantedDistinct.erase_eq_filter, List.filter_filter]
        apply List.filter_congr
        intro other _
        by_cases same : other = mixin <;> simp [same]
      by_cases isWanted : mixin ∈ wanted
      -- A walk never comes back to a type, so striking it off matters for nothing but what is left.
      · have sameRemovals : rest.filter (· ∉ wanted.erase mixin) = rest.filter (· ∉ wanted) := by
          apply List.filter_congr
          intro other otherMem
          have differs : other ≠ mixin := by
            rintro rfl
            exact notLater otherMem
          simp only [List.mem_erase_of_ne differs]
        rw [crossOff, if_pos isWanted, ih restDistinct (wantedDistinct.erase mixin), sameRemovals,
          sameMissing, List.filter_cons_of_neg (by simpa using isWanted)]
      · rw [List.erase_of_not_mem isWanted] at sameMissing
        rw [crossOff, if_neg isWanted, ih restDistinct wantedDistinct, sameMissing,
          List.filter_cons_of_pos (by simpa using isWanted)]
        simp only [List.forM_cons, bind_assoc]

end MixinHost

namespace Work

/-- The node at an address of the tree that a session works on. Its mixin types are a set, which may
be listed in any arrangement. -/
def mixinHost (arrange : List String → List String) (address : Address) : MixinHost Work where
  mixins := do
    let node ← (← tree).node address
    return arrange node.mixins.names
  addMixin mixin := edit (·.addMixin address mixin)
  removeMixin mixin := edit (·.removeMixin address mixin)
  isCheckedOut := return (← tree).isCheckedOut address
  reportCheckout := do report (.checkedOut (← Address.path address))

/-- Prepare a node of the tree and reconcile its mixin types, which are listed in some
arrangement. -/
def reconcileArranged (arrange : List String → List String) (checkout : Checkout) (policy : Policy)
    (address : Address) (requested : List String) : Work Unit := do
  checkout.prepare policy address
  (mixinHost arrange address).reconcile policy requested

/-- Prepare a node of the tree and reconcile its mixin types. -/
def reconcile (checkout : Checkout) (policy : Policy) (address : Address)
    (requested : List String) : Work Unit :=
  reconcileArranged id checkout policy address requested

end Work

inductive MixinEdit where
  | add (mixin : String)
  | remove (mixin : String)
  deriving DecidableEq, Repr

/-- The edits that a node was asked to make, and what was reported about it. -/
structure MixinScript where
  edits : List MixinEdit := []
  changes : List Change := []
  deriving DecidableEq, Repr

namespace MixinScript

def added (script : MixinScript) : List String :=
  script.edits.filterMap fun
    | .add mixin => some mixin
    | .remove _ => none

def removed (script : MixinScript) : List String :=
  script.edits.filterMap fun
    | .add _ => none
    | .remove mixin => some mixin

/-- A node that only writes down what it is asked to do. Whether it answers that it is checked out
may depend on everything it was asked before. -/
def host (path : String) (mixins : List String) (checkedOut : MixinScript → Bool) :
    MixinHost (StateM MixinScript) where
  mixins := return mixins
  addMixin mixin := modify fun script => { script with edits := script.edits ++ [.add mixin] }
  removeMixin mixin := modify fun script => { script with edits := script.edits ++ [.remove mixin] }
  isCheckedOut := return checkedOut (← get)
  reportCheckout := modify fun script =>
    { script with changes := script.changes ++ [.checkedOut path] }

/-- The script by which a node with some mixin types comes to have the requested ones. -/
def reconciling (path : String) (mixins requested : List String)
    (checkedOut : MixinScript → Bool) (policy : Policy) : MixinScript :=
  (StateT.run ((host path mixins checkedOut).reconcile policy requested) {}).2

end MixinScript

end ContentTree
