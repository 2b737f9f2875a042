import ContentTree.Request
import ContentTree.Session.Query
import ContentTree.Tree.Outline

/-!
# Steps of a session

A session is driven by steps: queries, edits of single nodes, the parts of a request, and whole
requests. A step first looks up the node or collects the descriptors it is about. Only then does it
start to work, with a log of its own; whatever the work did before it failed stays done, and the
next step starts from there.

The report of a step tells its outcome and shows the tree after it. The log is reported by the steps
that are parts of a request, once they have started to work.
-/

namespace ContentTree

/-- An edit of a single node. -/
inductive Edit where
  | addNode (name : String) (type : Option String)
  | addMixin (mixin : String)
  | removeMixin (mixin : String)
  | checkout
  | checkin
  | setProperty (name : String) (values : List String)
  deriving DecidableEq, Repr

/-- A node to create together with the parameters of a request. Relative names are resolved against
the base, or against the target itself where there is no base. -/
structure CreationTask where
  target : Option String
  parameters : Parameters
  base : Option String := none
  policy : Policy := {}
  checkout : Checkout := .ifNecessary
  deriving DecidableEq

inductive Step where
  | query (query : Query)
  | edit (place : List String) (edit : Edit)
  | checkoutIfNecessary (place : List String) (policy : Policy)
  | reconcile (place mixins : List String) (policy : Policy) (checkout : Checkout)
  | create (task : CreationTask)
  | createOrUpdate (task : CreationTask)
  | request (request : Request) (base : Policy) (checkout : Checkout)
  deriving DecidableEq

/-- What a step answers when it succeeds. -/
inductive Answer where
  | done
  | finding (finding : Finding)
  | response (response : Response)
  deriving DecidableEq

structure Report where
  outcome : Except Fault Answer
  changes : Option (List Change) := none
  /-- The nodes for which a recording checkout was asked, where the step has one. -/
  checkouts : Option (List String) := none
  outline : List OutlineRow
  deriving DecidableEq

namespace Edit

/-- The tree after an edit of the node at an address. -/
def apply (tree : Tree) (address : Address) (defaultType : String) : Edit → Except Fault Tree
  | addNode name type => tree.addNode address name type defaultType
  | addMixin mixin => tree.addMixin address mixin
  | removeMixin mixin => tree.removeMixin address mixin
  | checkout => tree.checkout address
  | checkin => tree.checkin address
  | setProperty name values => tree.setProperty address name values

/-- What an edit answers, given the tree after it. -/
def answer (tree : Tree) (address : Address) : Edit → Except Fault Answer
  | addNode name _ => do
    return .finding (.path (← Address.path (name :: address)))
  | setProperty name _ => do
    return .finding (.item (← tree.view (.property address name)))
  | _ => return .done

def work (edit : Edit) (address : Address) : Work Answer := do
  let defaultType := (← get).session.defaultType
  Work.edit (edit.apply · address defaultType)
  edit.answer (← Work.tree) address

end Edit

namespace CreationTask

def descriptors (task : CreationTask) : Except Fault Descriptors :=
  task.parameters.collect (Path.shown (task.base.or task.target)) none

end CreationTask

namespace Session

/-- Work on a session with a log of its own. -/
def workOn (session : Session) (work : Work Answer) : Except Fault Answer × Progress :=
  work.runFrom { session }

end Session

namespace Step

/-- The outcome of a step and the progress it made, unless it fails before it starts to work. -/
def run (session : Session) : Step → Except Fault (Except Fault Answer × Progress)
  | .query question => do
    let finding ← question.answer session
    return (.ok (.finding finding), { session })
  | .edit place change => do
    let address ← session.tree.locate place
    return session.workOn (change.work address)
  | .checkoutIfNecessary place policy => do
    let address ← session.tree.locate place
    return session.workOn do
      ContentTree.checkoutIfNecessary policy address
      return .done
  | .reconcile place mixins policy checkout => do
    let address ← session.tree.locate place
    return session.workOn do
      Work.reconcile checkout policy address mixins
      return .done
  | .create task => do
    let descriptors ← task.descriptors
    return session.workOn do
      let address ← Work.create task.checkout descriptors task.policy task.target
      return .finding (.path (← Address.path address))
  | .createOrUpdate task => do
    let descriptors ← task.descriptors
    return session.workOn do
      let created ← Work.createOrUpdate task.checkout descriptors task.policy task.target
      return .finding (.flag created)
  | .request posted base checkout =>
    let (outcome, progress) := posted.respond checkout base session
    .ok (outcome.map .response, progress)

/-- Whether the log of a step is reported. -/
def reportsChanges : Step → Bool
  | query _ | edit .. | request .. => false
  | checkoutIfNecessary .. | reconcile .. | create _ | createOrUpdate _ => true

/-- Whether a step asks a recording checkout. -/
def recordsCheckouts : Step → Bool
  | query _ | edit .. | checkoutIfNecessary .. => false
  | reconcile _ _ _ checkout | request _ _ checkout => checkout = .recordOnly
  | create task | createOrUpdate task => task.checkout = .recordOnly

/-- Whether a step has its checkout at hand even when it fails before it starts to work. -/
def preparesCheckout : Step → Bool
  | reconcile .. => true
  | _ => false

end Step

namespace Session

/-- Perform a step: its report, and the session after it. -/
def perform (session : Session) (step : Step) : Report × Session :=
  match step.run session with
  | .error fault =>
    let recorded := step.recordsCheckouts && step.preparesCheckout
    ({ outcome := .error fault
       checkouts := if recorded then some [] else none
       outline := session.tree.outline },
      session)
  | .ok (outcome, progress) =>
    ({ outcome
       changes := if step.reportsChanges then some progress.changes else none
       checkouts := if step.recordsCheckouts then some progress.checkouts else none
       outline := progress.session.tree.outline },
      progress.session)

/-- Perform steps one after the other: their reports, and the session after the last one. -/
def performAll (session : Session) : List Step → List Report × Session
  | [] => ([], session)
  | step :: steps =>
    let (report, next) := session.perform step
    let (reports, last) := next.performAll steps
    (report :: reports, last)

end Session

end ContentTree
