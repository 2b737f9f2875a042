import ContentTree.Change
import ContentTree.Policy
import ContentTree.Session.Basic

/-!
# Work on a session

The parts of a request work on a session one after the other and keep a log of the changes they
make. Work that fails leaves behind whatever it did before it failed: the `Progress` is there in
either case.

Before a node is changed it is prepared by a `Checkout`. Usually this checks out the nearest
versionable node at or above it, where the policy allows that and where it is checked in. A
recording checkout changes nothing and only notes for which nodes it was asked.
-/

namespace ContentTree

/-- What work on a session has led to so far. -/
structure Progress where
  session : Session
  changes : List Change := []
  /-- The paths of the nodes for which a recording checkout was asked. -/
  checkouts : List String := []
  deriving DecidableEq

namespace Progress

/-- Progress with another tree. -/
def withTree (progress : Progress) (tree : Tree) : Progress :=
  { progress with session := { progress.session with tree } }

/-- Progress with more changes in its log. -/
def reporting (progress : Progress) (changes : List Change) : Progress :=
  { progress with changes := progress.changes ++ changes }

section Views

variable (progress : Progress) (tree : Tree) (changes : List Change)

@[simp]
theorem tree_withTree : (progress.withTree tree).session.tree = tree :=
  rfl

@[simp]
theorem defaultType_withTree :
    (progress.withTree tree).session.defaultType = progress.session.defaultType :=
  rfl

@[simp]
theorem stale_withTree : (progress.withTree tree).session.stale = progress.session.stale :=
  rfl

@[simp]
theorem changes_withTree : (progress.withTree tree).changes = progress.changes :=
  rfl

@[simp]
theorem checkouts_withTree : (progress.withTree tree).checkouts = progress.checkouts :=
  rfl

@[simp]
theorem withTree_withTree (later : Tree) :
    (progress.withTree tree).withTree later = progress.withTree later :=
  rfl

@[simp]
theorem session_reporting : (progress.reporting changes).session = progress.session :=
  rfl

@[simp]
theorem changes_reporting : (progress.reporting changes).changes = progress.changes ++ changes :=
  rfl

@[simp]
theorem checkouts_reporting : (progress.reporting changes).checkouts = progress.checkouts :=
  rfl

@[simp]
theorem withTree_reporting :
    (progress.reporting changes).withTree tree = (progress.withTree tree).reporting changes :=
  rfl

@[simp]
theorem reporting_nil : progress.reporting [] = progress := by
  simp [reporting]

@[simp]
theorem reporting_reporting (later : List Change) :
    (progress.reporting changes).reporting later = progress.reporting (changes ++ later) := by
  simp [reporting]

end Views

end Progress

/-- Work that may fail and keeps its progress when it does. -/
abbrev Work := ExceptT Fault (StateM Progress)

namespace Work

/-- The outcome of work and the progress after it. -/
def runFrom {Value : Type} (work : Work Value) (progress : Progress) :
    Except Fault Value × Progress :=
  StateT.run (ExceptT.run work) progress

def tree : Work Tree := do
  return (← get).session.tree

/-- Edit the tree; an edit that is refused changes nothing. -/
def edit (change : Tree → Except Fault Tree) : Work Unit := do
  let changed ← change (← tree)
  modify (·.withTree changed)

/-- Append a change to the log. -/
def report (change : Change) : Work Unit :=
  modify (·.reporting [change])

section Run

variable {Value Result : Type} (progress : Progress)

@[simp]
theorem runFrom_pure (value : Value) :
    runFrom (pure value) progress = (.ok value, progress) :=
  rfl

@[simp]
theorem runFrom_throw (fault : Fault) :
    runFrom (throw fault : Work Value) progress = (.error fault, progress) :=
  rfl

theorem runFrom_bind (work : Work Value) (next : Value → Work Result) :
    runFrom (work >>= next) progress =
      match runFrom work progress with
      | (.ok value, later) => runFrom (next value) later
      | (.error fault, later) => (.error fault, later) := by
  simp only [runFrom, ExceptT.run_bind, StateT.run_bind]
  rcases StateT.run (ExceptT.run work) progress with ⟨outcome, later⟩
  cases outcome <;> rfl

theorem runFrom_bind_eq_ok_iff {work : Work Value} {next : Value → Work Result} {result : Result}
    {last : Progress} :
    runFrom (work >>= next) progress = (.ok result, last) ↔
      ∃ value later, runFrom work progress = (.ok value, later) ∧
        runFrom (next value) later = (.ok result, last) := by
  rw [runFrom_bind]
  rcases runFrom work progress with ⟨fault | value, later⟩
  · simp
  · constructor
    · intro ran
      exact ⟨value, later, rfl, ran⟩
    · rintro ⟨_, _, ⟨⟩, ran⟩
      exact ran

/-- What holds after work and is kept by the work that follows holds in the end. -/
theorem snd_runFrom_bind (holds : Progress → Prop) {work : Work Value} {next : Value → Work Result}
    (first : holds (runFrom work progress).2)
    (keeps : ∀ value later, runFrom work progress = (.ok value, later) → holds later →
      holds (runFrom (next value) later).2) : holds (runFrom (work >>= next) progress).2 := by
  rw [runFrom_bind]
  rcases ran : runFrom work progress with ⟨fault | value, later⟩
  · rwa [ran] at first
  · rw [ran] at first
    exact keeps value later ran first

/-- What is kept by the work for each item of a list is kept by the work for all of them. -/
theorem snd_runFrom_forM {Item : Type} (holds : Progress → Prop) {items : List Item}
    {body : Item → Work PUnit} (start : holds progress)
    (keeps : ∀ item later, holds later → holds (runFrom (body item) later).2) :
    holds (runFrom (forM items body) progress).2 := by
  induction items generalizing progress with
  | nil => exact start
  | cons item rest ih =>
      rw [List.forM_cons]
      exact snd_runFrom_bind _ holds (keeps item progress start) fun _ later _ => ih later

@[simp]
theorem runFrom_liftExcept (outcome : Except Fault Value) :
    runFrom (liftM outcome) progress = (outcome, progress) :=
  rfl

theorem runFrom_lift_bind_eq_ok_iff {outcome : Except Fault Value} {next : Value → Work Result}
    {result : Result} {last : Progress} :
    runFrom (liftM outcome >>= next) progress = (.ok result, last) ↔
      ∃ value, outcome = .ok value ∧ runFrom (next value) progress = (.ok result, last) := by
  rw [runFrom_bind, runFrom_liftExcept]
  cases outcome <;> simp

@[simp]
theorem runFrom_get : runFrom get progress = (.ok progress, progress) :=
  rfl

@[simp]
theorem runFrom_modify (change : Progress → Progress) :
    runFrom (modify change) progress = (.ok (), change progress) :=
  rfl

@[simp]
theorem runFrom_tree : runFrom tree progress = (.ok progress.session.tree, progress) :=
  rfl

@[simp]
theorem runFrom_report (change : Change) :
    runFrom (report change) progress = (.ok (), progress.reporting [change]) :=
  rfl

theorem runFrom_edit (change : Tree → Except Fault Tree) :
    runFrom (edit change) progress =
      match change progress.session.tree with
      | .ok changed => (.ok (), progress.withTree changed)
      | .error fault => (.error fault, progress) := by
  simp only [edit, runFrom_bind, runFrom_tree, runFrom_liftExcept]
  cases change progress.session.tree <;> rfl

end Run

end Work

/-- Check out the nearest versionable node at or above a node, if the policy allows it and that node
is checked in. -/
def checkoutIfNecessary (policy : Policy) (address : Address) : Work Unit := do
  if policy.autoCheckout then
    let tree ← Work.tree
    match tree.nearestVersionable? address with
    | none => return
    | some versionable =>
      unless tree.isCheckedOut versionable do
        Work.edit (·.checkout versionable)
        Work.report (.checkedOut (← Address.path versionable))

/-- How a node is prepared before it is changed. -/
inductive Checkout where
  | ifNecessary
  | recordOnly
  deriving DecidableEq, Repr

namespace Checkout

def prepare (checkout : Checkout) (policy : Policy) (address : Address) : Work Unit :=
  match checkout with
  | ifNecessary => checkoutIfNecessary policy address
  | recordOnly => do
    let path ← Address.path address
    modify fun progress => { progress with checkouts := progress.checkouts ++ [path] }

end Checkout

end ContentTree
