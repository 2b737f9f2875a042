import ContentTree.Proofs.Lists
import ContentTree.Proofs.Reconciliation.Script
import Mathlib.Data.List.Count
import Mathlib.Data.List.Perm.Subperm

/-!
# A reconciliation asks for no more than it needs

Whatever node is reconciled, the edits it is asked to make are the least that lead to the requested
mixin types: each type that is not requested is removed once, then each missing type is added once,
in the order in which the request first names them (`MixinDialogue.Minimal`). What a node is asked
is written down while it does all the work itself (`MixinHost.recorded`), so the result holds for
every node, and the node ends up as it does when nobody writes. No script that gives the node the
requested types has fewer edits (`length_mixinEdits_le`).

All of this holds as well of the walk along the mixin types of a node that strikes the requested
ones off a list (`MixinHost.run_reconcileWalking`).
-/

namespace ContentTree

/-- The edits that a node was asked to make, the answers it gave when it was asked whether it is
checked out, and what was reported about it. -/
structure MixinDialogue extends MixinScript where
  answers : List Bool := []
  deriving DecidableEq, Repr

namespace MixinDialogue

/-- A dialogue goes on with some edits and answers; each positive answer is reported. -/
def continued (dialogue : MixinDialogue) (path : String) (edits : List MixinEdit)
    (answers : List Bool) : MixinDialogue where
  edits := dialogue.edits ++ edits
  answers := dialogue.answers ++ answers
  changes := dialogue.changes ++ (answers.filter id).map fun _ => .checkedOut path

theorem continued_nil (dialogue : MixinDialogue) (path : String) :
    dialogue.continued path [] [] = dialogue := by
  simp [continued]

theorem continued_continued (dialogue : MixinDialogue) (path : String)
    (edits others : List MixinEdit) (answers later : List Bool) :
    (dialogue.continued path edits answers).continued path others later =
      dialogue.continued path (edits ++ others) (answers ++ later) := by
  simp [continued]

/-- The dialogue with the node at a path that has the current mixin types is the least that gives
it the requested ones. -/
structure Minimal (dialogue : MixinDialogue) (path : String) (policy : Policy)
    (current requested : List String) : Prop where
  removalsFirst :
    dialogue.edits = dialogue.removed.map .remove ++ dialogue.added.map .add
  count_removed : ∀ mixin, dialogue.removed.count mixin =
    if mixin ∈ current ∧ mixin ∉ requested then 1 else 0
  count_added : ∀ mixin, dialogue.added.count mixin =
    if mixin ∈ requested ∧ mixin ∉ current then 1 else 0
  untouched : ∀ mixin ∈ current, mixin ∈ requested →
    .remove mixin ∉ dialogue.edits ∧ .add mixin ∉ dialogue.edits
  inOrder : dialogue.added.Pairwise fun first second =>
    requested.idxOf first < requested.idxOf second
  /-- The node is asked once whether it is checked out, if it becomes versionable and that is to be
  reported, and otherwise never. -/
  asked : dialogue.answers.length =
    if versionableType ∈ requested ∧ versionableType ∉ current ∧ policy.checkinOnNewVersionable
    then 1 else 0
  changes_eq : dialogue.changes =
    if versionableType ∈ requested ∧ versionableType ∉ current ∧
      policy.checkinOnNewVersionable ∧ dialogue.answers = [true] then [.checkedOut path] else []

end MixinDialogue

namespace MixinHost

section Recording

variable {Store Value : Type}

theorem run_bind {Other : Type} (action : StateM Store Value) (next : Value → StateM Store Other)
    (store : Store) :
    (action >>= next).run store = (next (action.run store).1).run (action.run store).2 :=
  rfl

/-- Let a node that belongs to a store do something, and leave the dialogue alone. -/
def passOn (action : StateM Store Value) : StateM (Store × MixinDialogue) Value :=
  fun (store, dialogue) =>
    let (value, later) := action.run store
    (value, later, dialogue)

/-- Write something down, and leave the node alone. -/
def note (change : MixinDialogue → MixinDialogue) : StateM (Store × MixinDialogue) Unit :=
  modify fun (store, dialogue) => (store, change dialogue)

/-- A node that passes on everything to another node and writes down what that is asked to do, what
it answers and what is reported about its path. -/
def recorded (host : MixinHost (StateM Store)) (path : String) :
    MixinHost (StateM (Store × MixinDialogue)) where
  mixins := passOn host.mixins
  addMixin mixin := do
    passOn (host.addMixin mixin)
    note fun dialogue => { dialogue with edits := dialogue.edits ++ [.add mixin] }
  removeMixin mixin := do
    passOn (host.removeMixin mixin)
    note fun dialogue => { dialogue with edits := dialogue.edits ++ [.remove mixin] }
  isCheckedOut := do
    let answer ← passOn host.isCheckedOut
    note fun dialogue => { dialogue with answers := dialogue.answers ++ [answer] }
    return answer
  reportCheckout := do
    passOn host.reportCheckout
    note fun dialogue => { dialogue with changes := dialogue.changes ++ [.checkedOut path] }

/-- How often a node is asked whether it is checked out while a script is carried out. -/
def questions (policy : Policy) (script : List MixinEdit) : Nat :=
  if policy.checkinOnNewVersionable then script.count (.add versionableType) else 0

theorem questions_cons (policy : Policy) (edit : MixinEdit) (script : List MixinEdit) :
    questions policy (edit :: script) = questions policy [edit] + questions policy script := by
  cases isOn : policy.checkinOnNewVersionable with
  | false => simp [questions, isOn]
  | true => simp [questions, isOn, List.count_cons, Nat.add_comm]

variable (host : MixinHost (StateM Store)) (path : String) (policy : Policy)

@[simp]
theorem run_recorded_mixins (store : Store) (dialogue : MixinDialogue) :
    (host.recorded path).mixins.run (store, dialogue) =
      ((host.mixins.run store).1, (host.mixins.run store).2, dialogue) :=
  rfl

@[simp]
theorem run_recorded_addMixin (mixin : String) (store : Store) (dialogue : MixinDialogue) :
    ((host.recorded path).addMixin mixin).run (store, dialogue) =
      ((), ((host.addMixin mixin).run store).2, dialogue.continued path [.add mixin] []) := by
  simp only [MixinDialogue.continued, List.filter_nil, List.map_nil, List.append_nil]
  rfl

@[simp]
theorem run_recorded_removeMixin (mixin : String) (store : Store) (dialogue : MixinDialogue) :
    ((host.recorded path).removeMixin mixin).run (store, dialogue) =
      ((), ((host.removeMixin mixin).run store).2, dialogue.continued path [.remove mixin] []) := by
  simp only [MixinDialogue.continued, List.filter_nil, List.map_nil, List.append_nil]
  rfl

/-- A node that is asked whether it is checked out gives its own answer, and a positive one is
reported. -/
theorem run_recorded_question (store : Store) (dialogue : MixinDialogue) :
    (do if ← (host.recorded path).isCheckedOut then (host.recorded path).reportCheckout).run
        (store, dialogue) =
      ((), ((do if ← host.isCheckedOut then host.reportCheckout).run store).2,
        dialogue.continued path [] [(host.isCheckedOut.run store).1]) := by
  have asked : (host.recorded path).isCheckedOut.run (store, dialogue) =
      ((host.isCheckedOut.run store).1, (host.isCheckedOut.run store).2,
        { dialogue with answers := dialogue.answers ++ [(host.isCheckedOut.run store).1] }) := rfl
  simp only [run_bind, asked, MixinDialogue.continued]
  cases (host.isCheckedOut.run store).1 with
  | false =>
      simp only [Bool.false_eq_true, ↓reduceIte, List.filter, id, List.map_nil, List.append_nil]
      rfl
  | true =>
      simp only [↓reduceIte, List.append_nil]
      rfl

/-- One edit is asked for once, with the question and the report that belong to it, and leaves the
node as it does when nobody writes. -/
theorem exists_run_recorded_carryOut (edit : MixinEdit) (store : Store)
    (dialogue : MixinDialogue) :
    ∃ answers : List Bool, answers.length = questions policy [edit] ∧
      ((host.recorded path).carryOut policy edit).run (store, dialogue) =
        ((), ((host.carryOut policy edit).run store).2,
          dialogue.continued path [edit] answers) := by
  cases edit with
  | remove mixin => exact ⟨[], by simp [questions], host.run_recorded_removeMixin path _ _ _⟩
  | add mixin =>
      by_cases asks : mixin = versionableType ∧ policy.checkinOnNewVersionable
      · let added := ((host.addMixin mixin).run store).2
        refine ⟨[(host.isCheckedOut.run added).1], by simp [questions, asks], ?_⟩
        have question := run_recorded_question host path added
          (dialogue.continued path [.add mixin] [])
        rw [MixinDialogue.continued_continued] at question
        simp only [carryOut, addReporting, if_pos asks]
        rw [run_bind, run_recorded_addMixin]
        exact question
      · refine ⟨[], ?_, ?_⟩
        · have another : ¬(policy.checkinOnNewVersionable ∧ mixin = versionableType) := by tauto
          cases isOn : policy.checkinOnNewVersionable <;> simp_all [questions]
        · simp only [carryOut, addReporting, if_neg asks, run_bind, run_recorded_addMixin]
          rfl

/-- A script is asked for edit by edit. -/
theorem exists_run_recorded_forM_carryOut (script : List MixinEdit) (store : Store)
    (dialogue : MixinDialogue) :
    ∃ answers : List Bool, answers.length = questions policy script ∧
      (forM script ((host.recorded path).carryOut policy)).run (store, dialogue) =
        ((), ((forM script (host.carryOut policy)).run store).2,
          dialogue.continued path script answers) := by
  induction script generalizing store dialogue with
  | nil =>
      refine ⟨[], by simp [questions], ?_⟩
      rw [MixinDialogue.continued_nil]
      rfl
  | cons edit rest ih =>
      obtain ⟨first, firstCount, ranFirst⟩ :=
        exists_run_recorded_carryOut host path policy edit store dialogue
      obtain ⟨others, othersCount, ranOthers⟩ :=
        ih ((host.carryOut policy edit).run store).2 (dialogue.continued path [edit] first)
      refine ⟨first ++ others, ?_, ?_⟩
      · rw [List.length_append, firstCount, othersCount, questions_cons policy edit rest]
      · rw [List.forM_cons, run_bind, ranFirst, ranOthers, MixinDialogue.continued_continued]
        rfl

end Recording

end MixinHost

section Minimality

variable {node : Node} {script : List MixinEdit} {current requested : List String} {mixin : String}

theorem Node.mem_mixins_revise_iff {edit : MixinEdit} :
    mixin ∈ (node.revise edit).mixins ↔
      edit = .add mixin ∨ mixin ∈ node.mixins ∧ edit ≠ .remove mixin := by
  cases edit <;> simp [revise, eq_comm]

theorem Node.add_mem_of_mem_foldl_revise (missing : mixin ∉ node.mixins)
    (gained : mixin ∈ (script.foldl revise node).mixins) : .add mixin ∈ script := by
  induction script generalizing node with
  | nil => exact absurd gained missing
  | cons edit rest ih =>
      by_cases comes : mixin ∈ (node.revise edit).mixins
      · rcases mem_mixins_revise_iff.1 comes with rfl | ⟨isThere, -⟩
        · exact List.mem_cons_self
        · exact absurd isThere missing
      · exact List.mem_cons_of_mem _ (ih comes gained)

theorem Node.remove_mem_of_notMem_foldl_revise (isThere : mixin ∈ node.mixins)
    (lost : mixin ∉ (script.foldl revise node).mixins) : .remove mixin ∈ script := by
  induction script generalizing node with
  | nil => exact absurd isThere lost
  | cons edit rest ih =>
      by_cases stays : mixin ∈ (node.revise edit).mixins
      · exact List.mem_cons_of_mem _ (ih stays lost)
      · by_cases isRemoval : edit = .remove mixin
        · rw [isRemoval]
          exact List.mem_cons_self
        · exact absurd (mem_mixins_revise_iff.2 (.inr ⟨isThere, isRemoval⟩)) stays

theorem nodup_mixinEdits (distinct : current.Nodup) : (mixinEdits current requested).Nodup := by
  have removals := (distinct.filter (· ∉ requested)).map fun _ _ => MixinEdit.remove.inj
  have additions := ((nodup_eraseDups requested).filter (· ∉ current)).map fun _ _ =>
    MixinEdit.add.inj
  refine List.nodup_append.2 ⟨removals, additions, ?_⟩
  intro edit isRemoval other isAddition
  rcases List.mem_map.1 isRemoval with ⟨_, -, rfl⟩
  rcases List.mem_map.1 isAddition with ⟨_, -, rfl⟩
  nofun

/-- Whatever gives a node the requested mixin types makes at least the edits of a reconciliation. -/
theorem length_mixinEdits_le (distinct : current.Nodup)
    (complete : ∀ mixin, mixin ∈ current ↔ mixin ∈ node.mixins)
    (leads : (script.foldl Node.revise node).mixins = .ofList requested) :
    (mixinEdits current requested).length ≤ script.length := by
  have needed : mixinEdits current requested ⊆ script := by
    intro edit isEdit
    rcases List.mem_append.1 isEdit with isRemoval | isAddition
    · rcases List.mem_map.1 isRemoval with ⟨mixin, selected, rfl⟩
      simp only [List.mem_filter, decide_eq_true_eq] at selected
      apply Node.remove_mem_of_notMem_foldl_revise ((complete mixin).1 selected.1)
      rw [leads, NameSet.mem_ofList]
      exact selected.2
    · rcases List.mem_map.1 isAddition with ⟨mixin, selected, rfl⟩
      simp only [List.mem_filter, decide_eq_true_eq, List.mem_eraseDups] at selected
      apply Node.add_mem_of_mem_foldl_revise (mt (complete mixin).2 selected.2)
      rw [leads, NameSet.mem_ofList]
      exact selected.1
  exact ((nodup_mixinEdits distinct).subperm needed).length_le

theorem count_add_mixinEdits :
    (mixinEdits current requested).count (.add mixin) =
      if mixin ∈ requested ∧ mixin ∉ current then 1 else 0 := by
  have noRemoval : ((current.filter (· ∉ requested)).map MixinEdit.remove).count (.add mixin) =
      0 := List.count_eq_zero.2 (by simp)
  have injective : Function.Injective MixinEdit.add := fun _ _ same => MixinEdit.add.inj same
  rw [mixinEdits, List.count_append, noRemoval, Nat.zero_add,
    List.count_map_of_injective _ _ injective, count_filter_of_nodup (nodup_eraseDups requested)]
  simp

/-- The script of a reconciliation is the least that there can be, whatever is answered. -/
theorem MixinDialogue.minimal_continued (path : String) (policy : Policy)
    (distinct : current.Nodup) {answers : List Bool}
    (answered : answers.length = MixinHost.questions policy (mixinEdits current requested)) :
    (continued {} path (mixinEdits current requested) answers).Minimal path policy current
      requested := by
  let dialogue := continued {} path (mixinEdits current requested) answers
  have edits_eq : dialogue.edits = mixinEdits current requested := List.nil_append _
  have changes_eq : dialogue.changes = (answers.filter id).map fun _ => .checkedOut path :=
    List.nil_append _
  have removed_eq : dialogue.removed = current.filter (· ∉ requested) := by
    simp [MixinScript.removed, edits_eq, mixinEdits, List.filterMap_append, List.filterMap_map]
  have added_eq : dialogue.added = requested.eraseDups.filter (· ∉ current) := by
    simp [MixinScript.added, edits_eq, mixinEdits, List.filterMap_append, List.filterMap_map]
  have questions_eq : answers.length =
      if versionableType ∈ requested ∧ versionableType ∉ current ∧ policy.checkinOnNewVersionable
      then 1 else 0 := by
    rw [answered, MixinHost.questions, count_add_mixinEdits]
    cases policy.checkinOnNewVersionable <;> simp
  have answers_eq : dialogue.answers = answers := List.nil_append _
  constructor
  case removalsFirst => rw [removed_eq, added_eq, edits_eq, mixinEdits]
  case count_removed =>
    intro mixin
    rw [removed_eq, count_filter_of_nodup distinct]
    simp
  case count_added =>
    intro mixin
    rw [added_eq, count_filter_of_nodup (nodup_eraseDups requested)]
    simp
  case untouched =>
    intro mixin isThere isRequested
    rw [edits_eq]
    simp [mixinEdits, isThere, isRequested]
  case inOrder =>
    rw [added_eq]
    exact (pairwise_idxOf_eraseDups requested).filter _
  case asked => rw [answers_eq, questions_eq]
  case changes_eq =>
    rw [changes_eq, answers_eq]
    by_cases asks : versionableType ∈ requested ∧ versionableType ∉ current ∧
        policy.checkinOnNewVersionable
    · rw [if_pos asks] at questions_eq
      obtain ⟨answer, rfl⟩ := List.length_eq_one_iff.1 questions_eq
      cases answer <;> simp [asks]
    · rw [if_neg asks] at questions_eq
      obtain rfl := List.length_eq_zero_iff.1 questions_eq
      simp

end Minimality

namespace MixinHost

variable {Store : Type}

/-- On a node whose mixin types are listed without repetitions, one walk along them does what
reconciliation does. -/
theorem run_reconcileWalking (host : MixinHost (StateM Store)) (policy : Policy)
    (requested : List String) {store : Store} (distinct : (host.mixins.run store).1.Nodup) :
    (host.reconcileWalking policy requested).run store =
      (host.reconcile policy requested).run store := by
  rw [reconcileWalking, reconcile, run_bind, run_bind,
    crossOff_eq host distinct (nodup_eraseDups requested)]
  simp only [List.mem_eraseDups]
  rfl

/-- Reconciliation asks any node, whatever it does and answers, for the least edits that give it the
requested mixin types, and reports a checkout just when the node becomes versionable, the policy
wants that reported, and the node says that it is checked out. -/
theorem reconcile_minimal (host : MixinHost (StateM Store)) (path : String) (policy : Policy)
    (requested : List String) (store : Store) (distinct : (host.mixins.run store).1.Nodup) :
    let outcome := ((host.recorded path).reconcile policy requested).run (store, {})
    outcome.2.2.Minimal path policy (host.mixins.run store).1 requested ∧
      outcome.2.1 = ((host.reconcile policy requested).run store).2 ∧
      ((host.recorded path).reconcileWalking policy requested).run (store, {}) = outcome := by
  intro outcome
  let current := (host.mixins.run store).1
  obtain ⟨answers, answered, ran⟩ := exists_run_recorded_forM_carryOut host path policy
    (mixinEdits current requested) (host.mixins.run store).2 {}
  have outcome_eq : outcome = ((), ((host.reconcile policy requested).run store).2,
      MixinDialogue.continued {} path (mixinEdits current requested) answers) := by
    simp only [outcome, reconcile_eq_forM, run_bind, run_recorded_mixins]
    exact ran
  refine ⟨?_, ?_, ?_⟩
  · rw [outcome_eq]
    exact MixinDialogue.minimal_continued path policy distinct answered
  · rw [outcome_eq]
  · exact run_reconcileWalking _ policy requested distinct

theorem reconcile_minimal_page :
    let node := MixinScript.host "/page" ["mix:lockable", "mix:title"]
      fun script => "mix:versionable" ∈ script.added
    let requested := ["mix:versionable", "mix:title", "mix:versionable", "mix:language"]
    let dialogue := (((node.recorded "/page").reconcile { checkinOnNewVersionable := true }
      requested).run ({}, {})).2.2
    dialogue.Minimal "/page" { checkinOnNewVersionable := true } ["mix:lockable", "mix:title"]
        requested ∧
      dialogue =
        { edits := [.remove "mix:lockable", .add "mix:versionable", .add "mix:language"]
          answers := [true]
          changes := [.checkedOut "/page"] } := by
  intro node requested dialogue
  have distinct : (node.mixins.run {}).1.Nodup := by decide
  exact ⟨(reconcile_minimal node "/page" { checkinOnNewVersionable := true } requested {}
    distinct).1, by decide +kernel⟩

end MixinHost

end ContentTree
