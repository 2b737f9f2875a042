import ContentTree.Proofs.Creation.Search
import ContentTree.Proofs.Session.Preparation
import ContentTree.Request

/-!
# A checkout that only records

A recording checkout notes for which nodes it was asked and does nothing else. Apart from its notes
it therefore works like the usual checkout under a policy that checks nothing out, and so does
everything that is built from it: creations, reconciliations and requests have the same outcome,
make the same edits and report the same changes (`resembles_createOrUpdateKnowing`). What is known
about the usual checkout, whatever the policy, carries over in this way.
-/

namespace ContentTree

/-- Progress without the notes of a recording checkout. -/
def Progress.withoutNotes (progress : Progress) : Progress :=
  { progress with checkouts := [] }

/-- A policy that checks nothing out and is otherwise the same. -/
def Policy.withoutCheckout (policy : Policy) : Policy :=
  { policy with autoCheckout := false }

namespace Progress

variable {progress other : Progress}

theorem withoutNotes_eq_iff : progress.withoutNotes = other.withoutNotes ↔
    progress.session = other.session ∧ progress.changes = other.changes := by
  simp [withoutNotes]

theorem session_eq_of_alike (alike : progress.withoutNotes = other.withoutNotes) :
    progress.session = other.session :=
  (withoutNotes_eq_iff.1 alike).1

theorem changes_eq_of_alike (alike : progress.withoutNotes = other.withoutNotes) :
    progress.changes = other.changes :=
  (withoutNotes_eq_iff.1 alike).2

end Progress

namespace Work

variable {Value Result Item : Type} {progress other : Progress}

/-- Two pieces of work have the same outcome and lead to the same progress but for the notes. -/
def Resembles (first second : Work Value) (progress other : Progress) : Prop :=
  (first.runFrom progress).1 = (second.runFrom other).1 ∧
    (first.runFrom progress).2.withoutNotes = (second.runFrom other).2.withoutNotes

section Primitives

variable (alike : progress.withoutNotes = other.withoutNotes)
include alike

theorem resembles_pure (value : Value) :
    (pure value : Work Value).Resembles (pure value) progress other :=
  ⟨rfl, alike⟩

theorem resembles_tree : tree.Resembles tree progress other := by
  refine ⟨?_, alike⟩
  simp only [runFrom_tree, Progress.session_eq_of_alike alike]

theorem resembles_report (change : Change) :
    (report change).Resembles (report change) progress other := by
  refine ⟨rfl, ?_⟩
  simp only [runFrom_report, Progress.withoutNotes, Progress.reporting,
    Progress.session_eq_of_alike alike, Progress.changes_eq_of_alike alike]

theorem resembles_edit (change : Tree → Except Fault Tree) :
    (edit change).Resembles (edit change) progress other := by
  unfold Resembles
  rw [runFrom_edit, runFrom_edit, Progress.session_eq_of_alike alike]
  cases change other.session.tree with
  | error fault => exact ⟨rfl, alike⟩
  | ok tree =>
      refine ⟨rfl, ?_⟩
      simp only [Progress.withoutNotes, Progress.withTree, Progress.session_eq_of_alike alike,
        Progress.changes_eq_of_alike alike]

end Primitives

theorem resembles_get_bind {next later : Progress → Work Value}
    (continues : (next progress).Resembles (later other) progress other) :
    (get >>= next).Resembles (get >>= later) progress other := by
  unfold Resembles at continues ⊢
  simpa only [runFrom_bind, runFrom_get] using continues

theorem resembles_lift_bind {outcome : Except Fault Value} {next later : Value → Work Result}
    (alike : progress.withoutNotes = other.withoutNotes)
    (continues : ∀ value, outcome = .ok value →
      (next value).Resembles (later value) progress other) :
    (liftM outcome >>= next).Resembles (liftM outcome >>= later) progress other := by
  unfold Resembles at continues ⊢
  simp only [runFrom_bind, runFrom_liftExcept]
  cases outcome with
  | error fault => exact ⟨rfl, alike⟩
  | ok value => exact continues value rfl

theorem resembles_bind {first second : Work Value} {next later : Value → Work Result}
    (starts : first.Resembles second progress other)
    (continues : ∀ value middle otherMiddle, first.runFrom progress = (.ok value, middle) →
      middle.withoutNotes = otherMiddle.withoutNotes →
      (next value).Resembles (later value) middle otherMiddle) :
    (first >>= next).Resembles (second >>= later) progress other := by
  unfold Resembles at starts ⊢
  rw [runFrom_bind, runFrom_bind]
  rcases ran : first.runFrom progress with ⟨outcome, middle⟩
  rcases otherRan : second.runFrom other with ⟨otherOutcome, otherMiddle⟩
  simp only [ran, otherRan] at starts
  rcases starts with ⟨rfl, alike⟩
  cases outcome with
  | error fault => exact ⟨rfl, alike⟩
  | ok value => exact continues value middle otherMiddle ran alike

theorem resembles_forM {items : List Item} {body : Item → Work PUnit}
    (each : ∀ item progress other, progress.withoutNotes = other.withoutNotes →
      (body item).Resembles (body item) progress other)
    (alike : progress.withoutNotes = other.withoutNotes) :
    (forM items body).Resembles (forM items body) progress other := by
  induction items generalizing progress other with
  | nil => exact resembles_pure alike _
  | cons item rest ih =>
      rw [List.forM_cons]
      exact resembles_bind (each item progress other alike) fun _ _ _ _ => ih

/-! ### The parts of a request -/

theorem eq_of_runFrom_addRequested {prepare : Address → Work Unit} {descriptors : Descriptors}
    {parent child : Address} {name : String} {later : Progress}
    (ran : (addRequested prepare descriptors parent name).runFrom progress = (.ok child, later)) :
    child = name :: parent := by
  rcases (runFrom_bind_eq_ok_iff _).1 ran with ⟨type, _, -, ran⟩
  rcases (runFrom_bind_eq_ok_iff _).1 ran with ⟨_, _, -, ran⟩
  rcases (runFrom_bind_eq_ok_iff _).1 ran with ⟨_, _, -, ran⟩
  rcases (runFrom_bind_eq_ok_iff _).1 ran with ⟨_, _, -, ran⟩
  rcases (runFrom_bind_eq_ok_iff _).1 ran with ⟨mixins, _, -, ran⟩
  rcases (runFrom_bind_eq_ok_iff _).1 ran with ⟨_, _, -, ran⟩
  rcases (runFrom_bind_eq_ok_iff _).1 ran with ⟨path, _, -, ran⟩
  rcases (runFrom_bind_eq_ok_iff _).1 ran with ⟨_, _, -, ran⟩
  exact (Except.ok.inj (congrArg Prod.fst ran)).symm

theorem eq_of_runFrom_enter {prepare : Address → Work Unit} {descriptors : Descriptors}
    {parent child : Address} {name : String} {later : Progress}
    (ran : (enter prepare descriptors parent name).runFrom progress = (.ok child, later)) :
    child = name :: parent := by
  by_cases present : name :: parent ∈ progress.session.tree
  · rw [runFrom_enter_of_mem present] at ran
    exact (Except.ok.inj (congrArg Prod.fst ran)).symm
  · rw [runFrom_enter_of_notMem present] at ran
    exact eq_of_runFrom_addRequested ran

section Parts

variable {descriptors : Descriptors} {policy : Policy} {address parent : Address} {name : String}
  {first second : Address → Work Unit}

theorem resembles_prepare {path : String} (named : Address.path address = .ok path)
    (alike : progress.withoutNotes = other.withoutNotes) :
    (Checkout.recordOnly.prepare policy address).Resembles
      (Checkout.ifNecessary.prepare policy.withoutCheckout address) progress other := by
  have nothing : (checkoutIfNecessary policy.withoutCheckout address).runFrom other =
      (.ok (), other) :=
    runFrom_checkoutIfNecessary_of_none (Policy.unlocks?_of_not_autoCheckout rfl)
  unfold Resembles
  simp only [nothing, Checkout.prepare, runFrom_bind, named, runFrom_liftExcept, runFrom_modify,
    true_and]
  exact alike

theorem resembles_addRequested
    (prepared : ∀ progress other, progress.withoutNotes = other.withoutNotes →
      (first parent).Resembles (second parent) progress other)
    (alike : progress.withoutNotes = other.withoutNotes) :
    (addRequested first descriptors parent name).Resembles
      (addRequested second descriptors parent name) progress other := by
  apply resembles_lift_bind alike
  intro type _
  apply resembles_bind (prepared _ _ alike)
  intro _ _ _ _ alike
  apply resembles_get_bind
  rw [Progress.session_eq_of_alike alike]
  apply resembles_bind (resembles_edit alike _)
  intro _ _ _ _ alike
  apply resembles_lift_bind alike
  intro mixins _
  apply resembles_bind (resembles_forM (fun _ _ _ alike => resembles_edit alike _) alike)
  intro _ _ _ _ alike
  apply resembles_lift_bind alike
  intro path _
  apply resembles_bind (resembles_report alike _)
  intro _ _ _ _ alike
  exact resembles_pure alike _

theorem resembles_enter
    (prepared : ∀ progress other, progress.withoutNotes = other.withoutNotes →
      (first parent).Resembles (second parent) progress other)
    (alike : progress.withoutNotes = other.withoutNotes) :
    (enter first descriptors parent name).Resembles (enter second descriptors parent name)
      progress other := by
  apply resembles_bind (resembles_tree alike)
  intro tree _ _ _ alike
  split
  · exact resembles_pure alike _
  · exact resembles_addRequested prepared alike

theorem resembles_foldlM_enter {names : List String}
    (prepared : ∀ address, (∀ name ∈ address, Path.IsSegment name) → ∀ progress other,
      progress.withoutNotes = other.withoutNotes →
        (first address).Resembles (second address) progress other)
    (proper : ∀ name ∈ names.reverse ++ parent, Path.IsSegment name)
    (alike : progress.withoutNotes = other.withoutNotes) :
    (names.foldlM (enter first descriptors) parent).Resembles
      (names.foldlM (enter second descriptors) parent) progress other := by
  induction names generalizing parent progress other with
  | nil => exact resembles_pure alike _
  | cons name rest ih =>
      have regrouped : (name :: rest).reverse ++ parent = rest.reverse ++ (name :: parent) := by
        simp
      rw [regrouped] at proper
      have parentProper : ∀ other ∈ parent, Path.IsSegment other :=
        fun other otherMem => proper other (by simp [otherMem])
      rw [List.foldlM_cons, List.foldlM_cons]
      apply resembles_bind (resembles_enter (prepared parent parentProper) alike)
      intro child _ _ ran alike
      rw [eq_of_runFrom_enter ran]
      exact ih proper alike

theorem resembles_createKnowing {knows : String → Bool} {path : Option String}
    (trusted : ∀ asked, knows asked → (progress.session.tree.item? asked).isSome)
    (alike : progress.withoutNotes = other.withoutNotes) :
    (createKnowing knows (Checkout.recordOnly.prepare policy) descriptors path).Resembles
      (createKnowing knows (Checkout.ifNecessary.prepare policy.withoutCheckout) descriptors path)
      progress other := by
  have sameSession := Progress.session_eq_of_alike alike
  rcases Path.malformed_or_normal path with ⟨fault, malformed⟩ | ⟨text, normal, rfl, normalized⟩
  · unfold Resembles
    rw [runFrom_createKnowing_of_malformed malformed, runFrom_createKnowing_of_malformed malformed]
    exact ⟨rfl, alike⟩
  · rcases Path.exists_segments_of_normalize normalized with ⟨names, proper, rfl⟩
    unfold Resembles
    rw [runFrom_createKnowing trusted proper normalized,
      runFrom_createKnowing (sameSession ▸ trusted) proper normalized, ← sameSession]
    split
    · exact ⟨rfl, alike⟩
    · apply resembles_foldlM_enter _ _ alike
      · intro address addressProper _ _ alike
        exact resembles_prepare (Address.path_of_segments addressProper) alike
      · rw [Tree.missing_reverse_append_deepest]
        simpa using proper

theorem resembles_reconcileArranged {arrange : List String → List String}
    {requested : List String} {path : String} (named : Address.path address = .ok path)
    (alike : progress.withoutNotes = other.withoutNotes) :
    (reconcileArranged arrange .recordOnly policy address requested).Resembles
      (reconcileArranged arrange .ifNecessary policy.withoutCheckout address requested)
      progress other := by
  have samePolicy : (mixinHost arrange address).reconcile policy.withoutCheckout requested =
      (mixinHost arrange address).reconcile policy requested := rfl
  apply resembles_bind (resembles_prepare named alike)
  intro _ _ _ _ alike
  rw [samePolicy]
  have listed : ∀ {progress other : Progress}, progress.withoutNotes = other.withoutNotes →
      (mixinHost arrange address).mixins.Resembles (mixinHost arrange address).mixins
        progress other := by
    intro _ _ alike
    apply resembles_bind (resembles_tree alike)
    intro tree _ _ _ alike
    apply resembles_lift_bind alike
    intro node _
    exact resembles_pure alike _
  have reported : ∀ {progress other : Progress}, progress.withoutNotes = other.withoutNotes →
      (mixinHost arrange address).reportCheckout.Resembles
        (mixinHost arrange address).reportCheckout progress other := by
    intro _ _ alike
    apply resembles_lift_bind alike
    intro path _
    exact resembles_report alike _
  apply resembles_bind (listed alike)
  intro current _ _ _ alike
  apply resembles_bind (resembles_forM (fun _ _ _ alike => resembles_edit alike _) alike)
  intro _ _ _ _ alike
  apply resembles_forM _ alike
  intro mixin _ _ alike
  apply resembles_bind (resembles_edit alike _)
  intro _ _ _ _ alike
  split
  · apply resembles_bind
      (resembles_bind (resembles_tree alike) fun _ _ _ _ alike => resembles_pure alike _)
    intro isOpen _ _ _ alike
    split
    · exact reported alike
    · exact resembles_pure alike _
  · exact resembles_pure alike _

/-- Apart from its notes, creating or updating with a recording checkout is the same as with the
usual one under a policy that checks nothing out. -/
theorem resembles_createOrUpdateKnowing {knows : String → Bool}
    {arrange : List String → List String} {path : Option String}
    (trusted : ∀ asked, knows asked → (progress.session.tree.item? asked).isSome)
    (alike : progress.withoutNotes = other.withoutNotes) :
    (createOrUpdateKnowing knows arrange .recordOnly descriptors policy path).Resembles
      (createOrUpdateKnowing knows arrange .ifNecessary descriptors policy.withoutCheckout path)
      progress other := by
  apply resembles_lift_bind alike
  intro target _
  apply resembles_lift_bind alike
  intro normal normalized
  split
  · apply resembles_lift_bind alike
    intro mixins _
    split
    · exact resembles_pure alike _
    · apply resembles_get_bind
      rw [← Progress.session_eq_of_alike alike]
      apply resembles_lift_bind alike
      intro item found
      split
      · rename_i address
        have named : Address.path address = .ok normal := by
          rcases Path.exists_segments_of_normalize normalized with ⟨names, proper, rfl⟩
          have isNode := item?_of_getItem found
          rw [Tree.item?_ofNames proper] at isNode
          rw [(Tree.eq_of_itemAt?_eq_node isNode).1,
            Address.path_of_segments (by simpa using proper), List.reverse_reverse]
        apply resembles_bind (resembles_reconcileArranged named alike)
        intro _ _ _ _ alike
        exact resembles_pure alike _
      · exact resembles_pure alike _
  · apply resembles_bind (resembles_createKnowing trusted alike)
    intro _ _ _ _ alike
    exact resembles_pure alike _

end Parts

end Work

end ContentTree
