import ContentTree.Proofs.Path.NormalForm
import ContentTree.Proofs.Tree.Edits
import ContentTree.Session.Step

/-!
# What becomes of a session

All work on a session comes down to edits of single nodes. `Session.Leads` says that edits of an
allowed kind lead from one session to another, and a session is reachable if edits of any kind lead
to it from a fresh one. Which edits a piece of work may make is put together from those of its parts
(`Work.Edits`): carrying out a request only adds nodes, which it names by segments of a path, adds
and removes mixin types and, if the policy is to check nodes out, does so (`Policy.Allows`). From
this it is known which edits a step may make (`Step.Allows`), and so every session that steps lead
to is reachable (`Reachable.performAll`).
-/

namespace ContentTree

namespace Session

/-- Edits of an allowed kind lead from one session to another. -/
inductive Leads (allowed : Tree → Address → Edit → Prop) (start : Session) : Session → Prop
  | refl : Leads allowed start start
  | edit {session : Session} {tree : Tree} {address : Address} {change : Edit}
      (before : Leads allowed start session) (isAllowed : allowed session.tree address change)
      (applied : change.apply session.tree address session.defaultType = .ok tree) :
      Leads allowed start { session with tree }

/-- Every kind of edit. -/
abbrev anyEdit (_ : Tree) (_ : Address) (_ : Edit) : Prop :=
  True

/-- A session that can come about from a fresh one. -/
def Reachable (session : Session) : Prop :=
  ∃ defaultType, Leads anyEdit { defaultType } session

namespace Leads

variable {allowed others : Tree → Address → Edit → Prop} {start middle last : Session}

theorem trans (first : Leads allowed start middle) (second : Leads allowed middle last) :
    Leads allowed start last := by
  induction second with
  | refl => exact first
  | edit _ isAllowed applied ih => exact .edit ih isAllowed applied

theorem mono (includes : ∀ tree address change, allowed tree address change →
    others tree address change) (leads : Leads allowed start last) : Leads others start last := by
  induction leads with
  | refl => exact .refl
  | edit _ isAllowed applied ih => exact .edit ih (includes _ _ _ isAllowed) applied

end Leads

end Session

namespace Work

variable {Value Result Item : Type} {allowed : Tree → Address → Edit → Prop} {progress : Progress}

/-- Work only makes edits of an allowed kind when it starts from some progress. -/
def Edits (allowed : Tree → Address → Edit → Prop) (work : Work Value) (progress : Progress) :
    Prop :=
  progress.session.Leads allowed (work.runFrom progress).2.session

theorem edits_of_session_eq {work : Work Value}
    (same : (work.runFrom progress).2.session = progress.session) :
    work.Edits allowed progress := by
  rw [Edits, same]
  exact .refl

theorem edits_pure (value : Value) : (pure value : Work Value).Edits allowed progress :=
  .refl

theorem edits_throw (fault : Fault) : (throw fault : Work Value).Edits allowed progress :=
  .refl

theorem edits_liftExcept (outcome : Except Fault Value) :
    (liftM outcome : Work Value).Edits allowed progress :=
  .refl

theorem edits_get : (get : Work Progress).Edits allowed progress :=
  .refl

theorem edits_tree : tree.Edits allowed progress :=
  .refl

theorem edits_report (change : Change) : (report change).Edits allowed progress :=
  .refl

theorem edits_bind {work : Work Value} {next : Value → Work Result}
    (first : work.Edits allowed progress)
    (second : ∀ value later, work.runFrom progress = (.ok value, later) →
      (next value).Edits allowed later) : (work >>= next).Edits allowed progress :=
  snd_runFrom_bind progress (progress.session.Leads allowed ·.session) first
    fun value later ran leads => leads.trans (second value later ran)

theorem edits_edit (address : Address) (change : Edit)
    (isAllowed : allowed progress.session.tree address change) :
    (edit (change.apply · address progress.session.defaultType)).Edits allowed progress := by
  unfold Edits
  rw [runFrom_edit]
  cases applied : change.apply progress.session.tree address progress.session.defaultType with
  | error fault => exact .refl
  | ok tree => exact .edit .refl isAllowed applied

theorem edits_forM {items : List Item} {body : Item → Work PUnit}
    (each : ∀ item progress, (body item).Edits allowed progress) :
    (forM items body).Edits allowed progress :=
  snd_runFrom_forM progress (progress.session.Leads allowed ·.session) .refl
    fun item later leads => leads.trans (each item later)

theorem edits_foldlM {items : List Item} {body : Value → Item → Work Value}
    (each : ∀ item ∈ items, ∀ value progress, (body value item).Edits allowed progress)
    (value : Value) : (items.foldlM body value).Edits allowed progress := by
  induction items generalizing value progress with
  | nil => exact .refl
  | cons item rest ih =>
      rcases List.forall_mem_cons.1 each with ⟨first, others⟩
      rw [List.foldlM_cons]
      exact edits_bind (first value progress) fun next _ _ => ih others next

end Work

/-- The edits that carrying out a request may make under a policy. -/
def Policy.Allows (policy : Policy) (_ : Tree) (_ : Address) : Edit → Prop
  | .addNode name _ => Path.IsSegment name
  | .addMixin _ | .removeMixin _ => True
  | .checkout => policy.autoCheckout
  | .checkin | .setProperty .. => False

namespace Work

variable {policy : Policy} {progress : Progress} {prepare : Address → Work Unit}
  {allowed : Tree → Address → Edit → Prop}

theorem edits_addMixin (address : Address) (mixin : String) :
    (edit (·.addMixin address mixin)).Edits policy.Allows progress :=
  edits_edit address (.addMixin mixin) trivial

theorem edits_removeMixin (address : Address) (mixin : String) :
    (edit (·.removeMixin address mixin)).Edits policy.Allows progress :=
  edits_edit address (.removeMixin mixin) trivial

theorem edits_checkoutIfNecessary (address : Address) :
    (checkoutIfNecessary policy address).Edits policy.Allows progress := by
  simp only [checkoutIfNecessary]
  split
  case isFalse => exact edits_pure _
  case isTrue isOn =>
    apply edits_bind edits_tree
    intro tree later _
    split
    · exact edits_pure _
    · rename_i versionable _
      split
      · exact edits_pure _
      · apply edits_bind (edits_edit versionable .checkout isOn)
        intro _ _ _
        apply edits_bind (edits_liftExcept _)
        intro path _ _
        exact edits_report _

theorem edits_prepare (checkout : Checkout) (address : Address) :
    (checkout.prepare policy address).Edits policy.Allows progress := by
  cases checkout with
  | ifNecessary => exact edits_checkoutIfNecessary address
  | recordOnly =>
      apply edits_of_session_eq
      simp only [Checkout.prepare, runFrom_bind, runFrom_liftExcept]
      cases Address.path address <;> rfl

theorem edits_addRequested {descriptors : Descriptors} (parent : Address) {name : String}
    (proper : Path.IsSegment name)
    (prepared : ∀ progress, (prepare parent).Edits policy.Allows progress) :
    (addRequested prepare descriptors parent name).Edits policy.Allows progress := by
  apply edits_bind (edits_liftExcept _)
  intro type _ _
  apply edits_bind (prepared _)
  intro _ _ _
  apply edits_bind edits_get
  intro _ _ ran
  cases ran
  apply edits_bind (edits_edit parent (.addNode name type) proper)
  intro _ _ _
  apply edits_bind (edits_liftExcept _)
  intro mixins _ _
  apply edits_bind (edits_forM fun mixin _ => edits_addMixin _ mixin)
  intro _ _ _
  apply edits_bind (edits_liftExcept _)
  intro path _ _
  apply edits_bind (edits_report _)
  intro _ _ _
  exact edits_pure _

theorem edits_enter {descriptors : Descriptors} (parent : Address) {name : String}
    (proper : Path.IsSegment name)
    (prepared : ∀ progress, (prepare parent).Edits policy.Allows progress) :
    (enter prepare descriptors parent name).Edits policy.Allows progress := by
  apply edits_bind edits_tree
  intro tree _ _
  split
  · exact edits_pure _
  · exact edits_addRequested parent proper prepared

theorem edits_nearestKnown (knows : String → Bool) (path : String) :
    (nearestKnown knows path).Edits allowed progress := by
  simp only [nearestKnown]
  split
  · exact edits_throw _
  · split
    · exact edits_pure _
    · apply edits_bind edits_get
      intro current _ _
      apply edits_bind (edits_liftExcept _)
      intro item _ _
      exact edits_pure _

theorem edits_createKnowing {descriptors : Descriptors} (knows : String → Bool)
    (path : Option String)
    (prepared : ∀ address progress, (prepare address).Edits policy.Allows progress) :
    (createKnowing knows prepare descriptors path).Edits policy.Allows progress := by
  apply edits_bind (edits_liftExcept _)
  intro target _ _
  rcases normalized : Path.normalize target with _ | normal
  · exact edits_throw _
  rcases Path.exists_segments_of_normalize normalized with ⟨names, proper, rfl⟩
  apply edits_bind (edits_nearestKnown _ _)
  intro found _ _
  split
  · exact edits_throw _
  · apply edits_foldlM
    intro name missing address _
    have isName : name ∈ Path.segments (Path.ofNames names) := List.mem_of_mem_drop missing
    rw [Path.segments_ofNames proper] at isName
    exact edits_enter address (proper name isName) (prepared address)

theorem edits_create (checkout : Checkout) (descriptors : Descriptors) (path : Option String) :
    (create checkout descriptors policy path).Edits policy.Allows progress := by
  apply edits_bind edits_get
  intro current _ _
  apply edits_createKnowing
  intro address _
  exact edits_prepare checkout address

theorem edits_reconcileArranged (arrange : List String → List String) (checkout : Checkout)
    (address : Address) (requested : List String) :
    (reconcileArranged arrange checkout policy address requested).Edits policy.Allows progress := by
  have listed : ∀ {progress}, (mixinHost arrange address).mixins.Edits policy.Allows progress := by
    intro progress
    apply edits_bind edits_tree
    intro tree _ _
    apply edits_bind (edits_liftExcept _)
    intro node _ _
    exact edits_pure _
  have reported : ∀ {progress},
      (mixinHost arrange address).reportCheckout.Edits policy.Allows progress := by
    intro progress
    apply edits_bind (edits_liftExcept _)
    intro path _ _
    exact edits_report _
  apply edits_bind (edits_prepare checkout address)
  intro _ _ _
  apply edits_bind listed
  intro current _ _
  apply edits_bind (edits_forM fun mixin _ => edits_removeMixin address mixin)
  intro _ _ _
  apply edits_forM
  intro mixin _
  apply edits_bind (edits_addMixin address mixin)
  intro _ _ _
  split
  · apply edits_bind (edits_bind edits_tree fun _ _ _ => edits_pure _)
    intro isOpen _ _
    split
    · exact reported
    · exact edits_pure _
  · exact edits_pure _

theorem edits_createOrUpdateKnowing (knows : String → Bool) (arrange : List String → List String)
    (checkout : Checkout) (descriptors : Descriptors) (path : Option String) :
    (createOrUpdateKnowing knows arrange checkout descriptors policy path).Edits policy.Allows
      progress := by
  apply edits_bind (edits_liftExcept _)
  intro target _ _
  apply edits_bind (edits_liftExcept _)
  intro normal _ _
  split
  · apply edits_bind (edits_liftExcept _)
    intro mixins _ _
    split
    · exact edits_pure _
    · apply edits_bind edits_get
      intro current _ _
      apply edits_bind (edits_liftExcept _)
      intro item _ _
      split
      · apply edits_bind (edits_reconcileArranged arrange checkout _ _)
        intro _ _ _
        exact edits_pure _
      · exact edits_pure _
  · apply edits_bind (edits_createKnowing knows _ fun address _ => edits_prepare checkout address)
    intro _ _ _
    exact edits_pure _

theorem edits_createOrUpdate (checkout : Checkout) (descriptors : Descriptors)
    (path : Option String) :
    (createOrUpdate checkout descriptors policy path).Edits policy.Allows progress := by
  apply edits_bind edits_get
  intro current _ _
  exact edits_createOrUpdateKnowing _ id checkout descriptors path

end Work

theorem Request.edits_workKnowing (request : Request) (knows : String → Bool)
    (arrange : List String → List String) (checkout : Checkout) (base : Policy)
    (progress : Progress) :
    (request.workKnowing knows arrange checkout base).Edits (request.effectivePolicy base).Allows
      progress := by
  apply Work.edits_bind (Work.edits_liftExcept _)
  intro target _ _
  apply Work.edits_bind (Work.edits_liftExcept _)
  intro normal _ _
  apply Work.edits_bind (Work.edits_liftExcept _)
  intro descriptors _ _
  apply Work.edits_bind (Work.edits_createOrUpdateKnowing knows arrange checkout _ _)
  intro created _ _
  exact Work.edits_pure _

/-- The edits that a step may make. -/
def Step.Allows : Step → Tree → Address → Edit → Prop
  | .query _, _, _, _ => False
  | .edit place change, _, address, made => address = place.reverse ∧ made = change
  | .checkoutIfNecessary _ policy, tree, address, made
  | .reconcile _ _ policy _, tree, address, made => policy.Allows tree address made
  | .create task, tree, address, made
  | .createOrUpdate task, tree, address, made => task.policy.Allows tree address made
  | .request posted base _, tree, address, made =>
      (posted.effectivePolicy base).Allows tree address made

theorem Edit.edits_work {allowed : Tree → Address → Edit → Prop} (change : Edit)
    (address : Address) {progress : Progress}
    (isAllowed : allowed progress.session.tree address change) :
    (change.work address).Edits allowed progress := by
  apply Work.edits_bind Work.edits_get
  intro _ _ ran
  cases ran
  apply Work.edits_bind (Work.edits_edit _ _ isAllowed)
  intro _ _ _
  apply Work.edits_bind Work.edits_tree
  intro tree _ _
  exact Work.edits_liftExcept _

theorem Edit.mem_or_exists_path {tree changed : Tree} {address other : Address}
    {defaultType : String} {change : Edit}
    (applied : change.apply tree address defaultType = .ok changed) (present : other ∈ changed) :
    other ∈ tree ∨ ∃ path, Address.path other = .ok path := by
  cases change with
  | addNode name type =>
      rcases Tree.addNode_eq_ok applied with ⟨_, named, -, -, -, rfl⟩
      rcases Tree.mem_insertChild.1 present with rfl | old
      · exact .inr named
      · exact .inl old
  | addMixin mixin =>
      rcases Tree.addMixin_eq_ok applied with ⟨-, -, rfl⟩
      exact .inl (Tree.mem_modify.1 present)
  | removeMixin mixin =>
      rcases Tree.removeMixin_eq_ok applied with ⟨-, -, rfl⟩
      exact .inl (Tree.mem_modify.1 present)
  | checkout =>
      rcases Tree.setCheckedOut_eq_ok applied with ⟨-, rfl⟩
      exact .inl (Tree.mem_modify.1 present)
  | checkin =>
      rcases Tree.setCheckedOut_eq_ok applied with ⟨-, rfl⟩
      exact .inl (Tree.mem_modify.1 present)
  | setProperty name values =>
      rcases Tree.setProperty_eq_ok applied with ⟨-, -, rfl⟩
      exact .inl (Tree.mem_modify.1 present)

namespace Session

variable {session : Session}

theorem leads_of_workOn {allowed : Tree → Address → Edit → Prop} {Found : Type}
    {found : Except Fault Found} {body : Found → Work Answer}
    (edits : ∀ value, found = .ok value → (body value).Edits allowed { session })
    {result : Except Fault Answer × Progress}
    (ran : (do return session.workOn (body (← found))) = Except.ok result) :
    session.Leads allowed result.2.session := by
  cases found with
  | error fault => cases ran
  | ok value =>
      cases ran
      exact edits value rfl

theorem leads_run {step : Step} {result : Except Fault Answer × Progress}
    (ran : step.run session = .ok result) : session.Leads step.Allows result.2.session := by
  cases step with
  | query question =>
      simp only [Step.run] at ran
      cases answered : question.answer session with
      | error fault => simp [answered, bind, Except.bind] at ran
      | ok finding =>
          simp only [answered, bind, Except.bind, pure, Except.pure, Except.ok.injEq] at ran
          subst ran
          exact .refl
  | edit place change =>
      refine leads_of_workOn ?_ ran
      intro address found
      exact change.edits_work address ⟨Tree.locate_eq_ok found, rfl⟩
  | checkoutIfNecessary place policy =>
      refine leads_of_workOn ?_ ran
      intro address _
      apply Work.edits_bind (Work.edits_checkoutIfNecessary address)
      intro _ _ _
      exact Work.edits_pure _
  | reconcile place mixins policy checkout =>
      refine leads_of_workOn ?_ ran
      intro address _
      apply Work.edits_bind (Work.edits_reconcileArranged id checkout address mixins)
      intro _ _ _
      exact Work.edits_pure _
  | create task =>
      refine leads_of_workOn ?_ ran
      intro descriptors _
      apply Work.edits_bind (Work.edits_create task.checkout descriptors task.target)
      intro address _ _
      apply Work.edits_bind (Work.edits_liftExcept _)
      intro path _ _
      exact Work.edits_pure _
  | createOrUpdate task =>
      refine leads_of_workOn ?_ ran
      intro descriptors _
      apply Work.edits_bind (Work.edits_createOrUpdate task.checkout descriptors task.target)
      intro created _ _
      exact Work.edits_pure _
  | request posted base checkout =>
      simp only [Step.run, Except.ok.injEq] at ran
      subst ran
      exact posted.edits_workKnowing session.knows id checkout base { session }

/-- A step makes no other edits than it may. -/
theorem leads_perform (session : Session) (step : Step) :
    session.Leads step.Allows (session.perform step).2 := by
  unfold perform
  cases ran : step.run session with
  | error fault => exact .refl
  | ok result => exact leads_run ran

theorem leads_performAll {allowed : Tree → Address → Edit → Prop} {steps : List Step}
    (includes : ∀ step ∈ steps, ∀ tree address change,
      step.Allows tree address change → allowed tree address change) :
    session.Leads allowed (session.performAll steps).2 := by
  induction steps generalizing session with
  | nil => exact .refl
  | cons step rest ih =>
      rcases List.forall_mem_cons.1 includes with ⟨first, others⟩
      exact ((session.leads_perform step).mono first).trans (ih others)

namespace Reachable

theorem of_leads {start last : Session} {allowed : Tree → Address → Edit → Prop}
    (reachable : start.Reachable) (leads : start.Leads allowed last) : last.Reachable := by
  rcases reachable with ⟨defaultType, before⟩
  exact ⟨defaultType, before.trans (leads.mono fun _ _ _ _ => trivial)⟩

/-- Whatever steps are performed, the session after them is reachable. -/
theorem performAll (reachable : session.Reachable) (steps : List Step) :
    (session.performAll steps).2.Reachable :=
  reachable.of_leads (leads_performAll fun _ _ _ _ _ _ => trivial)

theorem stale_eq_nil (reachable : session.Reachable) : session.stale = [] := by
  rcases reachable with ⟨defaultType, leads⟩
  induction leads with
  | refl => rfl
  | edit _ _ _ ih => exact ih

/-- Every node of a reachable session has a path. -/
theorem exists_path (reachable : session.Reachable) {address : Address}
    (present : address ∈ session.tree) : ∃ path, Address.path address = .ok path := by
  rcases reachable with ⟨defaultType, leads⟩
  induction leads with
  | refl =>
      have isRoot : address = [] := by
        simpa [Tree.fresh, Table.ofList, ← Tree.mem_nodes] using present
      subst isRoot
      exact ⟨Path.root, rfl⟩
  | edit _ _ applied ih =>
      rcases Edit.mem_or_exists_path applied present with old | named
      · exact ih old
      · exact named

end Reachable

end Session

end ContentTree
