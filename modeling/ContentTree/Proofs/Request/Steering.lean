import ContentTree.Proofs.Creation.Effect
import ContentTree.Proofs.Descriptor.LastWriter
import ContentTree.Request

/-!
# Control parameters

A client may send any control parameters along with the content of a request. They can make a
difference through two channels only: one of them decides whether nodes are checked out, unless the
request is given a policy, and a reference may name a control parameter as the source of its values.
Requests with the same content that use neither channel differently are responded to alike, to the
last detail: the outcome, the log, the descriptors and the tree are the same
(`respond_steered`).

The names of control parameters never begin like a path, hence they do not tell whether names have
to. The remaining switch, whether to check in again, is for a later step to follow; nothing that is
done for a request depends on it (`Work.createOrUpdateKnowing_congr`).
-/

namespace ContentTree

namespace Parameters

/-- The parameters that carry content or would do so if they were accepted. -/
def content (parameters : Parameters) : List (String × Submission) :=
  parameters.entries.filter fun entry => !Parameter.isControl entry.1

/-- Some accepted reference takes its values from a control parameter. -/
def DrawsOnControl (parameters : Parameters) (base : String) (pathsOnly : Option Bool) : Prop :=
  ∃ entry ∈ parameters.accepted pathsOnly, ∃ mention ∈ Mention.ofEntry? base entry,
    mention.directive = some .valueFrom ∧
      ∃ reference ∈ parameters.keys, Parameter.isControl reference ∧ mention.values = [reference]
  deriving Decidable

end Parameters

namespace Request

/-- Requests that differ in their control parameters at most. -/
structure SameButControl (request other : Request) : Prop where
  path : request.path = other.path
  policy : request.policy = other.policy
  content : request.parameters.content = other.parameters.content

/-- Some reference that a request accepts takes its values from a control parameter. -/
def DrawsOnControl (request : Request) : Prop :=
  ∃ text ∈ request.path, ∃ base ∈ (Path.normalize text).toOption,
    request.parameters.DrawsOnControl base none
  deriving Decidable

/-- Requests check nodes out alike: their policies are given, or are refined alike. -/
def ChecksOutAlike (request other : Request) : Prop :=
  request.policy.isSome ∨
    Policy.flagOf? request.parameters Policy.autoCheckoutParameter =
      Policy.flagOf? other.parameters Policy.autoCheckoutParameter

end Request

/-! ### What is collected -/

theorem Parameter.not_startsWith_of_isControl {name : String} (control : isControl name) :
    startsWith name "./" = false := by
  rw [isControl, Bool.or_eq_true, decide_eq_true_eq] at control
  rcases control with colon | rfl
  · rcases List.isPrefixOf_iff_prefix.1 colon with ⟨rest, letters⟩
    rw [startsWith, ← letters]
    rfl
  · decide

namespace Parameters

variable {parameters other : Parameters} {base : String} {pathsOnly : Option Bool}

theorem pathsRequired_keys (parameters : Parameters) :
    Parameter.pathsRequired parameters.keys =
      Parameter.pathsRequired (parameters.content.map Prod.fst) := by
  simp only [Parameter.pathsRequired, Table.keys, content, List.any_map, List.any_filter]
  apply List.any_congr rfl
  intro entry
  cases control : Parameter.isControl entry.1 with
  | false => rfl
  | true => exact Parameter.not_startsWith_of_isControl control

theorem accepted_eq (parameters : Parameters) (pathsOnly : Option Bool) :
    parameters.accepted pathsOnly = parameters.content.filter fun entry =>
      Parameter.isAccepted
        (pathsOnly.getD (Parameter.pathsRequired (parameters.content.map Prod.fst))) entry.1 := by
  rw [accepted, pathsRequired_keys, content, List.filter_filter]
  apply List.filter_congr
  intro entry _
  cases control : Parameter.isControl entry.1 <;> simp [control]

theorem get?_congr_of_content {name : String} (sameContent : parameters.content = other.content)
    (notControl : Parameter.isControl name = false) : parameters.get? name = other.get? name := by
  apply Option.ext
  intro submission
  have inContent : ∀ parameters : Parameters, (name, submission) ∈ parameters.content ↔
      parameters.get? name = some submission := by
    intro parameters
    simp [content, notControl, Table.mem_entries_iff]
  rw [← inContent, sameContent, inContent]

/-- References that are not to control parameters have the same values for the same content. -/
theorem submitted?_congr_of_content {entry : String × Submission} {mention : Mention}
    (sameContent : parameters.content = other.content)
    (selfContained : ¬parameters.DrawsOnControl base pathsOnly)
    (otherSelfContained : ¬other.DrawsOnControl base pathsOnly)
    (accepted : entry ∈ parameters.accepted pathsOnly)
    (understood : Mention.ofEntry? base entry = some mention) :
    mention.submitted? parameters = mention.submitted? other := by
  have otherAccepted : entry ∈ other.accepted pathsOnly := by
    rwa [accepted_eq, ← sameContent, ← accepted_eq]
  unfold Mention.submitted?
  split
  case h_1 => rfl
  case h_3 => rfl
  case h_2 reference isReference isSingle =>
    cases control : Parameter.isControl reference with
    | false => rw [get?_congr_of_content sameContent control]
    | true =>
        have absent : reference ∉ parameters := fun present => selfContained
          ⟨entry, accepted, mention, understood, isReference, reference, present, control, isSingle⟩
        have otherAbsent : reference ∉ other := fun present => otherSelfContained
          ⟨entry, otherAccepted, mention, understood, isReference, reference, present, control,
            isSingle⟩
        rw [Table.get?_eq_none_iff.2 absent, Table.get?_eq_none_iff.2 otherAbsent]

/-- The same content is collected alike, unless references draw on control parameters. -/
theorem collect_congr_of_content (sameContent : parameters.content = other.content)
    (selfContained : ¬parameters.DrawsOnControl base pathsOnly)
    (otherSelfContained : ¬other.DrawsOnControl base pathsOnly) :
    parameters.collect base pathsOnly = other.collect base pathsOnly := by
  have sameAccepted : parameters.accepted pathsOnly = other.accepted pathsOnly := by
    rw [accepted_eq, sameContent, ← accepted_eq]
  rw [collect_eq, collect_eq, ← sameAccepted]
  cases understood : (parameters.accepted pathsOnly).mapM (Mention.ofEntry base) with
  | error fault => rfl
  | ok mentions =>
      rcases mapM_eq_ok_iff.1 understood with ⟨-, rfl⟩
      refine congrArg Except.ok (List.foldl_ext _ _ ∅ ?_)
      intro descriptors mention mentionMem
      rcases List.mem_filterMap.1 mentionMem with ⟨entry, accepted, isMention⟩
      have sameValues := submitted?_congr_of_content sameContent selfContained otherSelfContained
        accepted isMention
      simp only [Descriptors.note, Mention.amend_eq, sameValues]

end Parameters

/-! ### What is done -/

/-- Whether nodes are to be checked in again has no influence on what is done for a request. -/
theorem Work.createOrUpdateKnowing_congr (knows : String → Bool)
    (arrange : List String → List String) (checkout : Checkout) (descriptors : Descriptors)
    {policy other : Policy} (path : Option String)
    (sameCheckout : policy.autoCheckout = other.autoCheckout)
    (sameReports : policy.checkinOnNewVersionable = other.checkinOnNewVersionable) :
    createOrUpdateKnowing knows arrange checkout descriptors policy path =
      createOrUpdateKnowing knows arrange checkout descriptors other path := by
  rcases policy with ⟨autoCheckout, reports, autoCheckin⟩
  rcases other with ⟨otherCheckout, otherReports, otherCheckin⟩
  cases sameCheckout
  cases sameReports
  rfl

namespace Request

variable {request other : Request}

theorem effectivePolicy_congr (same : request.SameButControl other)
    (alike : request.ChecksOutAlike other) (base : Policy) :
    (request.effectivePolicy base).autoCheckout = (other.effectivePolicy base).autoCheckout ∧
      (request.effectivePolicy base).checkinOnNewVersionable =
        (other.effectivePolicy base).checkinOnNewVersionable := by
  simp only [effectivePolicy, ← same.policy]
  cases given : request.policy with
  | some policy => exact ⟨rfl, rfl⟩
  | none =>
      rcases alike with isGiven | sameSwitch
      · simp [given] at isGiven
      · refine ⟨?_, rfl⟩
        simp only [Option.getD_none, Policy.refine, sameSwitch]

theorem runFrom_workKnowing_congr (same : request.SameButControl other)
    (alike : request.ChecksOutAlike other) (selfContained : ¬request.DrawsOnControl)
    (otherSelfContained : ¬other.DrawsOnControl) (knows : String → Bool)
    (arrange : List String → List String) (checkout : Checkout) (base : Policy)
    (progress : Progress) :
    (request.workKnowing knows arrange checkout base).runFrom progress =
      (other.workKnowing knows arrange checkout base).runFrom progress := by
  simp only [workKnowing, ← same.path, Work.runFrom_bind, Work.runFrom_liftExcept]
  cases isRequired : Path.required request.path .notAbsolute with
  | error fault => rfl
  | ok text =>
      cases normalized : Path.normalize text with
      | error fault => simp only [normalized]
      | ok path =>
          have isText := Path.eq_some_of_required isRequired
          have isPath : path ∈ (Path.normalize text).toOption := by rw [normalized]; rfl
          have sameDescriptors : request.parameters.collect path none =
              other.parameters.collect path none :=
            Parameters.collect_congr_of_content same.content
              (fun draws => selfContained ⟨text, isText, path, isPath, draws⟩)
              (fun draws => otherSelfContained ⟨text, same.path ▸ isText, path, isPath, draws⟩)
          rcases effectivePolicy_congr same alike base with ⟨sameCheckout, sameReports⟩
          simp only [normalized, sameDescriptors,
            Work.createOrUpdateKnowing_congr _ _ _ _ _ sameCheckout sameReports]

end Request

/-- Requests with the same content have the same outcome, log and descriptors and leave the same
tree, whatever control parameters come along, as long as they check nodes out alike and no reference
draws on a control parameter. -/
theorem respond_steered (session : Session) (knows : String → Bool)
    (arrange : List String → List String) (checkout : Checkout) (base : Policy)
    (request other : Request) (same : request.SameButControl other)
    (alike : request.ChecksOutAlike other) (selfContained : ¬request.DrawsOnControl)
    (otherSelfContained : ¬other.DrawsOnControl) :
    request.respondKnowing knows arrange checkout base session =
      other.respondKnowing knows arrange checkout base session := by
  simp only [Request.respondKnowing,
    Request.runFrom_workKnowing_congr same alike selfContained otherSelfContained]

theorem respond_steered_archive :
    let content : List (String × Submission) :=
      [("./jcr:mixinTypes@ValueFrom", .single "types"), ("types", .several ["mix:title"])]
    let request : Request :=
      { path := some "/archive/2024/may"
        parameters := .ofList
          ((":autoCheckout", .single "true") :: (":autoCheckin", .single "false") :: content) }
    let other : Request :=
      { path := some "/archive/2024/may"
        parameters := .ofList
          (content ++ [("_charset_", .single "utf-8"), (":autoCheckout", .several ["TRUE", "x"])]) }
    request.respond .ifNecessary {} { tree := Tree.archive } =
        other.respond .ifNecessary {} { tree := Tree.archive } ∧
      (request.respond .ifNecessary {} { tree := Tree.archive }).1.map Response.changes =
        .ok [.checkedOut "/archive", .created "/archive/2024/may"] := by
  intro content request other
  refine ⟨?_, by decide +kernel⟩
  exact respond_steered { tree := Tree.archive } _ id .ifNecessary {} request other
    { path := rfl
      policy := rfl
      content := by decide +kernel }
    (.inr (by decide +kernel)) (by decide +kernel) (by decide +kernel)

end ContentTree
