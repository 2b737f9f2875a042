import ContentTree.Proofs.Descriptor.LastWriter

/-!
# The order of parameters

Form fields arrive in any order. What is collected from them depends on this order only where two
parameters write the same field of the same descriptor (`Parameters.Rivals`); the directives that
just set a flag have no rivals. As long as rivals keep their order (`Parameters.Reorders`),
collecting fails for both orders or for none, and leads to the same descriptors
(`Parameters.collect_reordered`). Which fault is met first, and in which order the descriptors
come, may differ.

By the closed form of collecting, a descriptor is determined by the mentions that write each of its
fields, taken in order. These are the same two lists for both orders of the parameters
(`filter_eq_of_perm`).
-/

namespace ContentTree

/-- The fields of a descriptor in which a later parameter may replace what an earlier one wrote. -/
inductive Descriptor.Field where
  | values
  | typeHint
  | defaultValues
  | source
  deriving DecidableEq, Repr

namespace Descriptor.Field

def all : List Field :=
  [values, typeHint, defaultValues, source]

theorem mem_all (field : Field) : field ∈ all := by
  cases field <;> decide

end Descriptor.Field

namespace Mention

/-- Whether a mention writes a field: plain values and references write the values, a type hint and
defaults their own fields, moves and copies the source. A directive without effect writes
nothing. -/
def writes (parameters : Parameters) (field : Descriptor.Field) (mention : Mention) : Bool :=
  match field with
  | .values => (mention.submitted? parameters).isSome
  | .typeHint => mention.typeHint?.isSome
  | .defaultValues => mention.defaults?.isSome
  | .source => mention.source?.isSome

end Mention

namespace Parameters

/-- Two parameters write the same field of the same descriptor. -/
def Rivals (parameters : Parameters) (base : String) (first second : String × Submission) : Prop :=
  ∃ mention ∈ Mention.ofEntry? base first, ∃ other ∈ Mention.ofEntry? base second,
    mention.path = other.path ∧
      ∃ field ∈ Descriptor.Field.all,
        mention.writes parameters field ∧ other.writes parameters field
  deriving Decidable

/-- The same parameters in another order, where accepted rivals come in the order they had. -/
structure Reorders (base : String) (pathsOnly : Option Bool) (parameters other : Parameters) :
    Prop where
  perm : parameters.entries.Perm other.entries
  keeps : (parameters.accepted pathsOnly).Pairwise fun first second =>
    parameters.Rivals base first second → [first, second].Sublist (other.accepted pathsOnly)

end Parameters

/-! ### Mentions in another order -/

namespace Mention

/-- The last writer of a field is found among the mentions that write it. -/
theorem last?_eq_of_filter_eq {Value : Type} (written? : Mention → Option Value)
    {mentions others : List Mention}
    (sameWriters : mentions.filter (fun mention => (written? mention).isSome) =
      others.filter fun mention => (written? mention).isSome) :
    last? written? mentions = last? written? others := by
  have writersOnly : ∀ mentions : List Mention,
      (mentions.filter fun mention => (written? mention).isSome).filterMap written? =
        mentions.filterMap written? := by
    intro mentions
    rw [List.filterMap_filter]
    apply List.filterMap_congr
    intro mention _
    cases written? mention <;> rfl
  rw [last?, last?, ← writersOnly mentions, sameWriters, writersOnly]

end Mention

/-- A descriptor is determined by the mentions of its path, up to order, and by the order of those
that write the same field. -/
theorem Descriptor.ofMentions_congr (path : String) {parameters other : Parameters}
    {mentions others : List Mention}
    (sameValues : ∀ name, parameters.get? name = other.get? name) (perm : mentions.Perm others)
    (sameWriters : ∀ field,
      mentions.filter (·.writes parameters field) = others.filter (·.writes parameters field)) :
    ofMentions parameters path mentions = ofMentions other path others := by
  have sameReferences : Mention.submitted? other = Mention.submitted? parameters := by
    funext mention
    simp only [Mention.submitted?, sameValues]
  have submitted := Mention.last?_eq_of_filter_eq (Mention.submitted? parameters)
    (sameWriters .values)
  have hinted := Mention.last?_eq_of_filter_eq Mention.typeHint? (sameWriters .typeHint)
  have defaulted := Mention.last?_eq_of_filter_eq Mention.defaults? (sameWriters .defaultValues)
  have sourced := Mention.last?_eq_of_filter_eq Mention.source? (sameWriters .source)
  simp only [ofMentions, submitted, hinted, defaulted, sourced, perm.any_eq, sameReferences]

namespace Parameters

variable {base : String} {pathsOnly : Option Bool} {parameters other : Parameters}

theorem perm_accepted (perm : parameters.entries.Perm other.entries) :
    (parameters.accepted pathsOnly).Perm (other.accepted pathsOnly) := by
  have sameMode : Parameter.pathsRequired parameters.keys = Parameter.pathsRequired other.keys :=
    (perm.map Prod.fst).any_eq
  rw [accepted, accepted, sameMode]
  exact perm.filter _

theorem nodup_accepted (parameters : Parameters) (pathsOnly : Option Bool) :
    (parameters.accepted pathsOnly).Nodup :=
  parameters.nodup_entries.filter _

/-- For both orders the same mentions write a field of the descriptor of a path, one after the
other. -/
theorem Reorders.sameWriters (reorders : parameters.Reorders base pathsOnly other)
    (path : String) (field : Descriptor.Field) :
    (((parameters.accepted pathsOnly).filterMap (Mention.ofEntry? base)).filter
      (·.path = path)).filter (·.writes parameters field) =
    (((other.accepted pathsOnly).filterMap (Mention.ofEntry? base)).filter
      (·.path = path)).filter (·.writes parameters field) := by
  let selects : String × Submission → Bool := fun entry =>
    (Mention.ofEntry? base entry).any fun mention =>
      mention.writes parameters field && mention.path = path
  have writes_of_selects : ∀ entry, selects entry → ∃ mention ∈ Mention.ofEntry? base entry,
      mention.writes parameters field ∧ mention.path = path := by
    simp [selects, Option.any_eq_true]
  have areRivals : ∀ first second, selects first → selects second →
      parameters.Rivals base first second := by
    intro first second firstSelected secondSelected
    rcases writes_of_selects first firstSelected with ⟨mention, understood, writes, isPath⟩
    rcases writes_of_selects second secondSelected with
      ⟨later, laterUnderstood, laterWrites, isToo⟩
    exact ⟨mention, understood, later, laterUnderstood, isPath.trans isToo.symm, field,
      field.mem_all, writes, laterWrites⟩
  have sameSelection : (parameters.accepted pathsOnly).filter selects =
      (other.accepted pathsOnly).filter selects := by
    apply filter_eq_of_perm (perm_accepted reorders.perm) (other.nodup_accepted pathsOnly)
    apply reorders.keeps.imp
    intro first second kept firstSelected secondSelected
    exact kept (areRivals first second firstSelected secondSelected)
  rw [List.filter_filter, List.filter_filter, filter_filterMap_eq, filter_filterMap_eq]
  exact congrArg (·.filterMap (Mention.ofEntry? base)) sameSelection

/-- Parameters in another order are collected to the same descriptors, up to their order, as long as
those that write the same field of the same descriptor keep their order. -/
theorem collect_reordered (parameters other : Parameters) (base : String) (pathsOnly : Option Bool)
    (reorders : parameters.Reorders base pathsOnly other) :
    ((∃ fault, parameters.collect base pathsOnly = .error fault) ↔
      ∃ fault, other.collect base pathsOnly = .error fault) ∧
    ∀ descriptors others, parameters.collect base pathsOnly = .ok descriptors →
      other.collect base pathsOnly = .ok others →
        descriptors.entries.Perm others.entries := by
  have perm : (parameters.accepted pathsOnly).Perm (other.accepted pathsOnly) :=
    perm_accepted reorders.perm
  constructor
  · rw [collect_fails_iff, collect_fails_iff]
    simp only [perm.mem_iff]
  · intro descriptors others collected otherCollected
    rw [(collect_eq_ok_iff.1 collected).2, (collect_eq_ok_iff.1 otherCollected).2,
      Table.perm_entries_iff]
    intro path
    have mentioned := perm.filterMap (Mention.ofEntry? base)
    have sameDescriptor := Descriptor.ofMentions_congr path
      (Table.perm_entries_iff.1 reorders.perm) (mentioned.filter (·.path = path))
      (reorders.sameWriters path)
    rw [Descriptors.get?_foldl_note, Descriptors.get?_foldl_note, sameDescriptor]
    simp only [(mentioned.map (·.path)).mem_iff]

theorem collect_reordered_page :
    let parameters : Parameters := .ofList
      [("./title", .single "old"), ("./text@Delete", .absent), ("./title@TypeHint", .single "Name"),
        ("./a/../title@ValueFrom", .single ":source"), ("./text@IgnoreBlanks", .single "true"),
        (":source", .several ["new", "newer"])]
    let other : Parameters := .ofList
      [(":source", .several ["new", "newer"]), ("./text@IgnoreBlanks", .single "true"),
        ("./title@TypeHint", .single "Name"), ("./title", .single "old"),
        ("./text@Delete", .absent), ("./a/../title@ValueFrom", .single ":source")]
    ∃ descriptors others, parameters.collect "/page" none = .ok descriptors ∧
      other.collect "/page" none = .ok others ∧ descriptors.entries.Perm others.entries ∧
      descriptors.keys = ["/page/title", "/page/text"] ∧
      others.keys = ["/page/text", "/page/title"] := by
  intro parameters other
  have reorders : parameters.Reorders "/page" none other :=
    { perm := by decide +kernel
      keeps := by decide +kernel }
  obtain ⟨descriptors, collected, keys⟩ : ∃ descriptors,
      parameters.collect "/page" none = .ok descriptors ∧
        descriptors.keys = ["/page/title", "/page/text"] :=
    exists_collect_of_map_keys (by decide +kernel)
  obtain ⟨others, otherCollected, otherKeys⟩ : ∃ others,
      other.collect "/page" none = .ok others ∧ others.keys = ["/page/text", "/page/title"] :=
    exists_collect_of_map_keys (by decide +kernel)
  have same := (collect_reordered parameters other "/page" none reorders).2 descriptors others
    collected otherCollected
  exact ⟨descriptors, others, collected, otherCollected, same, keys, otherKeys⟩

end Parameters

end ContentTree
