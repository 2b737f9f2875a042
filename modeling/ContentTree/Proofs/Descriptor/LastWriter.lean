import ContentTree.Proofs.Descriptor.Mention
import ContentTree.Proofs.Lists

/-!
# The last writer wins

Every field of a descriptor is written by some of the mentions of its path and left alone by the
others (`Mention.amend_eq`). Noting down mentions one after the other therefore leads to a closed
form: a field that holds something holds what the last mention that writes it says, and a flag is
set if some mention sets it (`Descriptor.ofMentions`). The paths appear in the order in which they
are first mentioned, and what is said about one of them has no influence on any other
(`Parameters.collect_lastWriter`).
-/

namespace ContentTree

namespace Mention

/-- The values that are to be written: those submitted under the path itself, or those of the
parameter of the request that a single reference names. -/
def submitted? (parameters : Parameters) (mention : Mention) : Option (List String) :=
  match mention.directive, mention.values with
  | none, values => some values
  | some .valueFrom, [reference] => (parameters.get? reference).map Submission.values
  | _, _ => none

def typeHint? (mention : Mention) : Option String :=
  if mention.directive = some .typeHint then mention.values.head? else none

def defaults? (mention : Mention) : Option (List String) :=
  if mention.directive = some .defaultValue then some mention.values else none

def source? (mention : Mention) : Option Source :=
  match mention.directive, mention.values with
  | some .moveFrom, [path] => some { path, isMove := true }
  | some .copyFrom, [path] => some { path, isMove := false }
  | _, _ => none

/-- Whether a mention is a directive with exactly one value. -/
def switchesOn (mention : Mention) (directive : Directive) : Bool :=
  mention.directive = some directive && mention.values.length = 1

/-- Each field is written if the mention has something to say about it and left alone otherwise. -/
theorem amend_eq (mention : Mention) (parameters : Parameters) (descriptor : Descriptor) :
    mention.amend parameters descriptor =
      { path := descriptor.path
        values := (mention.submitted? parameters).or descriptor.values
        typeHint := mention.typeHint?.or descriptor.typeHint
        defaultValues := mention.defaults?.getD descriptor.defaultValues
        delete := mention.directive = some .delete || descriptor.delete
        source := mention.source?.or descriptor.source
        ignoreBlanks := mention.switchesOn .ignoreBlanks || descriptor.ignoreBlanks
        useDefaultWhenMissing :=
          mention.switchesOn .useDefaultWhenMissing || descriptor.useDefaultWhenMissing } := by
  rcases mention with ⟨path, _ | directive, values⟩
  · rfl
  · cases directive with
    | typeHint => cases values <;> rfl
    | defaultValue => rfl
    | delete => rfl
    | valueFrom =>
        rcases values with _ | ⟨reference, _ | ⟨_, _⟩⟩
        · rfl
        · simp only [amend, Descriptor.apply, submitted?]
          cases parameters.get? reference <;> rfl
        · rfl
    | moveFrom => rcases values with _ | ⟨_, _ | ⟨_, _⟩⟩ <;> rfl
    | copyFrom => rcases values with _ | ⟨_, _ | ⟨_, _⟩⟩ <;> rfl
    | ignoreBlanks => rcases values with _ | ⟨_, _ | ⟨_, _⟩⟩ <;> rfl
    | useDefaultWhenMissing => rcases values with _ | ⟨_, _ | ⟨_, _⟩⟩ <;> rfl

/-- What the last of the mentions that write a field writes. -/
def last? {Value : Type} (written? : Mention → Option Value) (mentions : List Mention) :
    Option Value :=
  (mentions.filterMap written?).getLast?

theorem last?_append_singleton {Value : Type} (written? : Mention → Option Value)
    (mentions : List Mention) (mention : Mention) :
    last? written? (mentions ++ [mention]) = (written? mention).or (last? written? mentions) := by
  rw [last?, List.filterMap_append, List.getLast?_append]
  cases written : written? mention <;> simp [written, last?]

end Mention

namespace Descriptor

/-- The descriptor of a path by all the mentions of this path, the first one first. -/
def ofMentions (parameters : Parameters) (path : String) (mentions : List Mention) :
    Descriptor where
  path
  values := Mention.last? (·.submitted? parameters) mentions
  typeHint := Mention.last? Mention.typeHint? mentions
  defaultValues := (Mention.last? Mention.defaults? mentions).getD []
  delete := mentions.any (·.directive = some .delete)
  source := Mention.last? Mention.source? mentions
  ignoreBlanks := mentions.any (·.switchesOn .ignoreBlanks)
  useDefaultWhenMissing := mentions.any (·.switchesOn .useDefaultWhenMissing)

theorem amend_ofMentions (parameters : Parameters) (path : String) (mentions : List Mention)
    (mention : Mention) :
    mention.amend parameters (ofMentions parameters path mentions) =
      ofMentions parameters path (mentions ++ [mention]) := by
  have anyOf : ∀ sets : Mention → Bool,
      (mentions ++ [mention]).any sets = (sets mention || mentions.any sets) := by
    simp [Bool.or_comm]
  simp only [Mention.amend_eq, ofMentions, Mention.last?_append_singleton, anyOf]
  cases mention.defaults? <;> rfl

end Descriptor

namespace Descriptors

variable (parameters : Parameters)

theorem keys_note (descriptors : Descriptors) (mention : Mention) :
    (note parameters descriptors mention).keys =
      if mention.path ∈ descriptors then descriptors.keys
      else descriptors.keys ++ [mention.path] := by
  unfold note
  split
  case isTrue present => exact Table.keys_insert_of_mem present _
  case isFalse absent => exact Table.keys_insert_of_notMem absent _

theorem get?_note (descriptors : Descriptors) (mention : Mention) (path : String) :
    (note parameters descriptors mention).get? path =
      if path = mention.path then
        some (mention.amend parameters ((descriptors.get? path).getD { path }))
      else descriptors.get? path := by
  rw [note, Table.get?_insert]
  split
  case isTrue same => rw [same]
  case isFalse => rfl

theorem keys_foldl_note (mentions : List Mention) :
    (mentions.foldl (note parameters) ∅).keys = (mentions.map (·.path)).eraseDups := by
  induction mentions using List.reverseRecOn with
  | nil => rfl
  | append_singleton mentions mention ih =>
      have memIff : mention.path ∈ mentions.foldl (note parameters) ∅ ↔
          mention.path ∈ mentions.map (·.path) := by
        rw [← Table.mem_keys, ih, List.mem_eraseDups]
      rw [List.foldl_append, List.foldl_cons, List.foldl_nil, keys_note, ih, List.map_append,
        List.map_cons, List.map_nil, eraseDups_append_singleton]
      simp only [memIff]

theorem get?_foldl_note (mentions : List Mention) (path : String) :
    (mentions.foldl (note parameters) ∅).get? path =
      if path ∈ mentions.map (·.path) then
        some (.ofMentions parameters path (mentions.filter (·.path = path)))
      else none := by
  induction mentions using List.reverseRecOn with
  | nil => rfl
  | append_singleton mentions mention ih =>
      have former : ((mentions.foldl (note parameters) ∅).get? path).getD { path } =
          .ofMentions parameters path (mentions.filter (·.path = path)) := by
        rw [ih]
        split
        case isTrue => rfl
        case isFalse unmentioned =>
          have noneAddressed : mentions.filter (·.path = path) = [] := by
            rw [List.filter_eq_nil_iff]
            intro other otherMem same
            exact unmentioned (List.mem_map.2 ⟨other, otherMem, of_decide_eq_true same⟩)
          rw [noneAddressed]
          rfl
      rw [List.foldl_append, List.foldl_cons, List.foldl_nil, get?_note, former,
        Descriptor.amend_ofMentions, List.filter_append, List.map_append]
      by_cases isPath : path = mention.path
      · simp [isPath]
      · simp [isPath, Ne.symm isPath, ih]

end Descriptors

namespace Parameters

/-- Collected descriptors come in the order in which their paths are first mentioned, and each is
given by the mentions of its path alone, the last writer of every field winning. -/
theorem collect_lastWriter (parameters : Parameters) (base : String) (pathsOnly : Option Bool)
    (descriptors : Descriptors) (collected : parameters.collect base pathsOnly = .ok descriptors) :
    ∃ mentions, (parameters.accepted pathsOnly).mapM (Mention.ofEntry base) = .ok mentions ∧
      descriptors.keys = (mentions.map (·.path)).eraseDups ∧
      ∀ path ∈ descriptors, descriptors.get? path =
        some (.ofMentions parameters path (mentions.filter (·.path = path))) := by
  rw [collect_eq] at collected
  cases understood : (parameters.accepted pathsOnly).mapM (Mention.ofEntry base) with
  | error fault =>
      rw [understood] at collected
      cases collected
  | ok mentions =>
      rw [understood] at collected
      cases collected
      refine ⟨mentions, rfl, Descriptors.keys_foldl_note parameters mentions, ?_⟩
      intro path present
      rw [← Table.mem_keys, Descriptors.keys_foldl_note, List.mem_eraseDups] at present
      rw [Descriptors.get?_foldl_note, if_pos present]

theorem collect_lastWriter_page :
    let parameters : Parameters := .ofList
      [("./title", .single "old"), ("./title@TypeHint", .several ["String", "Name"]),
        ("title", .single "unmarked"), ("./text/../title@ValueFrom", .single ":other"),
        ("./text@MoveFrom", .several []), (":other", .several ["new", "newer"])]
    ∃ descriptors, parameters.collect "/page" none = .ok descriptors ∧
      descriptors.keys = ["/page/title", "/page/text"] ∧
      descriptors.get? "/page/title" = some
        { path := "/page/title", values := some ["new", "newer"], typeHint := some "String" } := by
  intro parameters
  rcases collected : parameters.collect "/page" none with _ | descriptors
  · have returns : (parameters.collect "/page" none).toBool := by decide +kernel
    rw [collected] at returns
    cases returns
  · rcases collect_lastWriter parameters "/page" none descriptors collected with
      ⟨mentions, understood, keys, values⟩
    have mentioned : (parameters.accepted none).mapM (Mention.ofEntry "/page") =
        .ok [⟨"/page/title", none, ["old"]⟩,
          ⟨"/page/title", some .typeHint, ["String", "Name"]⟩,
          ⟨"/page/title", some .valueFrom, [":other"]⟩, ⟨"/page/text", some .moveFrom, []⟩] := by
      decide +kernel
    cases mentioned.symm.trans understood
    refine ⟨descriptors, rfl, keys, ?_⟩
    rw [values "/page/title" (by rw [← Table.mem_keys, keys]; decide)]
    decide +kernel

end Parameters

end ContentTree
