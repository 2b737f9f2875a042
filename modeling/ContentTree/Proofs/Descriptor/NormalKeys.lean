import ContentTree.Proofs.Descriptor.LastWriter
import ContentTree.Proofs.Path.Parent

/-!
# Normal keys

A relative name is resolved to a normal path, and then the suffix of a directive is taken away from
this path. What is left is normal again, unless the directive dangles: where nothing, or a segment
with a meaning of its own, stands before the suffix in the last segment, taking the suffix away
leaves a path that still ends in a separator, in `.` or in `..`. Such a key is another one than the
normal form of the same path, so that a parameter with a dangling directive misses the descriptor
it is about.

If all accepted names are relative, the keys of the collected descriptors are normal exactly if no
directive dangles (`Parameters.collect_keys_normal_iff`), and then all that is submitted for one
item meets in one descriptor. The name of a descriptor and the path of the node that owns the
property lead back to its key if this is normal (`Parameters.exists_owner_of_collect`).
-/

namespace ContentTree

namespace Directive

variable {directive : Directive} {above piece : String}

/-- The path ends in a directive that is left without a name to stand on. The root has no name, and
a directive about it does not need one. -/
def Dangles (path : String) : Prop :=
  ∃ (directive : Directive) (above piece : String),
    path = above ++ "/" ++ piece ++ directive.suffix ∧ ¬Path.IsName piece ∧
      ¬(above = "" ∧ piece = "")

theorem notMem_suffix (directive : Directive) : '/' ∉ directive.suffix.toList := by
  cases directive <;> decide

theorem notMem_append_suffix (clean : '/' ∉ piece.toList) (directive : Directive) :
    '/' ∉ (piece ++ directive.suffix).toList := by
  rw [String.toList_append, List.mem_append, not_or]
  exact ⟨clean, directive.notMem_suffix⟩

theorem isName_append_suffix (piece : String) (directive : Directive) :
    Path.IsName (piece ++ directive.suffix) := by
  have marked : '@' ∈ (piece ++ directive.suffix).toList := by
    rw [String.toList_append, List.mem_append]
    right
    cases directive <;> decide
  refine ⟨?_, ?_, ?_⟩
  · intro isEmpty
    simp [isEmpty] at marked
  · intro isDot
    simp [isDot] at marked
  · intro isUp
    simp [isUp] at marked

theorem dangles_append_suffix_iff (clean : '/' ∉ piece.toList) :
    Dangles (above ++ "/" ++ piece ++ directive.suffix) ↔
      ¬Path.IsName piece ∧ ¬(above = "" ∧ piece = "") := by
  constructor
  · rintro ⟨other, start, rest, sameText, notName, notRoot⟩
    have isOther : directive = other := by
      apply eq_of_marks (marks_append_suffix directive (above ++ "/" ++ piece))
      rw [sameText]
      exact marks_append_suffix other _
    subst isOther
    have restClean : '/' ∉ rest.toList := by
      intro divided
      refine notName ⟨?_, ?_, ?_⟩ <;> rintro rfl <;> simp at divided
    have sameBase : above ++ "/" ++ piece = start ++ "/" ++ rest := by
      rw [← strip_append_suffix directive (above ++ "/" ++ piece), sameText, strip_append_suffix]
    rcases Path.append_separator_inj clean restClean sameBase with ⟨rfl, rfl⟩
    exact ⟨notName, notRoot⟩
  · rintro ⟨notName, notRoot⟩
    exact ⟨directive, above, piece, rfl, notName, notRoot⟩

/-- A normal path stays normal when a directive is taken away, unless this directive dangles. -/
theorem normalize_strip_iff {path : String} (isNormal : Path.normalize path = .ok path)
    (marked : directive.marks path) :
    Path.normalize (directive.strip path) = .ok (directive.strip path) ↔ ¬Dangles path := by
  have absolute : Path.isAbsolute (directive.strip path) :=
    isAbsolute_strip (Path.isAbsolute_of_normalize isNormal)
  rcases marks_iff.1 marked with ⟨base, rfl⟩
  rw [strip_append_suffix] at absolute ⊢
  rcases Path.exists_last_of_isAbsolute absolute with ⟨above, piece, rfl, clean⟩
  rw [dangles_append_suffix_iff clean, Path.normalize_append_separator_iff clean]
  rw [String.append_assoc,
    Path.normalize_append_separator_iff (notMem_append_suffix clean directive)] at isNormal
  -- With the suffix the last piece is a name whatever it is, so the path being normal tells only
  -- about what is above it.
  have place : above = "" ∨ above ≠ Path.root ∧ Path.normalize above = .ok above := by
    rcases isNormal with ⟨-, isEmpty⟩ | ⟨-, place⟩
    · exact absurd isEmpty (isName_append_suffix piece directive).1
    · exact place
  simp only [place, and_true]
  tauto

end Directive

/-- The path that a name denotes ends in a dangling directive. -/
def Parameter.Dangles (base name : String) : Prop :=
  ∃ path, Parameter.path base name = .ok path ∧ Directive.Dangles path

namespace Mention

theorem normalize_path_ofPath_iff {path : String} (isNormal : Path.normalize path = .ok path)
    (submission : Submission) :
    Path.normalize (ofPath path submission).path = .ok (ofPath path submission).path ↔
      ¬Directive.Dangles path := by
  cases matched : Directive.match? path with
  | some directive =>
      simp only [ofPath, matched]
      exact Directive.normalize_strip_iff isNormal (Directive.marks_of_match? matched)
  | none =>
      simp only [ofPath, matched, isNormal, true_iff]
      rintro ⟨directive, above, piece, rfl, -, -⟩
      have marked := Directive.marks_append_suffix directive (above ++ "/" ++ piece)
      cases matched.symm.trans (Directive.match?_eq_some_iff.2 marked)

/-- A relative parameter mentions a normal path exactly if its directive does not dangle. -/
theorem normalize_path_iff {base : String} {entry : String × Submission} {mention : Mention}
    (relative : ¬Path.isAbsolute entry.1) (understood : ofEntry base entry = .ok mention) :
    Path.normalize mention.path = .ok mention.path ↔ ¬Parameter.Dangles base entry.1 := by
  rcases entry with ⟨name, submission⟩
  cases resolved : Parameter.path base name with
  | error fault =>
      simp only [ofEntry, resolved, bind, Except.bind] at understood
      cases understood
  | ok path =>
      have isNormal : Path.normalize path = .ok path := by
        rw [Parameter.path, if_neg relative] at resolved
        exact Path.normalize_normalize resolved
      simp only [ofEntry, resolved, bind, Except.bind] at understood
      cases understood
      rw [normalize_path_ofPath_iff isNormal]
      simp [Parameter.Dangles, resolved]

end Mention

namespace Parameters

/-- The collected descriptors are those of the paths that accepted parameters mention. -/
theorem mem_collect_iff {parameters : Parameters} {base path : String} {pathsOnly : Option Bool}
    {descriptors : Descriptors} (collected : parameters.collect base pathsOnly = .ok descriptors) :
    path ∈ descriptors ↔ ∃ entry ∈ parameters.accepted pathsOnly, ∃ mention,
      Mention.ofEntry base entry = .ok mention ∧ mention.path = path := by
  rcases collect_eq_ok_iff.1 collected with ⟨-, rfl⟩
  rw [← Table.mem_keys, Descriptors.keys_foldl_note, List.mem_eraseDups]
  simp only [List.mem_map, List.mem_filterMap, Mention.ofEntry?_eq_some_iff]
  constructor
  · rintro ⟨mention, ⟨entry, entryMem, isUnderstood⟩, isPath⟩
    exact ⟨entry, entryMem, mention, isUnderstood, isPath⟩
  · rintro ⟨entry, entryMem, mention, isUnderstood, isPath⟩
    exact ⟨mention, ⟨entry, entryMem, isUnderstood⟩, isPath⟩

section Collected

variable {parameters : Parameters} {base path : String} {pathsOnly : Option Bool}
  {descriptors : Descriptors} {descriptor : Descriptor}
  (collected : parameters.collect base pathsOnly = .ok descriptors)

include collected

theorem path_of_get?_collect (found : descriptors.get? path = some descriptor) :
    descriptor.path = path := by
  rcases collect_eq_ok_iff.1 collected with ⟨-, rfl⟩
  rw [Descriptors.get?_foldl_note] at found
  split at found
  · cases found
    rfl
  · cases found

/-- A descriptor under a normal key is about the property of its name at the node at its parent
path. -/
theorem exists_owner_of_collect (found : descriptors.get? path = some descriptor)
    (isNormal : Path.normalize path = .ok path) (notRoot : path ≠ Path.root) :
    ∃ owner, descriptor.parentPath? = some owner ∧ Path.normalize owner = .ok owner ∧
      Path.join owner descriptor.name = .ok path := by
  rw [Descriptor.parentPath?, Descriptor.name, path_of_get?_collect collected found]
  exact Path.exists_parent?_of_normal isNormal notRoot

end Collected

/-- The keys from relative names are normal exactly if no directive dangles. Parameters about the
same item, whose directives do not dangle, meet in one descriptor. -/
theorem collect_keys_normal_iff (parameters : Parameters) (base : String)
    (pathsOnly : Option Bool) (descriptors : Descriptors)
    (relative : ∀ entry ∈ parameters.accepted pathsOnly, ¬Path.isAbsolute entry.1)
    (collected : parameters.collect base pathsOnly = .ok descriptors) :
    ((∀ path ∈ descriptors, Path.normalize path = .ok path) ↔
      ∀ entry ∈ parameters.accepted pathsOnly, ¬Parameter.Dangles base entry.1) ∧
    ∀ first ∈ parameters.accepted pathsOnly, ∀ second ∈ parameters.accepted pathsOnly,
      ¬Parameter.Dangles base first.1 → ¬Parameter.Dangles base second.1 →
      ∀ mention other, Mention.ofEntry base first = .ok mention →
        Mention.ofEntry base second = .ok other →
        Path.normalize mention.path = Path.normalize other.path →
          mention.path = other.path ∧ mention.path ∈ descriptors := by
  refine ⟨⟨?_, ?_⟩, ?_⟩
  · intro allNormal entry entryMem
    rcases (collect_eq_ok_iff.1 collected).1 entry entryMem with ⟨mention, understood⟩
    rw [← Mention.normalize_path_iff (relative entry entryMem) understood]
    exact allNormal _ ((mem_collect_iff collected).2 ⟨entry, entryMem, mention, understood, rfl⟩)
  · intro noneDangles path present
    rcases (mem_collect_iff collected).1 present with ⟨entry, entryMem, mention, understood, rfl⟩
    exact (Mention.normalize_path_iff (relative entry entryMem) understood).2
      (noneDangles entry entryMem)
  · intro first firstMem second secondMem firstStands secondStands mention other understood
      otherUnderstood sameItem
    have isNormal := (Mention.normalize_path_iff (relative first firstMem) understood).2
      firstStands
    have otherNormal := (Mention.normalize_path_iff (relative second secondMem)
      otherUnderstood).2 secondStands
    rw [isNormal, otherNormal] at sameItem
    exact ⟨Except.ok.inj sameItem,
      (mem_collect_iff collected).2 ⟨first, firstMem, mention, understood, rfl⟩⟩

theorem collect_keys_normal_iff_page :
    let parameters : Parameters := .ofList
      [("./text/../title", .single "new"), ("./title@TypeHint/.", .single "Name")]
    ∃ descriptors, parameters.collect "/page" none = .ok descriptors ∧
      descriptors.keys = ["/page/title"] ∧
      ∀ entry ∈ parameters.accepted none, ¬Parameter.Dangles "/page" entry.1 := by
  intro parameters
  have relative : ∀ entry ∈ parameters.accepted none, ¬Path.isAbsolute entry.1 := by
    decide +kernel
  obtain ⟨descriptors, collected, keys⟩ : ∃ descriptors,
      parameters.collect "/page" none = .ok descriptors ∧ descriptors.keys = ["/page/title"] :=
    exists_collect_of_map_keys (by decide +kernel)
  refine ⟨descriptors, collected, keys, ?_⟩
  apply (collect_keys_normal_iff parameters "/page" none descriptors relative collected).1.1
  intro path present
  rw [← Table.mem_keys, keys, List.mem_singleton] at present
  subst present
  decide +kernel

/-- Not all keys from relative names are normal: a directive behind a separator is about another
path than the name in front of it. -/
theorem not_collect_keys_normal : ¬∀ (parameters : Parameters) (base : String)
    (pathsOnly : Option Bool) (descriptors : Descriptors),
    (∀ entry ∈ parameters.accepted pathsOnly, ¬Path.isAbsolute entry.1) →
    parameters.collect base pathsOnly = .ok descriptors →
    ∀ path ∈ descriptors, Path.normalize path = .ok path := by
  intro allNormal
  let parameters : Parameters := .ofList
    [("./title", .single "new"), ("./title/@TypeHint", .single "Name")]
  obtain ⟨descriptors, collected, keys⟩ : ∃ descriptors,
      parameters.collect "/page" none = .ok descriptors ∧
        descriptors.keys = ["/page/title", "/page/title/"] :=
    exists_collect_of_map_keys (by decide +kernel)
  have present : "/page/title/" ∈ descriptors := by
    rw [← Table.mem_keys, keys]
    decide
  have isNormal := allNormal parameters "/page" none descriptors (by decide +kernel) collected
    "/page/title/" present
  revert isNormal
  decide +kernel

end Parameters

end ContentTree
