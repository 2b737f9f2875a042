import ContentTree.Path.Basic
import Mathlib.Data.List.Induction

/-!
# Normal paths

A segment is a name that contains no separator: what can stand between the separators of a path and
leads down by one level. The normal form of a path is `ofNames` of a list of segments
(`exists_segments_of_normalize`), and from such a text everything can be read back: its segments,
the place it resolves to, and hence its own normal form.

An absolute path has no normal form exactly if the walk along it leaves the tree at the top, that
is, if some beginning of it goes up more often than it goes down (`resolve_eq_none_iff`).
-/

namespace ContentTree

namespace Path

/-- A name that paths can lead through. -/
def IsSegment (name : String) : Prop :=
  IsName name ∧ '/' ∉ name.toList
  deriving Decidable

/-- Some beginning of a path goes up more often than it goes down. -/
def ClimbsAboveRoot (path : String) : Prop :=
  ∃ lead, lead <+: split path ∧ lead.countP (IsName ·) < lead.count ".."

/-- A target that leads nowhere, and the fault for which it is refused. -/
inductive Malformed : Option String → Fault → Prop
  | absent : Malformed none (.invalidPath none .targetNotAbsolute)
  | notAbsolute {path : String} (relative : ¬isAbsolute path) :
      Malformed (some path) (.invalidPath (some path) .targetNotAbsolute)
  | aboveRoot {path : String} (absolute : isAbsolute path) (climbs : ClimbsAboveRoot path) :
      Malformed (some path) (.invalidPath (some path) .aboveRoot)

theorem notMem_of_mem_splitOn {separator : Char} {text piece : List Char}
    (member : piece ∈ text.splitOn separator) : separator ∉ piece := by
  induction text generalizing piece with
  | nil =>
      simp only [List.splitOn_nil, List.mem_singleton] at member
      subst piece
      exact List.not_mem_nil
  | cons first rest ih =>
      rw [List.splitOn_cons_eq_if_modifyHead] at member
      by_cases hit : first = separator
      · simp only [hit, beq_self_eq_true, ↓reduceIte, List.mem_cons] at member
        rcases member with rfl | later
        · exact List.not_mem_nil
        · exact ih later
      · simp only [beq_iff_eq, hit, ↓reduceIte] at member
        cases pieces : rest.splitOn separator with
        | nil => exact absurd pieces (List.splitOn_ne_nil separator rest)
        | cons head others =>
            simp only [pieces, List.modifyHead_cons, List.mem_cons] at member
            rcases member with rfl | later
            · have headClean : separator ∉ head := ih (by simp [pieces])
              simp only [List.mem_cons, not_or]
              exact ⟨Ne.symm hit, headClean⟩
            · exact ih (by simp [pieces, later])

theorem notMem_of_mem_split {path segment : String} (member : segment ∈ split path) :
    '/' ∉ segment.toList := by
  simp only [split, List.mem_map] at member
  rcases member with ⟨piece, pieceMem, rfl⟩
  rw [String.toList_ofList]
  exact notMem_of_mem_splitOn pieceMem

theorem split_of_notMem {name : String} (clean : '/' ∉ name.toList) : split name = [name] := by
  simp [split, List.splitOn_eq_singleton clean]

theorem intercalate_split (path : String) : "/".intercalate (split path) = path := by
  rw [← String.toList_inj]
  simp [split, String.toList_intercalate, List.map_map, Function.comp_def,
    List.intercalate_splitOn]

/-! ### The text of a list of names -/

theorem ofNames_singleton (name : String) : ofNames [name] = "/" ++ name := by
  simp [ofNames, root]

theorem ofNames_append_singleton {names : List String} (nonempty : names ≠ []) (name : String) :
    ofNames (names ++ [name]) = ofNames names ++ "/" ++ name := by
  simp only [ofNames, String.intercalate_append_of_ne_nil nonempty (List.cons_ne_nil name []),
    String.intercalate_singleton, String.append_assoc]

theorem split_ofNames {names : List String} (nonempty : names ≠ [])
    (proper : ∀ name ∈ names, IsSegment name) : split (ofNames names) = "" :: names := by
  induction names using List.reverseRecOn with
  | nil => exact absurd rfl nonempty
  | append_singleton names name ih =>
      have lastClean := split_of_notMem (proper name (by simp)).2
      by_cases isFirst : names = []
      · subst names
        have splitText : split ("" ++ "/" ++ name) = [""] ++ [name] := by
          rw [split_append_separator, split_of_notMem (by simp), lastClean]
        rw [List.nil_append, ofNames_singleton]
        simpa using splitText
      · have before : split (ofNames names) = "" :: names :=
          ih isFirst fun other otherMem => proper other (by simp [otherMem])
        rw [ofNames_append_singleton isFirst, split_append_separator, before, lastClean,
          List.cons_append]

theorem segments_ofNames {names : List String} (proper : ∀ name ∈ names, IsSegment name) :
    segments (ofNames names) = names := by
  by_cases isRoot : names = []
  · subst names
    decide
  · rw [segments, split_ofNames isRoot proper]
    have allKept : names.filter (· ≠ "") = names := by
      apply List.filter_eq_self.2
      intro name nameMem
      simpa using (proper name nameMem).1.1
    simpa using allKept

theorem ofNames_injective {names others : List String}
    (proper : ∀ name ∈ names, IsSegment name) (othersProper : ∀ name ∈ others, IsSegment name)
    (sameText : ofNames names = ofNames others) : names = others := by
  rw [← segments_ofNames proper, sameText, segments_ofNames othersProper]

/-! ### The walk along a path -/

theorem foldlM_descend_names {names : List String} (proper : ∀ name ∈ names, IsName name)
    (place : List String) : names.foldlM descend place = some (names.reverse ++ place) := by
  induction names generalizing place with
  | nil => rfl
  | cons name rest ih =>
      have restProper : ∀ other ∈ rest, IsName other :=
        fun other otherMem => proper other (by simp [otherMem])
      rw [List.foldlM_cons, descend_name (proper name (by simp)), Option.bind_eq_bind,
        Option.bind_some, ih restProper]
      simp

theorem resolve_ofNames {names : List String} (proper : ∀ name ∈ names, IsSegment name) :
    resolve (ofNames names) = some names.reverse := by
  by_cases isRoot : names = []
  · subst names
    decide
  · rw [resolve, split_ofNames isRoot proper, List.foldlM_cons, descend_empty]
    have walked := foldlM_descend_names (fun name nameMem => (proper name nameMem).1) []
    simpa using walked

theorem isSegment_of_mem_foldlM_descend {walked place reached : List String}
    (clean : ∀ segment ∈ walked, '/' ∉ segment.toList)
    (placeProper : ∀ name ∈ place, IsSegment name)
    (resolved : walked.foldlM descend place = some reached) :
    ∀ name ∈ reached, IsSegment name := by
  induction walked generalizing place with
  | nil =>
      simp only [List.foldlM_nil, Option.pure_def, Option.some.injEq] at resolved
      exact resolved ▸ placeProper
  | cons segment rest ih =>
      have restClean : ∀ other ∈ rest, '/' ∉ other.toList :=
        fun other otherMem => clean other (by simp [otherMem])
      rw [List.foldlM_cons, Option.bind_eq_bind, Option.bind_eq_some_iff] at resolved
      rcases resolved with ⟨next, step, restResolved⟩
      apply ih restClean _ restResolved
      rcases descend_cases step with ⟨-, rfl⟩ | ⟨-, name, rfl⟩ | ⟨isName, rfl⟩
      · exact placeProper
      · exact fun other otherMem => placeProper other (List.mem_cons_of_mem name otherMem)
      · exact List.forall_mem_cons.2 ⟨⟨isName, clean segment List.mem_cons_self⟩, placeProper⟩

theorem isSegment_of_resolve {path : String} {place : List String}
    (resolved : resolve path = some place) : ∀ name ∈ place, IsSegment name :=
  isSegment_of_mem_foldlM_descend (fun _ => notMem_of_mem_split) (by simp) resolved

/-- From a place so many levels below the root, some beginning of a walk goes up too often. -/
def ClimbsFrom (depth : Nat) (walked : List String) : Prop :=
  ∃ lead, lead <+: walked ∧ depth + lead.countP (IsName ·) < lead.count ".."

section ClimbsFrom

variable {depth : Nat} {segment : String} {walked : List String}

theorem not_climbsFrom_nil : ¬ClimbsFrom depth [] := by
  rintro ⟨lead, isLead, climbs⟩
  simp [List.prefix_nil.1 isLead] at climbs

theorem climbsFrom_cons_iff : ClimbsFrom depth (segment :: walked) ↔
    ∃ lead, lead <+: walked ∧
      depth + (segment :: lead).countP (IsName ·) < (segment :: lead).count ".." := by
  constructor
  · rintro ⟨lead, isLead, climbs⟩
    rcases List.prefix_cons_iff.1 isLead with rfl | ⟨later, rfl, isLater⟩
    · simp at climbs
    · exact ⟨later, isLater, climbs⟩
  · rintro ⟨lead, isLead, climbs⟩
    exact ⟨segment :: lead, List.prefix_cons_iff.2 (.inr ⟨lead, rfl, isLead⟩), climbs⟩

theorem climbsFrom_of_stays (stays : segment = "" ∨ segment = ".") :
    ClimbsFrom depth (segment :: walked) ↔ ClimbsFrom depth walked := by
  have notName : ¬IsName segment := fun isName => stays.elim isName.1 isName.2.1
  have notUp : segment ≠ ".." := by
    rintro rfl
    simp at stays
  rw [climbsFrom_cons_iff]
  simp [ClimbsFrom, notName, notUp]

theorem climbsFrom_up_root : ClimbsFrom 0 (".." :: walked) :=
  climbsFrom_cons_iff.2 ⟨[], List.nil_prefix, by decide⟩

theorem climbsFrom_up : ClimbsFrom (depth + 1) (".." :: walked) ↔ ClimbsFrom depth walked := by
  have notName : ¬IsName ".." := fun isName => isName.2.2 rfl
  rw [climbsFrom_cons_iff]
  simp [ClimbsFrom, notName, Nat.add_right_comm depth 1]

theorem climbsFrom_name (isName : IsName segment) :
    ClimbsFrom depth (segment :: walked) ↔ ClimbsFrom (depth + 1) walked := by
  have notUp : segment ≠ ".." := isName.2.2
  rw [climbsFrom_cons_iff]
  simp [ClimbsFrom, isName, notUp, Nat.add_assoc, Nat.add_comm 1]

end ClimbsFrom

theorem foldlM_descend_eq_none_iff (walked place : List String) :
    walked.foldlM descend place = none ↔ ClimbsFrom place.length walked := by
  induction walked generalizing place with
  | nil => simp [not_climbsFrom_nil]
  | cons segment rest ih =>
      rw [List.foldlM_cons]
      rcases stays_or_up_or_isName segment with stays | rfl | isName
      · simpa [descend_of_stays stays, climbsFrom_of_stays stays] using ih place
      · cases place with
        | nil => simp [climbsFrom_up_root]
        | cons name above => simpa [climbsFrom_up] using ih above
      · simpa [descend_name isName, climbsFrom_name isName] using ih (segment :: place)

/-- The walk along a path fails exactly if some beginning of it goes up too often. -/
theorem resolve_eq_none_iff {path : String} : resolve path = none ↔ ClimbsAboveRoot path := by
  simp [resolve, foldlM_descend_eq_none_iff, ClimbsFrom, ClimbsAboveRoot]

/-! ### Normalizing and joining -/

theorem normalize_ofNames {names : List String} (proper : ∀ name ∈ names, IsSegment name) :
    normalize (ofNames names) = .ok (ofNames names) := by
  rw [normalize_of_resolve (isAbsolute_ofNames names) (resolve_ofNames proper),
    List.reverse_reverse]

theorem normalize_of_climbsAboveRoot {path : String} (absolute : isAbsolute path)
    (climbs : ClimbsAboveRoot path) :
    normalize path = .error (.invalidPath (some path) .aboveRoot) := by
  have unresolved := resolve_eq_none_iff.2 climbs
  simp [normalize, required_of_isAbsolute absolute, unresolved, bind, Except.bind]

theorem isAbsolute_of_normalize_eq_ok {path normal : String}
    (normalized : normalize path = .ok normal) : isAbsolute path := by
  unfold normalize at normalized
  by_cases absolute : isAbsolute path
  · exact absolute
  · simp [required_of_not_isAbsolute absolute, bind, Except.bind] at normalized

theorem normalize_eq_ok_iff {path normal : String} : normalize path = .ok normal ↔
    isAbsolute path ∧ ∃ place, resolve path = some place ∧ normal = ofNames place.reverse := by
  constructor
  · intro normalized
    have absolute := isAbsolute_of_normalize_eq_ok normalized
    cases resolved : resolve path with
    | none =>
        rw [normalize_of_climbsAboveRoot absolute (resolve_eq_none_iff.1 resolved)] at normalized
        cases normalized
    | some place =>
        rw [normalize_of_resolve absolute resolved] at normalized
        exact ⟨absolute, place, rfl, (Except.ok.inj normalized).symm⟩
  · rintro ⟨absolute, place, resolved, rfl⟩
    exact normalize_of_resolve absolute resolved

theorem exists_segments_of_normalize {path normal : String}
    (normalized : normalize path = .ok normal) :
    ∃ names, (∀ name ∈ names, IsSegment name) ∧ normal = ofNames names := by
  rcases normalize_eq_ok_iff.1 normalized with ⟨-, place, resolved, rfl⟩
  refine ⟨place.reverse, ?_, rfl⟩
  intro name nameMem
  exact isSegment_of_resolve resolved name (List.mem_reverse.1 nameMem)

/-- The normal form of a path leads to the same place. -/
theorem resolve_of_normalize {path normal : String} (normalized : normalize path = .ok normal) :
    resolve normal = resolve path := by
  rcases normalize_eq_ok_iff.1 normalized with ⟨-, place, resolved, rfl⟩
  have proper : ∀ name ∈ place.reverse, IsSegment name :=
    fun name nameMem => isSegment_of_resolve resolved name (List.mem_reverse.1 nameMem)
  rw [resolve_ofNames proper, List.reverse_reverse, resolved]

theorem normalize_normalize {path normal : String} (normalized : normalize path = .ok normal) :
    normalize normal = .ok normal := by
  rcases exists_segments_of_normalize normalized with ⟨names, proper, rfl⟩
  exact normalize_ofNames proper

theorem isSegment_of_mem_segments {path : String} (isNormal : normalize path = .ok path) :
    ∀ name ∈ segments path, IsSegment name := by
  rcases exists_segments_of_normalize isNormal with ⟨names, proper, rfl⟩
  rwa [segments_ofNames proper]

theorem ofNames_segments {path : String} (isNormal : normalize path = .ok path) :
    ofNames (segments path) = path := by
  rcases exists_segments_of_normalize isNormal with ⟨names, proper, rfl⟩
  rw [segments_ofNames proper]

theorem Malformed.normalize_ne_ok {path normal : String} {fault : Fault}
    (malformed : Malformed (some path) fault) : normalize path ≠ .ok normal := by
  intro normalized
  cases malformed with
  | notAbsolute relative => exact relative (isAbsolute_of_normalize_eq_ok normalized)
  | aboveRoot absolute climbs =>
      rw [normalize_of_climbsAboveRoot absolute climbs] at normalized
      cases normalized

theorem Malformed.unique {path : Option String} {fault other : Fault}
    (malformed : Malformed path fault) (again : Malformed path other) : fault = other := by
  cases malformed with
  | absent => cases again; rfl
  | notAbsolute relative =>
      cases again with
      | notAbsolute => rfl
      | aboveRoot absolute => exact absurd absolute relative
  | aboveRoot absolute =>
      cases again with
      | notAbsolute relative => exact absurd absolute relative
      | aboveRoot => rfl

theorem malformed_or_normal (path : Option String) :
    (∃ fault, Malformed path fault) ∨
      ∃ text normal, path = some text ∧ normalize text = .ok normal := by
  cases path with
  | none => exact .inl ⟨_, .absent⟩
  | some text =>
      by_cases absolute : isAbsolute text
      · cases resolved : resolve text with
        | none => exact .inl ⟨_, .aboveRoot absolute (resolve_eq_none_iff.1 resolved)⟩
        | some place => exact .inr ⟨text, _, rfl, normalize_of_resolve absolute resolved⟩
      · exact .inl ⟨_, .notAbsolute absolute⟩

theorem isAbsolute_append_separator {base name : String} :
    isAbsolute (base ++ "/" ++ name) ↔ base = "" ∨ isAbsolute base := by
  have separator : isAbsolute "/" := by decide
  have notEmpty : base ++ "/" ≠ "" := by simp
  simp only [isAbsolute_append, separator, notEmpty, and_true, false_and, or_false]
  exact or_comm

/-- Joining walks on from the place to which the base path leads. -/
theorem join_eq_ok_iff {base name path : String} : join base name = .ok path ↔
    (base = "" ∨ isAbsolute base) ∧ ∃ above place, resolve base = some above ∧
      (split name).foldlM descend above = some place ∧ path = ofNames place.reverse := by
  rw [join, normalize_eq_ok_iff, isAbsolute_append_separator]
  simp only [resolve, split_append_separator, List.foldlM_append, Option.bind_eq_bind,
    Option.bind_eq_some_iff]
  constructor
  · rintro ⟨absolute, place, ⟨above, leads, walked⟩, isPath⟩
    exact ⟨absolute, above, place, leads, walked, isPath⟩
  · rintro ⟨absolute, above, place, leads, walked, isPath⟩
    exact ⟨absolute, place, ⟨above, leads, walked⟩, isPath⟩

theorem join_ofNames {names : List String} {name : String}
    (proper : ∀ other ∈ names, IsSegment other) (nameProper : IsSegment name) :
    join (ofNames names) name = .ok (ofNames (names ++ [name])) := by
  have walked : (split name).foldlM descend names.reverse = some (name :: names.reverse) := by
    rw [split_of_notMem nameProper.2]
    simp [descend_name nameProper.1]
  apply join_eq_ok_iff.2
  exact ⟨.inr (isAbsolute_ofNames names), names.reverse, name :: names.reverse,
    resolve_ofNames proper, walked, by simp⟩

end Path

end ContentTree
