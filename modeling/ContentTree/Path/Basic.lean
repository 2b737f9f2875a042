import ContentTree.Fault

/-!
# Paths and their normal form

A path is a text whose names are divided by `/`; it is absolute when it begins with the separator,
and the root is `/` alone. Resolving a path walks through its segments from left to right and keeps
the names that lead from the root to the place reached so far, the last one first: a segment that is
empty or `.` stays there, `..` goes back up and fails at the root, and any other segment is a name
and goes down.

The normal form of an absolute path is the separator followed by the names that are left when the
walk is over, joined by the separator.
-/

namespace ContentTree

namespace Path

def root : String := "/"

def isAbsolute (path : String) : Bool :=
  path.toList.head? = some '/'

/-- Insist on a path that is given and absolute. -/
def required (path : Option String) (flaw : PathFlaw) : Except Fault String :=
  match path with
  | some text => if isAbsolute text then .ok text else .error (.invalidPath (some text) flaw)
  | none => .error (.invalidPath none flaw)

/-- The segments between the separators of a path, empty ones included. -/
def split (path : String) : List String :=
  (path.toList.splitOn '/').map String.ofList

/-- The segments of a path that are not empty. -/
def segments (path : String) : List String :=
  (split path).filter (· ≠ "")

/-- A segment that is a name: neither empty nor one of the two with a meaning of their own. -/
def IsName (segment : String) : Prop :=
  segment ≠ "" ∧ segment ≠ "." ∧ segment ≠ ".."
  deriving Decidable

/-- One step of the walk, from the place whose names are given with the last one first. -/
def descend (place : List String) (segment : String) : Option (List String) :=
  if segment = "" ∨ segment = "." then some place
  else if segment = ".." then
    match place with
    | [] => none
    | _ :: above => some above
  else some (segment :: place)

/-- The names that lead from the root to where a path ends, the last one first. -/
def resolve (path : String) : Option (List String) :=
  (split path).foldlM descend []

/-- The path that leads from the root through the names of a list. -/
def ofNames (names : List String) : String :=
  root ++ "/".intercalate names

def normalize (path : String) : Except Fault String := do
  let path ← required (some path) .notAbsolute
  match resolve path with
  | some place => .ok (ofNames place.reverse)
  | none => .error (.invalidPath (some path) .aboveRoot)

/-- Resolve a name, or any relative path, against a base path. -/
def join (base name : String) : Except Fault String :=
  normalize (base ++ "/" ++ name)

theorem split_append_separator (base name : String) :
    split (base ++ "/" ++ name) = split base ++ split name := by
  have separator : (base ++ "/" ++ name).toList = base.toList ++ '/' :: name.toList := by
    simp
  rw [split, separator, List.splitOn_append_cons_self, List.map_append]
  rfl

theorem segments_append_separator (base name : String) :
    segments (base ++ "/" ++ name) = segments base ++ segments name := by
  simp only [segments, split_append_separator, List.filter_append]

theorem descend_of_stays {segment : String} (stays : segment = "" ∨ segment = ".")
    (place : List String) : descend place segment = some place :=
  if_pos stays

@[simp]
theorem descend_empty (place : List String) : descend place "" = some place :=
  descend_of_stays (.inl rfl) place

@[simp]
theorem descend_dot (place : List String) : descend place "." = some place :=
  descend_of_stays (.inr rfl) place

@[simp]
theorem descend_up_root : descend [] ".." = none := by
  decide

@[simp]
theorem descend_up (name : String) (above : List String) :
    descend (name :: above) ".." = some above := by
  simp [descend]

theorem descend_name {segment : String} (isName : IsName segment) (place : List String) :
    descend place segment = some (segment :: place) := by
  simp [descend, isName.1, isName.2.1, isName.2.2]

theorem stays_or_up_or_isName (segment : String) :
    (segment = "" ∨ segment = ".") ∨ segment = ".." ∨ IsName segment := by
  by_cases stays : segment = "" ∨ segment = "."
  · exact .inl stays
  · by_cases up : segment = ".."
    · exact .inr (.inl up)
    · exact .inr (.inr ⟨mt .inl stays, mt .inr stays, up⟩)

/-- All that one step of the walk can do. -/
theorem descend_cases {place next : List String} {segment : String}
    (step : descend place segment = some next) :
    (segment = "" ∨ segment = ".") ∧ next = place ∨
      (segment = ".." ∧ ∃ name, place = name :: next) ∨
        IsName segment ∧ next = segment :: place := by
  rcases stays_or_up_or_isName segment with stays | rfl | isName
  · rw [descend_of_stays stays, Option.some.injEq] at step
    exact .inl ⟨stays, step.symm⟩
  · cases place with
    | nil => simp at step
    | cons name above =>
      rw [descend_up, Option.some.injEq] at step
      exact .inr (.inl ⟨rfl, name, by rw [step]⟩)
  · rw [descend_name isName, Option.some.injEq] at step
    exact .inr (.inr ⟨isName, step.symm⟩)

@[simp]
theorem required_none (flaw : PathFlaw) :
    required none flaw = .error (.invalidPath none flaw) :=
  rfl

theorem required_of_isAbsolute {path : String} (absolute : isAbsolute path) (flaw : PathFlaw) :
    required (some path) flaw = .ok path := by
  simp [required, absolute]

theorem required_of_not_isAbsolute {path : String} (relative : ¬isAbsolute path)
    (flaw : PathFlaw) : required (some path) flaw = .error (.invalidPath (some path) flaw) := by
  simp [required, relative]

theorem eq_some_of_required {path : Option String} {flaw : PathFlaw} {text : String}
    (isRequired : required path flaw = .ok text) : path = some text := by
  cases path with
  | none => simp at isRequired
  | some given =>
    by_cases absolute : isAbsolute given
    · rw [required_of_isAbsolute absolute, Except.ok.injEq] at isRequired
      rw [isRequired]
    · simp [required_of_not_isAbsolute absolute] at isRequired

theorem isAbsolute_append {start rest : String} :
    isAbsolute (start ++ rest) ↔ isAbsolute start ∨ start = "" ∧ isAbsolute rest := by
  cases letters : start.toList with
  | nil =>
    have isEmpty : start = "" := String.toList_eq_nil_iff.1 letters
    simp [isEmpty, isAbsolute]
  | cons first others =>
    have notEmpty : start ≠ "" := by
      rintro rfl
      simp at letters
    simp [isAbsolute, letters, notEmpty]

@[simp]
theorem isAbsolute_ofNames (names : List String) : isAbsolute (ofNames names) := by
  simp [isAbsolute, ofNames, root]

theorem normalize_of_resolve {path : String} {place : List String} (absolute : isAbsolute path)
    (resolved : resolve path = some place) : normalize path = .ok (ofNames place.reverse) := by
  simp [normalize, required_of_isAbsolute absolute, resolved, bind, Except.bind]

theorem isAbsolute_of_normalize {path normal : String} (normalized : normalize path = .ok normal) :
    isAbsolute normal := by
  unfold normalize at normalized
  by_cases absolute : isAbsolute path
  · rw [required_of_isAbsolute absolute] at normalized
    cases resolved : resolve path with
    | none => simp [resolved, bind, Except.bind] at normalized
    | some place =>
      simp only [resolved, bind, Except.bind, Except.ok.injEq] at normalized
      exact normalized ▸ isAbsolute_ofNames _
  · simp [required_of_not_isAbsolute absolute, bind, Except.bind] at normalized

end Path

end ContentTree
