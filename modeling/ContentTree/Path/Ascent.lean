import ContentTree.Path.Basic

/-!
# Going up from a path

The name at the end of a path and the path of its parent are read off the text from its end:
separators at the end do not count, the name reaches back to the last separator before them, and
the parent is what stands in front of that separator. Only the root and texts without any name have
no parent.

`climb` goes up from a path, parent by parent, until it meets a path that is known, or the root,
which always is. It reports the paths that it asked about on its way. It ends because a parent is
the root or a shorter text (`eq_root_or_length_lt_of_parent?`).
-/

namespace ContentTree

namespace Path

/-- The characters of a path from its last one to its first, without separators at its end. -/
def trimmedReverse (path : String) : List Char :=
  path.toList.reverse.dropWhile (· = '/')

/-- The last name of a path; the root has the empty name. -/
def name (path : String) : String :=
  String.ofList ((trimmedReverse path).takeWhile (· ≠ '/')).reverse

/-- The path one level up, which the root and texts without a name do not have. -/
def parent? (path : String) : Option String :=
  match trimmedReverse path with
  | [] => none
  | last :: before =>
    match ((last :: before).dropWhile (· ≠ '/')).tail with
    | [] => some root
    | above => some (String.ofList above.reverse)

theorem length_trimmedReverse_le (path : String) : (trimmedReverse path).length ≤ path.length := by
  have shorter := (List.dropWhile_sublist (· = '/') (l := path.toList.reverse)).length_le
  simpa only [trimmedReverse, List.length_reverse, String.length_toList] using shorter

theorem eq_root_or_length_lt_of_parent? {path above : String} (parent : parent? path = some above) :
    above = root ∨ above.length < path.length := by
  have bound := length_trimmedReverse_le path
  unfold parent? at parent
  cases trimmed : trimmedReverse path with
  | nil => simp [trimmed] at parent
  | cons last before =>
    simp only [trimmed] at parent bound
    have shorter := (List.dropWhile_sublist (· ≠ '/') (l := last :: before)).length_le
    cases rest : ((last :: before).dropWhile (· ≠ '/')).tail with
    | nil =>
      left
      simp only [rest, Option.some.injEq] at parent
      exact parent.symm
    | cons next others =>
      right
      simp only [rest, Option.some.injEq] at parent
      have lengths := congrArg List.length rest
      simp only [List.length_tail, List.length_cons] at lengths shorter bound
      simp only [← parent, String.length_ofList, List.length_reverse, List.length_cons]
      omega

/-- What an ascent asked about, from below to above, and the known path at which it stopped. -/
structure Climb where
  asked : List String
  reached : Option String
  deriving DecidableEq, Repr

/-- How far an ascent from a path can still go. -/
def height (path : String) : Nat :=
  if path = root then 0 else path.length

theorem height_lt_of_parent? {path above : String} (notRoot : path ≠ root)
    (parent : parent? path = some above) : height above < height path := by
  have positive : 0 < path.length := by
    refine Nat.pos_of_ne_zero fun empty => ?_
    have noChars : path.toList = [] := by simpa [← String.length_toList] using empty
    simp [parent?, trimmedReverse, noChars] at parent
  have heightBelow : height path = path.length := if_neg notRoot
  rcases eq_root_or_length_lt_of_parent? parent with isRoot | shorter
  · have heightAbove : height above = 0 := if_pos isRoot
    omega
  · have heightAbove : height above ≤ above.length := by
      unfold height
      split <;> omega
    omega

/-- Go up from a path until a known one is met. -/
def climb (known : String → Bool) (path : String) : Climb :=
  if _ : path = root then ⟨[], some root⟩
  else if known path then ⟨[path], some path⟩
  else
    match _ : parent? path with
    | none => ⟨[path], none⟩
    | some above =>
      let rest := climb known above
      ⟨path :: rest.asked, rest.reached⟩
termination_by height path
decreasing_by exact height_lt_of_parent? ‹_› ‹_›

end Path

end ContentTree
