import ContentTree.Path.Ascent
import ContentTree.Proofs.Path.NormalForm
import Mathlib.Data.List.Nodup
import Mathlib.Data.Nat.Find

/-!
# Ascents along normal paths

The parent of a normal path is the normal path of all its names but the last one. An ascent from a
normal path therefore takes place along its leading parts, with one name less in every round, and
ends after one round more than the path has names at the latest. It stops at the longest leading
part that is known, or at the root, and asks about every longer one on its way (`climb_stops`). As
it asks about none of them twice, it does not matter whether an answer could change meanwhile.
-/

namespace ContentTree

namespace Path

/-! ### Reading the end of a path -/

section LastName

variable {path base name : String}

theorem parent?_of_trimmedReverse (named : trimmedReverse path ≠ [])
    (isBase : ((trimmedReverse path).dropWhile (· ≠ '/')).tail = base.toList.reverse) :
    parent? path = some (if base = "" then root else base) := by
  unfold parent?
  cases trimmed : trimmedReverse path with
  | nil => exact absurd trimmed named
  | cons last before =>
      rw [trimmed] at isBase
      simp only [isBase]
      by_cases noBase : base = ""
      · simp [noBase]
      · have letters : base.toList.reverse ≠ [] := by simpa using noBase
        cases backwards : base.toList.reverse with
        | nil => exact absurd backwards letters
        | cons first others => simp [← backwards, noBase]

variable (nonempty : name ≠ "") (clean : '/' ∉ name.toList)

include clean in
theorem ne_separator_of_mem_reverse :
    ∀ char ∈ name.toList.reverse, decide (char ≠ '/') = true := by
  intro char charMem
  apply decide_eq_true
  rintro rfl
  exact clean (List.mem_reverse.1 charMem)

include nonempty clean

theorem dropWhile_reverse_append (rest : List Char) :
    (name.toList.reverse ++ rest).dropWhile (· = '/') = name.toList.reverse ++ rest := by
  have letters : name.toList.reverse ≠ [] := by simpa using nonempty
  cases backwards : name.toList.reverse with
  | nil => exact absurd backwards letters
  | cons last before =>
      have lastClean : last ≠ '/' := by
        simpa using ne_separator_of_mem_reverse clean last (by simp [backwards])
      simp [lastClean]

theorem trimmedReverse_append_separator :
    trimmedReverse (base ++ "/" ++ name) = name.toList.reverse ++ '/' :: base.toList.reverse := by
  simpa [trimmedReverse] using
    dropWhile_reverse_append nonempty clean ('/' :: base.toList.reverse)

theorem parent?_append_separator :
    parent? (base ++ "/" ++ name) = some (if base = "" then root else base) := by
  have trimmed : trimmedReverse (base ++ "/" ++ name) =
      name.toList.reverse ++ '/' :: base.toList.reverse :=
    trimmedReverse_append_separator nonempty clean
  apply parent?_of_trimmedReverse
  · simp [trimmed]
  · rw [trimmed, List.dropWhile_append_of_pos (ne_separator_of_mem_reverse clean)]
    simp

end LastName

theorem ofNames_ne_empty (names : List String) : ofNames names ≠ "" := by
  intro empty
  have chars := congrArg String.toList empty
  simp [ofNames, root] at chars

theorem ofNames_ne_root {names : List String} (proper : ∀ name ∈ names, IsSegment name)
    (nonempty : names ≠ []) : ofNames names ≠ root := by
  intro isRoot
  have sameText : ofNames names = ofNames [] := isRoot
  exact nonempty (ofNames_injective proper (by simp) sameText)

theorem parent?_ofNames {names : List String} {name : String} (nameProper : IsSegment name) :
    parent? (ofNames (names ++ [name])) = some (ofNames names) := by
  by_cases isFirst : names = []
  · subst names
    have above : parent? ("" ++ "/" ++ name) = some (if "" = "" then root else "") :=
      parent?_append_separator nameProper.1.1 nameProper.2
    rw [List.nil_append, ofNames_singleton]
    simpa [ofNames] using above
  · rw [ofNames_append_singleton isFirst, parent?_append_separator nameProper.1.1 nameProper.2,
      if_neg (ofNames_ne_empty names)]

/-! ### Rounds of an ascent -/

section Rounds

variable {known : String → Bool} {path : String}

theorem climb_root : climb known root = ⟨[], some root⟩ := by
  rw [climb, dif_pos rfl]

theorem climb_of_known (notRoot : path ≠ root) (isKnown : known path) :
    climb known path = ⟨[path], some path⟩ := by
  rw [climb, dif_neg notRoot, if_pos isKnown]

theorem climb_of_parent {above : String} (notRoot : path ≠ root) (unknown : ¬known path)
    (parent : parent? path = some above) :
    climb known path = ⟨path :: (climb known above).asked, (climb known above).reached⟩ := by
  rw [climb, dif_neg notRoot, if_neg unknown]
  split
  · rename_i noParent
    simp [parent] at noParent
  · rename_i next found
    obtain rfl : next = above := by simpa [found] using parent
    rfl

end Rounds

/-- The rounds of an ascent, by the paths at which they take place, and the path at which it stops.
It stops at the root or at a known path, and goes on from any other path to its parent, which has to
be there. -/
inductive Ascent (known : String → Bool) : String → List String → String → Prop
  | atRoot : Ascent known root [root] root
  | atKnown {path : String} (notRoot : path ≠ root) (isKnown : known path) :
      Ascent known path [path] path
  | up {path above start : String} {rounds : List String} (notRoot : path ≠ root)
      (unknown : ¬known path) (parent : parent? path = some above)
      (rest : Ascent known above rounds start) : Ascent known path (path :: rounds) start

namespace Ascent

variable {known : String → Bool} {path start other : String} {rounds others : List String}

theorem unique (ascent : Ascent known path rounds start)
    (again : Ascent known path others other) : others = rounds ∧ other = start := by
  induction ascent generalizing others other with
  | atRoot =>
      cases again with
      | atRoot => exact ⟨rfl, rfl⟩
      | atKnown notRoot => exact absurd rfl notRoot
      | up notRoot => exact absurd rfl notRoot
  | atKnown notRoot isKnown =>
      cases again with
      | atRoot => exact absurd rfl notRoot
      | atKnown => exact ⟨rfl, rfl⟩
      | up _ unknown => exact absurd isKnown unknown
  | up notRoot unknown parent _ ih =>
      cases again with
      | atRoot => exact absurd rfl notRoot
      | atKnown _ isKnown => exact absurd isKnown unknown
      | up _ _ otherParent rest =>
          cases parent.symm.trans otherParent
          rcases ih rest with ⟨rfl, rfl⟩
          exact ⟨rfl, rfl⟩

/-- In every round there is a question about its path, unless this is the root. -/
theorem climb_eq (ascent : Ascent known path rounds start) :
    climb known path = ⟨rounds.filter (· ≠ root), some start⟩ := by
  induction ascent with
  | atRoot => simp [climb_root]
  | atKnown notRoot isKnown => simp [climb_of_known notRoot isKnown, notRoot]
  | up notRoot unknown parent _ ih => simp [climb_of_parent notRoot unknown parent, ih, notRoot]

end Ascent

/-! ### Leading parts -/

/-- The leading part of a path with some number of its names. -/
def lead (path : String) (size : Nat) : String :=
  ofNames ((segments path).take size)

/-- The leading parts of a path, from one with some number of names down to a shorter one. -/
def leadsDown (path : String) (size kept : Nat) : List String :=
  (List.range (size + 1 - kept)).map fun round => lead path (size - round)

/-- The number of names that the longest known leading part of a path has; the root is known. -/
structure IsLongestKnown (known : String → Bool) (path : String) (kept : Nat) : Prop where
  within : kept ≤ (segments path).length
  isKnown : 0 < kept → known (lead path kept)
  longest : ∀ size, kept < size → size ≤ (segments path).length → ¬known (lead path size)

section Lead

variable {known : String → Bool} {path : String} {kept size : Nat}

theorem exists_isLongestKnown (known : String → Bool) (path : String) :
    ∃ kept, IsLongestKnown known path kept := by
  refine ⟨Nat.findGreatest (fun size => known (lead path size)) (segments path).length, ?_, ?_, ?_⟩
  · exact Nat.findGreatest_le _
  · intro positive
    exact Nat.findGreatest_of_ne_zero rfl (Nat.ne_of_gt positive)
  · intro size above within
    exact Nat.findGreatest_is_greatest above within

theorem lead_zero (path : String) : lead path 0 = root :=
  rfl

theorem leadsDown_self (path : String) (size : Nat) :
    leadsDown path size size = [lead path size] := by
  rw [leadsDown, Nat.add_sub_cancel_left]
  rfl

theorem leadsDown_succ (above : kept ≤ size) :
    leadsDown path (size + 1) kept = lead path (size + 1) :: leadsDown path size kept := by
  rw [leadsDown, Nat.sub_add_comm (Nat.le_succ_of_le above), List.range_succ_eq_map]
  simp [leadsDown]

theorem leadsDown_zero (path : String) (size : Nat) :
    leadsDown path size 0 = leadsDown path size 1 ++ [root] := by
  simp [leadsDown, List.range_succ, lead_zero]

variable (isNormal : normalize path = .ok path)

include isNormal

theorem lead_length : lead path (segments path).length = path := by
  rw [lead, List.take_length, ofNames_segments isNormal]

theorem isSegment_of_mem_take : ∀ name ∈ (segments path).take size, IsSegment name :=
  fun name nameMem => isSegment_of_mem_segments isNormal name (List.mem_of_mem_take nameMem)

theorem lead_injective {other : Nat} (within : size ≤ (segments path).length)
    (otherWithin : other ≤ (segments path).length) (same : lead path size = lead path other) :
    size = other := by
  have sameNames := ofNames_injective (isSegment_of_mem_take isNormal)
    (isSegment_of_mem_take isNormal) same
  have sizes := congrArg List.length sameNames
  rwa [List.length_take, List.length_take, Nat.min_eq_left within,
    Nat.min_eq_left otherWithin] at sizes

theorem lead_ne_root (positive : 0 < size) (within : size ≤ (segments path).length) :
    lead path size ≠ root := by
  intro isRoot
  exact Nat.ne_of_gt positive (lead_injective isNormal within (Nat.zero_le _) isRoot)

theorem parent?_lead (within : size < (segments path).length) :
    parent? (lead path (size + 1)) = some (lead path size) := by
  rw [lead, List.take_succ_eq_append_getElem within]
  exact parent?_ofNames (isSegment_of_mem_segments isNormal _ (List.getElem_mem within))

/-- An ascent from a leading part goes down to the longest known one, with one name less in every
round. -/
theorem ascent_lead (isLongest : IsLongestKnown known path kept) (above : kept ≤ size)
    (within : size ≤ (segments path).length) :
    Ascent known (lead path size) (leadsDown path size kept) (lead path kept) := by
  -- From the longest known part upwards, as every longer one has a first round before those below.
  induction above with
  | refl =>
      rw [leadsDown_self]
      rcases Nat.eq_zero_or_pos kept with rfl | positive
      · exact .atRoot
      · exact .atKnown (lead_ne_root isNormal positive within) (isLongest.isKnown positive)
  | @step size above ih =>
      rw [leadsDown_succ above]
      exact .up (lead_ne_root isNormal (Nat.succ_pos size) within)
        (isLongest.longest _ (Nat.lt_succ_of_le above) within) (parent?_lead isNormal within)
        (ih (Nat.le_of_succ_le within))

theorem ascent_of_isLongestKnown (isLongest : IsLongestKnown known path kept) :
    Ascent known path (leadsDown path (segments path).length kept) (lead path kept) := by
  have ascent := ascent_lead isNormal isLongest isLongest.within (Nat.le_refl _)
  rwa [lead_length isNormal] at ascent

theorem nodup_leadsDown (within : size ≤ (segments path).length) :
    (leadsDown path size kept).Nodup := by
  apply List.Nodup.map_on _ List.nodup_range
  intro round roundMem other otherMem same
  rw [List.mem_range] at roundMem otherMem
  have sameSize := lead_injective isNormal (Nat.le_trans (Nat.sub_le _ _) within)
    (Nat.le_trans (Nat.sub_le _ _) within) same
  omega

theorem filter_leadsDown (within : size ≤ (segments path).length) :
    (leadsDown path size kept).filter (· ≠ root) = leadsDown path size (max kept 1) := by
  have notRoot : ∀ {last : Nat}, 0 < last →
      (leadsDown path size last).filter (· ≠ root) = leadsDown path size last := by
    intro last positive
    rw [List.filter_eq_self]
    intro part partMem
    rcases List.mem_map.1 partMem with ⟨round, roundMem, rfl⟩
    rw [List.mem_range] at roundMem
    exact decide_eq_true (lead_ne_root isNormal (by omega) (by omega))
  rcases Nat.eq_zero_or_pos kept with rfl | positive
  · rw [leadsDown_zero, List.filter_append, notRoot Nat.one_pos]
    simp
  · rw [notRoot positive, Nat.max_eq_left positive]

end Lead

/-- An ascent from a normal path stops at the longest leading part that is known, or at the root. -/
theorem reached_climb_ofNames (known : String → Bool) {names : List String}
    (proper : ∀ name ∈ names, IsSegment name) :
    ∃ kept, kept ≤ names.length ∧
      (climb known (ofNames names)).reached = some (ofNames (names.take kept)) ∧
      (0 < kept → known (ofNames (names.take kept))) ∧
      ∀ longer, kept < longer → longer ≤ names.length → ¬known (ofNames (names.take longer)) := by
  rcases exists_isLongestKnown known (ofNames names) with ⟨kept, isLongest⟩
  have ascent := ascent_of_isLongestKnown (normalize_ofNames proper) isLongest
  rcases isLongest with ⟨within, isKnown, longest⟩
  simp only [lead, segments_ofNames proper] at within isKnown longest ascent
  refine ⟨kept, within, ?_, isKnown, longest⟩
  rw [ascent.climb_eq]

/-- The ascent from a normal path takes place along its leading parts, with one name less in every
round, down to the longest one that is known or else the root. It asks about each of them once,
except for the root. -/
theorem climb_stops (known : String → Bool) (path normal : String)
    (normalized : normalize path = .ok normal) :
    ∃ kept, IsLongestKnown known normal kept ∧
      (∀ rounds start, Ascent known normal rounds start ↔
        rounds = leadsDown normal (segments normal).length kept ∧ start = lead normal kept) ∧
      (leadsDown normal (segments normal).length kept).length ≤ (segments normal).length + 1 ∧
      (leadsDown normal (segments normal).length kept).Nodup ∧
      climb known normal =
        ⟨leadsDown normal (segments normal).length (max kept 1), some (lead normal kept)⟩ ∧
      ∀ size < (segments normal).length,
        parent? (lead normal (size + 1)) = some (lead normal size) := by
  have isNormal : normalize normal = .ok normal := normalize_normalize normalized
  rcases exists_isLongestKnown known normal with ⟨kept, isLongest⟩
  have ascent := ascent_of_isLongestKnown isNormal isLongest
  refine ⟨kept, isLongest, ?_, ?_, nodup_leadsDown isNormal (Nat.le_refl _), ?_, ?_⟩
  · intro rounds start
    constructor
    · exact ascent.unique
    · rintro ⟨rfl, rfl⟩
      exact ascent
  · simp [leadsDown]
  · rw [ascent.climb_eq, filter_leadsDown isNormal (Nat.le_refl _)]
  · intro size within
    exact parent?_lead isNormal within

theorem climb_stops_archive :
    let known : String → Bool := fun path => path = "/archive"
    normalize "/archive//2024/./may" = .ok "/archive/2024/may" ∧
      Ascent known "/archive/2024/may" ["/archive/2024/may", "/archive/2024", "/archive"]
        "/archive" ∧
      climb known "/archive/2024/may" =
        ⟨["/archive/2024/may", "/archive/2024", "/archive"], some "/archive"⟩ := by
  intro known
  have normalized : normalize "/archive//2024/./may" = .ok "/archive/2024/may" := by
    decide +kernel
  have threeNames : (segments "/archive/2024/may").length = 3 := by decide +kernel
  rcases climb_stops known _ _ normalized with ⟨kept, isLongest, ascents, -, -, climbed, -⟩
  rw [threeNames] at ascents climbed
  have isOne : kept = 1 := by
    have firstKnown : known (lead "/archive/2024/may" 1) := by decide +kernel
    have othersUnknown : ∀ size < 4, 1 < size → ¬known (lead "/archive/2024/may" size) := by
      decide +kernel
    have within := isLongest.within
    by_contra differs
    rcases Nat.lt_or_gt_of_ne differs with shorter | longer
    · exact isLongest.longest 1 shorter (by omega) firstKnown
    · exact othersUnknown kept (by omega) longer (isLongest.isKnown (by omega))
  subst isOne
  have rounds : leadsDown "/archive/2024/may" 3 1 =
      ["/archive/2024/may", "/archive/2024", "/archive"] := by decide +kernel
  have start : lead "/archive/2024/may" 1 = "/archive" := by decide +kernel
  rw [Nat.max_self, rounds, start] at climbed
  rw [rounds, start] at ascents
  exact ⟨normalized, (ascents _ _).2 ⟨rfl, rfl⟩, climbed⟩

end Path

end ContentTree
