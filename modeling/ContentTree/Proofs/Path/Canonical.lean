import ContentTree.Proofs.Path.LastSegment
import Mathlib.Logic.Relation

/-!
# The canonical form of a path

A path can be shortened without leading elsewhere: a segment that stays in place can be left out,
and so can a name together with a `..` right behind it (`Shortens`). If a path is shortened until
only names are left, every `..` has cancelled the nearest name before it that was still there. The
names that remain are always the same ones, whatever is left out first (`Remain.unique`), and the
normal form of an absolute path is the separator followed by these names
(`normalize_of_remain`). There is one exactly if no beginning of the path goes up more often than
it goes down.

The normal forms are recognized by their text alone (`IsCanonical`): no segment of theirs stays or
goes up, and none but the root ends in a separator. They are the paths that are normalized to
themselves.
-/

namespace ContentTree

namespace Path

/-- What is wrong with a path that has no normal form. -/
inductive HasFlaw (path : String) : PathFlaw → Prop
  | notAbsolute (relative : ¬isAbsolute path) : HasFlaw path .notAbsolute
  | aboveRoot (absolute : isAbsolute path) (climbs : ClimbsAboveRoot path) :
      HasFlaw path .aboveRoot

/-- A segment that stays in place is left out, or a name with the way back from it. -/
inductive Shortens : List String → List String → Prop
  | stay {segment : String} (before after : List String) (stays : segment = "" ∨ segment = ".") :
      Shortens (before ++ segment :: after) (before ++ after)
  | back {name : String} (before after : List String) (isName : IsName name) :
      Shortens (before ++ name :: ".." :: after) (before ++ after)

/-- The names that remain of a path once all that can be left out is left out. -/
structure Remain (path : String) (names : List String) : Prop where
  shortened : Relation.ReflTransGen Shortens (split path) names
  areNames : ∀ name ∈ names, IsName name

/-- The shape of a normal path. -/
structure IsCanonical (path : String) : Prop where
  absolute : isAbsolute path
  names : path ≠ root → ∀ segment ∈ (split path).tail, IsName segment
  untrailed : path ≠ root → path.toList.getLast? ≠ some '/'

variable {path normal : String} {names others place walked shorter reached : List String}

/-! ### Shortening a path -/

/-- A shortened path leads to the same place. -/
theorem Shortens.foldlM_descend (shortens : Shortens walked shorter) (place : List String) :
    walked.foldlM descend place = shorter.foldlM descend place := by
  cases shortens with
  | stay before after stays =>
      have step : ∀ here, descend here _ = some here := fun here => if_pos stays
      simp only [List.foldlM_append, List.foldlM_cons, step, Option.bind_eq_bind,
        Option.bind_some]
  | back before after isName =>
      simp only [List.foldlM_append, List.foldlM_cons, descend_name isName, descend_up,
        Option.bind_eq_bind, Option.bind_some]

theorem foldlM_descend_of_shortened (shortened : Relation.ReflTransGen Shortens walked shorter)
    (place : List String) : walked.foldlM descend place = shorter.foldlM descend place := by
  induction shortened with
  | refl => rfl
  | tail _ shortens ih => rw [ih, shortens.foldlM_descend]

/-- The walk along a path shortens it: in front of the segments that are still to come stand the
names of the place that is reached so far. -/
theorem shortened_of_foldlM_descend (placeNames : ∀ name ∈ place, IsName name)
    (resolved : walked.foldlM descend place = some reached) :
    Relation.ReflTransGen Shortens (place.reverse ++ walked) reached.reverse := by
  induction walked generalizing place with
  | nil =>
      simp only [List.foldlM_nil, Option.pure_def, Option.some.injEq] at resolved
      rw [resolved, List.append_nil]
  | cons segment rest ih =>
      rw [List.foldlM_cons, Option.bind_eq_bind, Option.bind_eq_some_iff] at resolved
      rcases resolved with ⟨next, step, restResolved⟩
      rcases descend_cases step with ⟨stays, rfl⟩ | ⟨rfl, name, rfl⟩ | ⟨isName, rfl⟩
      · exact .head (.stay next.reverse rest stays) (ih placeNames restResolved)
      · rcases List.forall_mem_cons.1 placeNames with ⟨isName, aboveNames⟩
        rw [List.reverse_cons, List.append_assoc, List.singleton_append]
        exact .head (.back next.reverse rest isName) (ih aboveNames restResolved)
      · have shortened := ih (List.forall_mem_cons.2 ⟨isName, placeNames⟩) restResolved
        rwa [List.reverse_cons, List.append_assoc, List.singleton_append] at shortened

/-- The walk along a path ends at the place to which the remaining names lead. -/
theorem remain_iff : Remain path names ↔ resolve path = some names.reverse := by
  constructor
  · rintro ⟨shortened, areNames⟩
    rw [resolve, foldlM_descend_of_shortened shortened, foldlM_descend_names areNames,
      List.append_nil]
  · intro resolved
    refine ⟨?_, ?_⟩
    · have shortened := shortened_of_foldlM_descend (List.forall_mem_nil _) resolved
      rwa [List.reverse_nil, List.nil_append, List.reverse_reverse] at shortened
    · intro name nameMem
      exact (isSegment_of_resolve resolved name (List.mem_reverse.2 nameMem)).1

theorem Remain.unique (remain : Remain path names) (again : Remain path others) :
    others = names := by
  have samePlace := (remain_iff.1 again).symm.trans (remain_iff.1 remain)
  exact List.reverse_inj.1 (Option.some.inj samePlace)

theorem Remain.isSegment (remain : Remain path names) : ∀ name ∈ names, IsSegment name := by
  intro name nameMem
  exact isSegment_of_resolve (remain_iff.1 remain) name (List.mem_reverse.2 nameMem)

theorem exists_remain (fits : ¬ClimbsAboveRoot path) : ∃ names, Remain path names := by
  cases resolved : resolve path with
  | none => exact absurd (resolve_eq_none_iff.1 resolved) fits
  | some place => exact ⟨place.reverse, remain_iff.2 (by rwa [List.reverse_reverse])⟩

/-! ### Normalizing -/

theorem normalize_of_remain (absolute : isAbsolute path) (remain : Remain path names) :
    normalize path = .ok (ofNames names) := by
  rw [normalize_of_resolve absolute (remain_iff.1 remain), List.reverse_reverse]

theorem HasFlaw.normalize_eq {flaw : PathFlaw} (hasFlaw : HasFlaw path flaw) :
    normalize path = .error (.invalidPath (some path) flaw) := by
  cases hasFlaw with
  | notAbsolute relative =>
      rw [normalize, required_of_not_isAbsolute relative]
      rfl
  | aboveRoot absolute climbs => exact normalize_of_climbsAboveRoot absolute climbs

theorem hasFlaw_or_remain (path : String) :
    (∃ flaw, HasFlaw path flaw) ∨ isAbsolute path ∧ ∃ names, Remain path names := by
  by_cases absolute : isAbsolute path
  · by_cases climbs : ClimbsAboveRoot path
    · exact .inl ⟨.aboveRoot, .aboveRoot absolute climbs⟩
    · exact .inr ⟨absolute, exists_remain climbs⟩
  · exact .inl ⟨.notAbsolute, .notAbsolute absolute⟩

theorem normalize_eq_error_iff {fault : Fault} :
    normalize path = .error fault ↔
      ∃ flaw, HasFlaw path flaw ∧ fault = .invalidPath (some path) flaw := by
  constructor
  · intro failed
    rcases hasFlaw_or_remain path with ⟨flaw, hasFlaw⟩ | ⟨absolute, names, remain⟩
    · rw [hasFlaw.normalize_eq, Except.error.injEq] at failed
      exact ⟨flaw, hasFlaw, failed.symm⟩
    · rw [normalize_of_remain absolute remain] at failed
      cases failed
  · rintro ⟨flaw, hasFlaw, rfl⟩
    exact hasFlaw.normalize_eq

/-! ### The shape of normal paths -/

theorem ofNames_split (path : String) : ofNames (split path) = "/" ++ path := by
  rw [ofNames, intercalate_split]
  rfl

theorem exists_rest_of_isAbsolute (absolute : isAbsolute path) : ∃ rest, path = "/" ++ rest := by
  cases letters : path.toList with
  | nil => simp [isAbsolute, letters] at absolute
  | cons first rest =>
      have isSeparator : first = '/' := by simpa [isAbsolute, letters] using absolute
      refine ⟨String.ofList rest, ?_⟩
      rw [← String.toList_inj, letters, isSeparator]
      simp

theorem split_separator_append (rest : String) : split ("/" ++ rest) = "" :: split rest := by
  have pieces := split_append_separator "" rest
  have first : split "" = [""] := split_of_notMem (by simp)
  rwa [String.empty_append, first, List.singleton_append] at pieces

theorem getLast?_ofNames_ne (proper : ∀ name ∈ names, IsSegment name) (nonempty : names ≠ []) :
    (ofNames names).toList.getLast? ≠ some '/' := by
  cases names using List.reverseRecOn with
  | nil => exact absurd rfl nonempty
  | append_singleton init last =>
      have lastProper : IsSegment last := proper last (by simp)
      have ends : ∃ above : String, ofNames (init ++ [last]) = above ++ last := by
        by_cases isFirst : init = []
        · subst isFirst
          exact ⟨"/", ofNames_singleton last⟩
        · exact ⟨ofNames init ++ "/", ofNames_append_singleton isFirst last⟩
      rcases ends with ⟨above, isText⟩
      have letters : last.toList ≠ [] := fun noLetters =>
        lastProper.1.1 (String.toList_eq_nil_iff.1 noLetters)
      rw [isText, String.toList_append, List.getLast?_append,
        List.getLast?_eq_some_getLast letters, Option.some_or]
      intro isSeparator
      exact lastProper.2 (Option.some.inj isSeparator ▸ List.getLast_mem letters)

theorem isCanonical_iff : IsCanonical path ↔
    ∃ names, (∀ name ∈ names, IsSegment name) ∧ path = ofNames names := by
  constructor
  · rintro ⟨absolute, areNames, -⟩
    by_cases isRoot : path = root
    · exact ⟨[], List.forall_mem_nil _, isRoot⟩
    · rcases exists_rest_of_isAbsolute absolute with ⟨rest, rfl⟩
      have restNames : ∀ name ∈ split rest, IsName name := by
        intro name nameMem
        apply areNames isRoot
        rwa [split_separator_append, List.tail_cons]
      exact ⟨split rest, fun name nameMem => ⟨restNames name nameMem, notMem_of_mem_split nameMem⟩,
        (ofNames_split rest).symm⟩
  · rintro ⟨names, proper, rfl⟩
    have nonempty : ofNames names ≠ root → names ≠ [] := by
      rintro notRoot rfl
      exact notRoot rfl
    refine ⟨isAbsolute_ofNames names, ?_, ?_⟩
    · intro notRoot segment segmentMem
      rw [split_ofNames (nonempty notRoot) proper, List.tail_cons] at segmentMem
      exact (proper segment segmentMem).1
    · intro notRoot
      exact getLast?_ofNames_ne proper (nonempty notRoot)

/-- Normalizing a path fails exactly if it is not absolute or some beginning of it goes up more
often than down. Otherwise it leads to the canonical path of the names that remain. -/
theorem normalize_canonical (path : String) :
    (∀ fault, normalize path = .error fault ↔
      ∃ flaw, HasFlaw path flaw ∧ fault = .invalidPath (some path) flaw) ∧
    (∀ flaw, HasFlaw path flaw →
      flaw.reason = "path must be absolute" ∧ ¬isAbsolute path ∨
        flaw.reason = "'..' leads above the root" ∧ isAbsolute path ∧ ClimbsAboveRoot path) ∧
    (isAbsolute path → ¬ClimbsAboveRoot path →
      ∃ names, Remain path names ∧ (∀ others, Remain path others → others = names) ∧
        normalize path = .ok (ofNames names) ∧ IsCanonical (ofNames names) ∧
        normalize (ofNames names) = .ok (ofNames names) ∧ segments (ofNames names) = names) ∧
    (normalize path = .ok path ↔ IsCanonical path) := by
  refine ⟨fun fault => normalize_eq_error_iff, ?_, ?_, ?_⟩
  · intro flaw hasFlaw
    cases hasFlaw with
    | notAbsolute relative => exact .inl ⟨rfl, relative⟩
    | aboveRoot absolute climbs => exact .inr ⟨rfl, absolute, climbs⟩
  · intro absolute fits
    rcases exists_remain fits with ⟨names, remain⟩
    have proper : ∀ name ∈ names, IsSegment name := remain.isSegment
    exact ⟨names, remain, fun others => remain.unique, normalize_of_remain absolute remain,
      isCanonical_iff.2 ⟨names, proper, rfl⟩, normalize_ofNames proper, segments_ofNames proper⟩
  · rw [normalize_eq_self_iff, isCanonical_iff]

theorem normalize_canonical_other :
    let path := "/content//page/./text/../../other/"
    isAbsolute path ∧ ¬ClimbsAboveRoot path ∧ Remain path ["content", "other"] ∧
      normalize path = .ok "/content/other" ∧ IsCanonical "/content/other" := by
  intro path
  have absolute : isAbsolute path := by decide +kernel
  have fits : ¬ClimbsAboveRoot path := by
    rw [← resolve_eq_none_iff]
    decide +kernel
  have normalized : normalize path = .ok "/content/other" := by decide +kernel
  rcases (normalize_canonical path).2.2.1 absolute fits with
    ⟨names, remain, -, isNormal, canonical, -, segmentsEq⟩
  have isText : ofNames names = "/content/other" :=
    Except.ok.inj (isNormal.symm.trans normalized)
  have areNames : names = ["content", "other"] := by
    rw [← segmentsEq, isText]
    decide +kernel
  rw [areNames] at remain
  rw [isText] at canonical
  exact ⟨absolute, fits, remain, normalized, canonical⟩

end Path

end ContentTree
