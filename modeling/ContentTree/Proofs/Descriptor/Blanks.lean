import ContentTree.Descriptor.Basic

/-!
# Blank submissions

A submission is blank if it has at most one value and no text in it; only then do defaults come into
effect (`effectiveValues_of_submitted`). There may be no values in effect, because nothing was
submitted or because blanks are to be ignored or fall back on the default for that
(`effectiveValues_eq_nil_iff`).

Whether there is anything to write is decided apart from this, and the two do not always agree. Some
submissions count although they have no values in effect (`Descriptor.Overcounts`).
-/

namespace ContentTree

namespace Descriptor

variable {descriptor : Descriptor} {values : List String}

/-- Whether a submission counts although it has no values in effect: there is no text in it, and
either it falls back on the default that keeps it from being written, or its blanks are ignored and
it counts for the default of a missing submission. -/
def Overcounts (descriptor : Descriptor) : Prop :=
  ∃ values ∈ descriptor.values, (∀ value ∈ values, value = "") ∧
    if descriptor.ignoreBlanks then
      descriptor.useDefaultWhenMissing ∧ descriptor.defaultValues ≠ []
    else values.length ≤ 1 ∧ descriptor.defaultValues = [ignoreDefault]
  deriving Decidable

theorem blankValues_eq_nil_iff : descriptor.blankValues = some [] ↔
    descriptor.ignoreBlanks ∨ descriptor.defaultValues = [ignoreDefault] := by
  unfold blankValues
  split
  case isTrue isOn => simp [isOn]
  case isFalse isOff =>
    split
    case h_1 default isDefault =>
      by_cases isIgnore : default = ignoreDefault
      · simp [isIgnore, isDefault]
      · by_cases isRemove : default = removeDefault <;> simp [isOff, isIgnore, isRemove, isDefault]
    case h_2 notSingle =>
      have noDefault : descriptor.defaultValues ≠ [ignoreDefault] := notSingle _
      simp [isOff, noDefault]

theorem blankValues_eq_none_iff : descriptor.blankValues = none ↔
    ¬descriptor.ignoreBlanks ∧ descriptor.defaultValues = [removeDefault] := by
  have different : removeDefault ≠ ignoreDefault := by decide
  unfold blankValues
  split
  case isTrue isOn => simp [isOn]
  case isFalse isOff =>
    split
    case h_1 default isDefault =>
      by_cases isRemove : default = removeDefault
      · simp [isOff, isRemove, isDefault, different]
      · by_cases isIgnore : default = ignoreDefault <;>
          simp [isIgnore, isRemove, isDefault, different.symm]
    case h_2 notSingle =>
      have noDefault : descriptor.defaultValues ≠ [removeDefault] := notSingle _
      simp [noDefault]

/-- The values in effect for a submission: blank submissions fall back on a default, and the blanks
of others may be left out. -/
theorem effectiveValues_of_submitted (submitted : descriptor.values = some values) :
    descriptor.effectiveValues =
      if values.length ≤ 1 ∧ ∀ value ∈ values, value = "" then descriptor.blankValues
      else some (values.filter fun value => value ≠ "" || !descriptor.ignoreBlanks) := by
  unfold effectiveValues
  rw [submitted]
  match values with
  | [] => simp
  | [value] => by_cases isBlank : value = "" <;> simp [isBlank]
  | _ :: _ :: _ => simp

theorem effectiveValues_eq_nil_iff (submitted : descriptor.values = some values) :
    descriptor.effectiveValues = some [] ↔ (∀ value ∈ values, value = "") ∧
      (descriptor.ignoreBlanks ∨
        values.length ≤ 1 ∧ descriptor.defaultValues = [ignoreDefault]) := by
  rw [effectiveValues_of_submitted submitted]
  split
  case isTrue isBlank =>
    rcases isBlank with ⟨atMostOne, allBlank⟩
    rw [blankValues_eq_nil_iff]
    constructor
    · rintro (isOn | isDefault)
      · exact ⟨allBlank, .inl isOn⟩
      · exact ⟨allBlank, .inr ⟨atMostOne, isDefault⟩⟩
    · rintro ⟨-, isOn | ⟨-, isDefault⟩⟩
      · exact .inl isOn
      · exact .inr isDefault
  case isFalse notBlank =>
    have leftOutIff : (values.filter fun value => value ≠ "" || !descriptor.ignoreBlanks) = [] ↔
        ∀ value ∈ values, value = "" ∧ descriptor.ignoreBlanks := by
      simp [List.filter_eq_nil_iff]
    rw [Option.some.injEq, leftOutIff]
    constructor
    · intro leftOut
      have nonempty : values ≠ [] := by
        rintro rfl
        simp at notBlank
      rcases List.exists_mem_of_ne_nil values nonempty with ⟨value, valueMem⟩
      exact ⟨fun other otherMem => (leftOut other otherMem).1, .inl (leftOut value valueMem).2⟩
    · rintro ⟨allBlank, isOn | ⟨atMostOne, -⟩⟩
      · exact fun value valueMem => ⟨allBlank value valueMem, isOn⟩
      · exact absurd ⟨atMostOne, allBlank⟩ notBlank

/-- A removal is asked for by a blank submission that falls back on the default for it, and by
nothing else. -/
theorem effectiveValues_eq_none_iff : descriptor.effectiveValues = none ↔
    ∃ values, descriptor.values = some values ∧ values.length ≤ 1 ∧
      (∀ value ∈ values, value = "") ∧ ¬descriptor.ignoreBlanks ∧
        descriptor.defaultValues = [removeDefault] := by
  cases submitted : descriptor.values with
  | none => simp [effectiveValues, submitted]
  | some values =>
      rw [effectiveValues_of_submitted submitted]
      simp only [Option.some.injEq, exists_eq_left', ← blankValues_eq_none_iff]
      split
      case isTrue isBlank =>
        exact ⟨fun removal => ⟨isBlank.1, isBlank.2, removal⟩, fun given => given.2.2⟩
      case isFalse notBlank =>
        refine iff_of_false (Option.some_ne_none _) ?_
        rintro ⟨atMostOne, allBlank, -⟩
        exact notBlank ⟨atMostOne, allBlank⟩

/-- A submission with no values in effect counts for a default of a missing one, or because its
blanks are not ignored. -/
theorem hasValues_iff_of_nothing (submitted : descriptor.values = some values)
    (nothing : descriptor.effectiveValues = some []) : descriptor.hasValues ↔
      descriptor.useDefaultWhenMissing ∧ descriptor.defaultValues ≠ [] ∨
        ¬descriptor.ignoreBlanks := by
  unfold hasValues
  rw [submitted, nothing]
  by_cases counts : descriptor.useDefaultWhenMissing ∧ descriptor.defaultValues ≠ []
  · simp [counts]
  · cases isOn : descriptor.ignoreBlanks <;> simp_all

/-- The submissions that count with no values in effect. -/
theorem overcounts_iff : descriptor.Overcounts ↔
    descriptor.hasValues ∧ descriptor.effectiveValues = some [] := by
  cases submitted : descriptor.values with
  | none =>
      have never : ¬descriptor.Overcounts := by
        rintro ⟨values, isSubmitted, -⟩
        cases submitted.symm.trans isSubmitted
      refine iff_of_false never ?_
      rintro ⟨counts, nothing⟩
      -- Only the default for a missing submission counts, and then it is in effect.
      simp only [hasValues, effectiveValues, submitted] at counts nothing
      simp_all
  | some values =>
      constructor
      · rintro ⟨_, isSubmitted, allBlank, reason⟩
        cases submitted.symm.trans isSubmitted
        split at reason
        case isTrue isOn =>
          have nothing := (effectiveValues_eq_nil_iff submitted).2 ⟨allBlank, .inl isOn⟩
          exact ⟨(hasValues_iff_of_nothing submitted nothing).2 (.inl reason), nothing⟩
        case isFalse isOff =>
          have nothing := (effectiveValues_eq_nil_iff submitted).2 ⟨allBlank, .inr reason⟩
          exact ⟨(hasValues_iff_of_nothing submitted nothing).2 (.inr isOff), nothing⟩
      · rintro ⟨counts, nothing⟩
        have whyCounts := (hasValues_iff_of_nothing submitted nothing).1 counts
        rcases (effectiveValues_eq_nil_iff submitted).1 nothing with ⟨allBlank, whyNothing⟩
        refine ⟨values, submitted, allBlank, ?_⟩
        split
        case isTrue isOn => exact whyCounts.resolve_right (not_not_intro isOn)
        case isFalse isOff => exact whyNothing.resolve_left isOff

/-- A removal counts. -/
theorem hasValues_of_removal (removal : descriptor.effectiveValues = none) :
    descriptor.hasValues := by
  rcases effectiveValues_eq_none_iff.1 removal with ⟨values, submitted, -, -, isOff, -⟩
  simp [hasValues, submitted, isOff]

end Descriptor

end ContentTree
