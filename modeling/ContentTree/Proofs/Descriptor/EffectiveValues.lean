import ContentTree.Proofs.Descriptor.Blanks

/-!
# Effective values

Submissions with no value, with one and with several are treated differently, and whether there is
anything to write is decided apart from what is to be written. Yet there are laws that hold of all
submissions alike (`effectiveValues_agree`). Where there is nothing to write there are no effective
values. Ignored blanks are left out, whatever else was submitted and whatever the defaults are, and
as soon as there is some text in a submission the defaults have no effect at all.
-/

namespace ContentTree

namespace Descriptor

variable {descriptor : Descriptor} {values : List String}

theorem effectiveValues_of_text (submitted : descriptor.values = some values)
    (text : ∃ value ∈ values, value ≠ "") : descriptor.effectiveValues =
      some (values.filter fun value => value ≠ "" || !descriptor.ignoreBlanks) := by
  rcases text with ⟨value, valueMem, notBlank⟩
  rw [effectiveValues_of_submitted submitted, if_neg]
  rintro ⟨-, allBlank⟩
  exact notBlank (allBlank value valueMem)

theorem effectiveValues_of_ignoreBlanks (submitted : descriptor.values = some values)
    (isOn : descriptor.ignoreBlanks) :
    descriptor.effectiveValues = some (values.filter (· ≠ "")) := by
  rw [effectiveValues_of_submitted submitted]
  split
  case isTrue isBlank =>
    have leftOut : values.filter (· ≠ "") = [] := by simpa using isBlank.2
    rw [leftOut, blankValues_eq_nil_iff]
    exact .inl isOn
  case isFalse notBlank => simp [isOn]

theorem effectiveValues_of_missing (missing : descriptor.values = none)
    (noDefault : ¬(descriptor.useDefaultWhenMissing ∧ descriptor.defaultValues ≠ [])) :
    descriptor.effectiveValues = some [] := by
  simp only [effectiveValues, missing]
  by_cases isUsed : descriptor.useDefaultWhenMissing
  · have noDefaults : descriptor.defaultValues = [] := by simpa [isUsed] using noDefault
    simp [noDefaults]
  · simp [isUsed]

theorem hasValues_iff_of_missing (missing : descriptor.values = none) : descriptor.hasValues ↔
    descriptor.useDefaultWhenMissing ∧ descriptor.defaultValues ≠ [] := by
  simp [hasValues, missing]

theorem hasValues_iff_of_ignoreBlanks (submitted : descriptor.values = some values)
    (isOn : descriptor.ignoreBlanks) : descriptor.hasValues ↔
      descriptor.useDefaultWhenMissing ∧ descriptor.defaultValues ≠ [] ∨
        values.filter (· ≠ "") ≠ [] := by
  unfold hasValues
  rw [effectiveValues_of_ignoreBlanks submitted isOn, submitted]
  simp [isOn]

theorem effectiveValues_of_not_hasValues (nothing : ¬descriptor.hasValues) :
    descriptor.effectiveValues = some [] := by
  cases submitted : descriptor.values with
  | none =>
      rw [hasValues_iff_of_missing submitted] at nothing
      exact effectiveValues_of_missing submitted nothing
  | some values =>
      by_cases isOn : descriptor.ignoreBlanks
      · rw [hasValues_iff_of_ignoreBlanks submitted isOn, not_or, Classical.not_not] at nothing
        rw [effectiveValues_of_ignoreBlanks submitted isOn, nothing.2]
      · have counts : descriptor.hasValues := by simp [hasValues, submitted, isOn]
        exact absurd counts nothing

/-- What is written and whether anything is written agree, and the defaults matter to blank
submissions alone. -/
theorem effectiveValues_agree (descriptor : Descriptor) :
    (¬descriptor.hasValues → descriptor.effectiveValues = some []) ∧
    (descriptor.effectiveValues = none ↔
      ∃ values, descriptor.values = some values ∧ values.length ≤ 1 ∧
        (∀ value ∈ values, value = "") ∧ ¬descriptor.ignoreBlanks ∧
          descriptor.defaultValues = [":null"]) ∧
    (∀ values, descriptor.values = some values → descriptor.ignoreBlanks →
      descriptor.effectiveValues = some (values.filter (· ≠ "")) ∧
      (¬descriptor.useDefaultWhenMissing ∨ descriptor.defaultValues = [] →
        (descriptor.hasValues ↔ values.filter (· ≠ "") ≠ []))) ∧
    ∀ values, descriptor.values = some values → (∃ value ∈ values, value ≠ "") → ∀ defaults,
      { descriptor with defaultValues := defaults }.effectiveValues =
        descriptor.effectiveValues := by
  refine ⟨effectiveValues_of_not_hasValues, effectiveValues_eq_none_iff, ?_, ?_⟩
  · intro values submitted isOn
    refine ⟨effectiveValues_of_ignoreBlanks submitted isOn, ?_⟩
    intro unused
    rw [hasValues_iff_of_ignoreBlanks submitted isOn]
    have noDefault : ¬(descriptor.useDefaultWhenMissing ∧ descriptor.defaultValues ≠ []) := by
      rintro ⟨isUsed, someDefaults⟩
      exact unused.elim (· isUsed) someDefaults
    simp only [noDefault, false_or]
  · intro values submitted text defaults
    let changed : Descriptor := { descriptor with defaultValues := defaults }
    have stillSubmitted : changed.values = some values := submitted
    exact (effectiveValues_of_text stillSubmitted text).trans
      (effectiveValues_of_text submitted text).symm

theorem effectiveValues_agree_tags :
    let tags : Descriptor :=
      { path := "/page/tags", values := some ["", "new", "", "old"],
        defaultValues := [":null"], ignoreBlanks := true }
    let blank : Descriptor := { tags with values := some [""] }
    ¬blank.hasValues ∧ blank.effectiveValues = some [] ∧
      tags.effectiveValues = some ["new", "old"] ∧ tags.hasValues ∧
      { tags with defaultValues := ["none"] }.effectiveValues = tags.effectiveValues := by
  intro tags blank
  have nothing : ¬blank.hasValues := by decide
  rcases effectiveValues_agree tags with ⟨-, -, ignoring, withText⟩
  have submitted : tags.values = some ["", "new", "", "old"] := rfl
  rcases ignoring _ submitted rfl with ⟨effective, counts⟩
  exact ⟨nothing, (effectiveValues_agree blank).1 nothing, effective,
    (counts (.inl (by decide))).2 (by decide),
    withText _ submitted ⟨"new", by decide, by decide⟩ ["none"]⟩

end Descriptor

end ContentTree
