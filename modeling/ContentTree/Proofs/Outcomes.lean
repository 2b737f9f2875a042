/-!
# Outcomes

What the outcome of a computation that may fail tells about its parts. A sequence of two succeeds if
both do, and fails as the first of them does that fails. So does mapping a list. What is read off a
result is there exactly if the result is.
-/

namespace ContentTree

section Sequence

variable {Cause First Second : Type} {outcome : Except Cause First}
  {next : First → Except Cause Second} {cause : Cause}

theorem bind_eq_ok_iff {result : Second} :
    (outcome >>= next) = .ok result ↔ ∃ value, outcome = .ok value ∧ next value = .ok result := by
  cases outcome with
  | error cause => simp [bind, Except.bind]
  | ok value => simp [bind, Except.bind]

theorem bind_eq_error_iff :
    (outcome >>= next) = .error cause ↔
      outcome = .error cause ∨ ∃ value, outcome = .ok value ∧ next value = .error cause := by
  cases outcome with
  | error other => simp [bind, Except.bind]
  | ok value => simp [bind, Except.bind]

theorem map_eq_ok_iff {view : First → Second} {result : Second} :
    outcome.map view = .ok result ↔ ∃ value, outcome = .ok value ∧ view value = result := by
  cases outcome with
  | error cause => simp [Except.map]
  | ok value => simp [Except.map]

theorem map_eq_error_iff {view : First → Second} :
    outcome.map view = .error cause ↔ outcome = .error cause := by
  cases outcome with
  | error other => simp [Except.map]
  | ok value => simp [Except.map]

theorem throw_ne_ok {value : First} : (throw cause : Except Cause First) ≠ .ok value := by
  simp [throw, throwThe, MonadExceptOf.throw]

end Sequence

section Traversal

variable {Cause Item Value : Type} {items : List Item} {understand : Item → Except Cause Value}
  {cause : Cause}

/-- Mapping a list fails unless every item is mapped, and then leads to what they are mapped to. -/
theorem mapM_eq_ok_iff {values : List Value} : items.mapM understand = .ok values ↔
    (∀ item ∈ items, ∃ value, understand item = .ok value) ∧
      values = items.filterMap fun item => (understand item).toOption := by
  induction items generalizing values with
  | nil => simp [pure, Except.pure, eq_comm]
  | cons item rest ih =>
      rw [List.mapM_cons]
      cases understood : understand item with
      | error fault => simp [understood, bind, Except.bind]
      | ok value =>
          cases mapped : rest.mapM understand with
          | error fault =>
              have refused : ¬∀ item ∈ rest, ∃ value, understand item = .ok value := by
                intro all
                cases mapped.symm.trans (ih.2 ⟨all, rfl⟩)
              simp [understood, refused, bind, Except.bind]
          | ok others =>
              rcases ih.1 mapped with ⟨all, rfl⟩
              have everyItem : ∀ asked ∈ item :: rest, ∃ value,
                  understand asked = .ok value :=
                List.forall_mem_cons.2 ⟨⟨value, understood⟩, all⟩
              have collected : (item :: rest).filterMap (fun asked =>
                  (understand asked).toOption) =
                    value :: rest.filterMap fun asked => (understand asked).toOption := by
                rw [List.filterMap_cons, understood]
                rfl
              rw [collected]
              exact ⟨fun returned => ⟨everyItem, (Except.ok.inj returned).symm⟩,
                fun given => congrArg Except.ok given.2.symm⟩

/-- Mapping a list fails as its first item does that is not mapped. -/
theorem mapM_eq_error_iff : items.mapM understand = .error cause ↔
    ∃ earlier item later, items = earlier ++ item :: later ∧
      (∀ other ∈ earlier, ∃ value, understand other = .ok value) ∧
      understand item = .error cause := by
  induction items with
  | nil => simp [pure, Except.pure]
  | cons first rest ih =>
      rw [List.mapM_cons]
      cases understood : understand first with
      | error other =>
          simp only [bind, Except.bind, Except.error.injEq]
          constructor
          · rintro rfl
            exact ⟨[], first, rest, rfl, List.forall_mem_nil _, understood⟩
          · rintro ⟨_ | ⟨_, earlier⟩, item, later, split, resolved, refused⟩
            · cases split
              exact Except.error.inj (understood.symm.trans refused)
            · cases split
              rcases resolved first List.mem_cons_self with ⟨value, isValue⟩
              cases understood.symm.trans isValue
      | ok value =>
          have fromRest : ((Except.ok value : Except Cause Value) >>= fun value => do
              return value :: (← rest.mapM understand)) = .error cause ↔
                rest.mapM understand = .error cause := by
            cases rest.mapM understand <;> simp [bind, Except.bind, pure, Except.pure]
          rw [fromRest, ih]
          constructor
          · rintro ⟨earlier, item, later, rfl, resolved, refused⟩
            exact ⟨first :: earlier, item, later, rfl,
              List.forall_mem_cons.2 ⟨⟨value, understood⟩, resolved⟩, refused⟩
          · rintro ⟨_ | ⟨_, earlier⟩, item, later, split, resolved, refused⟩
            · cases split
              cases understood.symm.trans refused
            · cases split
              exact ⟨earlier, item, later, rfl, (List.forall_mem_cons.1 resolved).2, refused⟩

end Traversal

end ContentTree
