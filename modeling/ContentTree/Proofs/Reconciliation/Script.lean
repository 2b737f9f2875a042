import ContentTree.Reconciliation

/-!
# The script of a reconciliation

Reconciliation makes one list of edits, first the removals and then the additions (`mixinEdits`),
whatever node it works on (`MixinHost.reconcile_eq_forM`). Carried out to its end, the script gives
a node exactly the requested mixin types (`mixins_foldl_mixinEdits`).

Each edit needs a node that may be changed. This can come to an end halfway: a node that is
versionable by a mixin type only, below nodes that are checked in, may no longer be changed once
that type is removed. Such a script strands if the removal is not its last edit
(`Node.Strands`).
-/

namespace ContentTree

/-- The edits by which a node with the listed mixin types comes to have the requested ones. -/
def mixinEdits (listed requested : List String) : List MixinEdit :=
  (listed.filter (· ∉ requested)).map .remove ++
    (requested.eraseDups.filter (· ∉ listed)).map .add

theorem mixinEdits_eq_nil {listed requested : List String}
    (listedIff : ∀ mixin, mixin ∈ listed ↔ mixin ∈ requested) :
    mixinEdits listed requested = [] := by
  simp [mixinEdits, listedIff]

namespace MixinHost

variable {M : Type → Type} [Monad M]

/-- Carry out one edit of a script. -/
def carryOut (host : MixinHost M) (policy : Policy) : MixinEdit → M Unit
  | .remove mixin => host.removeMixin mixin
  | .add mixin => host.addReporting policy mixin

theorem reconcile_eq_forM [LawfulMonad M] (host : MixinHost M) (policy : Policy)
    (requested : List String) :
    host.reconcile policy requested =
      (do forM (mixinEdits (← host.mixins) requested) (host.carryOut policy)) := by
  simp only [reconcile, mixinEdits, List.forM_append, List.forM_map]
  rfl

end MixinHost

namespace Node

variable {node : Node} {above : Bool} {change : MixinEdit} {script : List MixinEdit}

/-- What an edit of its mixin types makes of a node. -/
def revise (node : Node) : MixinEdit → Node
  | .add mixin =>
      { node with
        mixins := node.mixins.insert mixin
        checkedOut := node.checkedOut || mixin = versionableType }
  | .remove mixin => { node with mixins := node.mixins.erase mixin }

/-- Whether a node may be changed, given whether the nodes above would allow it. -/
def isOpen (node : Node) (above : Bool) : Bool :=
  if node.isVersionable then node.checkedOut else above

/-- A script only removes mixin types that are there. -/
def Feasible (node : Node) : List MixinEdit → Prop
  | [] => True
  | change :: rest =>
      (∀ mixin, change = .remove mixin → mixin ∈ node.mixins) ∧ (node.revise change).Feasible rest

/-- A script removes the type by which alone the node may be changed, and goes on. -/
def Strands (node : Node) (above : Bool) (script : List MixinEdit) : Prop :=
  node.primaryType ≠ versionableType ∧ above = false ∧
    .remove versionableType ∈ script.dropLast

@[simp]
theorem primaryType_revise : (node.revise change).primaryType = node.primaryType := by
  cases change <;> rfl

theorem isOpen_revise_remove (notPrimary : node.primaryType ≠ versionableType) :
    (node.revise (.remove versionableType)).isOpen above = above := by
  have notVersionable : (node.revise (.remove versionableType)).isVersionable = false := by
    simp [isVersionable, hasType, revise, Ne.symm notPrimary]
  rw [Node.isOpen, notVersionable]
  rfl

theorem isOpen_revise_remove_of_primary (isPrimary : node.primaryType = versionableType)
    (mixin : String) : (node.revise (.remove mixin)).isOpen above = node.isOpen above := by
  simp [Node.isOpen, isVersionable, hasType, revise, isPrimary]

/-- A node that may be changed may be changed again after an edit, unless this removes the type that
allowed it. -/
theorem isOpen_revise (isOpen : node.isOpen above)
    (harmless : change = .remove versionableType → node.primaryType = versionableType ∨ above) :
    (node.revise change).isOpen above := by
  cases change with
  | add mixin =>
      by_cases isType : mixin = versionableType
      · simp [Node.isOpen, revise, isVersionable, hasType, isType]
      · simp only [Node.isOpen, revise, isVersionable, hasType, isType, NameSet.mem_insert,
          Ne.symm isType, false_or, decide_false, Bool.or_false] at isOpen ⊢
        exact isOpen
  | remove mixin =>
      by_cases isPrimary : node.primaryType = versionableType
      · rwa [isOpen_revise_remove_of_primary isPrimary]
      · by_cases isType : mixin = versionableType
        · rw [isType, isOpen_revise_remove isPrimary]
          rw [isType] at harmless
          exact (harmless rfl).resolve_left isPrimary
        · simp only [Node.isOpen, revise, isVersionable, hasType, NameSet.mem_erase,
            Ne.symm isType, ne_eq, not_false_eq_true, and_true] at isOpen ⊢
          exact isOpen

theorem isOpen_revise_eq_false_iff (isOpen : node.isOpen above) :
    (node.revise change).isOpen above = false ↔
      node.primaryType ≠ versionableType ∧ above = false ∧ change = .remove versionableType := by
  constructor
  · intro isLocked
    have harmful : ¬(change = .remove versionableType →
        node.primaryType = versionableType ∨ above) := by
      intro harmless
      rw [isOpen_revise isOpen harmless] at isLocked
      cases isLocked
    rw [Classical.not_imp, not_or, Bool.not_eq_true] at harmful
    exact ⟨harmful.2.1, harmful.2.2, harmful.1⟩
  · rintro ⟨notPrimary, isClosed, rfl⟩
    rw [isOpen_revise_remove notPrimary, isClosed]

theorem strands_cons_iff {first next : MixinEdit} {rest : List MixinEdit} :
    node.Strands above (first :: next :: rest) ↔
      node.primaryType ≠ versionableType ∧ above = false ∧ first = .remove versionableType ∨
        (node.revise first).Strands above (next :: rest) := by
  simp only [Strands, List.dropLast_cons_cons, List.mem_cons, primaryType_revise]
  constructor
  · rintro ⟨notPrimary, isLocked, isFirst | later⟩
    · exact .inl ⟨notPrimary, isLocked, isFirst.symm⟩
    · exact .inr ⟨notPrimary, isLocked, later⟩
  · rintro (⟨notPrimary, isLocked, isFirst⟩ | ⟨notPrimary, isLocked, later⟩)
    · exact ⟨notPrimary, isLocked, .inl isFirst.symm⟩
    · exact ⟨notPrimary, isLocked, .inr later⟩

/-- A script strands if its first edit does not leave a node that may be changed although more edits
follow, or if what follows strands. -/
theorem strands_cons_iff_of_isOpen (isOpen : node.isOpen above) {first next : MixinEdit}
    {rest : List MixinEdit} :
    node.Strands above (first :: next :: rest) ↔
      (node.revise first).isOpen above = false ∨
        (node.revise first).Strands above (next :: rest) := by
  rw [strands_cons_iff, isOpen_revise_eq_false_iff isOpen]

theorem feasible_add (mixins : List String) : node.Feasible (mixins.map .add) := by
  induction mixins generalizing node with
  | nil => trivial
  | cons mixin rest ih => exact ⟨nofun, ih⟩

theorem feasible_remove_append {mixins : List String} (distinct : mixins.Nodup)
    (assigned : ∀ mixin ∈ mixins, mixin ∈ node.mixins)
    (feasible : ∀ node : Node, node.Feasible script) :
    node.Feasible (mixins.map .remove ++ script) := by
  induction mixins generalizing node with
  | nil => exact feasible node
  | cons mixin rest ih =>
      rcases List.nodup_cons.1 distinct with ⟨notLater, restDistinct⟩
      refine ⟨?_, ih restDistinct ?_⟩
      · rintro _ ⟨⟩
        exact assigned mixin List.mem_cons_self
      · intro other otherMem
        apply NameSet.mem_erase.2
        refine ⟨assigned other (List.mem_cons_of_mem _ otherMem), ?_⟩
        rintro rfl
        exact notLater otherMem

theorem mem_mixins_foldl_add {mixins : List String} {name : String} :
    name ∈ ((mixins.map .add).foldl revise node).mixins ↔ name ∈ mixins ∨ name ∈ node.mixins := by
  induction mixins generalizing node with
  | nil => simp
  | cons mixin rest ih => simp [ih, revise, or_assoc, or_left_comm]

theorem mem_mixins_foldl_remove {mixins : List String} {name : String} :
    name ∈ ((mixins.map .remove).foldl revise node).mixins ↔
      name ∈ node.mixins ∧ name ∉ mixins := by
  induction mixins generalizing node with
  | nil => simp
  | cons mixin rest ih => simp [ih, revise, and_assoc]

variable {listed requested : List String}

theorem feasible_mixinEdits (distinct : listed.Nodup)
    (assigned : ∀ mixin ∈ listed, mixin ∈ node.mixins) :
    node.Feasible (mixinEdits listed requested) := by
  refine feasible_remove_append (distinct.filter _) ?_ fun _ => feasible_add _
  intro mixin mixinMem
  exact assigned mixin (List.mem_filter.1 mixinMem).1

/-- The mixin types of a node may be listed in any order. -/
theorem feasible_mixinEdits_of_perm (arranged : listed.Perm node.mixins.names) :
    node.Feasible (mixinEdits listed requested) :=
  feasible_mixinEdits (arranged.nodup_iff.2 node.mixins.nodup_names) fun _ => arranged.mem_iff.1

/-- A script that is carried out to its end leaves a node with exactly the requested mixin types. -/
theorem mixins_foldl_mixinEdits (complete : ∀ mixin, mixin ∈ listed ↔ mixin ∈ node.mixins) :
    ((mixinEdits listed requested).foldl revise node).mixins = .ofList requested := by
  apply NameSet.ext_mem
  intro name
  rw [mixinEdits, List.foldl_append, mem_mixins_foldl_add, mem_mixins_foldl_remove,
    NameSet.mem_ofList]
  simp only [List.mem_filter, List.mem_eraseDups, complete]
  by_cases isRequested : name ∈ requested
  · by_cases isThere : name ∈ node.mixins <;> simp [isRequested, isThere]
  · simp [isRequested]

end Node

end ContentTree
