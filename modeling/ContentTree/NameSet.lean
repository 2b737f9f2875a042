/-!
# Sets of names

The mixin types of a node form a set of names. A `NameSet` is kept as a strictly increasing list,
so a set has one representation only: two sets with the same members are equal
(`NameSet.ext_mem`), and listing a set gives its members in increasing order, by code point.
-/

namespace ContentTree

/-- A finite set of names, listed in strictly increasing order. -/
structure NameSet where
  names : List String
  increasing : names.Pairwise (· < ·)
  deriving DecidableEq

namespace NameSet

def empty : NameSet := ⟨[], .nil⟩

instance : EmptyCollection NameSet := ⟨empty⟩

instance : Inhabited NameSet := ⟨∅⟩

instance : Membership String NameSet := ⟨fun set name => name ∈ set.names⟩

instance (name : String) (set : NameSet) : Decidable (name ∈ set) :=
  inferInstanceAs (Decidable (name ∈ set.names))

@[simp]
theorem mem_names {set : NameSet} {name : String} : name ∈ set.names ↔ name ∈ set :=
  Iff.rfl

@[simp]
theorem names_empty : (∅ : NameSet).names = [] :=
  rfl

@[simp]
theorem notMem_empty (name : String) : name ∉ (∅ : NameSet) :=
  List.not_mem_nil

/-- Put a name in its place in an increasing list, unless it is there already. -/
def place (name : String) : List String → List String
  | [] => [name]
  | first :: rest =>
      if name < first then name :: first :: rest
      else if name = first then first :: rest
      else first :: place name rest

private theorem mem_place {name other : String} {names : List String} :
    other ∈ place name names ↔ other = name ∨ other ∈ names := by
  induction names with
  | nil => simp [place]
  | cons first rest ih =>
    rw [place]
    split
    · simp
    · split
      · rename_i same
        simp [same]
      · simp only [List.mem_cons, ih]
        exact or_left_comm

private theorem lt_of_not_lt_of_ne {left right : String} (notBelow : ¬left < right)
    (distinct : left ≠ right) : right < left := by
  refine Decidable.byContradiction fun notAbove => distinct ?_
  exact String.le_antisymm (String.not_lt.1 notAbove) (String.not_lt.1 notBelow)

private theorem increasing_place {name : String} {names : List String}
    (increasing : names.Pairwise (· < ·)) : (place name names).Pairwise (· < ·) := by
  induction names with
  | nil => simp [place]
  | cons first rest ih =>
    have above := List.pairwise_cons.1 increasing
    rw [place]
    split
    · rename_i below
      refine List.pairwise_cons.2 ⟨fun other member => ?_, increasing⟩
      rcases List.mem_cons.1 member with same | inRest
      · exact same ▸ below
      · exact String.lt_trans below (above.1 other inRest)
    · split
      · exact increasing
      · rename_i notBelow distinct
        refine List.pairwise_cons.2 ⟨fun other member => ?_, ih above.2⟩
        rcases mem_place.1 member with same | inRest
        · exact same ▸ lt_of_not_lt_of_ne notBelow distinct
        · exact above.1 other inRest

def insert (set : NameSet) (name : String) : NameSet :=
  ⟨place name set.names, increasing_place set.increasing⟩

def erase (set : NameSet) (name : String) : NameSet :=
  ⟨set.names.filter (· ≠ name), set.increasing.filter _⟩

/-- The set of the names that a list contains; order and repetitions do not matter. -/
def ofList (names : List String) : NameSet :=
  names.foldl insert ∅

@[simp]
theorem mem_insert {set : NameSet} {name other : String} :
    other ∈ set.insert name ↔ other = name ∨ other ∈ set :=
  mem_place

@[simp]
theorem mem_erase {set : NameSet} {name other : String} :
    other ∈ set.erase name ↔ other ∈ set ∧ other ≠ name := by
  rw [← mem_names, erase]
  simp

private theorem mem_foldl_insert {set : NameSet} {names : List String} {name : String} :
    name ∈ names.foldl insert set ↔ name ∈ names ∨ name ∈ set := by
  induction names generalizing set with
  | nil => simp
  | cons first rest ih => simp [ih, or_left_comm, or_assoc]

@[simp]
theorem mem_ofList {names : List String} {name : String} : name ∈ ofList names ↔ name ∈ names := by
  simp [ofList, mem_foldl_insert]

private theorem eq_of_mem_iff {left right : List String} (leftIncreasing : left.Pairwise (· < ·))
    (rightIncreasing : right.Pairwise (· < ·)) (sameMembers : ∀ name, name ∈ left ↔ name ∈ right) :
    left = right := by
  induction left generalizing right with
  | nil => exact (List.eq_nil_iff_forall_not_mem.2 fun name => by simp [← sameMembers name]).symm
  | cons first rest ih =>
    cases right with
    | nil => simpa using sameMembers first
    | cons other others =>
      have aboveFirst := List.pairwise_cons.1 leftIncreasing
      have aboveOther := List.pairwise_cons.1 rightIncreasing
      have sameHead : first = other := by
        rcases List.mem_cons.1 ((sameMembers first).1 List.mem_cons_self) with same | inOthers
        · exact same
        rcases List.mem_cons.1 ((sameMembers other).2 List.mem_cons_self) with same | inRest
        · exact same.symm
        exact absurd (aboveFirst.1 other inRest) (String.lt_asymm (aboveOther.1 first inOthers))
      subst sameHead
      congr 1
      refine ih aboveFirst.2 aboveOther.2 fun name => ⟨fun inRest => ?_, fun inOthers => ?_⟩
      · have inRight := (sameMembers name).1 (List.mem_cons_of_mem _ inRest)
        rcases List.mem_cons.1 inRight with same | inOthers
        · exact absurd (same ▸ aboveFirst.1 name inRest) (String.lt_irrefl _)
        · exact inOthers
      · have inLeft := (sameMembers name).2 (List.mem_cons_of_mem _ inOthers)
        rcases List.mem_cons.1 inLeft with same | inRest
        · exact absurd (same ▸ aboveOther.1 name inOthers) (String.lt_irrefl _)
        · exact inRest

/-- Sets with the same members are equal. -/
@[ext]
theorem ext_mem {left right : NameSet} (sameMembers : ∀ name, name ∈ left ↔ name ∈ right) :
    left = right := by
  obtain ⟨names, increasing⟩ := left
  obtain ⟨others, othersIncreasing⟩ := right
  have sameNames : names = others := eq_of_mem_iff increasing othersIncreasing sameMembers
  subst sameNames
  rfl

theorem nodup_names (set : NameSet) : set.names.Nodup := by
  refine List.Pairwise.imp ?_ set.increasing
  intro left right below same
  exact String.lt_irrefl right (same ▸ below)

end NameSet

end ContentTree
