/-!
# Insertion-ordered tables

Request parameters, property descriptors, the properties of a node and the nodes of a tree are all
finite maps whose order can be seen: the keys appear in the order in which they were first entered.
A `Table` keeps its entries in that order, together with the proof that no key occurs twice.

Entering a value under a key that is already there replaces the value and keeps the key's position;
a new key goes to the end. The lemmas describe every operation through two views, the list of keys
(`Table.keys`) and the value under a key (`Table.get?`), and by those two a table is determined
(`Table.ext_get?`).
-/

namespace ContentTree

universe u v

/-- A finite map that remembers the order in which its keys were first entered. -/
structure Table (Key : Type u) (Value : Type v) where
  entries : List (Key × Value)
  keys_nodup : (entries.map Prod.fst).Nodup
  deriving DecidableEq

namespace Table

variable {Key : Type u} {Value : Type v}

@[ext]
theorem ext {left right : Table Key Value} (same : left.entries = right.entries) :
    left = right := by
  cases left
  cases right
  cases same
  rfl

def empty : Table Key Value := ⟨[], by simp⟩

instance : EmptyCollection (Table Key Value) := ⟨empty⟩

instance : Inhabited (Table Key Value) := ⟨∅⟩

/-- The keys in the order in which they were first entered. -/
def keys (table : Table Key Value) : List Key :=
  table.entries.map Prod.fst

instance : Membership Key (Table Key Value) := ⟨fun table key => key ∈ table.keys⟩

@[simp]
theorem mem_keys {table : Table Key Value} {key : Key} : key ∈ table.keys ↔ key ∈ table :=
  Iff.rfl

theorem nodup_keys (table : Table Key Value) : table.keys.Nodup :=
  table.keys_nodup

theorem nodup_entries (table : Table Key Value) : table.entries.Nodup :=
  List.Pairwise.of_map Prod.fst (fun _ _ => mt (congrArg Prod.fst)) table.keys_nodup

@[simp]
theorem entries_empty : (∅ : Table Key Value).entries = [] :=
  rfl

@[simp]
theorem keys_empty : (∅ : Table Key Value).keys = [] :=
  rfl

@[simp]
theorem not_mem_empty (key : Key) : key ∉ (∅ : Table Key Value) :=
  List.not_mem_nil

variable [DecidableEq Key]

instance (key : Key) (table : Table Key Value) : Decidable (key ∈ table) :=
  inferInstanceAs (Decidable (key ∈ table.keys))

/-- The value entered last under a key. -/
def get? (table : Table Key Value) (key : Key) : Option Value :=
  table.entries.lookup key

/-- Apply a function to the value under a key; a table without the key stays as it is. -/
def modify (table : Table Key Value) (key : Key) (update : Value → Value) : Table Key Value where
  entries := table.entries.map fun entry =>
    if entry.1 = key then (entry.1, update entry.2) else entry
  keys_nodup := by
    have sameKeys : (table.entries.map fun entry =>
        if entry.1 = key then (entry.1, update entry.2) else entry).map Prod.fst =
        table.entries.map Prod.fst := by
      rw [List.map_map]
      exact List.map_congr_left fun entry _ => by
        by_cases hit : entry.1 = key <;> simp [hit]
    rw [sameKeys]
    exact table.keys_nodup

/-- Enter a value: a key that is present keeps its position, a new key goes to the end. -/
def insert (table : Table Key Value) (key : Key) (value : Value) : Table Key Value :=
  if present : key ∈ table then
    table.modify key fun _ => value
  else
    { entries := table.entries ++ [(key, value)]
      keys_nodup := by
        rw [List.map_append, List.nodup_append]
        refine ⟨table.keys_nodup, by simp, ?_⟩
        intro old oldMem new newMem same
        have newKey : new = key := by simpa using newMem
        exact present (newKey ▸ same ▸ oldMem) }

/-- Enter the pairs of a list one after the other. -/
def ofList (entries : List (Key × Value)) : Table Key Value :=
  entries.foldl (fun table entry => table.insert entry.1 entry.2) ∅

/-! ### What the operations do to the keys -/

@[simp]
theorem keys_modify (table : Table Key Value) (key : Key) (update : Value → Value) :
    (table.modify key update).keys = table.keys := by
  unfold keys modify
  rw [List.map_map]
  exact List.map_congr_left fun entry _ => by
    by_cases hit : entry.1 = key <;> simp [hit]

theorem keys_insert_of_mem {table : Table Key Value} {key : Key} (present : key ∈ table)
    (value : Value) : (table.insert key value).keys = table.keys := by
  rw [insert, dif_pos present, keys_modify]

theorem keys_insert_of_notMem {table : Table Key Value} {key : Key} (absent : key ∉ table)
    (value : Value) : (table.insert key value).keys = table.keys ++ [key] := by
  simp [insert, absent, keys]

@[simp]
theorem mem_modify {table : Table Key Value} {key other : Key} {update : Value → Value} :
    other ∈ table.modify key update ↔ other ∈ table := by
  rw [← mem_keys, keys_modify, mem_keys]

@[simp]
theorem mem_insert {table : Table Key Value} {key other : Key} {value : Value} :
    other ∈ table.insert key value ↔ other = key ∨ other ∈ table := by
  by_cases present : key ∈ table
  · rw [← mem_keys, keys_insert_of_mem present, mem_keys]
    exact ⟨Or.inr, fun either => either.elim (fun same => same ▸ present) id⟩
  · rw [← mem_keys, keys_insert_of_notMem present]
    simp [or_comm]

/-! ### What the operations do to the value under a key -/

@[simp]
theorem get?_empty (key : Key) : (∅ : Table Key Value).get? key = none :=
  rfl

private theorem lookup_cons_ite (entry : Key × Value) (rest : List (Key × Value)) (key : Key) :
    (entry :: rest).lookup key = if key = entry.1 then some entry.2 else rest.lookup key := by
  obtain ⟨name, value⟩ := entry
  by_cases same : key = name
  · simp [same]
  · have differs : (key == name) = false := beq_eq_false_iff_ne.2 same
    simp [List.lookup_cons, differs, same]

private theorem lookup_map_update (entries : List (Key × Value)) (key other : Key)
    (update : Value → Value) :
    (entries.map fun entry =>
      if entry.1 = key then (entry.1, update entry.2) else entry).lookup other =
      if other = key then (entries.lookup other).map update else entries.lookup other := by
  induction entries with
  | nil => simp
  | cons entry rest ih =>
    by_cases hit : entry.1 = key
    · by_cases same : other = key <;> simp_all [lookup_cons_ite]
    · by_cases same : other = key
      · subst same
        simp_all [lookup_cons_ite, Ne.symm hit]
      · simp_all [lookup_cons_ite]

theorem get?_modify (table : Table Key Value) (key other : Key) (update : Value → Value) :
    (table.modify key update).get? other =
      if other = key then (table.get? other).map update else table.get? other :=
  lookup_map_update table.entries key other update

@[simp]
theorem get?_modify_self (table : Table Key Value) (key : Key) (update : Value → Value) :
    (table.modify key update).get? key = (table.get? key).map update := by
  simp [get?_modify]

theorem get?_modify_of_ne (table : Table Key Value) {key other : Key} (distinct : other ≠ key)
    (update : Value → Value) : (table.modify key update).get? other = table.get? other := by
  simp [get?_modify, distinct]

theorem get?_eq_none_iff {table : Table Key Value} {key : Key} :
    table.get? key = none ↔ key ∉ table := by
  rw [get?, List.lookup_eq_none_iff, ← mem_keys, keys]
  simp only [List.mem_map, not_exists, not_and, bne_iff_ne, ne_eq]
  exact ⟨fun allOther entry member same => allOther entry member same.symm,
    fun absent entry member same => absent entry member same.symm⟩

theorem get?_isSome_iff {table : Table Key Value} {key : Key} :
    (table.get? key).isSome ↔ key ∈ table := by
  rw [← Decidable.not_iff_not, Option.not_isSome_iff_eq_none, get?_eq_none_iff]

theorem get?_insert (table : Table Key Value) (key other : Key) (value : Value) :
    (table.insert key value).get? other =
      if other = key then some value else table.get? other := by
  by_cases present : key ∈ table
  · rw [insert, dif_pos present, get?_modify]
    by_cases same : other = key
    · obtain ⟨old, found⟩ := Option.isSome_iff_exists.1 (get?_isSome_iff.2 present)
      simp [same, found]
    · simp [same]
  · have missing : table.entries.lookup key = none := get?_eq_none_iff.2 present
    rw [insert, dif_neg present, get?, get?, List.lookup_append]
    by_cases same : other = key
    · simp [same, missing]
    · simp [same, lookup_cons_ite]

@[simp]
theorem get?_insert_self (table : Table Key Value) (key : Key) (value : Value) :
    (table.insert key value).get? key = some value := by
  simp [get?_insert]

theorem get?_insert_of_ne (table : Table Key Value) {key other : Key} (distinct : other ≠ key)
    (value : Value) : (table.insert key value).get? other = table.get? other := by
  simp [get?_insert, distinct]

private theorem lookup_eq_some_iff_mem {entries : List (Key × Value)}
    (nodup : (entries.map Prod.fst).Nodup) {key : Key} {value : Value} :
    entries.lookup key = some value ↔ (key, value) ∈ entries := by
  induction entries with
  | nil => simp
  | cons entry rest ih =>
    obtain ⟨headNew, restNodup⟩ := List.nodup_cons.1 nodup
    rw [lookup_cons_ite, List.mem_cons]
    by_cases same : key = entry.1
    · have notLater : (key, value) ∉ rest := fun later =>
        headNew (same ▸ List.mem_map_of_mem later)
      simp only [same, ↓reduceIte, Option.some.injEq]
      constructor
      · rintro rfl
        exact .inl rfl
      · rintro (isHead | later)
        · rw [← isHead]
        · exact absurd (same ▸ later) notLater
    · have notHead : (key, value) ≠ entry := fun isHead => same (isHead ▸ rfl)
      simp only [same, ↓reduceIte, notHead, false_or]
      exact ih restNodup

theorem mem_entries_iff {table : Table Key Value} {key : Key} {value : Value} :
    (key, value) ∈ table.entries ↔ table.get? key = some value :=
  (lookup_eq_some_iff_mem table.keys_nodup).symm

/-- Tables that hold the same under every key have the same entries, up to order. -/
theorem perm_entries_iff {left right : Table Key Value} :
    left.entries.Perm right.entries ↔ ∀ key, left.get? key = right.get? key := by
  rw [List.perm_ext_iff_of_nodup left.nodup_entries right.nodup_entries]
  constructor
  · intro sameEntries key
    apply Option.ext
    intro value
    rw [← mem_entries_iff, ← mem_entries_iff, sameEntries]
  · rintro sameValues ⟨key, value⟩
    rw [mem_entries_iff, mem_entries_iff, sameValues]

private theorem eq_of_lookup_eq {entries others : List (Key × Value)}
    (nodup : (entries.map Prod.fst).Nodup)
    (sameKeys : entries.map Prod.fst = others.map Prod.fst)
    (sameValues : ∀ key ∈ entries.map Prod.fst, entries.lookup key = others.lookup key) :
    entries = others := by
  induction entries generalizing others with
  | nil => simpa using sameKeys.symm
  | cons entry rest ih =>
    cases others with
    | nil => simp at sameKeys
    | cons other others =>
      simp only [List.map_cons, List.cons.injEq, List.nodup_cons] at sameKeys nodup
      have sameHead : entry = other := by
        have found := sameValues entry.1 (by simp)
        simp only [lookup_cons_ite, sameKeys.1, ↓reduceIte, Option.some.injEq] at found
        exact Prod.ext sameKeys.1 found
      subst sameHead
      congr 1
      refine ih nodup.2 sameKeys.2 fun asked member => ?_
      have distinct : asked ≠ entry.1 := fun same => nodup.1 (same ▸ member)
      simpa [lookup_cons_ite, distinct] using sameValues asked (by simp [member])

/-- A table is determined by its keys in order and the value under each of them. -/
theorem ext_get? {left right : Table Key Value} (sameKeys : left.keys = right.keys)
    (sameValues : ∀ key, left.get? key = right.get? key) : left = right :=
  ext (eq_of_lookup_eq left.keys_nodup sameKeys fun key _ => sameValues key)

/-- Changing the value that was just entered is entering the changed value. -/
theorem modify_insert (table : Table Key Value) (key : Key) (value : Value)
    (update : Value → Value) :
    (table.insert key value).modify key update = table.insert key (update value) := by
  refine ext_get? ?_ fun other => ?_
  · rw [keys_modify]
    by_cases present : key ∈ table
    · rw [keys_insert_of_mem present, keys_insert_of_mem present]
    · rw [keys_insert_of_notMem present, keys_insert_of_notMem present]
  · rw [get?_modify, get?_insert, get?_insert]
    split <;> rfl

/-- Of the function that is applied, only what it makes of the value under the key matters. -/
theorem modify_congr {table : Table Key Value} {key : Key} {update other : Value → Value}
    (same : ∀ value, table.get? key = some value → update value = other value) :
    table.modify key update = table.modify key other := by
  refine ext_get? (by simp) fun asked => ?_
  rw [get?_modify, get?_modify]
  split
  case isFalse => rfl
  case isTrue isKey =>
    rw [isKey]
    exact Option.map_congr same

theorem modify_modify (table : Table Key Value) (key : Key) (update later : Value → Value) :
    (table.modify key update).modify key later = table.modify key fun value =>
      later (update value) := by
  refine ext_get? (by simp) fun asked => ?_
  simp only [get?_modify]
  split
  case isFalse => rfl
  case isTrue => rw [Option.map_map]; rfl

theorem modify_id (table : Table Key Value) (key : Key) :
    (table.modify key fun value => value) = table := by
  refine ext_get? (by simp) fun asked => ?_
  rw [get?_modify]
  split
  · exact Option.map_id'
  · rfl

end Table

end ContentTree
