/-!
# Tables of named entries

A table lists entries under names in ascending order of the names, each name
once. The order is not part of the type: `Table.Sorted` states it, and writing
keeps it (`Table.Sorted.insert`). Two ascending tables that answer every look-up
alike are equal (`Table.Sorted.ext`), so the order in which entries were written
leaves no trace.
-/
namespace SettingsTree

/-- Entries under names, in ascending order of the names. -/
abbrev Table (α : Type) := List (String × α)

namespace Table
variable {α β : Type}

def find? (name : String) : Table α → Option α
  | [] => none
  | (key, entry) :: rest => if key = name then some entry else find? name rest

/-- Writes the entry under a name: it replaces an entry of that name, and
otherwise comes before the first greater name. -/
def insert (name : String) (entry : α) : Table α → Table α
  | [] => [(name, entry)]
  | (key, old) :: rest =>
      if key = name then (name, entry) :: rest
      else if name < key then (name, entry) :: (key, old) :: rest
      else (key, old) :: insert name entry rest

def erase (name : String) : Table α → Table α
  | [] => []
  | (key, entry) :: rest =>
      if key = name then erase name rest else (key, entry) :: erase name rest

def names (table : Table α) : List String :=
  table.map Prod.fst

/-- The same names with every entry changed by `f`. -/
def mapEntries (f : α → β) (table : Table α) : Table β :=
  table.map fun (name, entry) => (name, f entry)

/-- The names ascend, so no name occurs twice. -/
def Sorted (table : Table α) : Prop :=
  (names table).Pairwise (· < ·)

@[simp] theorem find?_nil (name : String) : find? name ([] : Table α) = none := rfl

theorem find?_cons (name key : String) (entry : α) (rest : Table α) :
    find? name ((key, entry) :: rest) = if key = name then some entry else find? name rest :=
  rfl

theorem mem_names_insert {name other : String} {entry : α} {table : Table α} :
    other ∈ names (insert name entry table) ↔ other = name ∨ other ∈ names table := by
  induction table with
  | nil => simp [insert, names]
  | cons head rest ih =>
      obtain ⟨key, old⟩ := head
      have inRest : other ∈ names (insert name entry rest) ↔ other = name ∨ other ∈ names rest := ih
      simp only [names] at inRest
      by_cases same : key = name
      · subst same
        simp [insert, names]
      · by_cases before : name < key
        · simp [insert, names, same, before]
        · simp only [insert, names, same, before, if_false, List.map_cons, List.mem_cons, inRest]
          exact or_left_comm

theorem Sorted.insert {table : Table α} (sorted : Sorted table) (name : String) (entry : α) :
    Sorted (Table.insert name entry table) := by
  induction table with
  | nil => simp [Table.insert, Sorted, names]
  | cons head rest ih =>
      obtain ⟨key, old⟩ := head
      obtain ⟨first, ascending⟩ := List.pairwise_cons.1 sorted
      by_cases same : key = name
      · subst same
        simpa [Table.insert, Sorted, names] using sorted
      · by_cases before : name < key
        · rw [Table.insert, if_neg same, if_pos before]
          refine List.pairwise_cons.2 ⟨?_, sorted⟩
          intro other member
          rcases List.mem_cons.1 member with rfl | later
          · exact before
          · exact String.lt_trans before (first other later)
        · rw [Table.insert, if_neg same, if_neg before]
          refine List.pairwise_cons.2 ⟨?_, ih ascending⟩
          intro other member
          rcases mem_names_insert.1 member with rfl | later
          · exact Std.lt_of_le_of_ne (String.not_lt.1 before) same
          · exact first other later

@[simp] theorem find?_insert_self (name : String) (entry : α) (table : Table α) :
    find? name (insert name entry table) = some entry := by
  induction table with
  | nil => simp [insert, find?]
  | cons head rest ih =>
      obtain ⟨key, old⟩ := head
      by_cases same : key = name
      · simp [insert, find?, same]
      · by_cases before : name < key <;> simp [insert, find?, same, before, ih]

theorem find?_insert_of_ne {name other : String} (different : other ≠ name) (entry : α)
    (table : Table α) : find? other (insert name entry table) = find? other table := by
  induction table with
  | nil => simp [insert, find?, Ne.symm different]
  | cons head rest ih =>
      obtain ⟨key, old⟩ := head
      by_cases same : key = name
      · subst same
        simp [insert, find?, Ne.symm different]
      · by_cases before : name < key
        · simp [insert, find?, same, before, Ne.symm different]
        · simp [insert, find?, same, before, ih]

theorem find?_insert (name other : String) (entry : α) (table : Table α) :
    find? other (insert name entry table) =
      if other = name then some entry else find? other table := by
  by_cases same : other = name
  · simp [same]
  · simp [same, find?_insert_of_ne same]

theorem find?_erase (name other : String) (table : Table α) :
    find? other (erase name table) = if other = name then none else find? other table := by
  induction table with
  | nil => simp [erase]
  | cons head rest ih =>
      obtain ⟨key, entry⟩ := head
      by_cases gone : key = name
      · subst gone
        rw [erase, if_pos rfl, ih]
        by_cases asked : other = key
        · simp [asked]
        · simp [asked, find?_cons, Ne.symm asked]
      · by_cases here : key = other
        · subst here
          simp [erase, gone, find?_cons]
        · simp [erase, gone, find?_cons, here, ih]

theorem find?_eq_none_iff {name : String} {table : Table α} :
    find? name table = none ↔ name ∉ names table := by
  induction table with
  | nil => simp [names]
  | cons head rest ih =>
      obtain ⟨key, entry⟩ := head
      by_cases same : key = name
      · subst same
        simp [find?, names]
      · simpa [find?, names, same, Ne.symm same] using ih

theorem Sorted.find?_eq_none_of_lt {name key : String} {entry : α} {rest : Table α}
    (sorted : Sorted ((key, entry) :: rest)) (below : name < key) :
    find? name ((key, entry) :: rest) = none := by
  obtain ⟨first, _⟩ := List.pairwise_cons.1 sorted
  refine find?_eq_none_iff.2 fun member => ?_
  rcases List.mem_cons.1 member with rfl | later
  · exact String.lt_irrefl _ below
  · exact String.lt_asymm below (first name later)

/-- Ascending tables that answer every look-up alike are equal. -/
theorem Sorted.ext {a b : Table α} (sortedA : Sorted a) (sortedB : Sorted b)
    (alike : ∀ name, find? name a = find? name b) : a = b := by
  induction a generalizing b with
  | nil =>
      cases b with
      | nil => rfl
      | cons head rest =>
          obtain ⟨key, entry⟩ := head
          simpa [find?_cons] using alike key
  | cons head rest ih =>
      obtain ⟨key, entry⟩ := head
      cases b with
      | nil => simpa [find?_cons] using alike key
      | cons other others =>
          obtain ⟨key', entry'⟩ := other
          have keys : key = key' := by
            apply Classical.byContradiction
            intro different
            by_cases before : key < key'
            · have found := alike key
              rw [sortedB.find?_eq_none_of_lt before] at found
              simp [find?_cons] at found
            · have after : key' < key :=
                Std.lt_of_le_of_ne (String.not_lt.1 before) (Ne.symm different)
              have found := alike key'
              rw [sortedA.find?_eq_none_of_lt after] at found
              simp [find?_cons] at found
          subst keys
          have entries : entry = entry' := by simpa [find?_cons] using alike key
          subst entries
          obtain ⟨firstA, ascendingA⟩ := List.pairwise_cons.1 sortedA
          obtain ⟨firstB, ascendingB⟩ := List.pairwise_cons.1 sortedB
          have tails : rest = others := by
            refine ih ascendingA ascendingB fun name => ?_
            by_cases here : key = name
            · subst here
              have absentA : key ∉ names rest :=
                fun member => String.lt_irrefl _ (firstA key member)
              have absentB : key ∉ names others :=
                fun member => String.lt_irrefl _ (firstB key member)
              rw [find?_eq_none_iff.2 absentA, find?_eq_none_iff.2 absentB]
            · simpa [find?_cons, here] using alike name
          rw [tails]

@[simp] theorem find?_mapEntries (f : α → β) (name : String) (table : Table α) :
    find? name (mapEntries f table) = (find? name table).map f := by
  induction table with
  | nil => rfl
  | cons head rest ih =>
      obtain ⟨key, entry⟩ := head
      by_cases same : key = name
      · simp [mapEntries, find?, same]
      · simpa [mapEntries, find?, same] using ih

end Table
end SettingsTree
