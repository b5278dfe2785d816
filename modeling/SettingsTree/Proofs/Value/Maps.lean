import Mathlib.Data.List.Induction
import Mathlib.Data.Option.Basic
import SettingsTree.Proofs.Tables
import SettingsTree.Value.Order

/-!
# Maps from texts to values

A map with texts as keys lists a table. Writing an entry of the map is writing an entry of the
table, so a map that is made from fields has under each name the value that was written last.
Two such maps are equal in the order of values exactly if they have the same names with equal
values. Every value is equal to itself, and a null value to nothing else.
-/
namespace SettingsTree

namespace Table
variable {α : Type} {name : String} {entry : α} {entries : List (String × α)}

/-- The table that results from writing entries one after the other. -/
def ofList (entries : List (String × α)) : Table α :=
  entries.foldl (fun t (name, entry) => insert name entry t) []

theorem ofList_concat (entries : List (String × α)) (name : String) (entry : α) :
    ofList (entries ++ [(name, entry)]) = insert name entry (ofList entries) := by
  rw [ofList, List.foldl_append]
  rfl

theorem sorted_ofList (entries : List (String × α)) : Sorted (ofList entries) := by
  induction entries using List.reverseRecOn with
  | nil => exact sorted_nil
  | append_singleton rest last ih =>
      rw [ofList_concat]
      exact ih.insert last.1 last.2

theorem mem_of_find?_ofList (h : find? name (ofList entries) = some entry) :
    (name, entry) ∈ entries := by
  induction entries using List.reverseRecOn with
  | nil => cases h
  | append_singleton rest last ih =>
      rw [ofList_concat, find?_insert] at h
      rw [List.mem_append, List.mem_singleton]
      split_ifs at h with he
      · exact .inr (Prod.ext he (Option.some.inj h).symm)
      · exact .inl (ih h)

theorem exists_find?_ofList (h : (name, entry) ∈ entries) :
    ∃ last, find? name (ofList entries) = some last := by
  induction entries using List.reverseRecOn with
  | nil => cases h
  | append_singleton rest last ih =>
      rw [ofList_concat, find?_insert]
      split_ifs with he
      · exact ⟨last.2, rfl⟩
      · rcases List.mem_append.1 h with hr | hl
        · exact ih hr
        · exact absurd (congrArg Prod.fst (List.mem_singleton.1 hl)) he

theorem find?_ofList (h : (name, entry) ∈ entries)
    (unique : ∀ other, (name, other) ∈ entries → other = entry) :
    find? name (ofList entries) = some entry := by
  obtain ⟨last, hl⟩ := exists_find?_ofList h
  rw [hl, unique last (mem_of_find?_ofList hl)]

/-- Ascending tables with related entries under the same names are related entry by entry. -/
theorem Sorted.forall₂ {R : α → α → Prop} {t u : Table α} (ht : Sorted t) (hu : Sorted u)
    (h : ∀ name, Option.Rel R (find? name t) (find? name u)) :
    List.Forall₂ (fun a b => a.1 = b.1 ∧ R a.2 b.2) t u := by
  induction t generalizing u with
  | nil =>
      cases u with
      | nil => exact .nil
      | cons head rest =>
          have hhead := h head.1
          rw [find?_cons, if_pos rfl] at hhead
          cases hhead
  | cons head rest ih =>
      obtain ⟨key, entry⟩ := head
      cases u with
      | nil =>
          have hhead := h key
          rw [find?_cons, if_pos rfl] at hhead
          cases hhead
      | cons other others =>
          obtain ⟨key', entry'⟩ := other
          have hsame : key = key' := by
            by_contra hne
            by_cases hlt : key < key'
            · have hk := h key
              rw [hu.find?_eq_none_of_lt hlt, find?_cons, if_pos rfl] at hk
              cases hk
            · have hgt : key' < key := Std.lt_of_le_of_ne (String.not_lt.1 hlt) (Ne.symm hne)
              have hk := h key'
              rw [ht.find?_eq_none_of_lt hgt, find?_cons, if_pos rfl] at hk
              cases hk
          subst hsame
          have hentry : R entry entry' := by
            have hk := h key
            rw [find?_cons, if_pos rfl, find?_cons, if_pos rfl] at hk
            cases hk
            assumption
          refine .cons ⟨rfl, hentry⟩ (ih ht.rest hu.rest fun name => ?_)
          by_cases he : key = name
          · rw [← he, ht.find?_rest, hu.find?_rest]
            exact .none
          · have hk := h name
            rwa [find?_cons, if_neg he, find?_cons, if_neg he] at hk

theorem rel_find? (R : α → α → Prop) {t u : Table α}
    (h : List.Forall₂ (fun a b => a.1 = b.1 ∧ R a.2 b.2) t u) (name : String) :
    Option.Rel R (find? name t) (find? name u) := by
  induction h with
  | nil => exact .none
  | @cons a b rest others hab _ ih =>
      obtain ⟨key, entry⟩ := a
      obtain ⟨key', entry'⟩ := b
      obtain ⟨rfl, hentry⟩ : key = key' ∧ R entry entry' := hab
      rw [find?_cons, find?_cons]
      split_ifs
      · exact .some hentry
      · exact ih

end Table

namespace Value
variable {name : String} {v w : Value}

mutual

theorem compare_self : ∀ v : Value, v.compare v = .eq
  | .bool b => by rw [compare, Std.ReflOrd.compare_self]
  | .int n => by rw [compare, Std.ReflOrd.compare_self, Std.ReflOrd.compare_self]; rfl
  | .float x => by rw [compare, Std.ReflOrd.compare_self, Std.ReflOrd.compare_self]; rfl
  | .char c => by rw [compare, Std.ReflOrd.compare_self]
  | .str text => by rw [compare, Std.ReflOrd.compare_self]
  | .unit => by rw [compare]
  | .nothing => by rw [compare]
  | .just inner => by rw [compare, compare_self inner]
  | .newtype inner => by rw [compare, compare_self inner]
  | .seq items => by rw [compare, compareItems_self items]
  | .map entries => by rw [compare, compareEntries_self entries]
  | .bytes octets => by rw [compare, Std.ReflOrd.compare_self]

theorem compareItems_self : ∀ items : List Value, compareItems items items = .eq
  | [] => by rw [compareItems]
  | v :: rest => by rw [compareItems, compare_self v, compareItems_self rest]; rfl

theorem compareEntries_self : ∀ entries : List (Value × Value),
    compareEntries entries entries = .eq
  | [] => by rw [compareEntries]
  | (key, v) :: rest => by
      rw [compareEntries, compare_self key, compare_self v, compareEntries_self rest]; rfl

end

theorem same_self (v : Value) : v.same v = true := by
  rw [same, compare_self]
  rfl

theorem same_null_iff (h : v.isNull = true) : w.same v = true ↔ w = v := by
  cases v with
  | nothing | unit => cases w <;> simp [same, compare, rank, Ord.compare, compareOfLessAndEq]
  | bool | int | float | char | str | just | newtype | seq | map | bytes => cases h

theorem compare_str (a b : String) :
    (Value.str a).compare (.str b) = if a < b then .lt else if a = b then .eq else .gt := by
  rw [compare]
  rfl

/-- The entries of a map that has the names of a table as keys. -/
def entriesOf (t : Table Value) : List (Value × Value) :=
  t.map fun (name, v) => (.str name, v)

theorem entriesOf_cons (name : String) (v : Value) (rest : Table Value) :
    entriesOf ((name, v) :: rest) = (.str name, v) :: entriesOf rest := rfl

theorem insertEntry_entriesOf (name : String) (v : Value) (t : Table Value) :
    insertEntry (.str name) v (entriesOf t) = entriesOf (Table.insert name v t) := by
  induction t with
  | nil => rfl
  | cons head rest ih =>
      obtain ⟨key, old⟩ := head
      rw [entriesOf_cons, insertEntry, compare_str, Table.insert]
      by_cases he : key = name
      · subst he
        rw [if_neg (String.lt_irrefl key), if_pos rfl, if_pos rfl]
        rfl
      · rw [if_neg he, if_neg (Ne.symm he)]
        by_cases hlt : name < key
        · rw [if_pos hlt, if_pos hlt]
          rfl
        · rw [if_neg hlt, if_neg hlt]
          exact congrArg _ ih

theorem ofFields_eq (fields : List (String × Value)) :
    ofFields fields = .map (entriesOf (Table.ofList fields)) := by
  rw [ofFields, ofPairs, List.foldl_map]
  refine congrArg Value.map ?_
  induction fields using List.reverseRecOn with
  | nil => rfl
  | append_singleton rest last ih =>
      rw [List.foldl_append, ih, Table.ofList_concat]
      exact insertEntry_entriesOf last.1 last.2 _

theorem compareEntries_entriesOf {t u : Table Value} :
    compareEntries (entriesOf t) (entriesOf u) = .eq ↔
      List.Forall₂ (fun a b => a.1 = b.1 ∧ a.2.same b.2 = true) t u := by
  induction t generalizing u with
  | nil =>
      cases u with
      | nil => exact iff_of_true (by simp [entriesOf, compareEntries]) .nil
      | cons => exact iff_of_false (by simp [entriesOf, compareEntries]) nofun
  | cons head rest ih =>
      obtain ⟨key, v⟩ := head
      cases u with
      | nil => exact iff_of_false (by simp [entriesOf, compareEntries]) nofun
      | cons other others =>
          obtain ⟨key', w⟩ := other
          have hkey : (Value.str key).compare (.str key') = .eq ↔ key = key' := by
            rw [compare]
            exact Std.LawfulEqOrd.compare_eq_iff_eq
          have hrest := ih (u := others)
          simp only [entriesOf] at hrest
          simp only [entriesOf, List.map_cons, compareEntries, Ordering.then_eq_eq, hkey, hrest,
            List.forall₂_cons, and_assoc, same, beq_iff_eq]

/-- Maps of ascending tables are equal exactly if the same names have equal values. -/
theorem same_entriesOf_iff {t u : Table Value} (ht : Table.Sorted t) (hu : Table.Sorted u) :
    (Value.map (entriesOf t)).same (.map (entriesOf u)) = true ↔
      ∀ name, Option.Rel (fun v w => v.same w = true) (Table.find? name t)
        (Table.find? name u) := by
  rw [same, compare, beq_iff_eq, compareEntries_entriesOf]
  exact ⟨Table.rel_find? fun v w : Value => v.same w = true, ht.forall₂ hu⟩

end Value
end SettingsTree
