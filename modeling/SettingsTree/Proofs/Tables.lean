import SettingsTree.Table
import Mathlib.Tactic.SplitIfs

/-!
# Changing and rewriting tables

Mapping the entries of a table keeps its names, so it keeps them ascending, and
it commutes with writing. In an ascending table an entry is found exactly when
it is listed, and writing an entry that is there already changes nothing.
-/
namespace SettingsTree.Table
variable {α β : Type}

instance (t : Table α) : Decidable (Sorted t) :=
  inferInstanceAs (Decidable ((names t).Pairwise (· < ·)))

@[simp] theorem names_mapEntries (f : α → β) (t : Table α) :
    names (mapEntries f t) = names t := by
  simp only [names, mapEntries, List.map_map]
  exact List.map_congr_left fun _ _ => rfl

theorem Sorted.mapEntries {t : Table α} (h : Sorted t) (f : α → β) :
    Sorted (mapEntries f t) := by
  unfold Sorted
  rw [names_mapEntries]
  exact h

theorem mapEntries_insert (f : α → β) (name : String) (entry : α) (t : Table α) :
    mapEntries f (insert name entry t) = insert name (f entry) (mapEntries f t) := by
  induction t with
  | nil => rfl
  | cons head rest ih =>
      obtain ⟨key, old⟩ := head
      have hs : mapEntries f ((key, old) :: rest) = (key, f old) :: mapEntries f rest := rfl
      rw [hs]
      by_cases he : key = name
      · simp only [insert, if_pos he]
        rfl
      · by_cases hl : name < key
        · simp only [insert, if_neg he, if_pos hl]
          rfl
        · simp only [insert, if_neg he, if_neg hl]
          rw [← ih]
          rfl

theorem insert_insert (name : String) (first second : α) (t : Table α) :
    insert name second (insert name first t) = insert name second t := by
  induction t with
  | nil => exact if_pos rfl
  | cons head rest ih =>
      obtain ⟨key, old⟩ := head
      by_cases he : key = name
      · simp [insert, he]
      · by_cases hl : name < key
        · simp [insert, he, hl]
        · simp [insert, he, hl, ih]

theorem mem_of_find? {name : String} {entry : α} {t : Table α}
    (h : find? name t = some entry) : (name, entry) ∈ t := by
  induction t with
  | nil => simp at h
  | cons head rest ih =>
      obtain ⟨key, old⟩ := head
      rw [find?_cons] at h
      split_ifs at h with he
      · obtain rfl := Option.some.inj h
        simp [he]
      · exact List.mem_cons_of_mem _ (ih h)

theorem Sorted.find?_of_mem {name : String} {entry : α} {t : Table α} (h : Sorted t)
    (hm : (name, entry) ∈ t) : find? name t = some entry := by
  induction t with
  | nil => simp at hm
  | cons head rest ih =>
      obtain ⟨key, old⟩ := head
      obtain ⟨hfirst, hrest⟩ := List.pairwise_cons.1 h
      rcases List.mem_cons.1 hm with he | hr
      · obtain ⟨rfl, rfl⟩ := Prod.mk.inj he
        rw [find?_cons, if_pos rfl]
      · have hlt : key < name := hfirst name (List.mem_map_of_mem hr)
        rw [find?_cons, if_neg (fun he => String.lt_irrefl _ (he ▸ hlt))]
        exact ih hrest hr

theorem Sorted.insert_find? {name : String} {entry : α} {t : Table α} (h : Sorted t)
    (hf : find? name t = some entry) : Table.insert name entry t = t := by
  refine Sorted.ext (h.insert name entry) h fun other => ?_
  rw [find?_insert]
  split_ifs with he
  · rw [he, hf]
  · rfl

theorem sorted_nil : Sorted ([] : Table α) := List.Pairwise.nil

theorem Sorted.rest {name : String} {entry : α} {rest : Table α}
    (h : Sorted ((name, entry) :: rest)) : Sorted rest :=
  (List.pairwise_cons.1 h).2

theorem Sorted.find?_rest {name : String} {entry : α} {rest : Table α}
    (h : Sorted ((name, entry) :: rest)) : find? name rest = none :=
  find?_eq_none_iff.2 fun hm => String.lt_irrefl _ ((List.pairwise_cons.1 h).1 name hm)

end SettingsTree.Table
