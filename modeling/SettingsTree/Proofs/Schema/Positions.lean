import SettingsTree.Proofs.Schema.Paths
import SettingsTree.Table

/-!
# Definitions under positions

A list of definitions may be kept with a table of the positions of their names, which saves
searching the list. Each insertion then has to write both: in the place of an old definition the
table stays as it is, and at the end of the list it gets a new position. The table keeps telling
where each name stands, so that the definitions are the ones that the plain list has, and are
found where a search finds them.
-/
namespace SettingsTree

namespace Definition

theorem insert_of_not_mem {d : Definition} {ds : List Definition} (hn : d.name ∉ ds.map name) :
    d.insert ds = ds ++ [d] := by
  induction ds with
  | nil => rfl
  | cons head rest ih =>
      rw [List.map_cons, List.mem_cons, not_or] at hn
      rw [insert, if_neg (Ne.symm hn.1), ih hn.2, List.cons_append]

theorem insert_eq_set {d : Definition} {ds : List Definition} {position : Nat}
    (hn : (ds.map name).Nodup) (hp : (ds.map name)[position]? = some d.name) :
    d.insert ds = ds.set position d := by
  induction ds generalizing position with
  | nil => cases hp
  | cons head rest ih =>
      rw [List.map_cons, List.nodup_cons] at hn
      rw [List.map_cons] at hp
      cases position with
      | zero =>
          have hsame : head.name = d.name := Option.some.inj hp
          rw [insert, if_pos hsame, List.set_cons_zero]
      | succ position =>
          rw [List.getElem?_cons_succ] at hp
          have hother : head.name ≠ d.name := fun he =>
            hn.1 (he ▸ List.mem_of_getElem? hp)
          rw [insert, if_neg hother, ih hn.2 hp, List.set_cons_succ]

end Definition

/-- Definitions with the positions of their names. -/
structure Listing where
  definitions : List Definition
  positions : Table Nat

namespace Listing

def empty : Listing := ⟨[], []⟩

/-- Writes a definition over the one at the position of its name, or else at the end. -/
def insert (l : Listing) (d : Definition) : Listing :=
  match Table.find? d.name l.positions with
  | some position => { l with definitions := l.definitions.set position d }
  | none => ⟨l.definitions ++ [d], Table.insert d.name l.definitions.length l.positions⟩

def ofInsertions (ds : List Definition) : Listing :=
  ds.foldl insert empty

def lookup (l : Listing) (name : String) : Option Definition :=
  (Table.find? name l.positions).bind fun position => l.definitions[position]?

def contains (l : Listing) (name : String) : Bool :=
  (Table.find? name l.positions).isSome

/-- The table tells of each position which name stands there. -/
def Aligned (l : Listing) : Prop :=
  ∀ name position, Table.find? name l.positions = some position ↔
    (l.definitions.map Definition.name)[position]? = some name

namespace Aligned
variable {l : Listing} {name : String}

theorem nodup (h : l.Aligned) : (l.definitions.map Definition.name).Nodup := by
  refine List.nodup_iff_getElem?_ne_getElem?.2 fun i j hlt hj he => ?_
  obtain ⟨name, hname⟩ : ∃ name, (l.definitions.map Definition.name)[j]? = some name :=
    ⟨_, List.getElem?_eq_getElem hj⟩
  have hi := (h name i).2 (he.trans hname)
  rw [(h name j).2 hname] at hi
  exact Nat.ne_of_gt hlt (Option.some.inj hi)

theorem mem_names_iff (h : l.Aligned) :
    name ∈ l.definitions.map Definition.name ↔ (Table.find? name l.positions).isSome := by
  rw [List.mem_iff_getElem?, Option.isSome_iff_exists]
  exact exists_congr fun position => (h name position).symm

theorem lookup_eq (h : l.Aligned) (name : String) :
    l.lookup name = Definition.find? name l.definitions := by
  rw [lookup]
  cases hp : Table.find? name l.positions with
  | none =>
      have hn : name ∉ l.definitions.map Definition.name := by rw [h.mem_names_iff, hp]; simp
      exact (Definition.find?_eq_none_iff.2 hn).symm
  | some position =>
      have hname := (h name position).1 hp
      rw [List.getElem?_map, Option.map_eq_some_iff] at hname
      obtain ⟨d, hd, rfl⟩ := hname
      rw [Option.bind_some, hd, Definition.find?_of_mem h.nodup (List.mem_of_getElem? hd)]

theorem contains_eq (h : l.Aligned) (name : String) :
    l.contains name = (Definition.find? name l.definitions).isSome := by
  rw [contains, Bool.eq_iff_iff, ← h.mem_names_iff, Option.isSome_iff_ne_none, ne_eq,
    Definition.find?_eq_none_iff, not_not]

theorem definitions_insert (h : l.Aligned) (d : Definition) :
    (l.insert d).definitions = d.insert l.definitions := by
  unfold insert
  split
  · next position hp => exact (Definition.insert_eq_set h.nodup ((h _ _).1 hp)).symm
  · next hp =>
      refine (Definition.insert_of_not_mem ?_).symm
      rw [h.mem_names_iff, hp]
      simp

/-- An insertion keeps the table in line with the list. -/
theorem insert (h : l.Aligned) (d : Definition) : (l.insert d).Aligned := by
  intro name position
  rw [h.definitions_insert, Definition.names_insert]
  unfold Listing.insert
  split
  · next old hp =>
      rw [if_pos (List.mem_of_getElem? ((h _ _).1 hp))]
      exact h name position
  · next hp =>
      have hnew : d.name ∉ l.definitions.map Definition.name := by rw [h.mem_names_iff, hp]; simp
      have hend : (l.definitions.map Definition.name ++ [d.name])[position]? = some name ↔
          (l.definitions.map Definition.name)[position]? = some name ∨
            l.definitions.length = position ∧ d.name = name := by
        grind
      rw [if_neg hnew, Table.find?_insert, hend]
      by_cases hn : name = d.name
      · have hnone : (l.definitions.map Definition.name)[position]? ≠ some name := fun hm =>
          hnew (hn ▸ List.mem_of_getElem? hm)
        rw [if_pos hn, or_iff_right hnone, and_iff_left hn.symm]
        exact Option.some_inj
      · rw [if_neg hn, or_iff_left fun hlast => hn hlast.2.symm]
        exact h name position

end Aligned

theorem aligned_empty : empty.Aligned := fun _ _ => by simp [empty]

/-- However definitions were inserted one after the other, the table is in line with the list,
and the list is the plain one. -/
theorem aligned_ofInsertions (ds : List Definition) :
    (ofInsertions ds).Aligned ∧ (ofInsertions ds).definitions = Definition.insertAll ds [] := by
  have key : ∀ (ds : List Definition) (l : Listing), l.Aligned →
      (ds.foldl insert l).Aligned ∧
        (ds.foldl insert l).definitions = Definition.insertAll ds l.definitions := by
    intro ds
    induction ds with
    | nil => exact fun l hl => ⟨hl, rfl⟩
    | cons d rest ih =>
        intro l hl
        obtain ⟨haligned, hlist⟩ := ih (l.insert d) (hl.insert d)
        rw [hl.definitions_insert] at hlist
        exact ⟨haligned, hlist⟩
  exact key ds empty aligned_empty

end Listing
end SettingsTree
