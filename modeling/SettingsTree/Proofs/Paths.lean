import SettingsTree.Identifier
import SettingsTree.Path
import SettingsTree.Proofs.Schema.Heap
import SettingsTree.Proofs.Schema.Paths

/-!
# Dotted texts of paths

Segments without dots that are joined with dots are read back as they were. Scripts declare
identifiers only, and no identifier has a dot in it. So the text of a path through declared names
leads to where the path leads.
-/
namespace SettingsTree

theorem Text.cut_append {separator : Char} {text : List Char} (absent : separator ∉ text)
    (later : List Char) :
    cut separator (text ++ separator :: later) =
      (text, (cut separator later).1 :: (cut separator later).2) := by
  induction text with
  | nil => simp [cut]
  | cons c rest ih =>
      simp only [List.mem_cons, not_or] at absent
      obtain ⟨different, inRest⟩ := absent
      simp [cut, ih inRest, Ne.symm different]

theorem Text.cut_intercalate {separator : Char} {first : List Char} {others : List (List Char)}
    (absent : ∀ text ∈ first :: others, separator ∉ text) :
    cut separator ([separator].intercalate (first :: others)) = (first, others) := by
  induction others generalizing first with
  | nil =>
      rw [List.intercalate_singleton]
      exact cut_of_not_mem (absent first List.mem_cons_self)
  | cons second rest ih =>
      obtain ⟨hfirst, hothers⟩ := List.forall_mem_cons.1 absent
      rw [List.intercalate_cons_cons, List.append_assoc, List.singleton_append,
        cut_append hfirst, ih hothers]

/-- What was cut is put together again by writing the separator between the parts. -/
theorem Text.intercalate_cut (separator : Char) (text : List Char) :
    [separator].intercalate ((cut separator text).1 :: (cut separator text).2) = text := by
  induction text with
  | nil => rfl
  | cons c rest ih =>
      rw [cut]
      split_ifs with hc
      · rw [List.intercalate_cons_cons, ih, hc]
        rfl
      · refine Eq.trans ?_ (congrArg (c :: ·) ih)
        cases (cut separator rest).2 with
        | nil => simp only [List.intercalate_singleton]
        | cons second others => simp only [List.intercalate_cons_cons, List.cons_append]

theorem not_dot_mem_of_isIdentifier {name : String} (h : isIdentifier name = true) :
    '.' ∉ name.toList := by
  unfold isIdentifier at h
  split at h
  · cases h
  · next first rest htext =>
      rw [Bool.and_eq_true, List.all_eq_true] at h
      rw [htext, List.mem_cons, not_or]
      refine ⟨?_, fun hdot => ?_⟩
      · rintro rfl
        exact absurd h.1 (by decide)
      · exact absurd (h.2 '.' hdot) (by decide)

namespace Path

/-- The path as seen from outside the group of a name. -/
def under (name : String) (path : Path) : Path :=
  ⟨name :: path.parents, path.leaf⟩

theorem under_injective (name : String) : Function.Injective (under name) := by
  rintro ⟨parents, leaf⟩ ⟨parents', leaf'⟩ h
  simpa [under] using h

theorem segments_under (name : String) (path : Path) :
    (path.under name).segments = name :: path.segments := rfl

theorem ofSegments_segments (parents : List String) (leaf : String) :
    ∃ first others, (Path.mk parents leaf).segments = first :: others ∧
      ofSegments first others = ⟨parents, leaf⟩ := by
  induction parents with
  | nil => exact ⟨leaf, [], rfl, rfl⟩
  | cons name rest ih =>
      obtain ⟨second, others, hsegments, hpath⟩ := ih
      refine ⟨name, second :: others, congrArg (name :: ·) hsegments, ?_⟩
      rw [ofSegments, hpath]

/-- A path whose segments have no dots is read back from its text. -/
theorem parse_join {path : Path} (h : ∀ segment ∈ path.segments, '.' ∉ segment.toList) :
    parse path.join = path := by
  obtain ⟨first, others, hsegments, hpath⟩ := ofSegments_segments path.parents path.leaf
  have htext : path.join.toList = ['.'].intercalate (first.toList :: others.map String.toList) := by
    rw [join, String.toList_intercalate]
    exact congrArg (fun segments => ['.'].intercalate (segments.map String.toList)) hsegments
  have hcut : Text.cut '.' (['.'].intercalate (first.toList :: others.map String.toList)) =
      (first.toList, others.map String.toList) := by
    refine Text.cut_intercalate fun text ht => ?_
    rw [← List.map_cons, ← hsegments] at ht
    obtain ⟨segment, hs, rfl⟩ := List.mem_map.1 ht
    exact h segment hs
  rw [parse, htext, hcut]
  simp only [List.map_map, Function.comp_def, String.ofList_toList, List.map_id']
  exact hpath

theorem join_parse (text : String) : (parse text).join = text := by
  have hsegments : (parse text).segments =
      ((Text.cut '.' text.toList).1 :: (Text.cut '.' text.toList).2).map String.ofList :=
    segments_ofSegments ..
  apply String.toList_injective
  rw [join, hsegments, String.toList_intercalate, List.map_map]
  simp only [Function.comp_def, String.toList_ofList, List.map_id']
  exact Text.intercalate_cut '.' text.toList

end Path

/-- All names are identifiers, at every depth. -/
def Schema.Named (s : Schema) : Prop :=
  s.All fun d => isIdentifier d.name = true

theorem Schema.Named.segments {s : Schema} {path : Path} {d : Definition} (h : s.Named)
    (hd : s.at? path = some d) : ∀ segment ∈ path.segments, isIdentifier segment = true := by
  obtain ⟨parents, leaf⟩ := path
  induction parents generalizing s with
  | nil =>
      rw [at?_nil] at hd
      obtain ⟨hm, rfl⟩ := lookup_some hd
      exact List.forall_mem_singleton.2 (h.each d hm)
  | cons name rest ih =>
      obtain ⟨outer, inner, hl, hg, hbelow⟩ := at?_cons_eq_some.1 hd
      obtain ⟨hm, rfl⟩ := lookup_some hl
      exact List.forall_mem_cons.2 ⟨h.each outer hm, ih (h.inside hm hg) hbelow⟩

namespace Scope
variable {scope : Scope}

theorem named_add (h : scope.schema.Named) (supply : Supply) (name : String) (options : Options)
    {group : Option Schema} (hg : ∀ inner, group = some inner → inner.Named) :
    (scope.add supply name options group).state.schema.Named := by
  unfold add
  split
  · exact h
  · next d hd =>
      obtain ⟨_, rfl, hname⟩ := Definition.build_ok hd
      exact Schema.All.declare h hname hg

theorem named_incorporate (h : scope.schema.Named) (supply : Supply) {other : Schema}
    (ho : other.Named) : (scope.incorporate supply other).state.schema.Named :=
  Schema.All.incorporate h ho

theorem named_nest (h : scope.schema.Named) (name : String) (options : Options)
    {block : Scope → Attempt Scope}
    (hblock : (block (start scope.supply)).state.schema.Named) :
    (scope.nest name options block).state.schema.Named := by
  rcases nest_cases scope name options block with ⟨fault, hrefused⟩ | ⟨inner, hdone, hadded⟩
  · rw [hrefused]
    exact h
  · rw [hdone, Attempt.state_done] at hblock
    rw [hadded]
    exact named_add h inner.supply name options fun _ he => Option.some.inj he ▸ hblock

mutual

theorem named_declare : ∀ {scope : Scope} (d : Declaration), scope.schema.Named →
    d.TakesIn Schema.Named → (scope.declare d).state.schema.Named
  | scope, .setting name options, h, _ => by
      rw [declare]
      exact named_add h scope.supply name options fun _ he => nomatch he
  | scope, .nested name options block, h, ht => by
      rw [declare]
      exact named_nest h name options (named_run block Schema.all_empty ht)
  | scope, .inclusion other, h, ht => by
      rw [declare]
      exact named_incorporate h scope.supply ht
  | scope, .group name script, h, ht => by
      have hscript : ((start scope.supply).run script).state.schema.Named :=
        named_run script Schema.all_empty ht
      rw [declare]
      rcases takeIn_cases scope fun inner => run inner script with
        ⟨fault, hrefused⟩ | ⟨inner, hdone, htaken⟩
      · rw [hrefused]
        exact h
      · rw [hdone, Attempt.state_done] at hscript
        rw [htaken]
        exact named_incorporate h inner.supply hscript
  | scope, .unregistered name, h, _ => by
      rw [declare]
      exact h

/-- A script declares identifiers only, at every depth. -/
theorem named_run : ∀ {scope : Scope} (ds : List Declaration), scope.schema.Named →
    Declaration.TakeIn Schema.Named ds → (scope.run ds).state.schema.Named
  | scope, [], h, _ => by
      rw [run]
      exact h
  | scope, d :: rest, h, ht => by
      have hfirst := named_declare d h ht.1
      rw [run]
      unfold Attempt.andThen
      split
      · exact named_run rest hfirst ht.2
      · exact hfirst

end

end Scope
end SettingsTree
