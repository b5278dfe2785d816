import SettingsTree.Proofs.Config.WellFormed
import SettingsTree.Proofs.Schema.Heap

/-!
# Ledgers

A ledger holds for each path the last assignment to the setting there that still
counts: the definition it was made under and the raw value. It is kept by rules that
look at journals and schemas only. Assignments are recorded; copies keep the ledger;
rebinding strikes out what was assigned under another definition than the new schema
has at the same path.

`Config.Accounts l c` says that the ledger explains what the configuration stores: a
setting with an entry stores what its definition's constructor returns for the raw
value, the entry names that very definition, and a setting without an entry stores
nothing. Every call keeps this.
-/
namespace SettingsTree

/-- The single setting at the end of a walk through groups. -/
def Schema.settingAt (s : Schema) (leaf : String) : List String → Option Definition
  | [] => (s.lookup leaf).bind fun d => if d.isGroup then none else some d
  | name :: rest => (s.group? name).bind fun inner => inner.settingAt leaf rest

/-- For each path the assignment that counts: its definition and its raw value. -/
abbrev Ledger := Path → Option (Stamp × Value)

namespace Ledger

def empty : Ledger := fun _ => none

def record (l : Ledger) (e : Entry) : Ledger := fun path =>
  if path = e.path then some (e.stamp, e.raw) else l path

def recordAll (l : Ledger) (journal : List Entry) : Ledger :=
  journal.foldl record l

def below (l : Ledger) (name : String) : Ledger := fun path =>
  l ⟨name :: path.parents, path.leaf⟩

/-- The ledger of the group at the end of a walk. -/
def belowAll (l : Ledger) (walk : List String) : Ledger :=
  walk.foldl below l

/-- What is left of a ledger when a schema takes the place of another: the assignments
made under the very definitions that the schema has at their paths. -/
def keep (l : Ledger) (s : Schema) : Ledger := fun path =>
  match l path, s.settingAt path.leaf path.parents with
  | some (stamp, raw), some d => if d.stamp = stamp then some (stamp, raw) else none
  | _, _ => none

/-- The ledger with the entries of another one over it. -/
def under (l later : Ledger) : Ledger := fun path => (later path).or (l path)

variable {l : Ledger}

theorem recordAll_append (first second : List Entry) :
    l.recordAll (first ++ second) = (l.recordAll first).recordAll second :=
  List.foldl_append

theorem below_record_here {e : Entry} (h : e.path.parents = []) (name : String) :
    (l.record e).below name = l.below name := by
  funext path
  refine if_neg fun he => ?_
  have hp := congrArg Path.parents he
  rw [h] at hp
  cases hp

theorem below_record_under (e : Entry) (name other : String) :
    (l.record (e.under name)).below other =
      if other = name then (l.below name).record e else l.below other := by
  funext path
  obtain ⟨parents, leaf⟩ := path
  obtain ⟨⟨parents', leaf'⟩, stamp, raw⟩ := e
  by_cases hn : other = name
  · subst hn
    simp [below, record, Entry.under]
  · simp [below, record, Entry.under, hn]

theorem recordAll_under (name : String) (journal : List Entry) :
    (∀ leaf, l.recordAll (journal.map (Entry.under name)) ⟨[], leaf⟩ = l ⟨[], leaf⟩) ∧
      ∀ other, (l.recordAll (journal.map (Entry.under name))).below other =
        if other = name then (l.below name).recordAll journal else l.below other := by
  induction journal generalizing l with
  | nil =>
      refine ⟨fun _ => rfl, fun other => ?_⟩
      split_ifs with hn
      · rw [hn]
        rfl
      · rfl
  | cons e rest ih =>
      obtain ⟨hhere, hbelow⟩ := ih (l := l.record (e.under name))
      refine ⟨fun leaf => (hhere leaf).trans ?_, fun other => (hbelow other).trans ?_⟩
      · exact if_neg fun he => by cases congrArg Path.parents he
      · rw [below_record_under, below_record_under, if_pos rfl]
        split_ifs <;> rfl

theorem recordAll_eq_under (journal : List Entry) :
    l.recordAll journal = l.under (empty.recordAll journal) := by
  -- Only the entries over the ledger matter, so the claim is proved for all of these.
  have key : ∀ later : Ledger, (l.under later).recordAll journal =
      l.under (later.recordAll journal) := by
    induction journal with
    | nil => exact fun _ => rfl
    | cons e rest ih =>
        intro later
        have he : (l.under later).record e = l.under (later.record e) := by
          funext path
          simp only [record, under]
          split_ifs <;> rfl
        show ((l.under later).record e).recordAll rest = l.under ((later.record e).recordAll rest)
        rw [he]
        exact ih (later.record e)
  exact key empty

theorem keep_here {s : Schema} {name : String} {stamp : Stamp} {raw : Value} :
    l.keep s ⟨[], name⟩ = some (stamp, raw) ↔
      l ⟨[], name⟩ = some (stamp, raw) ∧
        ∃ d, s.lookup name = some d ∧ d.group = none ∧ d.stamp = stamp := by
  simp only [keep, Schema.settingAt, Definition.isGroup]
  cases l ⟨[], name⟩ with
  | none => simp
  | some entry =>
      obtain ⟨stamp', raw'⟩ := entry
      cases s.lookup name with
      | none => simp
      | some d =>
          cases hg : d.group with
          | some inner => simp [hg]
          | none =>
              simp only [hg, Option.isSome_none, Bool.false_eq_true, if_false, Option.bind_some,
                Option.some.injEq, exists_eq_left', true_and, Prod.mk.injEq]
              split_ifs with he
              · simp only [Option.some.injEq, Prod.mk.injEq, iff_self_and, and_imp]
                exact fun hs _ => he.trans hs
              · simp only [false_iff, not_and, and_imp]
                exact fun hs _ hd => he (hd.trans hs.symm)

theorem below_keep (s : Schema) (name : String) :
    (l.keep s).below name =
      match s.group? name with
      | some inner => (l.below name).keep inner
      | none => empty := by
  funext path
  cases hg : s.group? name with
  | none =>
      simp only [below, keep, Schema.settingAt, hg]
      cases l ⟨name :: path.parents, path.leaf⟩ <;> rfl
  | some inner => simp only [below, keep, Schema.settingAt, hg, Option.bind_some]

end Ledger

namespace Config

/-- The ledger explains what the configuration stores. -/
inductive Accounts : Ledger → Config → Prop where
  | intro (l : Ledger) (c : Config)
      (unassigned : ∀ name, l ⟨[], name⟩ = none → Table.find? name c.values = none)
      (assigned : ∀ name stamp raw, l ⟨[], name⟩ = some (stamp, raw) →
        ∃ d v, c.schema.lookup name = some d ∧ d.group = none ∧ d.stamp = stamp ∧
          d.resolve (some raw) = .ok v ∧ Table.find? name c.values = some v)
      (elsewhere : ∀ name, Table.find? name c.groups = none → l.below name = .empty)
      (inside : ∀ name inner, Table.find? name c.groups = some inner →
        Accounts (l.below name) inner) : Accounts l c

namespace Accounts
variable {l : Ledger} {c c' inner : Config} {name : String}

theorem unassigned (h : Accounts l c) (hl : l ⟨[], name⟩ = none) :
    Table.find? name c.values = none := by
  cases h with
  | intro _ _ hu => exact hu name hl

theorem assigned (h : Accounts l c) {stamp : Stamp} {raw : Value}
    (hl : l ⟨[], name⟩ = some (stamp, raw)) :
    ∃ d v, c.schema.lookup name = some d ∧ d.group = none ∧ d.stamp = stamp ∧
      d.resolve (some raw) = .ok v ∧ Table.find? name c.values = some v := by
  cases h with
  | intro _ _ _ ha => exact ha name stamp raw hl

theorem elsewhere (h : Accounts l c) (hf : Table.find? name c.groups = none) :
    l.below name = .empty := by
  cases h with
  | intro _ _ _ _ he => exact he name hf

theorem inside (h : Accounts l c) (hf : Table.find? name c.groups = some inner) :
    Accounts (l.below name) inner := by
  cases h with
  | intro _ _ _ _ _ hi => exact hi name inner hf

theorem descend {walk : List String} (h : Accounts l c) (hd : c.descend walk = .ok inner) :
    Accounts (l.belowAll walk) inner := by
  induction walk generalizing l c with
  | nil =>
      obtain rfl := Except.ok.inj hd
      exact h
  | cons name rest ih =>
      rw [Config.descend] at hd
      split at hd
      · cases hd
      · next hn => exact ih (h.inside (nested_eq_ok.1 hn).2) hd

theorem mapGroups (h : Accounts l c) {f : Config → Config}
    (hf : ∀ name inner, Table.find? name c.groups = some inner →
      Accounts (l.below name) (f inner))
    (schema : c'.schema = c.schema) (values : c'.values = c.values)
    (groups : c'.groups = Table.mapEntries f c.groups) : Accounts l c' := by
  refine .intro l c' (fun name hl => ?_) (fun name stamp raw hl => ?_) (fun name hn => ?_)
    fun name t ht => ?_
  · rw [values]
    exact h.unassigned hl
  · rw [values, schema]
    exact h.assigned hl
  · rw [groups, Table.find?_mapEntries] at hn
    exact h.elsewhere (Option.map_eq_none_iff.1 hn)
  · rw [groups, Table.find?_mapEntries] at ht
    obtain ⟨inner, hi, rfl⟩ := Option.map_eq_some_iff.1 ht
    exact hf name inner hi

theorem duplicate (h : Accounts l c) : Accounts l c.duplicate := by
  induction h with
  | intro l c hu ha he hi ih =>
      exact (Accounts.intro l c hu ha he hi).mapGroups ih (schema_duplicate c)
        (values_duplicate c) (groups_duplicate c)

theorem finalize (h : Accounts l c) : Accounts l c.finalize := by
  induction h with
  | intro l c hu ha he hi ih =>
      have hc := Accounts.intro l c hu ha he hi
      cases hz : c.frozen with
      | true =>
          rw [finalize_of_frozen hz]
          exact hc
      | false =>
          exact hc.mapGroups ih (schema_finalize c) (values_finalize c) (groups_finalize hz)

theorem withValue (h : Accounts l c) {d : Definition} {raw v : Value}
    (hl : c.schema.lookup d.name = some d) (hg : d.group = none)
    (hv : d.resolve (some raw) = .ok v) :
    Accounts (l.record (d.entry raw)) (c.withValue d.name v) := by
  have hhere : ∀ name, l.record (d.entry raw) ⟨[], name⟩ =
      if name = d.name then some (d.stamp, raw) else l ⟨[], name⟩ := by
    intro name
    simp [Ledger.record, Definition.entry]
  refine .intro _ _ (fun name hn => ?_) (fun name stamp raw' hs => ?_) (fun name hn => ?_)
    fun name t ht => ?_
  · rw [hhere] at hn
    rw [Config.withValue, Table.find?_insert]
    split_ifs at hn ⊢
    exact h.unassigned hn
  · rw [hhere] at hs
    rw [Config.withValue, Table.find?_insert]
    split_ifs at hs ⊢ with he
    · cases hs
      exact ⟨d, v, he ▸ hl, hg, rfl, hv, rfl⟩
    · exact h.assigned hs
  · rw [Ledger.below_record_here rfl]
    exact h.elsewhere hn
  · rw [Ledger.below_record_here rfl]
    exact h.inside ht

theorem withGroup (h : Accounts l c) {journal : List Entry}
    (hi : Accounts ((l.below name).recordAll journal) inner) :
    Accounts (l.recordAll (journal.map (Entry.under name))) (c.withGroup name inner) := by
  obtain ⟨hhere, hbelow⟩ := Ledger.recordAll_under (l := l) name journal
  refine .intro _ _ (fun other hn => ?_) (fun other stamp raw hs => ?_) (fun other hn => ?_)
    fun other t ht => ?_
  · rw [hhere] at hn
    exact h.unassigned hn
  · rw [hhere] at hs
    exact h.assigned hs
  · rw [Config.withGroup, Table.find?_insert] at hn
    split_ifs at hn with he
    rw [hbelow, if_neg he]
    exact h.elsewhere hn
  · rw [Config.withGroup, Table.find?_insert] at ht
    rw [hbelow]
    split_ifs at ht ⊢
    · exact Option.some.inj ht ▸ hi
    · exact h.inside ht

theorem changes {journal : List Entry} (h : Accounts l c) (m : Changes c c' journal) :
    Accounts (l.recordAll journal) c' := by
  induction m generalizing l with
  | refl => exact h
  | trans _ _ ih₁ ih₂ =>
      rw [Ledger.recordAll_append]
      exact ih₂ (ih₁ h)
  | assign _ hl hg hv => exact h.withValue hl hg hv
  | inside hf _ ih => exact h.withGroup (ih (h.inside hf))
  | finalize => exact h.finalize

end Accounts

theorem accounts_fresh (s : Schema) : Accounts .empty (fresh s) := by
  induction s using Schema.inductionOn with
  | step s ih =>
      have hvalues : ∀ name, Table.find? name (fresh s).values = none := fun name => by
        rw [values_fresh]
        rfl
      refine .intro _ _ (fun name _ => hvalues name) (fun _ _ _ hl => nomatch hl)
        (fun _ _ => rfl) fun name t ht => ?_
      rw [find?_groups_fresh] at ht
      obtain ⟨inner, hi, rfl⟩ := Option.map_eq_some_iff.1 ht
      exact ih name inner hi

/-- Rebinding is accounted for by what the new schema keeps of the ledger. Values move
over only under one definition, and the heap says that it is one and the same. -/
theorem Accounts.rebind {heap : Heap} {l : Ledger} {c : Config} {s : Schema}
    (h : Accounts l c) (hc : c.Shaped) (hold : c.schema.StandsIn heap)
    (hnew : s.StandsIn heap) : Accounts (l.keep s) (c.rebind s) := by
  induction h generalizing s with
  | intro l c hu ha he hi ih =>
      have hvalues := find?_values_rebind c hnew.proper
      refine .intro _ _ (fun name hl => ?_) (fun name stamp raw hl => ?_) (fun name hn => ?_)
        fun name t ht => ?_
      · cases hv : Table.find? name (c.rebind s).values with
        | none => rfl
        | some v =>
            rw [hvalues] at hv
            obtain ⟨d, hd, hk⟩ := Option.bind_eq_some_iff.1 hv
            obtain rfl := (Schema.lookup_some hd).2
            obtain ⟨hg, before, hb, hstamp, hf⟩ := keptValue?_eq_some.1 hk
            cases hn : l ⟨[], d.name⟩ with
            | none => exact absurd ((hu d.name hn).symm.trans hf) (by simp)
            | some entry =>
                obtain ⟨stamp, raw⟩ := entry
                obtain ⟨d', _, hl', _, hs', _⟩ := ha d.name stamp raw hn
                obtain rfl := Option.some.inj (hb.symm.trans hl')
                have hkeep := Ledger.keep_here.2 ⟨hn, d, hd, hg, hstamp.symm.trans hs'⟩
                exact absurd (hl.symm.trans hkeep) (by simp)
      · obtain ⟨hn, d, hd, hg, hstamp⟩ := Ledger.keep_here.1 hl
        obtain ⟨before, v, hb, hbg, hbs, hv, hf⟩ := ha name stamp raw hn
        have hbefore := hold.each before (Schema.lookup_some hb).1
        obtain rfl := hbefore.eq_of_stamp (hnew.each d (Schema.lookup_some hd).1) hbg hg
          (hbs.trans hstamp.symm)
        obtain rfl := (Schema.lookup_some hd).2
        refine ⟨before, v, by rwa [schema_rebind], hg, hstamp, hv, ?_⟩
        rw [hvalues, hd]
        exact keptValue?_eq_some.2 ⟨hg, before, hb, rfl, hf⟩
      · rw [find?_groups_rebind, Option.map_eq_none_iff] at hn
        rw [Ledger.below_keep, hn]
      · rw [find?_groups_rebind] at ht
        obtain ⟨inner, hg, rfl⟩ := Option.map_eq_some_iff.1 ht
        rw [Ledger.below_keep, hg]
        unfold rebindGroup
        cases hb : Table.find? name c.groups with
        | some before =>
            refine ih name before hb (hc.inside hb) ?_ (hnew.group hg)
            obtain ⟨d, hl, hd⟩ := hc.declared hb
            exact hold.inside (Schema.lookup_some hl).1 hd
        | none =>
            simp only [he name hb]
            exact accounts_fresh inner

end Config
end SettingsTree
