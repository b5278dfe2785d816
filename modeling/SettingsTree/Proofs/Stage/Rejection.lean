import Mathlib.Data.List.Induction
import SettingsTree.Proofs.Stage.Ledger

/-!
# When committing fails

Staged values are constructed when the stage is committed: the groups by name and depth first,
then the settings around them by name. A commit fails exactly if the constructor of some setting
refuses the value that waits for it, and its fault is that of the first such setting in this order.
Only the value that was staged last for a setting counts; what it replaced is never constructed.
-/
namespace SettingsTree

/-- Groups come by name and depth first. The settings around them follow, by name. -/
inductive Path.Precedes : Path → Path → Prop where
  | leaves {leaf last : String} (less : leaf < last) : Precedes ⟨[], leaf⟩ ⟨[], last⟩
  | deeper (name : String) (rest : List String) (leaf last : String) :
      Precedes ⟨name :: rest, leaf⟩ ⟨[], last⟩
  | groups {name other : String} (less : name < other) (rest later : List String)
      (leaf last : String) : Precedes ⟨name :: rest, leaf⟩ ⟨other :: later, last⟩
  | inside {rest later : List String} {leaf last : String} (name : String)
      (inner : Precedes ⟨rest, leaf⟩ ⟨later, last⟩) :
      Precedes ⟨name :: rest, leaf⟩ ⟨name :: later, last⟩

theorem Path.Precedes.asymm {path other : Path} (h : path.Precedes other) :
    ¬other.Precedes path := by
  induction h with
  | leaves less =>
      rintro ⟨⟩
      exact String.lt_asymm less ‹_›
  | deeper => rintro ⟨⟩
  | groups less =>
      intro h
      cases h with
      | groups more => exact String.lt_asymm less more
      | inside => exact String.lt_irrefl _ less
  | inside name _ ih =>
      intro h
      cases h with
      | groups less => exact String.lt_irrefl _ less
      | inside _ inner => exact ih inner

namespace Stage
variable {s inner deeper : Stage} {c : Config} {name leaf : String} {rest : List String}
  {path : Path} {raw : Value} {fault : Fault}

/-- The value waits for the setting at the path. -/
def Waits (s : Stage) (path : Path) (raw : Value) : Prop :=
  ∃ inner, s.descend path.parents = .ok inner ∧ Table.find? path.leaf inner.writes = some raw

/-- The constructor of the setting at the path refuses the value that waits for it. -/
def Rejects (s : Stage) (path : Path) (fault : Fault) : Prop :=
  ∃ inner raw d, s.descend path.parents = .ok inner ∧
    Table.find? path.leaf inner.writes = some raw ∧
    inner.target.schema.lookup path.leaf = some d ∧ d.resolve (some raw) = .error fault

/-- Of the values that are refused, the one at the path comes first. -/
def RejectsFirst (s : Stage) (path : Path) (fault : Fault) : Prop :=
  s.Rejects path fault ∧ ∀ other cause, s.Rejects other cause → other = path ∨ path.Precedes other

theorem writes_descend_start {target : Config} {walk : List String}
    (hd : (start target).descend walk = .ok deeper) : deeper.writes = [] := by
  induction walk generalizing target with
  | nil =>
      obtain rfl := Except.ok.inj hd
      rfl
  | cons name rest ih =>
      rw [descend] at hd
      split at hd
      · cases hd
      · next inner hs =>
          obtain ⟨group, _, hf | ⟨_, rfl⟩⟩ := scope_eq_ok hs
          · cases hf
          · exact ih hd

theorem Fits.descend_cons (hs : s.Fits) (hf : Table.find? name s.scopes = some inner)
    (rest : List String) : s.descend (name :: rest) = inner.descend rest := by
  have hscope : s.scope name = .ok inner := by
    simp only [Stage.scope, hs.there hf, hf]
  rw [descend, hscope]

theorem exists_entered (hd : s.descend (name :: rest) = .ok deeper)
    (hw : Table.find? leaf deeper.writes = some raw) :
    ∃ inner, Table.find? name s.scopes = some inner ∧ inner.descend rest = .ok deeper := by
  rw [descend] at hd
  split at hd
  · cases hd
  · next inner hscope =>
      obtain ⟨group, _, hf | ⟨_, rfl⟩⟩ := scope_eq_ok hscope
      · exact ⟨inner, hf, hd⟩
      · rw [writes_descend_start hd] at hw
        cases hw

theorem waits_nil : s.Waits ⟨[], leaf⟩ raw ↔ Table.find? leaf s.writes = some raw :=
  ⟨fun ⟨_, hd, hw⟩ => Except.ok.inj hd ▸ hw, fun hw => ⟨s, rfl, hw⟩⟩

theorem Fits.waits_cons (hs : s.Fits) :
    s.Waits ⟨name :: rest, leaf⟩ raw ↔
      ∃ inner, Table.find? name s.scopes = some inner ∧ inner.Waits ⟨rest, leaf⟩ raw := by
  constructor
  · rintro ⟨deeper, hd, hw⟩
    obtain ⟨inner, hf, hi⟩ := exists_entered hd hw
    exact ⟨inner, hf, deeper, hi, hw⟩
  · rintro ⟨inner, hf, deeper, hd, hw⟩
    exact ⟨deeper, (hs.descend_cons hf rest).trans hd, hw⟩

theorem rejects_nil :
    s.Rejects ⟨[], leaf⟩ fault ↔ ∃ raw d, Table.find? leaf s.writes = some raw ∧
      s.target.schema.lookup leaf = some d ∧ d.resolve (some raw) = .error fault := by
  constructor
  · rintro ⟨inner, raw, d, hd, h⟩
    obtain rfl := Except.ok.inj hd
    exact ⟨raw, d, h⟩
  · rintro ⟨raw, d, h⟩
    exact ⟨s, raw, d, rfl, h⟩

theorem Fits.rejects_cons (hs : s.Fits) :
    s.Rejects ⟨name :: rest, leaf⟩ fault ↔
      ∃ inner, Table.find? name s.scopes = some inner ∧ inner.Rejects ⟨rest, leaf⟩ fault := by
  constructor
  · rintro ⟨deeper, raw, d, hd, hw, h⟩
    obtain ⟨inner, hf, hi⟩ := exists_entered hd hw
    exact ⟨inner, hf, deeper, raw, d, hi, hw, h⟩
  · rintro ⟨inner, hf, deeper, raw, d, hd, h⟩
    exact ⟨deeper, raw, d, (hs.descend_cons hf rest).trans hd, h⟩

theorem Rejects.fault_eq (h : s.Rejects path fault) :
    (∃ reason, fault = .rejected path.leaf reason) ∧
      ∀ cause, s.Rejects path cause → cause = fault := by
  obtain ⟨inner, raw, d, hd, hw, hl, hr⟩ := h
  refine ⟨?_, ?_⟩
  · obtain ⟨reason, rfl⟩ := Definition.fault_of_resolve hr
    exact ⟨reason, by rw [(Schema.lookup_some hl).2]⟩
  · rintro cause ⟨inner', raw', d', hd', hw', hl', hr'⟩
    obtain rfl := Except.ok.inj (hd.symm.trans hd')
    obtain rfl := Option.some.inj (hw.symm.trans hw')
    obtain rfl := Option.some.inj (hl.symm.trans hl')
    exact Except.error.inj (hr'.symm.trans hr)

theorem RejectsFirst.unique {other : Path} {cause : Fault} (h : s.RejectsFirst path fault)
    (h' : s.RejectsFirst other cause) : cause = fault := by
  have hpath : other = path := by
    rcases h.2 other cause h'.1 with hsame | hbefore
    · exact hsame
    · rcases h'.2 path fault h.1 with hsame | hafter
      · exact hsame.symm
      · exact absurd hafter hbefore.asymm
  subst hpath
  exact h.1.fault_eq.2 cause h'.1

/-- Writing stops at the first name whose value is refused. -/
theorem first_of_writeAll {writes : List (String × Value)} (hsorted : Table.Sorted writes)
    (hz : c.frozen = false)
    (hw : ∀ entry ∈ writes, ∃ d, c.schema.lookup entry.1 = some d ∧ d.group = none)
    (h : writeAll c writes = .error fault) :
    ∃ name raw d, Table.find? name writes = some raw ∧ c.schema.lookup name = some d ∧
      d.resolve (some raw) = .error fault ∧
      ∀ other raw' e cause, other < name → Table.find? other writes = some raw' →
        c.schema.lookup other = some e → e.resolve (some raw') ≠ .error cause := by
  induction writes generalizing c with
  | nil => cases h
  | cons head rest ih =>
      obtain ⟨key, v⟩ := head
      obtain ⟨d, hl, hg⟩ := hw _ List.mem_cons_self
      rw [writeAll_cons v rest hz hl hg] at h
      cases hv : d.resolve (some v) with
      | error cause =>
          rw [hv] at h
          obtain rfl := Except.error.inj h
          refine ⟨key, v, d, by rw [Table.find?_cons, if_pos rfl], hl, hv, ?_⟩
          intro other raw' e cause' hlt hf
          rw [hsorted.find?_eq_none_of_lt hlt] at hf
          cases hf
      | ok w =>
          rw [hv] at h
          obtain ⟨name, raw, e, hf, hle, hr, hbefore⟩ := ih (c := c.withValue key w) hsorted.rest hz
            (fun entry he => hw entry (List.mem_cons_of_mem _ he)) h
          have hne : key ≠ name := by
            rintro rfl
            rw [hsorted.find?_rest] at hf
            cases hf
          refine ⟨name, raw, e, by rw [Table.find?_cons, if_neg hne, hf], hle, hr, ?_⟩
          intro other raw' e' cause hlt hf' hl' hr'
          rw [Table.find?_cons] at hf'
          split_ifs at hf' with he
          · obtain rfl := he
            obtain rfl := Option.some.inj hf'
            obtain rfl := Option.some.inj (hl.symm.trans hl')
            rw [hv] at hr'
            cases hr'
          · exact hbefore other raw' e' cause hlt hf' hl' hr'

/-- Putting in the groups stops at the first one that does not commit. -/
theorem first_of_commitScopes {scopes : List (String × Stage)} (hsorted : Table.Sorted scopes)
    (hn : ∀ entry ∈ scopes, ∃ group, c.nested entry.1 = .ok group)
    (h : commitScopes c scopes = .error fault) :
    ∃ name inner, Table.find? name scopes = some inner ∧ inner.commit = .error fault ∧
      ∀ other inner', other < name → Table.find? other scopes = some inner' →
        ∃ made, inner'.commit = .ok made := by
  induction scopes generalizing c with
  | nil => cases h
  | cons head rest ih =>
      obtain ⟨key, scope⟩ := head
      obtain ⟨group, hg⟩ := hn _ List.mem_cons_self
      rw [commitScopes] at h
      cases hm : scope.commit with
      | error cause =>
          rw [hm] at h
          refine ⟨key, scope, by rw [Table.find?_cons, if_pos rfl], hm.trans h, ?_⟩
          intro other inner' hlt hf
          rw [hsorted.find?_eq_none_of_lt hlt] at hf
          cases hf
      | ok made =>
          simp only [hm, hg] at h
          obtain ⟨name, inner, hf, hi, hbefore⟩ := ih hsorted.rest
            (fun entry he => exists_nested_withGroup (hn entry (List.mem_cons_of_mem _ he))) h
          have hne : key ≠ name := by
            rintro rfl
            rw [hsorted.find?_rest] at hf
            cases hf
          refine ⟨name, inner, by rw [Table.find?_cons, if_neg hne, hf], hi, ?_⟩
          intro other inner' hlt hf'
          rw [Table.find?_cons] at hf'
          split_ifs at hf'
          · exact ⟨made, Option.some.inj hf' ▸ hm⟩
          · exact hbefore other inner' hlt hf'

theorem Fits.not_rejects (hs : s.Fits) (h : s.commit = .ok c) : ¬s.Rejects path fault := by
  obtain ⟨parents, leaf⟩ := path
  induction parents generalizing s c with
  | nil =>
      rw [rejects_nil]
      rintro ⟨raw, d, hw, hl, hr⟩
      obtain ⟨swapped, hsw, hwrites⟩ := commit_eq_ok.1 h
      obtain ⟨hschema, hz, hready⟩ := hs.ready_of_commitScopes hsw
      have hwritten := written_of_writeAll hs.sortedWrites hz hready hwrites
      obtain ⟨e, v, hle, hv, _⟩ := hwritten.written leaf raw hw
      obtain rfl := Option.some.inj ((hschema ▸ hle).symm.trans hl)
      rw [hv] at hr
      cases hr
  | cons name rest ih =>
      rw [hs.rejects_cons]
      rintro ⟨inner, hf, hr⟩
      obtain ⟨swapped, hsw, _⟩ := commit_eq_ok.1 h
      obtain ⟨made, hmade, _⟩ := (swapped_of_commitScopes hs.sortedScopes hsw).entered name inner hf
      exact ih (hs.inside hf) hmade hr

theorem commit_eq_error :
    s.commit = .error fault ↔ commitScopes s.target.duplicate s.scopes = .error fault ∨
      ∃ swapped, commitScopes s.target.duplicate s.scopes = .ok swapped ∧
        writeAll swapped s.writes = .error fault := by
  cases s with
  | mk target writes scopes =>
      rw [commit]
      cases commitScopes target.duplicate scopes <;> simp

/-- A commit that fails does so for the refused value that comes first. -/
theorem Fits.exists_rejectsFirst (hs : s.Fits) (h : s.commit = .error fault) :
    ∃ path, s.RejectsFirst path fault := by
  induction s using inductionOn generalizing fault with
  | step s ih =>
      rcases commit_eq_error.1 h with hsw | ⟨swapped, hsw, hw⟩
      · obtain ⟨name, inner, hf, hi, hbefore⟩ :=
          first_of_commitScopes hs.sortedScopes hs.nested_duplicate hsw
        obtain ⟨⟨rest, leaf⟩, hr, hfirst⟩ :=
          ih (name, inner) (Table.mem_of_find? hf) (hs.inside hf) hi
        refine ⟨⟨name :: rest, leaf⟩, hs.rejects_cons.2 ⟨inner, hf, hr⟩, ?_⟩
        rintro ⟨_ | ⟨other, later⟩, last⟩ cause hother
        · exact .inr (.deeper name rest leaf last)
        · obtain ⟨inner', hf', hr'⟩ := hs.rejects_cons.1 hother
          rcases Std.lt_trichotomy name other with hlt | rfl | hgt
          · exact .inr (.groups hlt rest later leaf last)
          · obtain rfl := Option.some.inj (hf.symm.trans hf')
            rcases hfirst ⟨later, last⟩ cause hr' with hsame | hafter
            · cases hsame
              exact .inl rfl
            · exact .inr (.inside name hafter)
          · -- The groups before the one that fails have been committed.
            obtain ⟨made, hmade⟩ := hbefore other inner' hgt hf'
            exact absurd hr' ((hs.inside hf').not_rejects hmade)
      · obtain ⟨hschema, hz, hready⟩ := hs.ready_of_commitScopes hsw
        obtain ⟨name, raw, d, hf, hl, hr, hbefore⟩ :=
          first_of_writeAll hs.sortedWrites hz hready hw
        refine ⟨⟨[], name⟩, rejects_nil.2 ⟨raw, d, hf, hschema ▸ hl, hr⟩, ?_⟩
        rintro ⟨_ | ⟨other, later⟩, last⟩ cause hother
        · obtain ⟨raw', e, hf', hl', hr'⟩ := rejects_nil.1 hother
          rcases Std.lt_trichotomy name last with hlt | rfl | hgt
          · exact .inr (.leaves hlt)
          · exact .inl rfl
          · exact absurd hr' (hbefore last raw' e cause hgt hf' (hschema ▸ hl'))
        · obtain ⟨inner, hf', hr'⟩ := hs.rejects_cons.1 hother
          have hswapped := swapped_of_commitScopes hs.sortedScopes hsw
          obtain ⟨made, hmade, _⟩ := hswapped.entered other inner hf'
          exact absurd hr' ((hs.inside hf').not_rejects hmade)

/-- A stage commits if nothing that waits in it is refused, and otherwise fails for the first. -/
theorem Fits.commit_eq_error_iff (hs : s.Fits) :
    s.commit = .error fault ↔ ∃ path, s.RejectsFirst path fault := by
  refine ⟨hs.exists_rejectsFirst, fun ⟨path, hfirst⟩ => ?_⟩
  cases hc : s.commit with
  | ok made => exact absurd hfirst.1 (hs.not_rejects hc)
  | error cause =>
      obtain ⟨other, hother⟩ := hs.exists_rejectsFirst hc
      rw [hfirst.unique hother]

theorem Awaits.waits_iff {l : Ledger} (h : Awaits l s) (hs : s.Fits) :
    s.Waits path raw ↔ ∃ stamp, l path = some (stamp, raw) := by
  obtain ⟨parents, leaf⟩ := path
  induction parents generalizing l s with
  | nil =>
      rw [waits_nil]
      cases hl : l ⟨[], leaf⟩ with
      | none => simp [h.idle hl]
      | some entry =>
          obtain ⟨stamp, kept⟩ := entry
          simp [(h.waiting hl).1]
  | cons name rest ih =>
      rw [hs.waits_cons]
      cases hf : Table.find? name s.scopes with
      | none =>
          have hl : l ⟨name :: rest, leaf⟩ = none := congrFun (h.elsewhere hf) ⟨rest, leaf⟩
          simp [hl]
      | some inner =>
          simp only [Option.some.injEq, exists_eq_left']
          exact ih (h.inside hf) (hs.inside hf)

end Stage

/-- A ledger that was empty has for each path the last entry of the journal. -/
theorem Ledger.recordAll_empty_eq_some {journal : List Entry} {path : Path} {stamp : Stamp}
    {raw : Value} :
    Ledger.empty.recordAll journal path = some (stamp, raw) ↔
      ∃ before after, journal = before ++ ⟨path, stamp, raw⟩ :: after ∧
        ∀ later ∈ after, later.path ≠ path := by
  induction journal using List.reverseRecOn with
  | nil => simp [recordAll, empty]
  | append_singleton earlier e ih =>
      have hrecord : empty.recordAll (earlier ++ [e]) path =
          if path = e.path then some (e.stamp, e.raw) else empty.recordAll earlier path := by
        rw [recordAll_append]
        rfl
      rw [hrecord]
      constructor
      · intro h
        split_ifs at h with hpath
        · cases h
          exact ⟨earlier, [], by rw [hpath], fun _ hl => nomatch hl⟩
        · obtain ⟨before, after, rfl, hafter⟩ := ih.1 h
          refine ⟨before, after ++ [e], by simp, fun later hl => ?_⟩
          rcases List.mem_append.1 hl with hold | hnew
          · exact hafter later hold
          · exact List.mem_singleton.1 hnew ▸ Ne.symm hpath
      · rintro ⟨before, after, hsplit, hafter⟩
        rcases List.eq_nil_or_concat' after with rfl | ⟨between, last, rfl⟩
        · obtain ⟨-, hlast⟩ := List.append_inj' hsplit rfl
          obtain rfl := List.singleton_inj.1 hlast
          exact if_pos rfl
        · rw [← List.cons_append, ← List.append_assoc] at hsplit
          obtain ⟨hearlier, hlast⟩ := List.append_inj' hsplit rfl
          obtain rfl := List.singleton_inj.1 hlast
          rw [if_neg (Ne.symm (hafter e (by simp)))]
          exact ih.2 ⟨before, between, hearlier, fun later hl => hafter later (by simp [hl])⟩

namespace Stage

/-- What waits in a stage is what its requests staged last at each path. -/
theorem waits_after_iff {target : Config} {requests : List Staging} {path : Path} {raw : Value} :
    ((start target).after requests).Waits path raw ↔
      ∃ before stamp after, (start target).journal requests =
        before ++ ⟨path, stamp, raw⟩ :: after ∧ ∀ later ∈ after, later.path ≠ path := by
  have hawaits := (awaits_start target).moves (moves_after (start target) requests)
  rw [hawaits.waits_iff (fits_after target requests)]
  simp only [Ledger.recordAll_empty_eq_some]
  exact exists_comm

/-- Whatever was requested, a commit fails exactly if the constructor of some setting refuses the
value that was staged for it last. It then fails with the refusal of the first such setting, of
the groups by name and depth first before the settings around them by name. -/
theorem commit_fails_for_first_rejected (target : Config) (requests : List Staging) :
    let s := (start target).after requests
    ((∃ fault, s.commit = .error fault) ↔ ∃ path fault, s.Rejects path fault) ∧
      (∀ fault, s.commit = .error fault ↔ ∃ path, s.RejectsFirst path fault) ∧
      (∀ path fault, s.Rejects path fault → ∃ reason, fault = .rejected path.leaf reason) ∧
      ∀ path raw, s.Waits path raw ↔
        ∃ before stamp after, (start target).journal requests =
          before ++ ⟨path, stamp, raw⟩ :: after ∧ ∀ later ∈ after, later.path ≠ path := by
  intro s
  have hs : s.Fits := fits_after target requests
  refine ⟨⟨?_, ?_⟩, fun fault => hs.commit_eq_error_iff, fun path fault h => h.fault_eq.1,
    fun path raw => waits_after_iff⟩
  · rintro ⟨fault, h⟩
    obtain ⟨path, hfirst⟩ := hs.exists_rejectsFirst h
    exact ⟨path, fault, hfirst.1⟩
  · rintro ⟨path, cause, hr⟩
    cases hc : s.commit with
    | ok made => exact absurd hr (hs.not_rejects hc)
    | error fault => exact ⟨fault, rfl⟩

end Stage
end SettingsTree
