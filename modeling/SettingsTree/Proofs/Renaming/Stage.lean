import SettingsTree.Proofs.Renaming.Config

/-!
# Stages and copies under other authors

A stage is renamed through its targets; what waits in it are raw values. Requests are
the same for a renamed stage, and a copy made from a renamed configuration is the
renamed copy, or fails with the same fault.
-/
namespace SettingsTree

namespace Stage
variable (σ : Nat → Nat)

mutual

def rename : Stage → Stage
  | ⟨target, writes, scopes⟩ => ⟨target.rename σ, writes, renameScopes scopes⟩

def renameScopes : List (String × Stage) → List (String × Stage)
  | [] => []
  | (name, inner) :: rest => (name, rename inner) :: renameScopes rest

end

theorem renameScopes_eq (scopes : List (String × Stage)) :
    renameScopes σ scopes = Table.mapEntries (rename σ) scopes := by
  induction scopes with
  | nil => rfl
  | cons head rest ih =>
      rw [renameScopes, ih]
      rfl

theorem rename_mk (target : Config) (writes : List (String × Value))
    (scopes : List (String × Stage)) :
    (Stage.mk target writes scopes).rename σ =
      ⟨target.rename σ, writes, Table.mapEntries (rename σ) scopes⟩ := by
  rw [rename, renameScopes_eq]

@[simp] theorem target_rename (s : Stage) : (s.rename σ).target = s.target.rename σ := by
  cases s; rfl

theorem find?_scopes_rename (s : Stage) (name : String) :
    Table.find? name (s.rename σ).scopes = (Table.find? name s.scopes).map (rename σ) := by
  cases s
  rw [rename_mk, Table.find?_mapEntries]

theorem withScope_rename (s : Stage) (name : String) (inner : Stage) :
    (s.rename σ).withScope name (inner.rename σ) = (s.withScope name inner).rename σ := by
  cases s
  rw [rename_mk]
  simp only [withScope]
  rw [rename_mk, Table.mapEntries_insert]

theorem write_rename (s : Stage) (name : String) (raw : Value) :
    Stage.mk (s.target.rename σ) (Table.insert name raw (s.rename σ).writes)
        (s.rename σ).scopes =
      (Stage.mk s.target (Table.insert name raw s.writes) s.scopes).rename σ := by
  cases s
  rw [rename_mk, rename_mk]

theorem scope_rename (s : Stage) (name : String) :
    (s.rename σ).scope name = (s.scope name).map (rename σ) := by
  unfold scope
  rw [target_rename, Config.nested_rename, find?_scopes_rename]
  cases s.target.nested name with
  | error fault => rfl
  | ok inner => cases Table.find? name s.scopes <;> rfl

theorem into_withScope_rename (s : Stage) (name : String) (a : Attempt Stage) :
    (a.into (rename σ)).into ((s.rename σ).withScope name) =
      (a.into (s.withScope name)).into (rename σ) :=
  congrArg (Attempt.mk · a.fault) (withScope_rename σ s name a.state)

theorem set_of_not_map_rename (s : Stage) (name : String) {raw : Value}
    (h : ∀ entries, raw ≠ .map entries) :
    (s.rename σ).set name raw = (s.set name raw).into (rename σ) := by
  rw [set.eq_2 _ name raw h, set.eq_2 _ name raw h, target_rename, Config.definition_rename]
  cases s.target.definition name with
  | error fault => rfl
  | ok d =>
      simp only [Except.map, Definition.isGroup_rename]
      by_cases hg : d.isGroup = true
      · rw [if_pos hg, if_pos hg]
        rfl
      · rw [if_neg hg, if_neg hg]
        exact congrArg Attempt.done (write_rename σ s name raw)

mutual

theorem set_rename : ∀ (s : Stage) (name : String) (raw : Value),
    (s.rename σ).set name raw = (s.set name raw).into (rename σ)
  | s, name, .map entries => by
      rw [set, set, target_rename, Config.definition_rename]
      cases s.target.definition name with
      | error fault => rfl
      | ok d =>
          simp only [Except.map, Definition.isGroup_rename]
          by_cases hg : d.isGroup = true
          · rw [if_pos hg, if_pos hg, scope_rename]
            cases s.scope name with
            | error fault => rfl
            | ok inner =>
                simp only [Except.map]
                cases Config.strayKey? entries with
                | some key => exact congrArg (Attempt.failed · _) (withScope_rename σ s name inner)
                | none =>
                    simp only [setAll_rename inner entries]
                    exact into_withScope_rename σ s name _
          · rw [if_neg hg, if_neg hg]
            exact congrArg Attempt.done (write_rename σ s name _)
  | s, name, .bool _ | s, name, .int _ | s, name, .float _ | s, name, .char _
  | s, name, .str _ | s, name, .unit | s, name, .nothing | s, name, .just _
  | s, name, .newtype _ | s, name, .seq _ | s, name, .bytes _ =>
      set_of_not_map_rename σ s name fun _ h => nomatch h

theorem setAll_rename : ∀ (s : Stage) (entries : List (Value × Value)),
    (s.rename σ).setAll entries = (s.setAll entries).into (rename σ)
  | s, [] => rfl
  | s, (key, raw) :: rest => by
      by_cases hk : ∃ name, key = .str name
      · obtain ⟨name, rfl⟩ := hk
        rw [setAll, setAll, set_rename s name raw]
        exact Attempt.into_andThen _ _ (setAll_rename _ rest)
      · have hne : ∀ name, key = .str name → False := fun name he => hk ⟨name, he⟩
        rw [setAll.eq_3 _ key raw rest hne, setAll.eq_3 _ key raw rest hne]
        rfl

end

theorem update_rename (s : Stage) (batch : Value) :
    (s.rename σ).update batch = (s.update batch).into (rename σ) := by
  cases batch with
  | map entries =>
      simp only [update]
      cases Config.strayKey? entries with
      | some key => rfl
      | none => exact setAll_rename σ s entries
  | bool | int | float | char | str | unit | nothing | just | newtype | seq | bytes => rfl

theorem within_rename {edit : Stage → Attempt Stage}
    (h : ∀ s : Stage, edit (s.rename σ) = (edit s).into (rename σ)) (walk : List String)
    (s : Stage) :
    (s.rename σ).within walk edit = (s.within walk edit).into (rename σ) := by
  induction walk generalizing s with
  | nil => exact h s
  | cons name rest ih =>
      rw [within, within, scope_rename]
      cases s.scope name with
      | error fault => rfl
      | ok inner =>
          simp only [Except.map, ih inner]
          exact into_withScope_rename σ s name _

theorem stage_rename (g : Staging) (s : Stage) :
    g.stage (s.rename σ) = (g.stage s).into (rename σ) := by
  refine within_rename σ (fun inner => ?_) g.walk s
  cases g.request with
  | set name raw => exact set_rename σ inner name raw
  | update batch => exact update_rename σ inner batch
  | visit => rfl

theorem after_rename (s : Stage) (requests : List Staging) :
    (s.rename σ).after requests = (s.after requests).rename σ := by
  induction requests generalizing s with
  | nil => rfl
  | cons g rest ih =>
      have hstep := ih (g.stage s).state
      rw [← Attempt.state_into (g.stage s) (rename σ), ← stage_rename] at hstep
      exact hstep

theorem writeAll_rename (c : Config) (writes : List (String × Value)) :
    writeAll (c.rename σ) writes = (writeAll c writes).map (Config.rename σ) := by
  induction writes generalizing c with
  | nil => rfl
  | cons head rest ih =>
      obtain ⟨name, raw⟩ := head
      rw [writeAll, writeAll, Config.set_rename, Attempt.toExcept_into]
      cases (c.set name raw).toExcept with
      | error fault => rfl
      | ok after => exact ih after

mutual

theorem commit_rename : ∀ s : Stage, (s.rename σ).commit = s.commit.map (Config.rename σ)
  | ⟨target, writes, scopes⟩ => by
      rw [rename, commit, commit, Config.duplicate_rename,
        commitScopes_rename target.duplicate scopes]
      cases commitScopes target.duplicate scopes with
      | error fault => rfl
      | ok c => exact writeAll_rename σ c writes

theorem commitScopes_rename : ∀ (c : Config) (scopes : List (String × Stage)),
    commitScopes (c.rename σ) (renameScopes σ scopes) =
      (commitScopes c scopes).map (Config.rename σ)
  | c, [] => rfl
  | c, (name, inner) :: rest => by
      rw [renameScopes, commitScopes, commitScopes, commit_rename inner, Config.nested_rename]
      cases inner.commit with
      | error fault => rfl
      | ok committed =>
          cases c.nested name with
          | error fault => rfl
          | ok _ =>
              simp only [Except.map]
              rw [Config.withGroup_rename]
              exact commitScopes_rename (c.withGroup name committed) rest

end

end Stage

namespace Config
variable (σ : Nat → Nat)

def Making.rename : Making → Making
  | rebind s => .rebind (s.rename σ)
  | making => making

def Copy.rename (k : Copy) : Copy :=
  ⟨k.walk, k.making.rename σ⟩

variable {σ} (hσ : σ.Injective)
include hσ

theorem making_rename (c : Config) (making : Making) :
    (making.rename σ).apply (c.rename σ) = (making.apply c).map (rename σ) := by
  cases making with
  | exact => rfl
  | duplicate => exact congrArg Except.ok (duplicate_rename σ c)
  | rebind s => exact congrArg Except.ok (rebind_rename hσ c s)
  | commit requests =>
      have hafter : (Stage.start (c.rename σ)).after requests =
          ((Stage.start c).after requests).rename σ := Stage.after_rename σ (Stage.start c) requests
      simp only [Making.rename, Making.apply, hafter, Stage.commit_rename]

theorem copy_rename (c : Config) (k : Copy) :
    (k.rename σ).apply (c.rename σ) = (k.apply c).map (rename σ) := by
  simp only [Copy.apply, Copy.rename, descend_rename]
  cases c.descend k.walk with
  | error fault => rfl
  | ok inner => exact making_rename hσ inner k.making

end Config
end SettingsTree
