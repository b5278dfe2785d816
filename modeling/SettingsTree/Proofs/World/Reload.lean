import SettingsTree.Proofs.Config.Reload
import SettingsTree.Proofs.World.Genuine

/-!
# Saving configurations and loading them again

A configuration that resolves can be saved and loaded again, if the constructors keep what they
have returned. It loses nothing but the null values that are not defaults. This is so as long as
it has the shape of its schema at every depth; only a configuration of another schema in the
place of a group can take that from it.
-/
namespace SettingsTree

open Config

theorem Definition.idempotent_of_identity {d : Definition} (h : d.construct = .identity) :
    d.Idempotent := by
  intro given v _
  rw [resolve, h]
  rfl

theorem Schema.All.idempotent {s : Schema} (h : s.All fun d => d.construct = .identity) :
    s.Idempotent := fun _ _ hd _ =>
  Definition.idempotent_of_identity (h.at? hd)

namespace World

theorem Grounded.shaped {ops : List Op} {c : Config} (hops : empty.Grounded ops)
    (hc : (empty.after ops).Reads c) : c.Shaped := by
  obtain ⟨heap, hsound⟩ := sound_empty.after hops
  obtain ⟨k, x, outer, walk, hk, hx, hd⟩ := hc
  exact (((hsound.objects k x hk).config hx).descend hd).wellFormed.shaped

/-- A configuration that resolves and has the shape of its schema is saved as a batch that a
fresh configuration of the schema accepts. The two are equal exactly if every null value is the
default of its setting. -/
theorem saved_and_loaded_same_iff {ops : List Op} {c : Config} {whole : Value}
    (hops : empty.Drawn ops) (hc : (empty.after ops).Reads c) (hs : c.Shaped)
    (hidem : c.schema.Idempotent) (hw : c.toValue = .ok whole) :
    ∃ saved, c.serialize = .ok saved ∧ ((fresh c.schema).update saved).fault = none ∧
      (((fresh c.schema).update saved).state.same c = true ↔ c.NullsByDefault) := by
  obtain ⟨heap, hstamped, hgenuine⟩ := genuine_of_reads hops hc
  obtain ⟨batch, hb⟩ := exists_reloads hs hstamped.known hgenuine hidem ⟨whole, hw⟩
  exact ⟨_, hb.written, hb.accepted, hb.same_iff⟩

theorem idempotent_extended : extended.Idempotent := by
  have hx : (Schema.mk [⟨.declared 0 1, "x", some (Registered.number 1), .identity, false, none⟩]
      false).All fun d => d.construct = .identity := .intro _ (by decide) (by simp) (by simp)
  have hall : extended.All fun d => d.construct = .identity := by
    refine .intro _ (by decide) (by simp [extended, plain]) fun d hd inner hi => ?_
    simp only [extended, plain, List.cons_append, List.nil_append, List.mem_cons,
      List.not_mem_nil, or_false] at hd
    rcases hd with rfl | rfl
    · cases hi
    · exact Option.some.inj hi ▸ hx
  exact hall.idempotent

/-- A configuration is given a value in a group, and null in the place of a default. -/
def saving : List Op :=
  [.schema (.script .empty [.setting "a" { fallback := some (Registered.number 1) },
      .nested "g" {} [.setting "x" { fallback := some (Registered.number 1) }]]),
    .bind extended, .act 1 (.edit ⟨["g"], .set "x" (Registered.number 2)⟩),
    .act 1 (.edit ⟨[], .set "a" .unit⟩)]

/-- The value comes back, and in the place of the null there is the default. -/
theorem saved_and_loaded_saving :
    ∃ c whole saved,
      (empty.Drawn saving ∧ (empty.after saving).Reads c ∧ c.Shaped ∧ c.schema.Idempotent ∧
        c.toValue = .ok whole) ∧
      c.serialize = .ok saved ∧ ((fresh c.schema).update saved).fault = none ∧
      (((fresh c.schema).update saved).state.same c = true ↔ c.NullsByDefault) ∧
      ¬c.NullsByDefault ∧
      ((fresh c.schema).update saved).state.getAt ⟨["g"], "x"⟩ = .ok (Registered.number 2) ∧
      ((fresh c.schema).update saved).state.getAt ⟨[], "a"⟩ = .ok (Registered.number 1) := by
  have hops : empty.Grounded saving := ⟨⟨.empty, trivial, ⟨trivial, trivial⟩, trivial⟩,
    .held (k := 0) rfl, trivial, trivial, trivial⟩
  have hrun : ∃ c whole saved, (empty.after saving).Reads c ∧ c.schema = extended ∧
      c.toValue = .ok whole ∧ c.serialize = .ok saved ∧ c.getAt ⟨[], "a"⟩ = .ok .unit ∧
      ((fresh c.schema).update saved).state.getAt ⟨["g"], "x"⟩ = .ok (Registered.number 2) ∧
      ((fresh c.schema).update saved).state.getAt ⟨[], "a"⟩ = .ok (Registered.number 1) :=
    ⟨_, _, _, ⟨1, _, _, [], rfl, rfl, rfl⟩, rfl, rfl, rfl, rfl, rfl, rfl⟩
  obtain ⟨c, whole, saved, hc, hschema, hwhole, hsaved, ha, hx, hdefault⟩ := hrun
  have hidem : c.schema.Idempotent := hschema ▸ idempotent_extended
  obtain ⟨saved', hsaved', hfault, hsame⟩ :=
    saved_and_loaded_same_iff hops.drawn hc (hops.shaped hc) hidem hwhole
  obtain rfl := Except.ok.inj (hsaved.symm.trans hsaved')
  refine ⟨c, whole, saved, ⟨hops.drawn, hc, hops.shaped hc, hidem, hwhole⟩, hsaved, hfault, hsame,
    fun hnulls => ?_, hx, hdefault⟩
  have hunit := hnulls ⟨[], "a"⟩
    ⟨.declared 0 0, "a", some (Registered.number 1), .identity, false, none⟩ .unit
    (by rw [hschema]; rfl) rfl ha rfl
  have hnumber : (Except.ok (Registered.number 1) : Except Fault Value) = .ok .unit := hunit
  cases hnumber

/-- A configuration of the whole schema takes the place of the group. -/
def misfit : List Op :=
  [.schema (.script .empty [.setting "a" { fallback := some (Registered.number 1) },
      .nested "g" {} [.setting "x" { fallback := some (Registered.number 1) }]]),
    .bind extended, .bind extended, .act 1 (.replace ["g"] (fresh extended))]

/-- Without its shape a configuration may be saved as a batch that is refused. -/
theorem batch_of_another_schema_refused :
    ¬∀ (ops : List Op) (c : Config) (whole : Value), empty.Drawn ops →
      (empty.after ops).Reads c → c.schema.Idempotent → c.toValue = .ok whole →
      ∃ saved, c.serialize = .ok saved ∧ ((fresh c.schema).update saved).fault = none ∧
        (((fresh c.schema).update saved).state.same c = true ↔ c.NullsByDefault) := by
  intro h
  have hops : empty.Drawn misfit := ⟨⟨.empty, trivial, ⟨trivial, trivial⟩, trivial⟩,
    .held (k := 0) rfl, .held (k := 0) rfl, ⟨2, _, _, [], rfl, rfl, rfl⟩, trivial⟩
  obtain ⟨saved, hsaved, hfault, _⟩ := h misfit
    ((fresh extended).withGroup "g" (fresh extended)) _ hops ⟨1, _, _, [], rfl, rfl, rfl⟩
    idempotent_extended rfl
  obtain rfl := Except.ok.inj hsaved
  have hrefused : some (Fault.unknownSetting "a") = none := hfault
  cases hrefused

end World
end SettingsTree
