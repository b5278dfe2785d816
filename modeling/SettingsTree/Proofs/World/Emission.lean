import SettingsTree.Proofs.Config.Stripped
import SettingsTree.Proofs.World.Genuine

/-!
# Writing a configuration and reading it as a map

The two agree for all configurations that can be read from a world. Either both go through or
neither does, and what is written lacks the null single settings, at every depth. The order in
which it is handed over has the single settings first, as some formats demand.
-/
namespace SettingsTree.World

open Config

/-- A configuration is written exactly if it can be read as a map. It is written as that map
without the single settings that are null, and at the end of every walk the rest of them come in
the order of their declarations before the groups in theirs. -/
theorem serialize_eq_value_without_nulls {ops : List Op} {c : Config}
    (hops : empty.Drawn ops) (hc : (empty.after ops).Reads c) :
    ((∃ v, c.serialize = .ok v) ↔ ∃ whole, c.toValue = .ok whole) ∧
      (∀ whole, c.toValue = .ok whole → c.serialize = .ok (c.stripped whole)) ∧
      ∀ walk inner, c.descend walk = .ok inner → inner.HandsOver := by
  obtain ⟨heap, hstamped, hgenuine⟩ := genuine_of_reads hops hc
  have hknown := hstamped.known
  have hwritten : ∀ whole, c.toValue = .ok whole → c.serialize = .ok (c.stripped whole) :=
    fun _ hw => hgenuine.serialize_eq_stripped hknown hw
  refine ⟨⟨?_, ?_⟩, hwritten, fun walk inner hd => ?_⟩
  · rintro ⟨v, hv⟩
    exact hgenuine.exists_toValue_of_serialize hknown hv
  · rintro ⟨whole, hw⟩
    exact ⟨_, hwritten whole hw⟩
  · exact (hgenuine.descend hd).handsOver (hstamped.descend hd).known.here.proper

/-- A group before the single settings, with a setting in it that has no default, a setting
whose value has a null in it, and a group without settings. -/
def sparse : List Declaration :=
  [.nested "g" {} [.setting "x" {}, .setting "y" { fallback := some (Registered.number 1) }],
    .setting "m" { fallback := some (.map [(.str "k", .nothing)]) },
    .setting "a" { fallback := some .unit }, .nested "e" {} []]

/-- The settings without a value are not written, in the group neither, and the null in the map
is. The map comes first, and then the groups. -/
theorem serialize_eq_value_without_nulls_sparse :
    ∃ ops c whole, (empty.Drawn ops ∧ (empty.after ops).Reads c ∧ c.toValue = .ok whole) ∧
      c.serialize = .ok (c.stripped whole) ∧ c.HandsOver ∧
      whole = .map [(.str "a", .unit), (.str "e", .map []),
        (.str "g", .map [(.str "x", .nothing), (.str "y", Registered.number 2)]),
        (.str "m", .map [(.str "k", .nothing)])] ∧
      c.stripped whole = .map [(.str "e", .map []),
        (.str "g", .map [(.str "y", Registered.number 2)]),
        (.str "m", .map [(.str "k", .nothing)])] ∧
      c.emission.settings.map Prod.fst ++ c.emission.groups.map Prod.fst = ["m", "g", "e"] := by
  have hrun : ∃ (s : Schema) (c : Config) (whole : Value),
      (empty.after [.schema (.script .empty sparse)]).Shows s ∧
      (empty.after [.schema (.script .empty sparse), .bind s,
        .act 1 (.edit ⟨["g"], .set "y" (Registered.number 2)⟩)]).Reads c ∧
      c.toValue = .ok whole ∧
      whole = .map [(.str "a", .unit), (.str "e", .map []),
        (.str "g", .map [(.str "x", .nothing), (.str "y", Registered.number 2)]),
        (.str "m", .map [(.str "k", .nothing)])] ∧
      c.stripped whole = .map [(.str "e", .map []),
        (.str "g", .map [(.str "y", Registered.number 2)]),
        (.str "m", .map [(.str "k", .nothing)])] ∧
      c.emission.settings.map Prod.fst ++ c.emission.groups.map Prod.fst = ["m", "g", "e"] :=
    ⟨_, _, _, .held (k := 0) rfl, ⟨1, _, _, [], rfl, rfl, rfl⟩, rfl, rfl, rfl, rfl⟩
  obtain ⟨s, c, whole, hs, hc, hwhole, hvalue, hstripped, hkeys⟩ := hrun
  have hops : empty.Drawn [.schema (.script .empty sparse), .bind s,
      .act 1 (.edit ⟨["g"], .set "y" (Registered.number 2)⟩)] :=
    ⟨⟨.empty, ⟨trivial, trivial, trivial⟩, trivial, trivial, trivial, trivial⟩, hs, trivial,
      trivial⟩
  obtain ⟨_, hwritten, hinside⟩ := serialize_eq_value_without_nulls hops hc
  exact ⟨_, c, whole, ⟨hops, hc, hwhole⟩, hwritten whole hwhole, hinside [] c rfl, hvalue,
    hstripped, hkeys⟩

end SettingsTree.World
