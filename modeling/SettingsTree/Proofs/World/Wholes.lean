import SettingsTree.Proofs.Config.Equality
import SettingsTree.Proofs.World.Named

/-!
# Whole configurations of a program

Of every configuration that can be read at the end of a run, the map of the whole agrees with what
is read at its paths. Such configurations are equal exactly if they resolve, declare the same names
and read as equal values, whatever runs they come from.
-/
namespace SettingsTree.World

open Config

/-- Whole-tree reads agree with reads at paths. If all single settings resolve, the map of the
whole has at every path what is read there, and the keys are the declared names. If not, the fault
is that of the first one that fails, in declaration order and depth first. -/
theorem whole_agrees_with_reads {ops : List Op} {c : Config} (hops : empty.Drawn ops)
    (hc : (empty.after ops).Reads c) :
    (∀ path, path ∈ c.singles ↔ c.HasSingle path) ∧
      (∀ path ∈ c.singles, Path.parse path.join = path) ∧
      ((∃ whole, c.toValue = .ok whole) ↔ ∀ path, c.HasSingle path → ∃ v, c.getAt path = .ok v) ∧
      (∀ whole, c.toValue = .ok whole → c.Flattens whole) ∧
      ∀ fault, (c.toValue = .error fault ↔ c.FirstFails fault) ∧
        (c.toMap = .error fault ↔ c.FirstFails fault) := by
  obtain ⟨heap, hstamped, hgenuine⟩ := genuine_of_reads hops hc
  have hknown := hstamped.known
  have hnamed : c.Named := (named_after hops).reads hc
  have hsingles : ∀ path, path ∈ c.singles ↔ c.HasSingle path := fun _ =>
    hgenuine.mem_singles_iff hknown
  refine ⟨hsingles, fun path hp => hnamed.parse_join ((hsingles path).1 hp).declares,
    hgenuine.exists_toValue_iff_singles hknown, fun _ => hknown.flattens, fun fault => ?_⟩
  have hfails : c.toValue = .error fault ↔ c.FirstFails fault := hknown.toValue_eq_error_iff
  exact ⟨hfails, toMap_eq_error_iff.trans hfails⟩

/-- A map as a single setting, and two settings that must be given, one of them in a group. -/
def demanding : List Declaration :=
  [.setting "m" { fallback := some (.map [(.str "k", .unit)]) },
    .nested "g" {} [.setting "x" { construct := some .require }, .nested "h" {} [.setting "y" {}]],
    .setting "z" { construct := some .require }]

/-- Nothing is given in one configuration, whose whole is missing `g.x`. In the other one both
settings are given, and the whole has the map of the group as well as the one in `m`. -/
theorem whole_agrees_with_reads_demanding :
    let s := (Schema.Making.script .empty demanding).apply 0
    let ops := [.schema (.script .empty demanding), .bind s, .bind s,
      .act 2 (.edit ⟨["g"], .set "x" .unit⟩), .act 2 (.edit ⟨[], .set "z" .unit⟩)]
    ∃ lacking given whole,
      (empty.Drawn ops ∧ (empty.after ops).Reads lacking ∧ (empty.after ops).Reads given) ∧
      lacking.singles = [⟨[], "m"⟩, ⟨["g"], "x"⟩, ⟨["g", "h"], "y"⟩, ⟨[], "z"⟩] ∧
      (lacking.FirstFails (.rejected "x" "value required") ∧
        lacking.toValue = .error (.rejected "x" "value required") ∧
        lacking.toMap = .error (.rejected "x" "value required")) ∧
      given.toValue = .ok whole ∧ given.Flattens whole ∧
        whole.walk ["g", "h", "y"] = some .nothing ∧ whole.walk ["m", "k"] = some .unit ∧
        given.getAt ⟨["m"], "k"⟩ = .error (.notNested "m") := by
  intro s ops
  have hops : empty.Drawn ops :=
    ⟨⟨.empty, trivial, ⟨trivial, ⟨trivial, trivial⟩, trivial⟩, trivial, trivial⟩,
      .held (k := 0) rfl, .held (k := 0) rfl, trivial, trivial, trivial⟩
  have hlacking : (empty.after ops).Reads (fresh s) := ⟨1, _, _, [], rfl, rfl, rfl⟩
  obtain ⟨given, whole, hgiven, hwhole, hread, hbelow⟩ : ∃ given whole,
      (empty.after ops).Reads given ∧ given.toValue = .ok whole ∧
        given.getAt ⟨["g", "h"], "y"⟩ = .ok .nothing ∧ whole.walk ["m", "k"] = some .unit ∧
        given.getAt ⟨["m"], "k"⟩ = .error (.notNested "m") :=
    ⟨_, _, ⟨2, _, _, [], rfl, rfl, rfl⟩, rfl, rfl, rfl, rfl⟩
  obtain ⟨_, _, _, _, hfails⟩ := whole_agrees_with_reads hops hlacking
  obtain ⟨_, _, _, hflattens, _⟩ := whole_agrees_with_reads hops hgiven
  have hfault : (fresh s).toValue = .error (.rejected "x" "value required") := rfl
  have hfirst := (hfails _).1.1 hfault
  have hflat := hflattens whole hwhole
  exact ⟨fresh s, given, whole, ⟨hops, hlacking, hgiven⟩, rfl,
    ⟨hfirst, hfault, (hfails _).2.2 hfirst⟩, hwhole, hflat, hflat.walked _ _ hread, hbelow⟩

/-- The configuration can be read at the end of a drawn run. -/
def Reached (c : Config) : Prop :=
  ∃ ops, empty.Drawn ops ∧ (empty.after ops).Reads c

/-- Configurations are equal exactly if both resolve, declare the same names and read as equal
values under each, a group as the map of the whole group. So equality is symmetric and transitive,
and is reflexive where every setting resolves. It is decided by what is read at paths alone. -/
theorem equality_is_structural {a b : Config} (ha : Reached a) (hb : Reached b) :
    (a.same b = true ↔ (∃ whole, a.toValue = .ok whole) ∧ (∃ whole, b.toValue = .ok whole) ∧
        (∀ name, name ∈ a.schema.names ↔ name ∈ b.schema.names) ∧
        ∀ name ∈ a.schema.names, ∃ v w, a.value name = .ok v ∧ b.value name = .ok w ∧
          v.same w = true) ∧
      (∀ name inner other, a.nested name = .ok inner → b.nested name = .ok other →
        (inner.same other = true ↔
          ∃ v w, a.value name = .ok v ∧ b.value name = .ok w ∧ v.same w = true)) ∧
      (a.same b = true → b.same a = true) ∧
      (∀ c, a.same b = true → b.same c = true → a.same c = true) ∧
      (a.LooksLike b → a.Interchangeable b) ∧ a.DecidedByReads ∧
      (a.same a = true ↔ ∀ path, a.HasSingle path → ∃ v, a.getAt path = .ok v) := by
  obtain ⟨ops, hops, ha⟩ := ha
  obtain ⟨ops', hops', hb⟩ := hb
  obtain ⟨_, hstamped, hgenuine⟩ := genuine_of_reads hops ha
  obtain ⟨_, hstamped', hgenuine'⟩ := genuine_of_reads hops' hb
  have hproper := hstamped.known.here.proper
  refine ⟨same_iff_reads hproper hstamped'.known.here.proper,
    fun _ _ _ => same_iff_values, same_symm, fun _ => same_trans,
    fun h => h.interchangeable hgenuine hgenuine' hstamped.known hstamped'.known,
    hgenuine.decidedByReads hproper, ?_⟩
  rw [same_self_iff]
  exact hgenuine.exists_toValue_iff_singles hstamped.known

/-- The default of a setting in front of a group, and a setting without default behind it. -/
def defaulting : List Declaration :=
  [.setting "x" { fallback := some (.bool true) }, .nested "g" {} [.setting "y" {}]]

def reordered : List Declaration :=
  [.nested "g" {} [.setting "y" {}], .setting "x" {}]

/-- What one configuration has as a default is stored in the other, which was declared by another
script, in another order, and is frozen. They are equal. Where a setting must be given and is not,
a configuration is not equal to itself. -/
theorem equality_is_structural_reordered :
    let s := (Schema.Making.script .empty defaulting).apply 0
    let t := (Schema.Making.script .empty reordered).apply 1
    let u := (Schema.Making.script .empty demanding).apply 2
    ∃ a b lacking, (Reached a ∧ Reached b ∧ Reached lacking) ∧
      (a.schema = s ∧ a.values = [] ∧ a.frozen = false ∧ b.schema = t ∧ b.values.length = 1 ∧
        b.frozen = true) ∧
      (a.same b = true ∧ b.same a = true ∧ a.same a = true) ∧
      lacking.schema = u ∧ lacking.same lacking ≠ true := by
  intro s t u
  let ops : List Op := [.schema (.script .empty defaulting), .schema (.script .empty reordered),
    .schema (.script .empty demanding), .bind s, .bind t, .bind u,
    .act 4 (.edit ⟨[], .set "x" (.bool true)⟩), .act 4 .finalize]
  have hops : empty.Drawn ops :=
    ⟨⟨.empty, trivial, ⟨trivial, trivial⟩, trivial⟩,
      ⟨.empty, ⟨trivial, trivial⟩, trivial, trivial⟩,
      ⟨.empty, trivial, ⟨trivial, ⟨trivial, trivial⟩, trivial⟩, trivial, trivial⟩,
      .held (k := 0) rfl, .held (k := 1) rfl, .held (k := 2) rfl, trivial, trivial, trivial⟩
  obtain ⟨a, b, ha, hb, hshape, hwhole, hwhole', hx, hx', hg, hg'⟩ : ∃ a b : Config,
      Reached a ∧ Reached b ∧
      (a.schema = s ∧ a.values = [] ∧ a.frozen = false ∧ b.schema = t ∧ b.values.length = 1 ∧
        b.frozen = true) ∧
      (∃ whole, a.toValue = .ok whole) ∧ (∃ whole, b.toValue = .ok whole) ∧
      a.value "x" = .ok (.bool true) ∧ b.value "x" = .ok (.bool true) ∧
      a.value "g" = .ok (.map [(.str "y", .nothing)]) ∧
      b.value "g" = .ok (.map [(.str "y", .nothing)]) :=
    ⟨_, _, ⟨ops, hops, 3, _, _, [], rfl, rfl, rfl⟩, ⟨ops, hops, 4, _, _, [], rfl, rfl, rfl⟩,
      ⟨rfl, rfl, rfl, rfl, rfl, rfl⟩, ⟨_, rfl⟩, ⟨_, rfl⟩, rfl, rfl, rfl, rfl⟩
  have hlacking : Reached (fresh u) := ⟨ops, hops, 5, _, _, [], rfl, rfl, rfl⟩
  have hnames : a.schema.names = ["x", "g"] := hshape.1 ▸ rfl
  have hnames' : b.schema.names = ["g", "x"] := hshape.2.2.2.1 ▸ rfl
  obtain ⟨hsame, _, hsymm, htrans, _, _, _⟩ := equality_is_structural ha hb
  obtain ⟨_, _, _, _, _, _, hself⟩ := equality_is_structural hlacking hlacking
  have hequal : a.same b = true := by
    refine hsame.2 ⟨hwhole, hwhole', fun name => ?_, ?_⟩
    · rw [hnames, hnames', List.mem_pair, List.mem_pair, or_comm]
    · rw [hnames, List.forall_mem_cons, List.forall_mem_singleton]
      exact ⟨⟨_, _, hx, hx', Value.same_self _⟩, ⟨_, _, hg, hg', Value.same_self _⟩⟩
  refine ⟨a, b, fresh u, ⟨ha, hb, hlacking⟩, hshape,
    ⟨hequal, hsymm hequal, htrans a hequal (hsymm hequal)⟩, rfl, fun h => ?_⟩
  obtain ⟨v, hv⟩ := hself.1 h ⟨["g"], "x"⟩ ⟨_, _, rfl, rfl, rfl⟩
  cases hv

end SettingsTree.World
