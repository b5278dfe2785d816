import SettingsTree.Proofs.Config.Addresses
import SettingsTree.Proofs.World.Genuine

/-!
# Every name is an identifier

A definition is built only for a name that is an identifier, by a script as well as on its own,
and inclusions, merges and copies pass on definitions that were built before. So all names in the
schemas of a run are identifiers, in whatever places they end up.
-/
namespace SettingsTree

theorem Schema.Making.named {making : Schema.Making} (author : Nat)
    (h : making.From Schema.Named) : (making.apply author).Named := by
  cases making with
  | script s statements =>
      show (Scope.run ⟨s, { author }⟩ statements).state.schema.Named
      exact Scope.named_run statements h.1 h.2
  | define s name fallback construct reader group =>
      rw [apply]
      split
      · next d hd =>
          obtain ⟨_, rfl, hname⟩ := Definition.build_ok hd
          exact Schema.All.declare h.1 hname h.2
      · exact h.1
  | incorporate s other => exact Schema.All.incorporate h.1 h.2
  | merge ours theirs => exact Schema.All.merge (fun _ _ _ hname => hname) h.1 h.2
  | exact s => exact h
  | duplicate s => exact Schema.All.duplicate h
  | freeze s => exact Schema.All.freeze h

structure Owner.Named (o : Owner) : Prop where
  schema : o.schema.Named
  current : ∀ c, o.current? = some c → c.Named

def Object.Named : Object → Prop
  | schema s => s.Named
  | config c => c.Named
  | owner o => o.Named
  | inst i => i.config.Named

namespace Owner.Named
variable {o : Owner}

theorem config (h : o.Named) : o.config.Named :=
  config_keeps (Config.binds_fresh h.schema) h.current fun c _ _ =>
    Config.binds_rebind c h.schema

theorem derive (h : o.Named) (name : String) (author : Nat) : (o.derive name author).Named := by
  refine ⟨h.schema, fun c hc => ?_⟩
  obtain ⟨held, hheld, rfl⟩ := exists_of_current_derive hc
  exact (h.current held hheld).duplicate

theorem declare (h : o.Named) {d : Declaration} (hd : d.TakesIn Schema.Named) :
    (o.declare d).state.Named := by
  cases hf : (o.declare d).fault with
  | some fault =>
      rw [declare_failed hf]
      exact h
  | none =>
      have hs : (o.declare d).state.schema.Named := by
        have hscope : (Scope.declare ⟨o.schema, o.supply⟩ d).state.schema.Named :=
          Scope.named_declare d h.schema hd
        obtain ⟨_, scope, hdone, hstate⟩ := declare_done hf
        rw [hdone, Attempt.state_done] at hscope
        rwa [hstate]
      refine ⟨hs, fun c hc => ?_⟩
      obtain ⟨held, _, rfl⟩ := exists_of_current_declare hf hc
      exact Config.binds_rebind held hs

end Owner.Named

namespace Object.Named
variable {x : Object}

theorem config {c : Config} (h : x.Named) (hc : x.config? = some c) : c.Named := by
  cases x with
  | schema s => cases hc
  | config c => exact Option.some.inj hc ▸ h
  | owner o => exact Option.some.inj hc ▸ Owner.Named.config h
  | inst i => exact Option.some.inj hc ▸ h

theorem act {a : Act} (h : x.Named) (hd : ∀ d, a ≠ .declare d)
    (ho : ∀ walk other, a = .replace walk other → other.Named) : (x.act a).state.Named := by
  have hact : ∀ c : Config, c.Named → (c.act a).state.Named := fun c hc =>
    Config.act_keeps hc.changes fun walk other he => hc.replace walk (ho walk other he)
  cases x with
  | schema s => exact h
  | config c => exact hact c h
  | inst i =>
      show Config.Named (i.act a).state.config
      rw [i.state_act]
      exact hact i.config h
  | owner o =>
      have ho : o.Named := h
      show Owner.Named (o.act a).state
      rw [o.state_act hd]
      exact ⟨ho.schema, fun c hc => Option.some.inj hc ▸ hact o.config ho.config⟩

end Object.Named

namespace World
variable {w : World}

def Named (w : World) : Prop :=
  ∀ k x, w.held k = some x → x.Named

namespace Named

theorem shows (h : w.Named) {s : Schema} (hs : w.Shows s) : s.Named := by
  induction hs with
  | empty => exact Schema.all_empty
  | held hk => exact h _ _ hk
  | owner hk => exact (show Owner.Named _ from h _ _ hk).schema
  | config hk hc hd => exact (((h _ _ hk).config hc).descend hd).here
  | inside _ hd hg ih => exact ih.inside hd hg

theorem reads (h : w.Named) {c : Config} (hc : w.Reads c) : c.Named := by
  obtain ⟨k, x, outer, walk, hk, hx, hd⟩ := hc
  exact ((h k x hk).config hx).descend hd

theorem act {k : Nat} {x : Object} {a : Act} (h : w.Named) (hk : w.held k = some x)
    (ha : Op.Drawn w (.act k a)) : (x.act a).state.Named := by
  by_cases hd : ∃ d, a = .declare d
  · obtain ⟨d, rfl⟩ := hd
    cases x with
    | owner o => exact Owner.Named.declare (h k _ hk) (Scope.TakesIn.mono (fun _ => h.shows) ha)
    | schema | config | inst => exact h k _ hk
  · refine (h k x hk).act (fun d he => hd ⟨d, he⟩) fun walk other he => ?_
    obtain rfl := he
    exact h.reads ha

theorem made (h : w.Named) {heap : Heap} (hs : w.Stamped heap) {op : Op} {x : Object}
    (hop : op.Drawn w) (hx : w.Makes op x) : x.Named := by
  cases hx with
  | schema making =>
      have hmaking : making.From w.Shows := hop
      exact Schema.Making.named w.clock (hmaking.mono fun _ => h.shows)
  | bind s => exact Config.binds_fresh (h.shows hop)
  | found name => exact ⟨Schema.all_empty, fun _ hc => nomatch hc⟩
  | @derive k o hk name => exact Owner.Named.derive (h k _ hk) name w.clock
  | @spawn k o hk => exact Config.Binds.duplicate (Owner.Named.config (h k _ hk))
  | @copy k y c made copy hk hc hmade =>
      have hordered := ((hs.objects k y hk).config hc).ordered
      refine ((h k y hk).config hc).copy hordered hmade fun s he => ?_
      obtain ⟨walk, making⟩ := copy
      obtain rfl : making = .rebind s := he
      exact h.shows hop

/-- Every drawn operation leaves identifiers only. -/
theorem step (h : w.Named) {heap : Heap} (hs : w.Stamped heap) {op : Op} (hop : op.Drawn w) :
    (w.step op).Named := by
  intro k x hx
  by_cases hk : k = w.clock
  · rw [hk, held_step_clock] at hx
    exact h.made hs hop (makes_of_made? hx)
  · obtain ⟨y, hy, hcall⟩ := act_of_held_step hk hx
    rcases hcall with rfl | ⟨a, rfl, rfl | rfl⟩
    · exact h k x hy
    · exact h.act hy hop
    · exact (h k y hy).act (fun _ he => nomatch he) fun _ _ he => nomatch he

theorem after (h : w.Named) {heap : Heap} (hs : w.Stamped heap) {ops : List Op}
    (hops : w.Drawn ops) : (w.after ops).Named := by
  induction ops generalizing w heap with
  | nil => exact h
  | cons op rest ih =>
      obtain ⟨heap', hafter⟩ := hs.step hops.1
      exact ih (h.step hs hops.1) hafter hops.2

end Named

theorem named_empty : empty.Named := fun _ _ hk => nomatch hk

theorem named_after {ops : List Op} (hops : empty.Drawn ops) : (empty.after ops).Named :=
  named_empty.after stamped_empty hops

/-- In every schema of a drawn run all names are identifiers, at every depth. So texts with dots
address the settings and groups of every configuration unambiguously. -/
theorem dotted_paths_unambiguous {ops : List Op} (hops : empty.Drawn ops) :
    (∀ s, (empty.after ops).Shows s → s.Named) ∧
      (∀ text, (Path.parse text).join = text) ∧
      ∀ c, (empty.after ops).Reads c → c.Addressed := by
  have hnamed := named_after hops
  refine ⟨fun s hs => hnamed.shows hs, Path.join_parse, fun c hc => ?_⟩
  obtain ⟨_, hstamped, hgenuine⟩ := genuine_of_reads hops hc
  exact hgenuine.addressed hstamped.ordered (hnamed.reads hc)

/-- A single setting beside a group with another group in it. -/
def twoLevels : List Declaration :=
  [.setting "w" {}, .nested "g" {} [.setting "x" {}, .nested "h" {} [.setting "y" {}]]]

/-- The text `g.x` does what `x` does in `g`. Two dots on end lead to no setting, and nothing is
below a single one. -/
theorem dotted_paths_unambiguous_two_levels :
    let s := (Schema.Making.script .empty twoLevels).apply 0
    let ops := [.schema (.script .empty twoLevels), .bind s]
    let c := Config.fresh s
    (empty.Drawn ops ∧ (empty.after ops).Reads c) ∧
      (∃ inner, c.descend ["g"] = .ok inner ∧ c.getAt (.parse "g.x") = inner.value "x" ∧
        c.setAt (.parse "g.x") .unit = (inner.set "x" .unit).into (c.put ["g"]) ∧
        (c.setAt (.parse "g.x") .unit).state.getAt (.parse "g.x") = .ok .unit) ∧
      (c.Strays (.parse "g..x") (.unknownSetting "") ∧
        c.getAt (.parse "g..x") = .error (.unknownSetting "") ∧
        c.setAt (.parse "g..x") .unit = .failed c (.unknownSetting "")) ∧
      c.Strays (.parse "w.x") (.notNested "w") ∧
        c.getAt (.parse "w.x") = .error (.notNested "w") ∧
        c.setAt (.parse "w.x") .unit = .failed c (.notNested "w") := by
  intro s ops c
  have hops : empty.Drawn ops :=
    ⟨⟨.empty, trivial, ⟨trivial, ⟨trivial, trivial⟩, trivial⟩, trivial⟩, .held (k := 0) rfl,
      trivial⟩
  have hc : (empty.after ops).Reads c := ⟨1, _, _, [], rfl, rfl, rfl⟩
  have hopen : c.Open := Config.open_fresh s
  obtain ⟨hnames, hjoin, haddress⟩ := dotted_paths_unambiguous hops
  have haddressed := haddress c hc
  have hnamed : c.Named := (named_after hops).reads hc
  have hastray : ∀ text fault, ¬c.Declares (.parse text) → c.getAt (.parse text) = .error fault →
      c.Strays (.parse text) fault ∧ c.getAt (.parse text) = .error fault ∧
        c.setAt (.parse text) .unit = .failed c fault := by
    intro text fault hnot hget
    obtain ⟨other, hstrays, hread, hwrite⟩ := haddressed.astray text fun path hp he =>
      hnot (by rwa [← he, hnamed.parse_join hp])
    obtain rfl := Except.error.inj (hread.symm.trans hget)
    exact ⟨hstrays, hread, hwrite hopen .unit⟩
  obtain ⟨hread, hwrite⟩ := haddressed.declared ⟨["g"], "x"⟩ _ _ rfl rfl
  refine ⟨⟨hops, hc⟩, ⟨_, rfl, hread, (hwrite .unit).1, rfl⟩, hastray "g..x" _ ?_ rfl,
    hastray "w.x" _ ?_ rfl⟩
  · rintro ⟨inner, hd, _⟩
    cases hd
  · rintro ⟨inner, hd, _⟩
    cases hd

end World
end SettingsTree
