import SettingsTree.Proofs.Config.Bindings
import SettingsTree.Proofs.Config.Genuine
import SettingsTree.Proofs.Config.Marks
import SettingsTree.Proofs.Config.Reach
import SettingsTree.Proofs.Paths

/-!
# Paths that address something and paths that go astray

A path addresses a setting or a group if its parents lead through groups to a declaration of its
leaf. What is done there is what the group at the end of the parents does, put back into its place.
Every other path goes astray at one of its segments: either the segment is not declared where the
ones before it lead, or it is a single setting with segments behind it. Then nothing is found, and
nothing is written as long as nothing is frozen.
-/
namespace SettingsTree.Config

variable {c inner : Config} {path : Path} {walk : List String} {name : String} {fault : Fault}

/-- The configuration with another one in the place of the group at the end of a walk. -/
def put (c : Config) (walk : List String) (inner : Config) : Config :=
  (c.within walk fun _ => .done inner).state

theorem within_eq_into (hd : c.descend walk = .ok inner) (edit : Config → Attempt Config) :
    c.within walk edit = (edit inner).into (c.put walk) := by
  induction walk generalizing c with
  | nil =>
      obtain rfl := Except.ok.inj hd
      rfl
  | cons name rest ih =>
      rw [descend] at hd
      cases hn : c.nested name with
      | error fault =>
          rw [hn] at hd
          cases hd
      | ok group =>
          rw [hn] at hd
          have hput : c.put (name :: rest) = fun t => c.withGroup name (group.put rest t) := by
            funext t
            simp only [put, within, hn, Attempt.state_into]
          rw [within, hn, hput]
          exact congrArg (Attempt.into · (c.withGroup name)) (ih hd)

/-- The parents of the path lead to a group, in which its leaf is declared. -/
def Declares (c : Config) (path : Path) : Prop :=
  ∃ inner, c.descend path.parents = .ok inner ∧ ∃ d, inner.schema.lookup path.leaf = some d

/-- The segments up to one of them lead through groups, and that one leads nowhere. The fault
names it. -/
inductive Strays (c : Config) (path : Path) : Fault → Prop where
  | undeclared {before later : List String} {segment : String} {inner : Config}
      (split : path.segments = before ++ segment :: later)
      (walked : c.descend before = .ok inner)
      (unknown : inner.schema.lookup segment = none) : Strays c path (.unknownSetting segment)
  | through {before later : List String} {segment next : String} {inner : Config} {d : Definition}
      (split : path.segments = before ++ segment :: next :: later)
      (walked : c.descend before = .ok inner)
      (known : inner.schema.lookup segment = some d) (single : d.group = none) :
      Strays c path (.notNested segment)

theorem descend_cons (hn : c.nested name = .ok inner) (walk : List String) :
    c.descend (name :: walk) = inner.descend walk := by
  rw [descend, hn]

theorem Declares.under (hn : c.nested name = .ok inner) (h : inner.Declares path) :
    c.Declares (path.under name) := by
  obtain ⟨group, hd, hl⟩ := h
  exact ⟨group, (descend_cons hn path.parents).trans hd, hl⟩

theorem Strays.under (hn : c.nested name = .ok inner) (h : inner.Strays path fault) :
    c.Strays (path.under name) fault := by
  cases h with
  | @undeclared before later segment _ split walked unknown =>
      have hsplit : (path.under name).segments = (name :: before) ++ segment :: later := by
        rw [Path.segments_under, split, List.cons_append]
      exact .undeclared hsplit ((descend_cons hn before).trans walked) unknown
  | @through before later segment next _ _ split walked known single =>
      have hsplit : (path.under name).segments = (name :: before) ++ segment :: next :: later := by
        rw [Path.segments_under, split, List.cons_append]
      exact .through hsplit ((descend_cons hn before).trans walked) known single

/-- All names in the schemas of the configuration and of the groups inside are identifiers. -/
abbrev Named (c : Config) : Prop :=
  c.Binds fun d => isIdentifier d.name = true

theorem Named.isIdentifier {d : Definition} (h : c.Named) (hl : c.schema.lookup name = some d) :
    isIdentifier name = true := by
  obtain ⟨hm, rfl⟩ := Schema.lookup_some hl
  exact h.here.each d hm

theorem Named.segments (h : c.Named) (hp : c.Declares path) :
    ∀ segment ∈ path.segments, SettingsTree.isIdentifier segment = true := by
  obtain ⟨parents, leaf⟩ := path
  obtain ⟨inner, hd, d, hl⟩ := hp
  induction parents generalizing c with
  | nil =>
      obtain rfl := Except.ok.inj hd
      exact List.forall_mem_singleton.2 (h.isIdentifier hl)
  | cons name rest ih =>
      rw [Config.descend] at hd
      cases hn : c.nested name with
      | error fault =>
          rw [hn] at hd
          cases hd
      | ok group =>
          rw [hn] at hd
          obtain ⟨⟨outer, houter⟩, hf⟩ := nested_eq_ok.1 hn
          exact List.forall_mem_cons.2 ⟨h.isIdentifier houter, ih (h.inside hf) hd hl⟩

/-- A path with identifiers for segments is read back from its text. -/
theorem Named.parse_join (h : c.Named) (hp : c.Declares path) : Path.parse path.join = path :=
  Path.parse_join fun segment hs => not_dot_mem_of_isIdentifier (h.segments hp segment hs)

/-- What is not addressed is found nowhere, and nothing is written to it. The induction is on the
parents: the first of them leads on to a group, or the path goes astray there. -/
theorem Genuine.exists_strays (h : c.Genuine) (hp : ¬c.Declares path) :
    ∃ fault, c.Strays path fault ∧ c.getAt path = .error fault ∧
      (c.Ordered → c.Open → ∀ raw, c.setAt path raw = .failed c fault) := by
  obtain ⟨parents, leaf⟩ := path
  induction parents generalizing c with
  | nil =>
      have hl : c.schema.lookup leaf = none :=
        Option.eq_none_iff_forall_ne_some.2 fun d hd => hp ⟨c, rfl, d, hd⟩
      refine ⟨_, .undeclared (List.nil_append _).symm rfl hl, ?_, fun _ hopen raw => ?_⟩
      · simp only [getAt, Config.descend, value, get, definition, hl]
      · refine set_of_refused ?_ raw
        simp only [target, hopen.here, definition, hl, Bool.false_eq_true, if_false]
  | cons name rest ih =>
      cases hl : c.schema.lookup name with
      | none =>
          have hn : c.nested name = .error (.unknownSetting name) := by
            simp only [nested, definition, hl]
          refine ⟨_, .undeclared (List.nil_append _).symm rfl hl, ?_, fun _ _ raw => ?_⟩
          · simp only [getAt, Config.descend, hn]
          · simp only [setAt, within, hn]
      | some d =>
          cases hf : Table.find? name c.groups with
          | some group =>
              have hn : c.nested name = .ok group := nested_eq_ok.2 ⟨⟨d, hl⟩, hf⟩
              obtain ⟨fault, hstrays, hget, hset⟩ :=
                ih (h.inside hf) fun hbelow => hp (hbelow.under hn)
              refine ⟨fault, hstrays.under hn, (getAt_of_group hl hf).trans hget,
                fun ho hopen raw => ?_⟩
              have hinner := hset (ho.inside hf) (hopen.inside hf) raw
              rw [setAt] at hinner
              rw [setAt, within, hn]
              simp only [hinner]
              exact congrArg (Attempt.failed · fault) (ho.withGroup_self hf)
          | none =>
              have hg : d.group = none := by
                have hsame := h.groups name
                rw [hf, hl] at hsame
                exact Option.isNone_iff_eq_none.1 (by simpa using hsame.symm)
              have hn : c.nested name = .error (.notNested name) := by
                simp only [nested, definition, hl, hf]
              obtain ⟨second, others, hsegments, _⟩ := Path.ofSegments_segments rest leaf
              have hsplit : Path.segments ⟨name :: rest, leaf⟩ = [] ++ name :: second :: others :=
                congrArg (name :: ·) hsegments
              refine ⟨_, .through hsplit rfl hl hg, ?_, fun _ _ raw => ?_⟩
              · simp only [getAt, Config.descend, hn]
              · simp only [setAt, within, hn]

/-- Texts with dots address settings and groups unambiguously. -/
structure Addressed (c : Config) : Prop where
  /-- The text of a path does what its leaf does in the group that the parents lead to. -/
  declared : ∀ (path : Path) (inner : Config) (d : Definition),
    c.descend path.parents = .ok inner → inner.schema.lookup path.leaf = some d →
      c.getAt (.parse path.join) = inner.value path.leaf ∧
      ∀ raw, c.setAt (.parse path.join) raw =
          (inner.set path.leaf raw).into (c.put path.parents) ∧
        (c.setAt (.parse path.join) raw).state.descend path.parents =
          .ok (inner.set path.leaf raw).state
  distinct : ∀ path other, c.Declares path → c.Declares other → path.join = other.join →
    path = other
  /-- Any other text leads nowhere, and what it is refused with names the segment at fault. -/
  astray : ∀ text, (∀ path, c.Declares path → path.join ≠ text) →
    ∃ fault, c.Strays (.parse text) fault ∧ c.getAt (.parse text) = .error fault ∧
      (c.Open → ∀ raw, c.setAt (.parse text) raw = .failed c fault)

theorem Genuine.addressed (h : c.Genuine) (ho : c.Ordered) (hn : c.Named) : c.Addressed where
  declared path inner d hd hl := by
    have hparse : Path.parse path.join = path := hn.parse_join ⟨inner, hd, d, hl⟩
    rw [hparse]
    refine ⟨?_, fun raw => ⟨within_eq_into hd _, descend_within hd⟩⟩
    simp only [getAt, hd]
  distinct path other hp hother hjoin := by
    rw [← hn.parse_join hp, hjoin, hn.parse_join hother]
  astray text hnone := by
    have hp : ¬c.Declares (.parse text) := fun hp => hnone _ hp (Path.join_parse text)
    obtain ⟨fault, hstrays, hget, hset⟩ := h.exists_strays hp
    exact ⟨fault, hstrays, hget, hset ho⟩

end SettingsTree.Config
