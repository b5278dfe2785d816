import SettingsTree.Proofs.Stage.Ledger
import SettingsTree.Proofs.World.Basic

/-!
# The books of a world

Beside the objects of a world a ledger is kept for every object with a configuration.
The books are kept by what the operations are, not by what is stored: a new
configuration starts with an empty ledger, a copy takes over the ledger of what it is
made from, and calls record their journals. A declaration that goes through, like a
rebinding, strikes out what was assigned under other definitions.

An operation is grounded if the schemas in it can be had from objects of the world, and
if it puts no configuration from elsewhere into another one.
-/
namespace SettingsTree

theorem Ledger.belowAll_apply (l : Ledger) (walk : List String) (path : Path) :
    l.belowAll walk path = l ⟨walk ++ path.parents, path.leaf⟩ := by
  induction walk generalizing l with
  | nil => rfl
  | cons name rest ih => exact ih (l.below name)

/-- The journal of a call on a configuration. -/
def Act.journal (c : Config) : Act → List Entry
  | .edit e => e.journal c
  | .configure edits => c.journalAll edits
  | _ => []

def Object.ledger (x : Object) (l : Ledger) (a : Act) : Ledger :=
  match x, a with
  | .owner o, .declare d =>
      match (o.declare d).fault with
      | none => l.keep (o.declare d).state.schema
      | some _ => l
  | x, a =>
      match x.config? with
      | some c => l.recordAll (a.journal c)
      | none => l

/-- The ledger of a configuration that is made from one with the given ledger. -/
def Config.Copy.ledger (k : Config.Copy) (c : Config) (l : Ledger) : Ledger :=
  match k.making, c.descend k.walk with
  | .rebind s, _ => (l.belowAll k.walk).keep s
  | .commit requests, .ok inner =>
      (l.belowAll k.walk).recordAll ((Stage.start inner).journal requests)
  | _, _ => l.belowAll k.walk

namespace World

abbrev Books := Nat → Ledger

def Books.enter (books : Books) (k : Nat) (l : Ledger) : Books := fun j =>
  if j = k then l else books j

/-- The books after one operation in a world. -/
def Books.step (books : Books) (w : World) : Op → Books
  | .schema _ | .bind _ | .found _ => books.enter w.clock .empty
  | .derive k _ | .spawn k => books.enter w.clock (books k)
  | .copy k copy =>
      match (w.held k).bind Object.config? with
      | some c => books.enter w.clock (copy.ledger c (books k))
      | none => books
  | .act k a =>
      match w.held k with
      | some x => books.enter k (x.ledger (books k) a)
      | none => books

def books (w : World) (books : Books) : List Op → Books
  | [] => books
  | op :: rest => (w.step op).books (books.step w op) rest

/-- The schemas that can be had from the objects of a world. -/
inductive Shows (w : World) : Schema → Prop where
  | empty : Shows w .empty
  | held {k : Nat} {s : Schema} (here : w.held k = some (.schema s)) : Shows w s
  | owner {k : Nat} {o : Owner} (here : w.held k = some (.owner o)) : Shows w o.schema
  | config {k : Nat} {x : Object} {c inner : Config} {walk : List String}
      (here : w.held k = some x) (read : x.config? = some c)
      (walked : c.descend walk = .ok inner) : Shows w inner.schema
  | inside {s t : Schema} {d : Definition} (outer : Shows w s) (listed : d ∈ s.definitions)
      (group : d.group = some t) : Shows w t

end World

/-- Every schema in it has the property. -/
def Schema.Making.From (P : Schema → Prop) : Schema.Making → Prop
  | script s statements => P s ∧ Declaration.TakeIn P statements
  | define s _ _ _ _ group => P s ∧ ∀ inner, group = some inner → P inner
  | incorporate s other => P s ∧ P other
  | merge ours theirs => P ours ∧ P theirs
  | exact s | duplicate s | freeze s => P s

/-- The schemas in the operation can be had from the world, and no configuration from
elsewhere is put into another one. -/
def Op.Grounded (w : World) : Op → Prop
  | .schema making => making.From w.Shows
  | .bind s => w.Shows s
  | .copy _ ⟨_, .rebind s⟩ => w.Shows s
  | .act _ (.declare d) => d.TakesIn w.Shows
  | .act _ (.replace _ _) => False
  | _ => True

def World.Grounded (w : World) : List Op → Prop
  | [] => True
  | op :: rest => op.Grounded w ∧ (w.step op).Grounded rest

namespace Config

theorem changes_configure (c : Config) (edits : List Edit) :
    Changes c (c.configure fun c => c.editAll edits).state (c.journalAll edits) := by
  have h := changes_editAll edits c
  unfold configure Attempt.andThen
  split
  · have hf := h.trans (.finalize _)
    rwa [List.append_nil] at hf
  · exact h

theorem changes_act (c : Config) {a : Act} (h : ∀ walk other, a ≠ .replace walk other) :
    Changes c (c.act a).state (a.journal c) := by
  cases a with
  | edit e => exact changes_edit c e
  | replace walk other => exact absurd rfl (h walk other)
  | configure edits => exact changes_configure c edits
  | finalize => exact .finalize c
  | declare | read | look => exact .refl c

theorem act_keeps {P : Config → Prop} {c : Config} {a : Act}
    (changes : ∀ {c' : Config} {journal : List Entry}, Changes c c' journal → P c')
    (replace : ∀ walk other, a = .replace walk other →
      P (c.within walk fun _ => .done other).state) : P (c.act a).state := by
  by_cases hr : ∃ walk other, a = .replace walk other
  · obtain ⟨walk, other, rfl⟩ := hr
    exact replace walk other rfl
  · exact changes (changes_act c fun walk other he => hr ⟨walk, other, he⟩)

/-- A well-formed configuration with a ledger, whose definitions stand in the heap. -/
structure Tracked (heap : Heap) (l : Ledger) (c : Config) : Prop where
  known : c.schema.StandsIn heap
  wellFormed : c.WellFormed
  accounts : Accounts l c

variable {heap heap' : Heap} {l : Ledger} {c inner made : Config} {s : Schema}

namespace Tracked

theorem mono (h : Tracked heap l c) (hle : ∀ stamp d, heap stamp = some d → heap' stamp = some d) :
    Tracked heap' l c :=
  ⟨h.known.mono fun _ hd hg => hle _ _ (hd hg), h.wellFormed, h.accounts⟩

theorem fresh (h : s.StandsIn heap) : Tracked heap .empty (fresh s) :=
  ⟨by rwa [schema_fresh], wellFormed_fresh h.proper, accounts_fresh s⟩

theorem changes {c' : Config} {journal : List Entry} (h : Tracked heap l c)
    (m : Changes c c' journal) : Tracked heap (l.recordAll journal) c' :=
  ⟨m.schema ▸ h.known, ⟨h.wellFormed.shaped.changes m, h.wellFormed.ordered.changes m⟩,
    h.accounts.changes m⟩

theorem duplicate (h : Tracked heap l c) : Tracked heap l c.duplicate :=
  ⟨by simpa using h.known, ⟨h.wellFormed.shaped.duplicate, h.wellFormed.ordered.duplicate⟩,
    h.accounts.duplicate⟩

theorem rebind (h : Tracked heap l c) (hs : s.StandsIn heap) :
    Tracked heap (l.keep s) (c.rebind s) :=
  ⟨by rwa [schema_rebind], ⟨shaped_rebind hs.proper c, ordered_rebind c s⟩,
    h.accounts.rebind h.wellFormed.shaped h.known hs⟩

theorem descend {walk : List String} (h : Tracked heap l c) (hd : c.descend walk = .ok inner) :
    Tracked heap (l.belowAll walk) inner := by
  have hknown : c.schema.StandsIn heap ∧ c.Shaped → inner.schema.StandsIn heap ∧ inner.Shaped :=
    fun hc => descend_keeps (P := fun c => c.schema.StandsIn heap ∧ c.Shaped)
      (fun hc hf => by
        obtain ⟨d, hl, hg⟩ := hc.2.declared hf
        exact ⟨hc.1.inside (Schema.lookup_some hl).1 hg, hc.2.inside hf⟩) hc hd
  exact ⟨(hknown ⟨h.known, h.wellFormed.shaped⟩).1,
    ⟨h.wellFormed.shaped.descend hd, h.wellFormed.ordered.descend hd⟩, h.accounts.descend hd⟩

theorem commit {requests : List Staging} (h : Tracked heap l c)
    (hc : ((Stage.start c).after requests).commit = .ok made) :
    Tracked heap (l.recordAll ((Stage.start c).journal requests)) made := by
  have haccounts := Stage.accounts_commit requests h.accounts h.wellFormed.ordered hc
  obtain ⟨stage, rfl, hfits, hcommits⟩ := Stage.exists_commits h.wellFormed.ordered hc
  refine ⟨?_, ⟨hcommits.shaped hfits h.wellFormed.shaped,
    hcommits.ordered h.wellFormed.ordered hfits⟩, haccounts⟩
  rw [hcommits.schema]
  exact h.known

theorem copy {k : Copy} (h : Tracked heap l c) (hk : k.apply c = .ok made)
    (hs : ∀ s, k.making = .rebind s → s.StandsIn heap) : Tracked heap (k.ledger c l) made := by
  obtain ⟨walk, making⟩ := k
  unfold Copy.apply at hk
  split at hk
  · cases hk
  · next inner hd =>
      have hi := h.descend hd
      unfold Copy.ledger
      simp only at hd hi ⊢
      rw [hd]
      cases making with
      | exact => exact Except.ok.inj hk ▸ hi
      | duplicate => exact Except.ok.inj hk ▸ hi.duplicate
      | rebind s => exact Except.ok.inj hk ▸ hi.rebind (hs s rfl)
      | commit requests => exact hi.commit hk

/-- The value of a setting is what its constructor returns for the raw value in the
ledger, and for the default where the ledger has none. -/
theorem value_eq {walk : List String} {name : String} {d : Definition} (h : Tracked heap l c)
    (hd : c.descend walk = .ok inner) (hl : inner.schema.lookup name = some d)
    (hg : d.group = none) :
    inner.value name = d.resolve ((l ⟨walk, name⟩).map Prod.snd) ∧
      ∀ stamp raw, l ⟨walk, name⟩ = some (stamp, raw) → stamp = d.stamp := by
  have hi := h.descend hd
  have hpath : l.belowAll walk ⟨[], name⟩ = l ⟨walk, name⟩ := by
    rw [Ledger.belowAll_apply, List.append_nil]
  rw [← hpath, hi.wellFormed.shaped.value_of_single hl hg]
  cases hn : l.belowAll walk ⟨[], name⟩ with
  | none =>
      rw [hi.accounts.unassigned hn]
      exact ⟨rfl, fun _ _ he => nomatch he⟩
  | some entry =>
      obtain ⟨d', v, hl', _, hstamp, hv, hf⟩ := hi.accounts.assigned hn
      obtain rfl := Option.some.inj (hl.symm.trans hl')
      refine ⟨by rw [hf]; exact hv.symm, fun stamp raw he => ?_⟩
      rw [Option.some.inj he] at hstamp
      exact hstamp.symm

end Tracked

end Config
end SettingsTree
