import SettingsTree.Proofs.Schema.Growth
import SettingsTree.Proofs.World.Bonds
import SettingsTree.Proofs.World.Stamps

/-!
# How long schemas are shared

A derived owner holds the schema of its parent until a declaration on it goes through. Refused
declarations, reads, writes and all other calls leave it as it is. A declaration that goes through
ends the sharing, also if it brings in no definition, as the inclusion of an empty schema does.
That sharing lasts until the schema is altered holds therefore of those calls, and only of those,
among which no declaration goes through idly as long as the schema is shared.
-/
namespace SettingsTree

namespace Owner

def Accepts (o : Owner) (call : Call) : Prop :=
  ∃ d, call.toAct = .declare d ∧ (o.declare d).fault = none

/-- The call adds definitions to the schema or replaces some. -/
def Alters (o : Owner) (call : Call) : Prop :=
  ∃ d, call.toAct = .declare d ∧ (o.declare d).fault = none ∧ d.brings o.supply ≠ []

theorem Alters.accepts {o : Owner} {call : Call} (h : o.Alters call) : o.Accepts call := by
  obtain ⟨d, hcall, hdone, _⟩ := h
  exact ⟨d, hcall, hdone⟩

namespace Line

/-- One of the calls after a line has the property on the owner that it is made on. -/
def Meets (P : Owner → Call → Prop) (l : Owner.Line) : List Call → Prop
  | [] => False
  | call :: rest => P l.last call ∨ Meets P (l.called call) rest

/-- As long as no call has altered the schema, and no longer, the owner shares the schema of its
parent, and until then it holds the same object. -/
def SharesUntilAltered (assigned : Owner.Line → Owner.Line) (l : Owner.Line)
    (calls : List Call) : Prop :=
  ∀ first, first <+: calls →
    ((l.extend first).last.sharesParentSchema = true ↔ ¬l.Meets Alters first) ∧
      (¬l.Meets Alters first →
        ((l.extend first).bonds assigned).schema = (l.bonds assigned).schema)

variable {P Q : Owner → Call → Prop} {assigned : Owner.Line → Owner.Line} {l : Owner.Line}
  {calls first : List Call} {call : Call}

theorem meets_concat :
    l.Meets P (calls ++ [call]) ↔ l.Meets P calls ∨ P (l.extend calls).last call := by
  induction calls generalizing l with
  | nil => exact or_comm
  | cons c rest ih => exact (or_congr_right ih).trans or_assoc.symm

theorem Meets.mono (h : l.Meets P calls) (hPQ : ∀ o call, P o call → Q o call) :
    l.Meets Q calls := by
  induction calls generalizing l with
  | nil => exact h
  | cons c rest ih => exact h.imp (hPQ _ c) ih

/-- A declaration that goes through ends the sharing, and no other call does anything about it. -/
theorem shares_called (assigned : Owner.Line → Owner.Line) (l : Owner.Line) (call : Call) :
    ((l.called call).last.sharesParentSchema = true ↔
      l.last.sharesParentSchema = true ∧ ¬l.last.Accepts call) ∧
    (¬l.last.Accepts call → (l.called call).last.schema = l.last.schema ∧
      ((l.called call).bonds assigned).schema = (l.bonds assigned).schema) := by
  have hturn := turn assigned l call
  generalize (l.called call).last = o, (l.called call).bonds assigned = b at hturn ⊢
  cases hturn with
  | refused d fault asked refused =>
      have hnot : ¬l.last.Accepts call := by
        rintro ⟨d', asked', hdone⟩
        obtain rfl := Act.declare.inj (asked.symm.trans asked')
        cases refused.symm.trans hdone
      exact ⟨(and_iff_left hnot).symm, fun _ => ⟨rfl, rfl⟩⟩
  | declared d scope asked done unbuilt ran =>
      have hyes : l.last.Accepts call := ⟨d, asked, done⟩
      refine ⟨iff_of_false ?_ fun h => h.2 hyes, fun hnot => absurd hyes hnot⟩
      simp only [sharesParentSchema]
      split_ifs <;> simp
  | used asked =>
      have hnot : ¬l.last.Accepts call := by
        rintro ⟨d, asked', _⟩
        exact asked d asked'
      exact ⟨(and_iff_left hnot).symm, fun _ => ⟨rfl, rfl⟩⟩

/-- Sharing lasts until the first declaration that goes through. -/
theorem shares_extend (assigned : Owner.Line → Owner.Line) (l : Owner.Line) (calls : List Call) :
    ((l.extend calls).last.sharesParentSchema = true ↔
      l.last.sharesParentSchema = true ∧ ¬l.Meets Accepts calls) ∧
    (¬l.Meets Accepts calls → (l.extend calls).last.schema = l.last.schema ∧
      ((l.extend calls).bonds assigned).schema = (l.bonds assigned).schema) := by
  induction calls generalizing l with
  | nil => exact ⟨(and_iff_left id).symm, fun _ => ⟨rfl, rfl⟩⟩
  | cons call rest ih =>
      obtain ⟨hshares, hkeeps⟩ := shares_called assigned l call
      obtain ⟨hshares', hkeeps'⟩ := ih (l.called call)
      refine ⟨?_, fun hnot => ?_⟩
      · rw [Meets, not_or, ← and_assoc, ← hshares]
        exact hshares'
      · obtain ⟨hcall, hrest⟩ := not_or.1 hnot
        obtain ⟨hschema, hobject⟩ := hkeeps hcall
        obtain ⟨hschema', hobject'⟩ := hkeeps' hrest
        exact ⟨hschema'.trans hschema, hobject'.trans hobject⟩

/-- Where sharing starts it lasts until the schema is altered exactly if no declaration goes
through idly before. -/
theorem sharesUntilAltered_iff (hl : l.last.sharesParentSchema = true) :
    l.SharesUntilAltered assigned calls ↔ ∀ first call, first ++ [call] <+: calls →
      (l.extend first).last.sharesParentSchema = true → (l.extend first).last.Accepts call →
        (l.extend first).last.Alters call := by
  have hshares : ∀ first, (l.extend first).last.sharesParentSchema = true ↔
      ¬l.Meets Accepts first := fun first =>
    (shares_extend assigned l first).1.trans (and_iff_right hl)
  constructor
  · intro hlaw first call hp hsharing haccepts
    have hends : l.Meets Accepts (first ++ [call]) := meets_concat.2 (.inr haccepts)
    have hunshared := mt (hshares (first ++ [call])).1 (not_not.2 hends)
    have hmeets := not_not.1 (mt (hlaw _ hp).1.2 hunshared)
    have hfirst := (hlaw first ((List.prefix_append first [call]).trans hp)).1.1 hsharing
    exact (meets_concat.1 hmeets).resolve_left hfirst
  · intro hidle
    -- Up to the first declaration that goes through, nothing goes through; and this one alters.
    have hboth : ∀ first, first <+: calls → l.Meets Accepts first → l.Meets Alters first := by
      intro first
      induction first using List.reverseRecOn with
      | nil => exact fun _ h => h
      | append_singleton first call ih =>
          intro hp hmeets
          refine meets_concat.2 ?_
          by_cases hbefore : l.Meets Accepts first
          · exact .inl (ih ((List.prefix_append first [call]).trans hp) hbefore)
          · have haccepts := (meets_concat.1 hmeets).resolve_left hbefore
            exact .inr (hidle first call hp ((hshares first).2 hbefore) haccepts)
    intro first hp
    have hmeets : l.Meets Accepts first ↔ l.Meets Alters first :=
      ⟨hboth first hp, fun h => h.mono fun _ _ => Alters.accepts⟩
    rw [hshares, ← hmeets]
    exact ⟨Iff.rfl, fun hnot => ((shares_extend assigned l first).2 hnot).2⟩

end Line
end Owner

namespace World

/-- A derived owner shares the schema of its parent, and holds the object that its parent held when
it was derived, until the first declaration on it that goes through. So sharing lasts until the
schema is altered exactly if every declaration that goes through on the owner while it shares the
schema brings a definition into it. -/
theorem sharing_lasts_until_altered_iff (assigned : Owner.Line → Owner.Line)
    (before later : List Op) (k : Nat) (name : String) {parent : Owner}
    (hparent : (empty.after before).held k = some (.owner parent)) :
    ∃ p child : Owner.Line, line? before k = some (.owner p) ∧ p.last = parent ∧
      child = .derived p before.length name ∧
      let calls := Chronicle.callsOn before.length later
      let heir := child.extend calls
      (empty.after (before ++ .derive k name :: later)).held before.length =
        some (.owner heir.last) ∧
      (heir.last.sharesParentSchema = true ↔ ¬child.Meets Owner.Accepts calls) ∧
      (heir.last.sharesParentSchema = true → heir.last.schema = parent.schema ∧
        (heir.bonds assigned).schema = (p.bonds assigned).schema) ∧
      (child.SharesUntilAltered assigned calls ↔
        ∀ first call, first ++ [call] <+: calls →
          (child.extend first).last.sharesParentSchema = true →
          (child.extend first).last.Accepts call → (child.extend first).last.Alters call) := by
  obtain ⟨p, hp, rfl⟩ := exists_line hparent
  have hborn : Owner.sharesParentSchema (Owner.Line.derived p before.length name).last = true := rfl
  obtain ⟨hshares, hkeeps⟩ := Owner.Line.shares_extend assigned
    (.derived p before.length name) (Chronicle.callsOn before.length later)
  have hiff := hshares.trans (and_iff_right hborn)
  have hline := line?_append (line?_derive hp name) later
  rw [List.append_assoc] at hline
  exact ⟨p, _, hp, rfl, rfl, held_of_line? hline, hiff, fun h => hkeeps (hiff.1 h),
    Owner.Line.sharesUntilAltered_iff hborn⟩

/-- An owner with a setting. -/
def patron : List Op :=
  [.found "base", .act 0 (.declare (.setting "a" { fallback := some (.char '1') }))]

/-- The line of a child of it. -/
def client : Owner.Line :=
  .derived (.called (.founded 0 "base")
    (.act (.declare (.setting "a" { fallback := some (.char '1') })))) 2 "child"

/-- A child of it is refused a setting, reads one, and declares one. -/
def settling : List Op :=
  [.act 2 (.declare (.setting "9" {})), .derive 2 "grandchild", .act 2 (.declare (.setting "b" {})),
    .act 0 (.declare (.setting "c" {}))]

/-- Settings bring themselves in, so sharing lasts until the first that is not refused. -/
theorem sharing_lasts_until_altered_settling :
    client.SharesUntilAltered id (Chronicle.callsOn 2 settling) ∧
      (empty.after (patron ++ .derive 0 "child" :: settling)).held 2 =
        some (.owner (client.extend (Chronicle.callsOn 2 settling)).last) ∧
      (client.extend (Chronicle.callsOn 2 (settling.take 2))).last.sharesParentSchema = true ∧
      (client.extend (Chronicle.callsOn 2 settling)).last.sharesParentSchema = false := by
  obtain ⟨p, child, hp, _, hchild, hheld, _, _, hlasts⟩ := 
    sharing_lasts_until_altered_iff id patron settling 0 "child" rfl
  obtain rfl := Line.owner.inj (Option.some.inj hp)
  obtain rfl : child = client := hchild
  refine ⟨hlasts.2 fun first call hprefix _ ⟨d, hcall, hdone⟩ => ?_, hheld, rfl, rfl⟩
  have hmem : call ∈ Chronicle.callsOn 2 settling := hprefix.mem (by simp)
  have hsetting : ∃ name, call = .act (.declare (.setting name {})) := by
    rcases List.mem_cons.1 hmem with rfl | hmem
    · exact ⟨_, rfl⟩
    · exact ⟨_, List.mem_singleton.1 hmem⟩
  obtain ⟨name, rfl⟩ := hsetting
  obtain rfl := Act.declare.inj hcall
  exact ⟨_, rfl, hdone, List.cons_ne_nil _ _⟩

/-- The inclusion of an empty schema alters nothing and ends the sharing all the same. -/
theorem empty_inclusion_ends_sharing :
    ¬∀ (assigned : Owner.Line → Owner.Line) (before later : List Op) (k : Nat) (name : String)
      (p : Owner.Line), empty.Drawn (before ++ .derive k name :: later) →
      line? before k = some (.owner p) →
      (Owner.Line.derived p before.length name).SharesUntilAltered assigned
        (Chronicle.callsOn before.length later) := by
  intro h
  have hlaw : client.SharesUntilAltered id [.act (.declare (.inclusion .empty))] :=
    h id patron [.act 2 (.declare (.inclusion .empty))] 0 "child" _
      ⟨trivial, trivial, trivial, .empty, trivial⟩ rfl
  have hunaltered : ¬client.Meets Owner.Alters [.act (.declare (.inclusion .empty))] := by
    rintro (⟨d, hd, _, hbrings⟩ | hnil)
    · obtain rfl := Act.declare.inj hd
      exact hbrings rfl
    · exact hnil
  have hshares := (hlaw _ (List.prefix_refl _)).1.2 hunaltered
  cases hshares

end World
end SettingsTree
