import SettingsTree.Proofs.World.Lines

/-!
# Answers to the calls on an object

The calls on an object can be read off the operations, and nothing else that happens touches the
object. So the answers that it gives in the course of some operations, and its state in the end,
are those that these calls lead to, one after the other.
-/
namespace SettingsTree

/-- What an object replies to calls on it, one after the other. -/
def Object.answers (x : Object) : List Call → List Reply
  | [] => []
  | call :: rest => x.reply call ++ (x.call call).answers rest

namespace Chronicle
variable {k : Nat} {ops : List Op} {call : Call} {calls : List Call}

theorem mem_callsOn {a : Act} (h : .act k a ∈ ops) : .act a ∈ callsOn k ops := by
  induction ops with
  | nil => cases h
  | cons op rest ih =>
      rw [callsOn]
      rcases List.mem_cons.1 h with rfl | hrest
      · simp only [Op.call?, if_pos]
        exact List.mem_cons_self
      · cases op.call? with
        | none => exact ih hrest
        | some called =>
            obtain ⟨j, call⟩ := called
            simp only
            split_ifs
            · exact List.mem_cons_of_mem _ (ih hrest)
            · exact ih hrest

/-- Operations with calls on an object begin with operations with one call on it. -/
theorem exists_first_call (h : callsOn k ops = call :: calls) :
    ∃ start rest, ops = start ++ rest ∧ callsOn k start = [call] := by
  induction ops with
  | nil => cases h
  | cons op rest ih =>
      rw [callsOn] at h
      cases hc : op.call? with
      | none =>
          simp only [hc] at h
          obtain ⟨start, others, rfl, hstart⟩ := ih h
          exact ⟨op :: start, others, rfl, by simp only [callsOn, hc, hstart]⟩
      | some called =>
          obtain ⟨j, first⟩ := called
          simp only [hc] at h
          split_ifs at h with he
          · obtain ⟨rfl, _⟩ := List.cons.inj h
            exact ⟨[op], rest, rfl, by simp only [callsOn, hc, if_pos he]⟩
          · obtain ⟨start, others, rfl, hstart⟩ := ih h
            exact ⟨op :: start, others, rfl, by simp only [callsOn, hc, if_neg he, hstart]⟩

end Chronicle

namespace World

/-- What an object answers, and what becomes of it, depends on the calls on it alone. -/
theorem answersTo_eq_answers {w : World} {k : Nat} {x : Object} (hk : k < w.clock)
    (hx : w.held k = some x) (ops : List Op) :
    w.answersTo k ops = x.answers (Chronicle.callsOn k ops) ∧
      (w.after ops).held k = some ((Chronicle.callsOn k ops).foldl Object.call x) := by
  induction ops generalizing w x with
  | nil => exact ⟨rfl, hx⟩
  | cons op rest ih =>
      have hne : k ≠ w.clock := Nat.ne_of_lt hk
      have hlater : k < (w.step op).clock := by
        rw [clock_step]
        omega
      have hstep := held_step w op hne
      rw [answersTo, replies, if_neg hne, Chronicle.callsOn, after_cons]
      cases hc : op.call? with
      | none =>
          rw [hc] at hstep
          exact ih hlater (hstep.trans hx)
      | some called =>
          obtain ⟨i, call⟩ := called
          simp only [hc] at hstep ⊢
          split_ifs at hstep ⊢ with he
          · rw [hx, Option.map_some] at hstep
            obtain ⟨hanswers, hheld⟩ := ih hlater hstep
            rw [hanswers, hx]
            exact ⟨by simp [Object.answers], hheld⟩
          · exact ih hlater (hstep.trans hx)

theorem answersTo_append (w : World) (k : Nat) (first second : List Op) :
    w.answersTo k (first ++ second) =
      w.answersTo k first ++ (w.after first).answersTo k second := by
  induction first generalizing w with
  | nil => rfl
  | cons op rest ih =>
      rw [List.cons_append, answersTo, answersTo, ih, List.append_assoc, after_cons]

end World
end SettingsTree
