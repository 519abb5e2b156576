import Mathlib.Data.Prod.Lex
import Myrmidon.Supervisor.Tokens
import Myrmidon.Transition.Fair

namespace Myrmidon

open Transition

namespace Notify

/-- What is left of a call: the phase, and how far a loop has come. -/
def ahead (call : Notify) : Nat × Nat :=
  match call.stage with
  | .flag => (7, 0)
  | .lookup => (6, 0)
  | .snapshot => (5, 0)
  | .flagGroup _ todo => (4, todo.length)
  | .spawnGroup todo => (3, todo.length)
  | .spawnOne _ => (2, 0)
  | .unflag => (1, 0)
  | .returned => (0, 0)

theorem Steps.descends {s later : Supervisor} {call next : Notify} {tasks : List Task}
    (steps : call.Steps s later next tasks) : toLex next.ahead < toLex call.ahead := by
  cases steps <;> simp [ahead, Prod.Lex.toLex_lt_toLex]

theorem can (s : Supervisor) {call : Notify} (running : call.stage ≠ .returned) :
    ∃ order, (call.step s order).isSome = true := by
  obtain ⟨own, stage⟩ := call
  cases stage with
  | flag =>
    refine ⟨[], ?_⟩
    simp only [step]
    split <;> rfl
  | lookup =>
    refine ⟨[], ?_⟩
    simp only [step]
    split
    · rfl
    · split <;> rfl
  | snapshot => exact ⟨s.children.keys, by simp [step]⟩
  | flagGroup done todo => cases todo <;> exact ⟨[], rfl⟩
  | spawnGroup todo => cases todo <;> exact ⟨[], rfl⟩
  | returned => exact absurd rfl running
  | _ => exact ⟨[], rfl⟩

end Notify

namespace Task

/-- What is left of a restart task; each failed attempt uses up one of the loop's turns. -/
def ahead (task : Task) : Nat × Nat :=
  let turns := maxAttempts - task.attempts
  match task.stage with
  | .call => (5, 3 * turns + 1)
  | .pushError _ => (5, if maxAttempts ≤ task.attempts then 0 else 3 * turns + 3)
  | .backoff => (5, 3 * turns + 2)
  | .insertNew _ => (4, 0)
  | .removeOld => (3, 0)
  | .removeLinks => (2, 0)
  | .retain peers => (1, peers.length)
  | .clearFlag => (0, 1)
  | .finished => (0, 0)

theorem Steps.descends {s later : Supervisor} {task next : Task} (steps : Steps s task later next) :
    toLex next.ahead < toLex task.ahead := by
  rw [Prod.Lex.toLex_lt_toLex]
  cases steps with
  | refused stage =>
    right
    simp only [ahead, stage, true_and]
    by_cases last : maxAttempts ≤ task.attempts + 1
    · rw [if_pos last]
      omega
    · rw [if_neg last]
      omega
  | failed stage more =>
    right
    simp only [ahead, stage, if_neg more, true_and]
    omega
  | waited stage =>
    right
    simp only [ahead, stage, true_and]
    omega
  | _ stage => simp [ahead, stage]

theorem can (s : Supervisor) {task : Task} (running : task.stage ≠ .finished) :
    ∃ result, (task.step s result).isSome = true := by
  refine ⟨.error "", ?_⟩
  obtain ⟨orig, spec, attempts, backoffMs, replacement, stage⟩ := task
  cases stage with
  | call =>
    simp only [step]
    split <;> rfl
  | retain peers => cases peers <;> rfl
  | finished => exact absurd rfl running
  | _ => rfl

end Task

namespace Removal

def ahead (removal : Removal) : Nat × Nat :=
  match removal.stage with
  | .dropChild => (4, 0)
  | .unflag => (3, 0)
  | .removeLinks => (2, 0)
  | .retain peers => (1, peers.length)
  | .returned => (0, 0)

theorem Steps.descends {s later : Supervisor} {removal next : Removal} (steps : Steps s removal later next) :
    toLex next.ahead < toLex removal.ahead := by
  cases steps with
  | cleared stage =>
    simp only [ahead, stage, Prod.Lex.toLex_lt_toLex]
    cases removal.links <;> simp
  | _ stage => simp [ahead, stage, Prod.Lex.toLex_lt_toLex]

theorem can (s : Supervisor) {removal : Removal} (running : removal.stage ≠ .returned) :
    (removal.step s).isSome = true := by
  obtain ⟨pid, links, stage⟩ := removal
  cases stage with
  | retain peers => cases peers <;> rfl
  | returned => exact absurd rfl running
  | _ => rfl

end Removal

namespace Activity

def measure : Activity → Nat ×ₗ Nat
  | .notify call => toLex call.ahead
  | .task restart => toLex restart.ahead
  | .removal call => toLex call.ahead

theorem Steps.descends {s later : Supervisor} {activity next : Activity} {new : List Activity}
    (steps : activity.Steps s later next new) : next.measure < activity.measure := by
  cases steps with
  | notify steps => exact steps.descends
  | task stepped => exact (Task.steps_of_step stepped).descends
  | removal stepped => exact (Removal.steps_of_step stepped).descends

end Activity

end Myrmidon
