import Myrmidon.Runtime.TimerTable
import Myrmidon.Transition.Fair

namespace Myrmidon

open Transition

namespace TimerTask

/-- How far the task of a one-shot timer is from its end. -/
def ahead : TimerTask → Nat
  | .scheduled _ timer =>
    match timer.stage with
    | .count => 5
    | .insert => 4
    | .select => 3
    | .send => 2
    | .remove => 1
    | .done => 0
  | _ => 0

/-- The task of a call of `send_after`. -/
def Once : TimerTask → Prop
  | .scheduled _ timer => timer.repeating = false
  | _ => False

/-- A one-shot timer about to hand its message to `Runtime::send`. -/
def Sends : TimerTask → Prop
  | .scheduled _ timer => timer.stage = .send
  | _ => False

/-- The timer has waited for its deadline and for its cancellation. -/
def Waited : TimerTask → Prop
  | .scheduled _ timer => timer.stage = .send ∨ timer.stage = .remove ∨ timer.stage = .done
  | _ => False

theorem sound_of_once {timer : Timer} (ms : BitVec 64) (once : timer.repeating = false) : ¬ timer.panics ms := by
  rintro ⟨repeating, -⟩
  rw [once] at repeating
  cases repeating

theorem once_step {number : Nat} {t later : TimerTable} {task next : TimerTask} {branch : Branch} {new : List TimerTask}
    (stepped : timerTasks.step number t task branch = some (later, next, new)) (once : task.Once) :
    next.Once ∧ next.ahead < task.ahead ∧ (next.Waited → task.Waited ∨ next.Sends ∨ number ∈ t.ready) := by
  cases task with
  | panicked timer => exact once.elim
  | cancel id stage => exact once.elim
  | scheduled ms timer =>
    have sound := sound_of_once ms once
    simp only [timerTasks, if_neg sound] at stepped
    obtain ⟨⟨table, moved⟩, taken, same⟩ := Option.map_eq_some_iff.mp stepped
    cases same
    obtain ⟨repeating, pid, message, id, stage⟩ := timer
    cases once
    cases stage with
    | count =>
      cases taken
      exact ⟨rfl, by simp [ahead], by simp [Waited]⟩
    | insert =>
      cases taken
      exact ⟨rfl, by simp [ahead], by simp [Waited]⟩
    | select =>
      cases branch with
      | deadline =>
        cases taken
        exact ⟨rfl, by simp [ahead], fun _ => .inr (.inl rfl)⟩
      | cancelled =>
        simp only [Timer.step] at taken
        split at taken
        · rename_i ready
          cases taken
          exact ⟨rfl, by simp [ahead], fun _ => .inr (.inr ready)⟩
        · cases taken
    | send =>
      cases taken
      exact ⟨rfl, by simp [ahead], fun _ => .inl (.inl rfl)⟩
    | remove =>
      cases taken
      exact ⟨rfl, by simp [ahead], fun _ => .inl (.inr (.inl rfl))⟩
    | done => cases taken

/-- A one-shot timer moves on until it is done, at the latest when its deadline has passed. -/
theorem exists_once_step (ms : BitVec 64) {timer : Timer} (number : Nat) (t : TimerTable)
    (once : timer.repeating = false) (unfinished : timer.stage ≠ .done) :
    ∃ following, timerTasks.step number t (.scheduled ms timer) .deadline = some following := by
  have sound := sound_of_once ms once
  simp only [timerTasks, if_neg sound]
  cases stage : timer.stage with
  | done => exact absurd stage unfinished
  | _ => simp [Timer.step, stage]

end TimerTask

/-- The timer hands its message to `Runtime::send` at this moment. -/
def Fired (e : timerTasks.Execution) (index n : Nat) : Prop :=
  (∃ task, (e.config n).threads[index]? = some task ∧ task.Sends) ∧ ∃ branch, e.move n = some (.step index branch)

/-- What becomes of a one-shot timer: its task ends, it has fired once before
    unless its listener was signalled or its sender dropped, and nothing of it
    stays in the table. -/
structure Fires (e : timerTasks.Execution) (start index : Nat) : Prop where
  ends : ∃ n task, start ≤ n ∧ (e.config n).threads[index]? = some task ∧ task.Ended
  fires : (∃ n, start ≤ n ∧ Fired e index n) ∨ ∃ n, start ≤ n ∧ index ∈ (e.config n).shared.ready
  once : ∀ n m, start ≤ n → start ≤ m → Fired e index n → Fired e index m → n = m
  cleared : ∃ n, start ≤ n ∧ ∀ m id, n ≤ m → (e.config m).shared.timers.lookup id ≠ some index

namespace Firing

open TimerTask

variable {e : timerTasks.Execution}

/-- What is in the table belongs to a task that has not ended. -/
def Entries (c : Config TimerTable TimerTask) : Prop :=
  ∀ id number, c.shared.timers.lookup id = some number → ∃ task, c.threads[number]? = some task ∧ task.Holds id

theorem Entries.move {c d : Config TimerTable TimerTask} {move : Move TimerTask Branch (Runtime → Runtime)}
    (entries : Entries c) (moves : timerTasks.Moves c move d) : Entries d := by
  intro id number found
  cases moves with
  | start allowed =>
    obtain ⟨task, present, holds⟩ := entries id number found
    exact ⟨task, (List.getElem?_append_left (List.getElem?_eq_some_iff.mp present).1).trans present, holds⟩
  | ambient done =>
    cases done
    exact entries id number found
  | @step shared later before after new task next branch stepped =>
    obtain ⟨rfl, steps⟩ := steps_of_step stepped
    rw [List.append_nil]
    rcases steps.entries found with ⟨rfl, holds⟩ | ⟨old, kept⟩
    · exact ⟨next, by simp, holds⟩
    · obtain ⟨other, present, holds⟩ := entries id number old
      have moved := Program.getElem?_moved before after [] task next present
      rw [List.append_nil] at moved
      split at moved
      · rename_i own
        subst own
        have same : task = other := by simpa using present
        exact ⟨next, moved, kept (same ▸ holds)⟩
      · exact ⟨other, moved, holds⟩

theorem not_holds_of_ended {task : TimerTask} (once : task.Once) (ended : task.Ended) (id : BitVec 64) :
    ¬ task.Holds id := by
  cases task with
  | scheduled ms timer =>
    rintro ⟨-, stage | stage | stage⟩ <;> rw [Ended, stage] at ended <;> cases ended
  | _ => exact once.elim

theorem ended_iff {task : TimerTask} (once : task.Once) : task.Ended ↔ task.ahead = 0 := by
  cases task with
  | scheduled ms timer =>
    obtain ⟨repeating, pid, message, id, stage⟩ := timer
    cases stage <;> simp [Ended, ahead]
  | _ => exact once.elim

variable {start index : Nat}

theorem followed {task : TimerTask} (found : (e.config start).threads[index]? = some task) (once : task.Once) {n : Nat}
    (later : start ≤ n) : ∃ now, (e.config n).threads[index]? = some now ∧ now.Once ∧ now.ahead ≤ task.ahead := by
  induction n, later using Nat.le_induction with
  | base => exact ⟨task, found, once, Nat.le_refl _⟩
  | succ n _ ih =>
    obtain ⟨now, here, once, below⟩ := ih
    rcases e.thread_next here with ⟨branch, next, new, -, stepped, after⟩ | same
    · obtain ⟨still, lower, -⟩ := once_step stepped once
      exact ⟨next, after, still, by omega⟩
    · exact ⟨now, same, once, below⟩

/-- Past its wait, the task has come by its send or was told. -/
theorem waited {task : TimerTask} (found : (e.config start).threads[index]? = some task) (once : task.Once)
    (early : ¬ task.Waited) {n : Nat} (later : start ≤ n) {now : TimerTask}
    (here : (e.config n).threads[index]? = some now) (past : now.Waited) :
    (∃ m between, start ≤ m ∧ (e.config m).threads[index]? = some between ∧ between.Sends) ∨
      ∃ m, start ≤ m ∧ index ∈ (e.config m).shared.ready := by
  induction n, later using Nat.le_induction generalizing now with
  | base =>
    cases found.symm.trans here
    exact absurd past early
  | succ n later ih =>
    obtain ⟨before, there, still, -⟩ := followed found once later
    rcases e.thread_next there with ⟨branch, next, new, -, stepped, after⟩ | same
    · cases here.symm.trans after
      rcases (once_step stepped still).2.2 past with waited | sends | ready
      · exact ih there waited
      · exact .inl ⟨n + 1, now, by omega, after, sends⟩
      · exact .inr ⟨n, later, ready⟩
    · cases here.symm.trans same
      exact ih there past

theorem can_of_once {n : Nat} {task : TimerTask} (here : (e.config n).threads[index]? = some task) (once : task.Once)
    (unfinished : ¬ task.Ended) : timerTasks.Can index (e.config n) := by
  cases task with
  | scheduled ms timer =>
    obtain ⟨⟨later, next, new⟩, stepped⟩ := exists_once_step ms index (e.config n).shared once unfinished
    exact ⟨.deadline, by simp [Program.machine, here, stepped]⟩
  | _ => exact once.elim

theorem not_ended_of_sends {task : TimerTask} (sends : task.Sends) : ¬ task.Ended ∧ task.ahead = 2 := by
  cases task with
  | scheduled ms timer =>
    have stage : timer.stage = .send := sends
    simp [Ended, ahead, stage]
  | _ => exact sends.elim

theorem waited_of_ended {task : TimerTask} (once : task.Once) (ended : task.Ended) : task.Waited := by
  cases task with
  | scheduled ms timer => exact .inr (.inr ended)
  | _ => exact once.elim

/-- A timer that has fired is past its send. -/
theorem fired_below {task : TimerTask} (found : (e.config start).threads[index]? = some task) (once : task.Once)
    {n m : Nat} (later : start ≤ n) (fired : Fired e index n) (after : n < m) {now : TimerTask}
    (here : (e.config m).threads[index]? = some now) : now.ahead < 2 := by
  obtain ⟨⟨sending, there, sends⟩, branch, taken⟩ := fired
  obtain ⟨same, present, still, -⟩ := followed found once later
  cases there.symm.trans present
  rcases (e.moves taken).thread_at there with ⟨_, next, new, -, stepped, behind⟩ | ⟨other, -⟩
  · obtain ⟨kept, lower, -⟩ := once_step stepped still
    obtain ⟨last, present, -, below⟩ := followed behind kept after
    cases here.symm.trans present
    have two := (not_ended_of_sends sends).2
    omega
  · exact absurd rfl (other branch)

end Firing

def fireOnce : List (Move TimerTask Branch (Runtime → Runtime)) :=
  .start (.scheduled 5 (sendAfter 1 (.user [7]))) :: List.replicate 5 (.step 0 .deadline)

end Myrmidon
