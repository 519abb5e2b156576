import Myrmidon.Supervisor.Flags
import Myrmidon.Supervisor.Progress

namespace Myrmidon

open Transition

/-- The activity clears the flag of `pid` whatever the others do. -/
def Activity.Clears (pid : Pid) : Activity → Prop
  | .notify _ => False
  | .task restart => restart.orig = pid ∧ restart.unfinished = true
  | .removal call => call.pid = pid ∧ (call.stage = .dropChild ∨ call.stage = .unflag)

namespace Activity

variable {pid : Pid} {activity next : Activity}

theorem Clears.owes {s : Supervisor} (clears : activity.Clears pid) : activity.Owes s pid := by
  cases activity with
  | notify call => exact clears.elim
  | task restart => exact clears
  | removal call => exact clears

theorem Drops.clears (drops : Drops pid activity next) : next.Clears pid := by
  cases drops with
  | task mine stage => exact ⟨mine, rfl⟩
  | removal mine stage => exact ⟨mine, .inr rfl⟩

theorem step_clears {s later : Supervisor} {new : List Activity} (steps : activity.Steps s later next new)
    (clears : activity.Clears pid) (flagged : pid ∈ later.restarting) : next.Clears pid := by
  cases steps with
  | notify steps => exact clears.elim
  | task stepped => exact Task.step_owes (Task.steps_of_step stepped) clears flagged
  | removal stepped => exact Removal.step_owes (Removal.steps_of_step stepped) clears flagged

/-- What is started is a restart task. -/
theorem clears_of_new {s later : Supervisor} {new : List Activity} (steps : activity.Steps s later next new)
    {other : Activity} (fresh : other ∈ new) (owes : other.Owes later pid) : other.Clears pid := by
  cases steps with
  | notify steps =>
    obtain ⟨restart, -, rfl⟩ := List.mem_map.mp fresh
    exact owes
  | task stepped => cases fresh
  | removal stepped => cases fresh

theorem can_step (s : Supervisor) (running : ¬ activity.Ended) :
    ∃ outside, (supervision.step 0 s activity outside).isSome = true := by
  cases activity with
  | notify call =>
    obtain ⟨order, stepped⟩ := Notify.can s running
    exact ⟨⟨.error "", order⟩, by simpa [supervision] using stepped⟩
  | task restart =>
    obtain ⟨result, stepped⟩ := Task.can s running
    exact ⟨⟨result, []⟩, by simpa [supervision] using stepped⟩
  | removal call => exact ⟨⟨.error "", []⟩, by simpa [supervision] using Removal.can s running⟩

end Activity

namespace Settling

variable {e : supervision.Execution} {start index : Nat} {activity : Activity} {pid : Pid}

theorem ends (fair : e.Fair) (found : (e.config start).threads[index]? = some activity) :
    ∃ n last, start ≤ n ∧ (e.config n).threads[index]? = some last ∧ last.Ended := by
  have wf : WellFounded (InvImage (· < ·) Activity.measure) := InvImage.wf _ wellFounded_lt
  have can : ∀ n thread, start ≤ n → (e.config n).threads[index]? = some thread → True → ¬ thread.Ended →
      supervision.Can index (e.config n) := by
    intro n thread _ here _ running
    obtain ⟨outside, stepped⟩ := Activity.can_step (e.config n).shared running
    obtain ⟨⟨s, next, new⟩, stepped⟩ := Option.isSome_iff_exists.mp stepped
    have taken : supervision.step index (e.config n).shared thread outside = some (s, next, new) := stepped
    exact ⟨outside, by simp [Program.machine, here, taken]⟩
  obtain ⟨n, last, later, here, -, ended⟩ := e.eventually fair wf can
    (fun _ _ _ _ _ _ _ _ stepped => ⟨trivial, (Activity.steps_of_step stepped).descends⟩) found trivial
  exact ⟨n, last, later, here, ended⟩

theorem crossing {Q : Nat → Prop} {m : Nat} (later : start ≤ m) (holds : Q start) (lost : ¬ Q m) :
    ∃ k, start ≤ k ∧ k < m ∧ Q k ∧ ¬ Q (k + 1) := by
  induction m, later using Nat.le_induction with
  | base => exact absurd holds lost
  | succ m later ih =>
    by_cases held : Q m
    · exact ⟨m, later, Nat.lt_succ_self m, held, lost⟩
    · obtain ⟨k, after, before, holds, lost⟩ := ih held
      exact ⟨k, after, Nat.lt_succ_of_lt before, holds, lost⟩

/-- The moment at which the thread stops having to clear the flag. -/
theorem exists_release {Q : Supervisor → Activity → Prop} (released : ∀ s last, last.Ended → ¬ Q s last)
    (fair : e.Fair) (found : (e.config start).threads[index]? = some activity)
    (holds : Q (e.config start).shared activity) :
    ∃ k thread, start ≤ k ∧ (e.config k).threads[index]? = some thread ∧ Q (e.config k).shared thread ∧
      ¬ ∃ next, (e.config (k + 1)).threads[index]? = some next ∧ Q (e.config (k + 1)).shared next := by
  obtain ⟨n, last, later, here, ended⟩ := ends fair found
  have lost : ¬ ∃ thread, (e.config n).threads[index]? = some thread ∧ Q (e.config n).shared thread := by
    rintro ⟨thread, same, held⟩
    cases here.symm.trans same
    exact released _ last ended held
  obtain ⟨k, after, -, ⟨thread, here, held⟩, lost⟩ := crossing
    (Q := fun n => ∃ thread, (e.config n).threads[index]? = some thread ∧ Q (e.config n).shared thread)
    later ⟨activity, found, holds⟩ lost
  exact ⟨k, thread, after, here, held, lost⟩

theorem cleared_of_clears (fair : e.Fair) (found : (e.config start).threads[index]? = some activity)
    (clears : activity.Clears pid) : ∃ m, start ≤ m ∧ pid ∉ (e.config m).shared.restarting := by
  obtain ⟨k, thread, after, here, held, lost⟩ := exists_release (Q := fun _ activity => activity.Clears pid)
    (fun s last ended clears => ended.owes_nothing (s := s) clears.owes) fair found clears
  refine ⟨k + 1, by omega, fun flagged => ?_⟩
  rcases e.thread_next here with ⟨outside, next, new, -, stepped, there⟩ | same
  · exact lost ⟨next, there, Activity.step_clears (Activity.steps_of_step stepped) held flagged⟩
  · exact lost ⟨thread, same, held⟩

/-- A move that takes a pid out of `children` leaves somebody who clears its flag. -/
theorem exists_clears_of_dropped {c d : Config Supervisor Activity} {move : Move Activity Outside Registration}
    (moves : supervision.Moves c move d) (child : pid ∈ c.shared.children) (dropped : pid ∉ d.shared.children) :
    ∃ next ∈ d.threads, next.Clears pid := by
  cases moves with
  | start allowed => exact absurd child dropped
  | @step shared later before after new activity next outside stepped =>
    rcases Activity.step_drops (Activity.steps_of_step stepped) child with stays | drops
    · exact absurd stays dropped
    · exact ⟨next, by simp, drops.clears⟩
  | @ambient shared later threads registration done =>
    cases registration <;>
    · cases done
      exact absurd ((AList.mem_insert _).mpr (.inr child)) dropped

theorem cleared_of_owes (fair : e.Fair) (found : (e.config start).threads[index]? = some activity)
    (owes : activity.Owes (e.config start).shared pid) : ∃ m, start ≤ m ∧ pid ∉ (e.config m).shared.restarting := by
  obtain ⟨k, thread, after, here, held, lost⟩ := exists_release (Q := fun s activity => activity.Owes s pid)
    (fun s last ended => ended.owes_nothing) fair found owes
  by_cases flagged : pid ∈ (e.config (k + 1)).shared.restarting
  · have handed : ∃ next ∈ (e.config (k + 1)).threads, next.Clears pid := by
      cases taken : e.move k with
      | none =>
        rw [e.idle taken] at lost
        exact absurd ⟨thread, here, held⟩ lost
      | some move =>
        have moves := e.moves taken
        rcases e.thread_next here with ⟨outside, next, new, own, stepped, there⟩ | same
        · rcases Activity.step_owes (Activity.steps_of_step stepped) held flagged with mine | ⟨other, fresh, theirs⟩
          · exact absurd ⟨next, there, mine⟩ lost
          · rw [own] at taken
            have there := (e.moves own).new_mem here stepped other fresh
            exact ⟨other, there, Activity.clears_of_new (Activity.steps_of_step stepped) fresh theirs⟩
        · by_cases child : pid ∈ (e.config k).shared.children
          · by_cases still : pid ∈ (e.config (k + 1)).shared.children
            · exact absurd ⟨thread, same, held.frame fun _ => still⟩ lost
            · exact exists_clears_of_dropped moves child still
          · exact absurd ⟨thread, same, held.frame fun present => absurd present child⟩ lost
    obtain ⟨next, member, clears⟩ := handed
    obtain ⟨other, there⟩ := List.mem_iff_getElem?.mp member
    obtain ⟨m, later, cleared⟩ := cleared_of_clears fair there clears
    exact ⟨m, by omega, cleared⟩
  · exact ⟨k + 1, by omega, flagged⟩

end Settling

/-- Every call returns and every restart task ends, and no flag stays set for ever. -/
structure Settles (e : supervision.Execution) : Prop where
  ends : ∀ (n index : Nat) (activity : Activity), (e.config n).threads[index]? = some activity →
    ∃ (m : Nat) (last : Activity), n ≤ m ∧ (e.config m).threads[index]? = some last ∧ last.Ended
  cleared : ∀ n pid, pid ∈ (e.config n).shared.restarting → ∃ m, n ≤ m ∧ pid ∉ (e.config m).shared.restarting

/-- In a fair execution a supervisor settles, whatever calls and registrations go on. -/
theorem fair_supervision_settles {e : supervision.Execution} (fair : e.Fair) {s : Supervisor}
    (initial : e.config 0 = ⟨s, []⟩) (unflagged : s.restarting = ∅) : Settles e := by
  refine ⟨fun n index activity found => Settling.ends fair found, fun n pid flagged => ?_⟩
  obtain ⟨moves, reached⟩ := e.reached n
  rw [initial] at reached
  have clear : pid ∉ s.restarting := by
    rw [unflagged]
    exact Finset.notMem_empty pid
  obtain ⟨activity, member, owes⟩ := owed_of_run clear reached flagged
  obtain ⟨index, found⟩ := List.mem_iff_getElem?.mp member
  exact Settling.cleared_of_owes fair found owes

theorem Settling.not_can_of_ended {c : Config Supervisor Activity} (ended : ∀ activity ∈ c.threads, activity.Ended)
    (index : Nat) : ¬ supervision.Can index c := by
  rintro ⟨outside, moved⟩
  cases found : c.threads[index]? with
  | none => simp [Program.machine, found] at moved
  | some activity =>
    have done := ended activity (List.mem_of_getElem? found)
    cases activity with
    | notify call =>
      have stage : call.stage = .returned := done
      simp [Program.machine, found, supervision, Notify.step, stage] at moved
    | task restart =>
      have stage : restart.stage = .finished := done
      simp [Program.machine, found, supervision, Task.step, stage] at moved
    | removal call =>
      have stage : call.stage = .returned := done
      simp [Program.machine, found, supervision, Removal.step, stage] at moved

/-- A child that is restarted with success; then nothing moves any more. -/
def restartedOnce : List (Move Activity Outside Registration) :=
  let outside : Outside := ⟨.ok 2, []⟩
  [.ambient (.addChild 1 ⟨.foreign 0, .restartOne⟩), .start (.notify (.new 1)), .step 0 outside, .step 0 outside,
    .step 0 outside] ++ List.replicate 6 (.step 1 outside)

theorem fair_supervision_settles_restartedOnce :
    ∃ e : supervision.Execution, e.Fair ∧ 1 ∈ (e.config 3).shared.restarting ∧ Settles e := by
  have ends : ∃ d, supervision.machine.run ⟨.new, []⟩ restartedOnce = some d ∧ ∀ activity ∈ d.threads, activity.Ended :=
    supervision.machine.exists_of_check (by decide +kernel)
  obtain ⟨d, reached, ended⟩ := ends
  have flagged : 1 ∈
      ((supervision.machine.run ⟨.new, []⟩ (restartedOnce.take 3)).getD ⟨.new, []⟩).shared.restarting := by
    decide +kernel
  have fair := Program.Execution.ofRun_fair reached (Settling.not_can_of_ended ended)
  exact ⟨.ofRun supervision reached, fair, flagged, fair_supervision_settles fair rfl rfl⟩

end Myrmidon
