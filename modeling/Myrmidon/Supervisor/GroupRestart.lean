import Myrmidon.Supervisor.Ledger

namespace Myrmidon

open Transition

namespace Activity

def restarts (pid : Pid) : Activity → Bool
  | .task restart => decide (restart.orig = pid)
  | _ => false

def unfinishedRestart (pid : Pid) : Activity → Bool
  | .task restart => decide (restart.orig = pid) && restart.unfinished
  | _ => false

def replaces (pid : Pid) : Activity → Bool
  | .task restart => decide (restart.orig = pid) && restart.replacement.isSome
  | _ => false

end Activity

theorem countP_unfinished_le (pid : Pid) (activities : List Activity) :
    activities.countP (Activity.unfinishedRestart pid) ≤ weigh pid activities .holds := by
  induction activities with
  | nil => exact Nat.le_refl _
  | cons activity activities ih =>
    have mine : (if activity.unfinishedRestart pid then 1 else 0) ≤ activity.weight pid .holds := by
      cases activity <;> simp [Activity.unfinishedRestart, Activity.weight, Task.weight]
    rw [weigh_cons, List.countP_cons]
    omega

theorem countP_restarts_eq (pid : Pid) (activities : List Activity) :
    activities.countP (Activity.restarts pid) = weigh pid activities .started := by
  induction activities with
  | nil => rfl
  | cons activity activities ih =>
    have mine : (if activity.restarts pid then 1 else 0) = activity.weight pid .started := by
      cases activity <;> simp [Activity.restarts, Activity.weight, Task.weight, Notify.weight]
    rw [weigh_cons, List.countP_cons, ih, mine, Nat.add_comm]

theorem countP_replaces_le (pid : Pid) (activities : List Activity) :
    activities.countP (Activity.replaces pid) ≤ activities.countP (Activity.restarts pid) := by
  apply List.countP_mono_left
  intro activity _ replaces
  cases activity with
  | notify call => cases replaces
  | task restart => exact (Bool.and_eq_true _ _ ▸ replaces).1
  | removal call => cases replaces

/-- Only `add_child`, `watch`, `notify_exit` and restart tasks take steps, and a
    `RestartAll` flags another child only while it is supervised and not restarting. -/
def GroupFree (c : Config Supervisor Activity) : Move Activity Outside Registration → Prop
  | .start (.removal _) => False
  | .step index _ => ∀ activity ∈ c.threads[index]?, activity.Orderly c.shared
  | _ => True

instance (c : Config Supervisor Activity) : DecidablePred (GroupFree c)
  | .start (.removal _) => .isFalse id
  | .start (.notify _) => .isTrue trivial
  | .start (.task _) => .isTrue trivial
  | .step index _ => inferInstanceAs (Decidable (∀ activity ∈ c.threads[index]?, activity.Orderly c.shared))
  | .ambient _ => .isTrue trivial

theorem orderly_of_groupFree {c : Config Supervisor Activity} {move : Move Activity Outside Registration}
    (free : GroupFree c move) : Orderly c move := by
  cases move with
  | start activity => trivial
  | step index outside => exact free
  | ambient registration => trivial

/-- While every `RestartAll` finds the rest of its group free, no child is restarted twice. -/
theorem group_restarts_once (s : Supervisor) {moves : List (Move Activity Outside Registration)}
    {d : Config Supervisor Activity} (meets : supervision.machine.Meets GroupFree ⟨s.recorded, []⟩ moves)
    (reached : supervision.machine.run ⟨s.recorded, []⟩ moves = some d) (pid : Pid) :
    d.threads.countP (Activity.unfinishedRestart pid) ≤ 1 ∧
      d.threads.countP (Activity.replaces pid) ≤ d.shared.registered.count pid := by
  have ledger : Ledger d :=
    supervision.run_invariant_of_meets (fun _ _ _ ledger free => ledger.move (orderly_of_groupFree free))
      (ledger_start s) meets reached
  have balance := ledger.balanced pid
  constructor
  · exact Nat.le_trans (countP_unfinished_le pid d.threads) balance.single
  · have started := countP_restarts_eq pid d.threads
    have replaced := countP_replaces_le pid d.threads
    have paid := balance.paid
    omega

def groupRestart : List (Move Activity Outside Registration) :=
  let outside : Outside := ⟨.ok 3, [1, 2]⟩
  [.ambient (.addChild 1 ⟨.foreign 0, .restartOne⟩), .ambient (.addChild 2 ⟨.foreign 1, .restartAll⟩),
    .start (.notify (.new 2)), .step 0 outside, .step 0 outside, .step 0 outside, .step 0 outside,
    .step 0 outside, .step 0 outside, .step 0 outside, .step 0 outside, .step 1 outside, .step 1 outside]

theorem group_restarts_once_pair : (supervision.machine.run ⟨Supervisor.new.recorded, []⟩ groupRestart).isSome = true ∧
    ∀ d, supervision.machine.run ⟨Supervisor.new.recorded, []⟩ groupRestart = some d →
      d.threads.countP (Activity.unfinishedRestart 1) ≤ 1 := by
  have meets : supervision.machine.Meets GroupFree ⟨Supervisor.new.recorded, []⟩ groupRestart :=
    Machine.meets_of_checks _ (by decide +kernel)
  exact ⟨by decide +kernel, fun d reached => (group_restarts_once .new meets reached 1).1⟩

/-- Child 1 fails to restart and waits; then the exit of child 2 restarts the group. -/
def overlappingRestarts : List (Move Activity Outside Registration) :=
  let outside : Outside := ⟨.error "boom", [1, 2]⟩
  [.ambient (.addChild 1 ⟨.foreign 0, .restartOne⟩), .ambient (.addChild 2 ⟨.foreign 1, .restartAll⟩),
    .start (.notify (.new 1)), .step 0 outside, .step 0 outside, .step 0 outside,
    .step 1 outside, .step 1 outside,
    .start (.notify (.new 2)), .step 2 outside, .step 2 outside, .step 2 outside,
    .step 2 outside, .step 2 outside, .step 2 outside, .step 2 outside]

theorem overlapping_restarts_two :
    ¬ ∀ (moves : List (Move Activity Outside Registration)) (d : Config Supervisor Activity),
      (∀ call, Move.start (Activity.removal call) ∉ moves) →
      supervision.machine.run ⟨.new, []⟩ moves = some d →
      ∀ pid, d.threads.countP (Activity.unfinishedRestart pid) ≤ 1 := by
  intro once
  have two : (supervision.machine.run ⟨.new, []⟩ overlappingRestarts).map
      (fun d => d.threads.countP (Activity.unfinishedRestart 1)) = some 2 := by
    decide +kernel
  obtain ⟨d, reached, count⟩ := Option.map_eq_some_iff.mp two
  have bound := once overlappingRestarts d (by simp [overlappingRestarts]) reached 1
  omega

end Myrmidon
