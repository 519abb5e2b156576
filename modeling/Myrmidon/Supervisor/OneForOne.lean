import Myrmidon.Supervisor.GroupRestart

namespace Myrmidon

open Transition

/-- A replacement was never supervised, and no user call removes a pid while it is restarting. -/
def Activity.Undisturbed (s : Supervisor) : Activity → Prop
  | .notify _ => True
  | .task restart =>
    match restart.stage with
    | .insertNew new => new ∉ s.registered
    | _ => True
  | .removal call => call.pid ∉ s.restarting

/-- A one-for-one group: its children are `RestartOne`, and the user registers
    none while it is restarting. -/
def OneForOne (c : Config Supervisor Activity) : Move Activity Outside Registration → Prop
  | .start _ => True
  | .ambient (.addChild other spec) => spec.strategy = .restartOne ∧ other ∉ c.shared.restarting
  | .ambient (.watch other) => other ∉ c.shared.restarting
  | .step index _ => ∀ activity ∈ c.threads[index]?, activity.Undisturbed c.shared

/-- Marks the calls that register `pid` anew after it has been restarted: they
    make it another child. -/
def readds (pid : Pid) (c : Config Supervisor Activity) : Move Activity Outside Registration → Nat
  | .ambient registration =>
    if registration.pid = pid ∧ 0 < c.threads.countP (Activity.restarts pid) then 1 else 0
  | _ => 0

namespace Activity

def OneOnly : Activity → Prop
  | .notify call =>
    match call.stage with
    | .snapshot | .flagGroup _ _ | .spawnGroup _ => False
    | .spawnOne spec => spec.strategy = .restartOne
    | _ => True
  | .task restart => restart.spec.strategy = .restartOne
  | .removal _ => True

end Activity

def Supervisor.OneOnly (s : Supervisor) : Prop :=
  ∀ pid spec, s.children.lookup pid = some spec → spec.strategy = .restartOne

theorem Supervisor.OneOnly.addChild {s : Supervisor} (only : s.OneOnly) (pid : Pid) {spec : ChildSpec}
    (one : spec.strategy = .restartOne) : (s.addChild pid spec).OneOnly := by
  intro other found lookup
  by_cases same : other = pid
  · subst same
    rw [Supervisor.addChild, AList.lookup_insert] at lookup
    cases lookup
    exact one
  · rw [Supervisor.addChild, AList.lookup_insert_ne same] at lookup
    exact only other found lookup

theorem Supervisor.OneOnly.dropChild {s : Supervisor} (only : s.OneOnly) (pid : Pid) : (s.dropChild pid).OneOnly := by
  intro other found lookup
  by_cases same : other = pid
  · subst same
    rw [Supervisor.dropChild, AList.lookup_erase] at lookup
    cases lookup
  · rw [Supervisor.dropChild, AList.lookup_erase_ne same] at lookup
    exact only other found lookup

inductive Activity.Changes (activity : Activity) (old new : Supervisor) : Prop where
  | same (children : new.children = old.children) (registered : new.registered = old.registered)
  | insert (pid : Pid) (restart : Task) (mine : activity = .task restart) (stage : restart.stage = .insertNew pid)
      (inserted : new = old.addChild pid restart.spec)
  | drop (pid : Pid) (dropped : new = old.dropChild pid)

theorem Notify.step_changes {s later : Supervisor} {call next : Notify} {tasks : List Task}
    (steps : Steps s call later next tasks) : (Activity.notify call).Changes s later := by
  cases steps <;> exact .same rfl rfl

theorem Task.step_changes {s later : Supervisor} {task next : Task} {result : Except String Pid}
    (stepped : task.step s result = some (later, next)) :
    (Activity.task task).Changes s later ∧ next.spec = task.spec := by
  cases steps_of_step stepped with
  | @inserted new stage => exact ⟨.insert new task rfl stage rfl, rfl⟩
  | removed stage => exact ⟨.drop task.orig rfl, rfl⟩
  | forgot stage => exact ⟨.same (s.forget_children _ _) (s.forget_registered _ _), rfl⟩
  | _ => exact ⟨.same rfl rfl, rfl⟩

theorem Removal.step_changes {s later : Supervisor} {removal next : Removal}
    (stepped : removal.step s = some (later, next)) : (Activity.removal removal).Changes s later := by
  cases steps_of_step stepped with
  | dropped stage => exact .drop removal.pid rfl
  | forgot stage => exact .same (s.forget_children _ _) (s.forget_registered _ _)
  | _ => exact .same rfl rfl

theorem Activity.step_changes {s later : Supervisor} {activity next : Activity} {new : List Activity}
    (steps : activity.Steps s later next new) : activity.Changes s later := by
  cases steps with
  | notify steps => exact Notify.step_changes steps
  | task stepped => exact (Task.step_changes stepped).1
  | removal stepped => exact Removal.step_changes stepped

theorem Supervisor.OneOnly.step {s later : Supervisor} {activity next : Activity} {new : List Activity}
    (only : s.OneOnly) (mine : activity.OneOnly) (steps : activity.Steps s later next new) : later.OneOnly := by
  cases Activity.step_changes steps with
  | same children registered =>
    intro pid spec found
    rw [children] at found
    exact only pid spec found
  | insert pid restart same stage inserted =>
    subst same
    rw [inserted]
    exact only.addChild pid mine
  | drop pid dropped =>
    rw [dropped]
    exact only.dropChild pid

theorem Notify.step_oneOnly {s later : Supervisor} {call next : Notify} {tasks : List Task} (only : s.OneOnly)
    (mine : (Activity.notify call).OneOnly) (steps : Steps s call later next tasks) :
    (Activity.notify next).OneOnly ∧ ∀ restart ∈ tasks, restart.spec.strategy = .restartOne := by
  cases steps with
  | @foundAll own spec found all =>
    rw [only own spec found] at all
    cases all
  | foundOne found one => exact ⟨one, by simp⟩
  | @spawnedOne own spec =>
    refine ⟨trivial, ?_⟩
    intro restart member
    rw [List.mem_singleton.mp member]
    exact mine
  | read whole => exact absurd mine id
  | claimed => exact absurd mine id
  | marked => exact absurd mine id
  | spawned => exact absurd mine id
  | _ => exact ⟨trivial, by simp⟩

theorem Activity.step_oneOnly {s later : Supervisor} {activity next : Activity} {new : List Activity}
    (only : s.OneOnly) (mine : activity.OneOnly) (steps : activity.Steps s later next new) :
    next.OneOnly ∧ ∀ other ∈ new, other.OneOnly := by
  cases steps with
  | notify steps =>
    obtain ⟨holds, spawned⟩ := Notify.step_oneOnly only mine steps
    refine ⟨holds, ?_⟩
    intro other member
    obtain ⟨restart, present, rfl⟩ := List.mem_map.mp member
    exact spawned restart present
  | task stepped =>
    have spec := (Task.step_changes stepped).2
    refine ⟨?_, by simp⟩
    rw [Activity.OneOnly, spec]
    exact mine
  | removal stepped => exact ⟨trivial, by simp⟩

/-- One restart of `pid` is paid for, and one more for each of the `readded`
    times that it was registered anew. -/
structure Capped (pid : Pid) (readded : Nat) (c : Config Supervisor Activity) : Prop where
  ledger : Ledger c
  capped : Balance pid c.shared (1 + readded) (weigh pid c.threads)
  children : c.shared.OneOnly
  activities : ∀ activity ∈ c.threads, activity.OneOnly

theorem Capped.orderly {pid : Pid} {readded : Nat} {c : Config Supervisor Activity}
    {move : Move Activity Outside Registration} (capped : Capped pid readded c) (oneForOne : OneForOne c move) :
    Orderly c move := by
  cases move with
  | start activity => trivial
  | step index outside =>
    intro activity found
    have mine := capped.activities activity (List.mem_of_getElem? found)
    cases activity with
    | notify call =>
      obtain ⟨own, stage⟩ := call
      cases stage with
      | flagGroup done todo => exact absurd mine id
      | _ => trivial
    | task restart => trivial
    | removal call => exact fun _ => oneForOne _ found
  | ambient registration => trivial

theorem eq_of_count_addChild {s : Supervisor} {pid other : Pid} {spec : ChildSpec}
    (more : s.registered.count pid < (s.addChild other spec).registered.count pid) : other = pid := by
  by_contra different
  rw [Supervisor.addChild, List.count_cons_of_ne different] at more
  exact Nat.lt_irrefl _ more

theorem Capped.room_user {pid : Pid} {readded : Nat} {c : Config Supervisor Activity} (capped : Capped pid readded c)
    {registration : Registration} (mine : registration.pid = pid) (idle : registration.pid ∉ c.shared.restarting) :
    weigh pid c.threads .started + weigh pid c.threads .pending <
      1 + (readded + readds pid c (.ambient registration)) := by
  have nobody : ¬ 0 < weigh pid c.threads .holds := by
    intro held
    rw [mine] at idle
    exact idle (capped.capped.flagged held)
  have busy := weigh_busy_le_holds pid c.threads
  have paid := capped.capped.paid
  have started := countP_restarts_eq pid c.threads
  by_cases restarted : 0 < c.threads.countP (Activity.restarts pid)
  · rw [readds, if_pos ⟨mine, restarted⟩]
    omega
  · omega

/-- When `pid` is registered, one more restart of it is paid for. -/
theorem Capped.room {pid : Pid} {readded : Nat} {c d : Config Supervisor Activity}
    {move : Move Activity Outside Registration} (capped : Capped pid readded c) (oneForOne : OneForOne c move)
    (moves : supervision.Moves c move d) (more : c.shared.registered.count pid < d.shared.registered.count pid) :
    weigh pid c.threads .started + weigh pid c.threads .pending < 1 + (readded + readds pid c move) := by
  cases moves with
  | start allowed => exact absurd more (Nat.lt_irrefl _)
  | @step shared later before after new activity next outside stepped =>
    cases Activity.step_changes (Activity.steps_of_step stepped) with
    | same children registered =>
      dsimp only at more
      rw [registered] at more
      exact absurd more (Nat.lt_irrefl _)
    | insert other restart mine stage inserted =>
      subst mine inserted
      have same := eq_of_count_addChild more
      subst same
      have found : (before ++ Activity.task restart :: after)[before.length]? = some (.task restart) := by simp
      have fresh : other ∉ shared.registered := by
        have undisturbed := oneForOne _ found
        simpa only [Activity.Undisturbed, stage] using undisturbed
      have paid := (capped.ledger.balanced other).paid
      dsimp only at paid
      rw [List.count_eq_zero_of_not_mem fresh] at paid
      dsimp only
      omega
    | drop other dropped =>
      subst dropped
      exact absurd more (Nat.lt_irrefl _)
  | @ambient shared later threads registration done =>
    cases registration with
    | addChild other spec =>
      cases done
      exact capped.room_user (eq_of_count_addChild more) oneForOne.2
    | watch other =>
      cases done
      exact capped.room_user (eq_of_count_addChild more) oneForOne

theorem Capped.move {pid : Pid} {readded : Nat} {c d : Config Supervisor Activity}
    {move : Move Activity Outside Registration} (capped : Capped pid readded c) (oneForOne : OneForOne c move)
    (moves : supervision.Moves c move d) : Capped pid (readded + readds pid c move) d := by
  have orderly := capped.orderly oneForOne
  have grows : 1 + readded ≤ 1 + (readded + readds pid c move) := by omega
  refine ⟨capped.ledger.move orderly moves, ?_, ?_, ?_⟩
  · exact balance_move capped.ledger.sound orderly moves capped.capped grows (capped.room oneForOne moves)
  · cases moves with
    | start allowed => exact capped.children
    | step stepped =>
      have mine := capped.activities _ (List.mem_append_right _ List.mem_cons_self)
      exact capped.children.step mine (Activity.steps_of_step stepped)
    | @ambient shared later threads registration done =>
      cases registration with
      | addChild other spec =>
        cases done
        exact capped.children.addChild other oneForOne.1
      | watch other =>
        cases done
        exact capped.children.addChild other rfl
  · apply moves.forall_threads capped.activities
    · intro activity _ allowed
      cases activity with
      | notify call =>
        have stage : call.stage = .flag := of_decide_eq_true allowed
        simp only [Activity.OneOnly, stage]
      | task restart => cases allowed
      | removal call => trivial
    · intro index activity outside later next new mine stepped
      exact Activity.step_oneOnly capped.children mine (Activity.steps_of_step stepped)

theorem capped_start {s : Supervisor} (only : s.OneOnly) (pid : Pid) : Capped pid 0 ⟨s.recorded, []⟩ := by
  refine ⟨ledger_start s, ?_, only, by simp⟩
  exact ⟨Nat.zero_le _, fun held => absurd held (Nat.lt_irrefl 0), Nat.zero_le _, fun _ _ _ => Nat.one_pos⟩

instance (s : Supervisor) : DecidablePred (Activity.Undisturbed s)
  | .notify _ => .isTrue trivial
  | .task ⟨_, _, _, _, _, .insertNew new⟩ => inferInstanceAs (Decidable (new ∉ s.registered))
  | .task ⟨_, _, _, _, _, .call⟩ => .isTrue trivial
  | .task ⟨_, _, _, _, _, .pushError _⟩ => .isTrue trivial
  | .task ⟨_, _, _, _, _, .backoff⟩ => .isTrue trivial
  | .task ⟨_, _, _, _, _, .removeOld⟩ => .isTrue trivial
  | .task ⟨_, _, _, _, _, .removeLinks⟩ => .isTrue trivial
  | .task ⟨_, _, _, _, _, .retain _⟩ => .isTrue trivial
  | .task ⟨_, _, _, _, _, .clearFlag⟩ => .isTrue trivial
  | .task ⟨_, _, _, _, _, .finished⟩ => .isTrue trivial
  | .removal call => inferInstanceAs (Decidable (call.pid ∉ s.restarting))

instance (c : Config Supervisor Activity) : DecidablePred (OneForOne c)
  | .start _ => .isTrue trivial
  | .ambient (.addChild other spec) =>
    inferInstanceAs (Decidable (spec.strategy = .restartOne ∧ other ∉ c.shared.restarting))
  | .ambient (.watch other) => inferInstanceAs (Decidable (other ∉ c.shared.restarting))
  | .step index _ => inferInstanceAs (Decidable (∀ activity ∈ c.threads[index]?, activity.Undisturbed c.shared))

def duplicateExits : List (Move Activity Outside Registration) :=
  let outside : Outside := ⟨.ok 2, []⟩
  [.ambient (.addChild 1 ⟨.foreign 0, .restartOne⟩), .start (.notify (.new 1)), .start (.notify (.new 1)),
    .step 0 outside, .step 0 outside, .step 1 outside, .step 0 outside, .step 2 outside, .step 2 outside,
    .step 2 outside, .step 2 outside, .step 2 outside, .step 2 outside, .start (.notify (.new 1)),
    .step 3 outside, .step 3 outside, .step 3 outside]

end Myrmidon
