import Myrmidon.Supervisor.OneForOne

namespace Myrmidon

open Transition

namespace Activity

/-- The activity is going to clear the flag of `pid`, or to start one that is.
    A `RestartAll` before its snapshot relies on `pid` being in `children` still. -/
def Owes (s : Supervisor) (pid : Pid) : Activity → Prop
  | .notify call =>
    match call.stage with
    | .flag | .returned => False
    | .lookup | .unflag | .spawnOne _ => call.pid = pid
    | .snapshot => call.pid = pid ∧ pid ∈ s.children
    | .flagGroup done todo => pid ∈ keysOf (done ++ todo)
    | .spawnGroup todo => pid ∈ keysOf todo
  | .task restart => restart.orig = pid ∧ restart.unfinished = true
  | .removal call => call.pid = pid ∧ (call.stage = .dropChild ∨ call.stage = .unflag)

/-- The call has returned, the task has ended. -/
def Ended : Activity → Prop
  | .notify call => call.stage = .returned
  | .task restart => restart.stage = .finished
  | .removal call => call.stage = .returned

instance : DecidablePred Ended
  | .notify call => inferInstanceAs (Decidable (call.stage = .returned))
  | .task restart => inferInstanceAs (Decidable (restart.stage = .finished))
  | .removal call => inferInstanceAs (Decidable (call.stage = .returned))

theorem Ended.owes_nothing {s : Supervisor} {pid : Pid} {activity : Activity} (ended : activity.Ended) :
    ¬ activity.Owes s pid := by
  cases activity with
  | notify call =>
    intro owes
    rw [Owes, show call.stage = .returned from ended] at owes
    exact owes
  | task restart =>
    rintro ⟨-, unfinished⟩
    rw [Task.unfinished, show restart.stage = .finished from ended] at unfinished
    cases unfinished
  | removal call =>
    rintro ⟨-, early | early⟩
    · cases early.symm.trans ended
    · cases early.symm.trans ended

theorem Owes.frame {s later : Supervisor} {pid : Pid} {activity : Activity} (owes : activity.Owes s pid)
    (children : pid ∈ s.children → pid ∈ later.children) : activity.Owes later pid := by
  cases activity with
  | notify call =>
    obtain ⟨own, stage⟩ := call
    cases stage with
    | snapshot => exact ⟨owes.1, children owes.2⟩
    | _ => exact owes
  | task restart => exact owes
  | removal call => exact owes

end Activity

def Owed (pid : Pid) (c : Config Supervisor Activity) : Prop :=
  pid ∈ c.shared.restarting → ∃ activity ∈ c.threads, activity.Owes c.shared pid

theorem Notify.step_owes {s later : Supervisor} {call next : Notify} {tasks : List Task} {pid : Pid}
    (steps : Steps s call later next tasks) (owes : (Activity.notify call).Owes s pid)
    (flagged : pid ∈ later.restarting) :
    (Activity.notify next).Owes later pid ∨ ∃ other ∈ tasks.map Activity.task, other.Owes later pid := by
  cases steps with
  | ignored busy => exact absurd owes id
  | flagged free => exact absurd owes id
  | unknown absent => exact .inl owes
  | @foundAll own spec found all =>
    have mine : own = pid := owes
    refine .inl ⟨mine, ?_⟩
    rw [← mine, ← AList.lookup_isSome, found]
    rfl
  | foundOne found one => exact .inl owes
  | @unflagged own =>
    have mine : own = pid := owes
    rw [mine] at flagged
    exact absurd flagged (Finset.notMem_erase _ _)
  | @read own order whole =>
    left
    show pid ∈ keysOf ([] ++ snapshot s order)
    rw [List.nil_append, snapshot_keys s whole, whole.mem_iff]
    exact AList.mem_keys.mp owes.2
  | @claimed own done todo child =>
    left
    show pid ∈ keysOf (done ++ [child] ++ todo)
    rwa [List.append_assoc, List.singleton_append]
  | @marked own done =>
    left
    have group : pid ∈ keysOf (done ++ []) := owes
    rwa [List.append_nil] at group
  | @spawned own todo child =>
    rcases List.mem_cons.mp (show pid ∈ child.1 :: keysOf todo from owes) with same | later
    · exact .inr ⟨_, List.mem_singleton_self _, same.symm, rfl⟩
    · exact .inl later
  | spawnedAll => exact absurd owes List.not_mem_nil
  | spawnedOne => exact .inr ⟨_, List.mem_singleton_self _, owes, rfl⟩

theorem Task.step_owes {s later : Supervisor} {task next : Task} {pid : Pid} (steps : Steps s task later next)
    (owes : (Activity.task task).Owes s pid) (flagged : pid ∈ later.restarting) :
    (Activity.task next).Owes later pid := by
  obtain ⟨rfl, -⟩ := owes
  cases steps with
  | cleared stage => exact absurd flagged (Finset.notMem_erase _ _)
  | _ => exact ⟨rfl, rfl⟩

theorem Removal.step_owes {s later : Supervisor} {removal next : Removal} {pid : Pid}
    (steps : Steps s removal later next) (owes : (Activity.removal removal).Owes s pid)
    (flagged : pid ∈ later.restarting) : (Activity.removal next).Owes later pid := by
  obtain ⟨rfl, early⟩ := owes
  cases steps with
  | dropped stage => exact ⟨rfl, .inr rfl⟩
  | cleared stage => exact absurd flagged (Finset.notMem_erase _ _)
  | _ stage =>
    rw [stage] at early
    rcases early with early | early <;> cases early

theorem Activity.step_owes {s later : Supervisor} {activity next : Activity} {new : List Activity} {pid : Pid}
    (steps : activity.Steps s later next new) (owes : activity.Owes s pid) (flagged : pid ∈ later.restarting) :
    next.Owes later pid ∨ ∃ other ∈ new, other.Owes later pid := by
  cases steps with
  | notify steps => exact Notify.step_owes steps owes flagged
  | task stepped => exact .inl (Task.step_owes (Task.steps_of_step stepped) owes flagged)
  | removal stepped => exact .inl (Removal.step_owes (Removal.steps_of_step stepped) owes flagged)

/-- An activity that has just set the flag of `pid`. -/
inductive Activity.Flagged (pid : Pid) : Activity → Prop where
  | own : Flagged pid (.notify ⟨pid, .lookup⟩)
  | group {own : Pid} {done todo : List (Pid × ChildSpec)} (member : pid ∈ keysOf (done ++ todo)) :
      Flagged pid (.notify ⟨own, .flagGroup done todo⟩)

theorem Activity.step_flags {s later : Supervisor} {activity next : Activity} {new : List Activity} {pid : Pid}
    (steps : activity.Steps s later next new) (flagged : pid ∈ later.restarting) :
    pid ∈ s.restarting ∨ next.Flagged pid := by
  cases steps with
  | notify steps =>
    cases steps with
    | flagged free =>
      rcases Finset.mem_insert.mp flagged with rfl | flagged
      · exact .inr .own
      · exact .inl flagged
    | @claimed own done todo child =>
      rcases Finset.mem_insert.mp flagged with rfl | flagged
      · exact .inr (.group (by simp [keysOf]))
      · exact .inl flagged
    | unflagged => exact .inl (Finset.mem_of_mem_erase flagged)
    | _ => exact .inl flagged
  | task stepped =>
    left
    cases Task.steps_of_step stepped with
    | cleared stage => exact Finset.mem_of_mem_erase flagged
    | forgot stage => rwa [Supervisor.forget_restarting] at flagged
    | _ => exact flagged
  | removal stepped =>
    left
    cases Removal.steps_of_step stepped with
    | cleared stage => exact Finset.mem_of_mem_erase flagged
    | forgot stage => rwa [Supervisor.forget_restarting] at flagged
    | _ => exact flagged

theorem Activity.Flagged.owes {s : Supervisor} {activity : Activity} {pid : Pid} (flagged : activity.Flagged pid) :
    activity.Owes s pid := by
  cases flagged with
  | own => exact rfl
  | group member => exact member

/-- The steps that take `pid` out of `children`. -/
inductive Activity.Drops (pid : Pid) : Activity → Activity → Prop where
  | task {restart : Task} (mine : restart.orig = pid) (stage : restart.stage = .removeOld) :
      Drops pid (.task restart) (.task { restart with stage := .removeLinks })
  | removal {call : Removal} (mine : call.pid = pid) (stage : call.stage = .dropChild) :
      Drops pid (.removal call) (.removal { call with stage := .unflag })

theorem Activity.step_drops {s later : Supervisor} {activity next : Activity} {new : List Activity} {pid : Pid}
    (steps : activity.Steps s later next new) (child : pid ∈ s.children) :
    pid ∈ later.children ∨ Drops pid activity next := by
  cases steps with
  | notify steps => cases steps <;> exact .inl child
  | @task _ restart next _ stepped =>
    cases Task.steps_of_step stepped with
    | inserted stage => exact .inl (AList.mem_insert _ |>.mpr (.inr child))
    | removed stage =>
      by_cases same : restart.orig = pid
      · exact .inr (.task same stage)
      · exact .inl (AList.mem_erase.mpr ⟨Ne.symm same, child⟩)
    | forgot stage => exact .inl (by rwa [Supervisor.forget_children])
    | _ => exact .inl child
  | @removal _ call next stepped =>
    cases Removal.steps_of_step stepped with
    | dropped stage =>
      by_cases same : call.pid = pid
      · exact .inr (.removal same stage)
      · exact .inl (AList.mem_erase.mpr ⟨Ne.symm same, child⟩)
    | forgot stage => exact .inl (by rwa [Supervisor.forget_children])
    | _ => exact .inl child

/-- Whoever takes `pid` out of `children` clears its flag afterwards. -/
theorem Activity.Drops.owes {s : Supervisor} {activity next : Activity} {pid : Pid} (drops : Drops pid activity next) :
    next.Owes s pid := by
  cases drops with
  | task mine stage => exact ⟨mine, rfl⟩
  | removal mine stage => exact ⟨mine, .inr rfl⟩

theorem Owed.move {pid : Pid} {c d : Config Supervisor Activity} {move : Move Activity Outside Registration}
    (owed : Owed pid c) (moves : supervision.Moves c move d) : Owed pid d := by
  intro flagged
  cases moves with
  | start allowed =>
    obtain ⟨activity, member, owes⟩ := owed flagged
    exact ⟨activity, List.mem_append_left _ member, owes⟩
  | @step shared later before after new activity next outside stepped =>
    have steps := Activity.steps_of_step stepped
    rcases Activity.step_flags steps flagged with before | set
    · apply Program.exists_replace_append (owed before)
      · intro other owes
        by_cases child : pid ∈ shared.children
        · rcases Activity.step_drops steps child with stays | drops
          · exact .inl (owes.frame fun _ => stays)
          · exact .inr drops.owes
        · exact .inl (owes.frame fun absent => absurd absent child)
      · exact fun owes => Activity.step_owes steps owes flagged
    · exact ⟨next, by simp, set.owes⟩
  | @ambient shared later threads registration done =>
    cases registration with
    | addChild other spec =>
      cases done
      obtain ⟨activity, member, owes⟩ := owed flagged
      exact ⟨activity, member, owes.frame fun child => AList.mem_insert _ |>.mpr (.inr child)⟩
    | watch other =>
      cases done
      obtain ⟨activity, member, owes⟩ := owed flagged
      exact ⟨activity, member, owes.frame fun child => AList.mem_insert _ |>.mpr (.inr child)⟩

theorem owed_of_run {s : Supervisor} {pid : Pid} (unflagged : pid ∉ s.restarting)
    {moves : List (Move Activity Outside Registration)} {d : Config Supervisor Activity}
    (reached : supervision.machine.run ⟨s, []⟩ moves = some d) : Owed pid d :=
  supervision.machine.run_invariant (fun _ _ _ owed taken => owed.move (supervision.moves_of_step taken))
    (fun flagged => absurd flagged unflagged) reached

/-- In every state in which no call and no restart task is in progress, no flag is set. -/
theorem restarting_empty_of_ended {s : Supervisor} (unflagged : s.restarting = ∅)
    {moves : List (Move Activity Outside Registration)} {d : Config Supervisor Activity}
    (reached : supervision.machine.run ⟨s, []⟩ moves = some d) (ended : ∀ activity ∈ d.threads, activity.Ended) :
    d.shared.restarting = ∅ := by
  rw [Finset.eq_empty_iff_forall_notMem]
  intro pid flagged
  have clear : pid ∉ s.restarting := by
    rw [unflagged]
    exact Finset.notMem_empty pid
  obtain ⟨activity, member, owes⟩ := owed_of_run clear reached flagged
  exact (ended activity member).owes_nothing owes

/-- A `RestartAll` of child 1, which is removed between the look at its spec and the snapshot. -/
def removedBeforeSnapshot : List (Move Activity Outside Registration) :=
  let outside : Outside := ⟨.ok 2, []⟩
  [.ambient (.addChild 1 ⟨.foreign 0, .restartAll⟩), .start (.notify (.new 1)), .step 0 outside, .step 0 outside,
    .start (.removal (.unwatch 1)), .step 1 outside, .step 0 outside, .step 0 outside, .step 0 outside, .step 1 outside]

theorem restarting_empty_of_ended_removed :
    (supervision.machine.run ⟨.new, []⟩ removedBeforeSnapshot).isSome = true ∧
    ∀ d, supervision.machine.run ⟨.new, []⟩ removedBeforeSnapshot = some d → d.shared.restarting = ∅ := by
  refine ⟨by decide +kernel, fun d reached => restarting_empty_of_ended rfl reached ?_⟩
  have ended : ((supervision.machine.run ⟨.new, []⟩ removedBeforeSnapshot).map fun d =>
      decide (∀ activity ∈ d.threads, activity.Ended)) = some true := by
    decide +kernel
  rw [reached, Option.map_some] at ended
  exact of_decide_eq_true (Option.some.inj ended)

end Myrmidon
