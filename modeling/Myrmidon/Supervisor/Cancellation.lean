import Myrmidon.Supervisor.Replacement

namespace Myrmidon

open Transition

variable {p : Pid}

/-- `remove_child(p)` or `unwatch(p)` has returned, and `p` was not added since. -/
def Removed (p : Pid) (c : Config Supervisor Activity) : Prop :=
  (∃ call, Activity.removal call ∈ c.threads ∧ call.pid = p ∧ call.stage = .returned) ∧ p ∉ c.shared.children

namespace Activity

/-- The next step inserts a replacement of `p`. -/
def inserts (p : Pid) : Activity → Bool
  | .task restart =>
    match restart.stage with
    | .insertNew _ => decide (restart.orig = p)
    | _ => false
  | _ => false

/-- The next step is that of the restart of another child which has returned `p`. -/
def readds (p : Pid) : Activity → Bool
  | .task restart => decide (restart.stage = .insertNew p) && decide (restart.orig ≠ p)
  | _ => false

/-- A restart of `p` is due, or has not made its last attempt. -/
def RestartPending (p : Pid) : Activity → Prop
  | .notify call =>
    match call.stage with
    | .spawnOne _ => call.pid = p
    | .flagGroup done todo => p ∈ keysOf (done ++ todo)
    | .spawnGroup todo => p ∈ keysOf todo
    | _ => False
  | .task restart => restart.orig = p ∧
    match restart.stage with
    | .call | .insertNew _ | .backoff => True
    | .pushError _ => restart.attempts < Task.maxAttempts
    | _ => False
  | .removal _ => False

end Activity

/-- `p` is not added again. -/
def NotReadded (p : Pid) (c : Config Supervisor Activity) : Move Activity Outside Registration → Prop
  | .start _ => True
  | .step index _ => ∀ activity ∈ c.threads[index]?, activity.readds p = false
  | .ambient registration => registration.pid ≠ p

/-- No restart task inserts a replacement of `p`. -/
def KeepsOut (p : Pid) (c : Config Supervisor Activity) : Move Activity Outside Registration → Prop
  | .step index _ => ∀ activity ∈ c.threads[index]?, activity.inserts p = false
  | _ => True

/-- However the calls and tasks go on, `p` does not come back unless it is added again. -/
def StaysOut (p : Pid) (c : Config Supervisor Activity) : Prop :=
  ∀ moves d, supervision.machine.Meets (NotReadded p) c moves → supervision.machine.run c moves = some d →
    supervision.machine.Meets (KeepsOut p) c moves ∧ p ∉ d.shared.children

structure Cancelled (p : Pid) (c : Config Supervisor Activity) : Prop where
  gone : p ∉ c.shared.children
  idle : ∀ activity ∈ c.threads, ¬ activity.RestartPending p

theorem not_inserts_of_idle {activity : Activity} (idle : ¬ activity.RestartPending p) : activity.inserts p = false := by
  cases activity with
  | notify call => rfl
  | task restart =>
    rcases restart with ⟨orig, spec, attempts, backoffMs, replacement, stage⟩
    cases stage with
    | insertNew pid => exact decide_eq_false fun mine => idle ⟨mine, trivial⟩
    | _ => rfl
  | removal call => rfl

theorem Notify.step_idle {s later : Supervisor} {call next : Notify} {tasks : List Task} (gone : p ∉ s.children)
    (idle : ¬ (Activity.notify call).RestartPending p) (steps : Steps s call later next tasks) :
    ¬ (Activity.notify next).RestartPending p ∧ ∀ other ∈ tasks.map Activity.task, ¬ other.RestartPending p := by
  cases steps with
  | @foundOne own spec found one =>
    refine ⟨?_, by simp⟩
    intro mine
    rw [show own = p from mine] at found
    exact gone (AList.lookup_isSome.mp (by rw [found]; rfl))
  | @read own order whole =>
    refine ⟨?_, by simp⟩
    show p ∉ keysOf ([] ++ snapshot s order)
    rw [List.nil_append, snapshot_keys s whole, whole.mem_iff]
    exact fun member => gone (AList.mem_keys.mpr member)
  | @claimed own done todo child =>
    refine ⟨?_, by simp⟩
    show p ∉ keysOf (done ++ [child] ++ todo)
    rwa [List.append_assoc, List.singleton_append]
  | @marked own done =>
    refine ⟨?_, by simp⟩
    have absent : p ∉ keysOf (done ++ []) := idle
    rwa [List.append_nil] at absent
  | @spawned own todo child =>
    have absent : p ∉ child.1 :: keysOf todo := idle
    rw [List.mem_cons, not_or] at absent
    refine ⟨absent.2, ?_⟩
    intro other member
    rw [List.mem_singleton.mp member]
    exact fun pending => absent.1 pending.1.symm
  | spawnedOne =>
    refine ⟨id, ?_⟩
    intro other member
    rw [List.mem_singleton.mp member]
    exact fun pending => idle pending.1
  | _ => exact ⟨id, by simp⟩

theorem Task.step_idle {s later : Supervisor} {task next : Task} (idle : ¬ (Activity.task task).RestartPending p)
    (steps : Steps s task later next) : ¬ (Activity.task next).RestartPending p := by
  by_cases mine : task.orig = p
  · cases steps with
    | answered stage answer => exact absurd ⟨mine, by rw [stage]; trivial⟩ idle
    | refused stage => exact absurd ⟨mine, by rw [stage]; trivial⟩ idle
    | failed stage more => exact absurd ⟨mine, by rw [stage]; exact Nat.lt_of_not_le more⟩ idle
    | waited stage => exact absurd ⟨mine, by rw [stage]; trivial⟩ idle
    | _ => exact fun pending => pending.2
  · cases steps <;> exact fun pending => mine pending.1

theorem Activity.step_idle {s later : Supervisor} {activity next : Activity} {new : List Activity}
    (gone : p ∉ s.children) (idle : ¬ activity.RestartPending p) (steps : activity.Steps s later next new) :
    ¬ next.RestartPending p ∧ ∀ other ∈ new, ¬ other.RestartPending p := by
  cases steps with
  | notify steps => exact Notify.step_idle gone idle steps
  | task stepped => exact ⟨Task.step_idle idle (Task.steps_of_step stepped), by simp⟩
  | removal stepped => exact ⟨id, by simp⟩

theorem Supervisor.not_mem_addChild {s : Supervisor} {pid : Pid} {spec : ChildSpec} (gone : p ∉ s.children)
    (other : pid ≠ p) : p ∉ (s.addChild pid spec).children := by
  intro member
  rcases AList.mem_insert _ |>.mp member with same | member
  · exact other same.symm
  · exact gone member

theorem Activity.step_gone {s later : Supervisor} {activity next : Activity} {new : List Activity}
    (gone : p ∉ s.children) (idle : ¬ activity.RestartPending p) (notReadded : activity.readds p = false)
    (steps : activity.Steps s later next new) : p ∉ later.children := by
  cases Activity.step_changes steps with
  | same children registered => rwa [children]
  | insert pid restart mine stage inserted =>
    subst mine
    rw [inserted]
    apply Supervisor.not_mem_addChild gone
    rintro rfl
    by_cases own : restart.orig = pid
    · exact idle ⟨own, by rw [stage]; trivial⟩
    · simp [Activity.readds, stage, own] at notReadded
  | drop pid dropped =>
    rw [dropped]
    exact fun member => gone (AList.mem_erase.mp member).2

theorem Cancelled.move {c d : Config Supervisor Activity} {move : Move Activity Outside Registration}
    (cancelled : Cancelled p c) (notReadded : NotReadded p c move) (moves : supervision.Moves c move d) :
    Cancelled p d := by
  constructor
  · cases moves with
    | start allowed => exact cancelled.gone
    | @step shared later before after new activity next outside stepped =>
      have idle := cancelled.idle activity (List.mem_append_right _ List.mem_cons_self)
      exact Activity.step_gone cancelled.gone idle (notReadded activity (by simp)) (Activity.steps_of_step stepped)
    | @ambient shared later threads registration done =>
      cases registration with
      | addChild pid spec =>
        cases done
        exact Supervisor.not_mem_addChild cancelled.gone notReadded
      | watch pid =>
        cases done
        exact Supervisor.not_mem_addChild cancelled.gone notReadded
  · apply moves.forall_threads cancelled.idle
    · intro activity _ allowed
      cases activity with
      | notify call =>
        have stage : call.stage = .flag := of_decide_eq_true allowed
        simp only [Activity.RestartPending, stage]
        exact id
      | task restart => cases allowed
      | removal call => exact id
    · intro index activity outside later next new idle stepped
      exact Activity.step_idle cancelled.gone idle (Activity.steps_of_step stepped)

theorem Cancelled.keepsOut {c : Config Supervisor Activity} {move : Move Activity Outside Registration}
    (cancelled : Cancelled p c) : KeepsOut p c move := by
  cases move with
  | start activity => trivial
  | step index outside =>
    exact fun activity found => not_inserts_of_idle (cancelled.idle activity (List.mem_of_getElem? found))
  | ambient registration => trivial

theorem Cancelled.staysOut {c : Config Supervisor Activity} (cancelled : Cancelled p c) : StaysOut p c := by
  intro moves d notReadded reached
  have keeps : ∀ c move d, Cancelled p c → NotReadded p c move → supervision.machine.step c move = some d →
      Cancelled p d :=
    fun c move d cancelled notReadded taken => cancelled.move notReadded (supervision.moves_of_step taken)
  constructor
  · exact supervision.machine.meets_of_meets keeps (fun c move cancelled _ => cancelled.keepsOut) cancelled notReadded
  · exact (supervision.machine.run_invariant_of_meets keeps cancelled notReadded reached).gone

/-- Some continuation that does not add `p` again inserts a replacement of it. -/
def Returns (p : Pid) (c : Config Supervisor Activity) : Prop :=
  ∃ moves d, supervision.machine.Meets (NotReadded p) c moves ∧ supervision.machine.run c moves = some d ∧
    ¬ supervision.machine.Meets (KeepsOut p) c moves

/-- Reasoning backwards over one step of the activity at a place of the list. -/
theorem Returns.back {s later : Supervisor} {before after new : List Activity} {activity next : Activity}
    (outside : Outside) (stepped : ∀ index, supervision.step index s activity outside = some (later, next, new))
    (notReadded : activity.readds p = false) (returns : Returns p ⟨later, before ++ next :: (after ++ new)⟩) :
    Returns p ⟨s, before ++ activity :: after⟩ := by
  obtain ⟨moves, d, meets, reached, inserts⟩ := returns
  have taken : supervision.machine.step ⟨s, before ++ activity :: after⟩ (.step before.length outside) =
      some ⟨later, before ++ next :: (after ++ new)⟩ := supervision.machine_step_at (stepped _)
  refine ⟨.step before.length outside :: moves, d, ⟨?_, ?_⟩, ?_, ?_⟩
  · intro other found
    rw [List.getElem?_append_right (Nat.le_refl _), Nat.sub_self, List.getElem?_cons_zero] at found
    cases found
    exact notReadded
  · intro middle stepped
    cases taken.symm.trans stepped
    exact meets
  · rw [Machine.run_cons, taken]
    exact reached
  · exact fun kept => inserts (kept.2 _ taken)

section

variable (s : Supervisor) (before after : List Activity) (spec : ChildSpec) (attempts backoffMs : Nat)
  (replacement : Option Pid)

theorem returns_insertNew (pid : Pid) :
    Returns p ⟨s, before ++ .task ⟨p, spec, attempts, backoffMs, replacement, .insertNew pid⟩ :: after⟩ := by
  let restart : Task := ⟨p, spec, attempts, backoffMs, replacement, .insertNew pid⟩
  have place : (before ++ Activity.task restart :: after)[before.length]? = some (.task restart) := by simp
  let final : Config Supervisor Activity :=
    ⟨s.addChild pid spec, before ++ .task { restart with stage := .removeOld } :: (after ++ [])⟩
  have taken : supervision.machine.step ⟨s, before ++ .task restart :: after⟩ (.step before.length ⟨.ok 0, []⟩) =
      some final := supervision.machine_step_at rfl
  refine ⟨[.step before.length ⟨.ok 0, []⟩], final, ⟨?_, fun _ _ => trivial⟩, ?_, ?_⟩
  · intro other found
    cases place.symm.trans found
    simp [Activity.readds, restart]
  · rw [Machine.run_cons, taken]
    rfl
  · intro kept
    have inserts := kept.1 _ place
    simp [Activity.inserts, restart] at inserts

theorem returns_call : Returns p ⟨s, before ++ .task ⟨p, spec, attempts, backoffMs, replacement, .call⟩ :: after⟩ := by
  rcases spec with ⟨factory, strategy⟩
  cases factory with
  | same pid =>
    apply Returns.back ⟨.ok 0, []⟩ (fun _ => rfl) rfl
    exact returns_insertNew s before _ _ _ _ _ pid
  | foreign id =>
    apply Returns.back ⟨.ok 0, []⟩ (fun _ => rfl) rfl
    exact returns_insertNew s before _ _ _ _ _ 0

theorem returns_backoff :
    Returns p ⟨s, before ++ .task ⟨p, spec, attempts, backoffMs, replacement, .backoff⟩ :: after⟩ := by
  apply Returns.back ⟨.ok 0, []⟩ (fun _ => rfl) rfl
  exact returns_call s before _ spec attempts _ replacement

theorem returns_pushError (error : String) (more : attempts < Task.maxAttempts) :
    Returns p ⟨s, before ++ .task ⟨p, spec, attempts, backoffMs, replacement, .pushError error⟩ :: after⟩ := by
  have stepped : ∀ index, supervision.step index s (.task ⟨p, spec, attempts, backoffMs, replacement, .pushError error⟩)
      ⟨.ok 0, []⟩ = some (s.pushError error, .task ⟨p, spec, attempts, backoffMs, replacement, .backoff⟩, []) := by
    intro index
    simp [supervision, Task.step, Nat.not_le_of_lt more]
  apply Returns.back _ stepped rfl
  exact returns_backoff _ before _ spec attempts backoffMs replacement

/-- A restart task that is appended to the list. -/
theorem returns_new : Returns p ⟨s, before ++ .task (Task.new p spec) :: after⟩ :=
  returns_call s before after spec 0 100 none

theorem returns_spawnOne : Returns p ⟨s, before ++ .notify ⟨p, .spawnOne spec⟩ :: after⟩ := by
  apply Returns.back ⟨.ok 0, []⟩ (fun _ => rfl) rfl
  have split : before ++ Activity.notify ⟨p, .returned⟩ :: (after ++ [.task (Task.new p spec)]) =
      (before ++ .notify ⟨p, .returned⟩ :: after) ++ .task (Task.new p spec) :: [] := by
    simp
  show Returns p ⟨s, before ++ Activity.notify ⟨p, .returned⟩ :: (after ++ [.task (Task.new p spec)])⟩
  rw [split]
  exact returns_new s _ [] spec

theorem returns_spawnGroup (own : Pid) (todo : List (Pid × ChildSpec)) (member : p ∈ keysOf todo) :
    Returns p ⟨s, before ++ .notify ⟨own, .spawnGroup todo⟩ :: after⟩ := by
  induction todo generalizing after with
  | nil => cases member
  | cons child todo ih =>
    apply Returns.back ⟨.ok 0, []⟩ (fun _ => rfl) rfl
    rcases List.mem_cons.mp member with rfl | later
    · have split : before ++ Activity.notify ⟨own, .spawnGroup todo⟩ :: (after ++ [.task (Task.new child.1 child.2)]) =
          (before ++ .notify ⟨own, .spawnGroup todo⟩ :: after) ++ .task (Task.new child.1 child.2) :: [] := by
        simp
      show Returns child.1 ⟨s, before ++ Activity.notify ⟨own, .spawnGroup todo⟩ ::
        (after ++ [.task (Task.new child.1 child.2)])⟩
      rw [split]
      exact returns_new s _ [] child.2
    · exact ih _ later

theorem returns_flagGroup (own : Pid) (done todo : List (Pid × ChildSpec)) (member : p ∈ keysOf (done ++ todo)) :
    Returns p ⟨s, before ++ .notify ⟨own, .flagGroup done todo⟩ :: after⟩ := by
  induction todo generalizing s after done with
  | nil =>
    apply Returns.back ⟨.ok 0, []⟩ (fun _ => rfl) rfl
    rw [List.append_nil] at member
    exact returns_spawnGroup s before _ own done member
  | cons child todo ih =>
    apply Returns.back ⟨.ok 0, []⟩ (fun _ => rfl) rfl
    apply ih
    rwa [List.append_assoc, List.singleton_append]

end

theorem returns_of_pending {c : Config Supervisor Activity} {activity : Activity} (member : activity ∈ c.threads)
    (pending : activity.RestartPending p) : Returns p c := by
  rcases c with ⟨s, threads⟩
  obtain ⟨before, after, rfl⟩ := List.append_of_mem member
  cases activity with
  | notify call =>
    rcases call with ⟨own, stage⟩
    cases stage with
    | spawnOne spec =>
      rw [show own = p from pending]
      exact returns_spawnOne s before after spec
    | flagGroup done todo => exact returns_flagGroup s before after own done todo pending
    | spawnGroup todo => exact returns_spawnGroup s before after own todo pending
    | _ => exact absurd pending id
  | task restart =>
    rcases restart with ⟨orig, spec, attempts, backoffMs, replacement, stage⟩
    obtain ⟨rfl, due⟩ := pending
    cases stage with
    | call => exact returns_call s before after spec attempts backoffMs replacement
    | insertNew pid => exact returns_insertNew s before after spec attempts backoffMs replacement pid
    | backoff => exact returns_backoff s before after spec attempts backoffMs replacement
    | pushError error => exact returns_pushError s before after spec attempts backoffMs replacement error due
    | _ => exact absurd due id
  | removal call => exact absurd pending id

/-- A removed child stays out exactly if no restart of it was pending when the removal returned. -/
theorem removed_child_stays_out_iff {c : Config Supervisor Activity} (removed : Removed p c) :
    StaysOut p c ↔ ∀ activity ∈ c.threads, ¬ activity.RestartPending p := by
  constructor
  · intro stays activity member pending
    obtain ⟨moves, d, notReadded, reached, inserts⟩ := returns_of_pending member pending
    exact inserts (stays moves d notReadded reached).1
  · intro idle
    exact Cancelled.staysOut ⟨removed.2, idle⟩

/-- Child 1 is removed while its restart task waits after a failed attempt. -/
def removedInBackoff : List (Move Activity Outside Registration) :=
  let outside : Outside := ⟨.error "boom", []⟩
  [.ambient (.addChild 1 ⟨.foreign 0, .restartOne⟩), .start (.notify (.new 1)), .step 0 outside, .step 0 outside,
    .step 0 outside, .step 1 outside, .step 1 outside, .start (.removal (.removeChild 1)), .step 2 outside,
    .step 2 outside, .step 2 outside, .step 2 outside]

theorem removed_in_backoff_returns :
    ¬ ∀ (p : Pid) (moves : List (Move Activity Outside Registration)) (c : Config Supervisor Activity),
      supervision.machine.run ⟨.new, []⟩ moves = some c → Removed p c → StaysOut p c := by
  intro claim
  let waiting : Task := ⟨1, ⟨.foreign 0, .restartOne⟩, 1, 100, none, .backoff⟩
  obtain ⟨c, reached, removal, gone, task⟩ :
      ∃ c, supervision.machine.run ⟨.new, []⟩ removedInBackoff = some c ∧
        .removal ⟨1, true, .returned⟩ ∈ c.threads ∧ 1 ∉ c.shared.children ∧ .task waiting ∈ c.threads :=
    Machine.exists_of_check _ (by decide +kernel)
  have stays := claim 1 removedInBackoff c reached ⟨⟨_, removal, rfl, rfl⟩, gone⟩
  obtain ⟨moves, d, notReadded, later, inserts⟩ := returns_of_pending task (p := 1) ⟨rfl, trivial⟩
  exact inserts (stays moves d notReadded later).1

def removedWhenIdle : Config Supervisor Activity :=
  ⟨.new, [.removal ⟨1, true, .returned⟩, .task ⟨1, ⟨.foreign 0, .restartOne⟩, 1, 100, some 2, .finished⟩]⟩

theorem removed_child_stays_out_when_idle : Removed 1 removedWhenIdle ∧ StaysOut 1 removedWhenIdle := by
  have removed : Removed 1 removedWhenIdle := ⟨⟨⟨1, true, .returned⟩, by decide, rfl, rfl⟩, by decide⟩
  refine ⟨removed, (removed_child_stays_out_iff removed).mpr ?_⟩
  rw [removedWhenIdle, List.forall_mem_cons, List.forall_mem_singleton]
  exact ⟨id, fun pending => pending.2⟩

end Myrmidon
