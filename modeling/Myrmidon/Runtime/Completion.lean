import Myrmidon.Runtime.Model

namespace Myrmidon

open Transition

theorem Notify.step_of_steps {s later : Supervisor} {call next : Notify} {tasks : List Task}
    (steps : Steps s call later next tasks) : ∃ order, call.step s order = some (later, next, tasks) := by
  cases steps with
  | ignored busy => exact ⟨[], if_pos busy⟩
  | flagged free => exact ⟨[], if_neg free⟩
  | unknown absent => exact ⟨[], by simp only [step, absent]⟩
  | foundAll found all => exact ⟨[], by simp only [step, found, all]⟩
  | foundOne found one => exact ⟨[], by simp only [step, found, one]⟩
  | @read own order whole => exact ⟨order, if_pos whole⟩
  | _ => exact ⟨[], rfl⟩

theorem Notify.Steps.running {s later : Supervisor} {call next : Notify} {tasks : List Task}
    (steps : call.Steps s later next tasks) : call.stage ≠ .returned := by
  cases steps <;> exact NotifyStage.noConfusion

/-- What holds at the end of a `notify_exit` call, and before every step after
    which it holds, holds wherever the call is. -/
theorem Notify.backwards {Q : Supervisor → Notify → Prop} (returned : ∀ s own, Q s ⟨own, .returned⟩)
    (back : ∀ {s later call next tasks}, Steps s call later next tasks → Q later next → Q s call)
    (s : Supervisor) (call : Notify) : Q s call := by
  obtain ⟨own, stage⟩ := call
  have spawnOne : ∀ s spec, Q s ⟨own, .spawnOne spec⟩ := fun s _ => back .spawnedOne (returned s own)
  have spawnGroup : ∀ s todo, Q s ⟨own, .spawnGroup todo⟩ := by
    intro s todo
    induction todo with
    | nil => exact back .spawnedAll (returned s own)
    | cons child todo ih => exact back .spawned ih
  have flagGroup : ∀ s done todo, Q s ⟨own, .flagGroup done todo⟩ := by
    intro s done todo
    induction todo generalizing s done with
    | nil => exact back .marked (spawnGroup s done)
    | cons child todo ih => exact back .claimed (ih _ _)
  have snapshot : ∀ s, Q s ⟨own, .snapshot⟩ := fun s => back (.read (.refl _)) (flagGroup s _ _)
  have unflag : ∀ s, Q s ⟨own, .unflag⟩ := fun _ => back .unflagged (returned _ own)
  have lookup : ∀ s, Q s ⟨own, .lookup⟩ := by
    intro s
    cases found : s.children.lookup own with
    | none => exact back (.unknown found) (unflag s)
    | some spec =>
      cases strategy : spec.strategy with
      | restartAll => exact back (.foundAll found strategy) (snapshot s)
      | restartOne => exact back (.foundOne found strategy) (spawnOne s spec)
  cases stage with
  | flag =>
    by_cases busy : own ∈ s.restarting
    · exact back (.ignored busy) (returned s own)
    · exact back (.flagged busy) (lookup _)
  | lookup => exact lookup s
  | unflag => exact unflag s
  | snapshot => exact snapshot s
  | flagGroup done todo => exact flagGroup s done todo
  | spawnGroup todo => exact spawnGroup s todo
  | spawnOne spec => exact spawnOne s spec
  | returned => exact returned s own

def CleanedUp (c : Config Runtime Worker) : Prop := ∃ ending, Worker.cleanup ending ∈ c.threads ∧ ending.stage = .done

/-- The clean-up can run to its end alone, whatever the other workers are. -/
def Cleanup.Completes (rt : Runtime) (ending : Cleanup) : Prop :=
  ∀ others, ∃ moves d, exitCleanup.machine.run ⟨rt, .cleanup ending :: others⟩ moves = some d ∧ CleanedUp d

namespace Cleanup

theorem Completes.back {rt later : Runtime} {ending next : Cleanup} (order : List Pid) {new : List Worker}
    (stepped : ending.step rt order = some (later, next, new)) (completes : next.Completes later) :
    ending.Completes rt := by
  intro others
  obtain ⟨moves, d, reached, finished⟩ := completes (others ++ new)
  refine ⟨.step 0 (.error "", order) :: moves, d, ?_, finished⟩
  have taken : exitCleanup.machine.step ⟨rt, .cleanup ending :: others⟩ (.step 0 (.error "", order)) =
      some ⟨later, .cleanup next :: (others ++ new)⟩ := by
    simp only [Program.machine, exitCleanup, Worker.step, List.getElem?_cons_zero, stepped, Option.map_some,
      List.set_cons_zero, List.cons_append]
  rw [Machine.run_cons, taken]
  exact reached

variable (pid : Pid) (reason : ExitReason) (metadata : Option String)

theorem completes_send (rt : Runtime) (todo : List Pid) : Completes rt ⟨pid, reason, metadata, .send todo⟩ := by
  induction todo generalizing rt with
  | nil =>
    apply Completes.back [] rfl
    exact fun others => ⟨[], _, rfl, _, List.mem_cons_self, rfl⟩
  | cons peer todo ih => exact .back [] rfl (ih _)

theorem completes_retain (rt : Runtime) (linked peers : List Pid) :
    Completes rt ⟨pid, reason, metadata, .retain linked peers⟩ := by
  induction peers generalizing rt with
  | nil => exact .back [] rfl (completes_send pid reason metadata rt linked)
  | cons peer peers ih => exact .back [] rfl (ih _)

theorem completes_deallocate (rt : Runtime) : Completes rt ⟨pid, reason, metadata, .deallocate⟩ :=
  .back [] rfl (.back [] rfl (completes_retain pid reason metadata _ _ _))

theorem completes_notifyPath {index : Nat} {todo : List Nat}
    (next : ∀ rt, Completes rt ⟨pid, reason, metadata, .paths todo⟩) {rt : Runtime} {s : Supervisor}
    (present : rt.pathSupervisors[index]? = some s) (call : Notify) :
    Completes rt ⟨pid, reason, metadata, .notifyPath index call todo⟩ := by
  apply Notify.backwards (Q := fun s call => ∀ rt, rt.pathSupervisors[index]? = some s →
    Completes rt ⟨pid, reason, metadata, .notifyPath index call todo⟩) _ _ s call rt present
  · intro s own rt _
    have taken : step rt ⟨pid, reason, metadata, .notifyPath index ⟨own, .returned⟩ todo⟩ [] =
        some (rt, ⟨pid, reason, metadata, .paths todo⟩, []) := by
      simp only [step, if_true]
    exact .back [] taken (next rt)
  · intro s later call following tasks steps ih rt present
    obtain ⟨order, stepped⟩ := Notify.step_of_steps steps
    have inside := (List.getElem?_eq_some_iff.mp present).1
    have taken : step rt ⟨pid, reason, metadata, .notifyPath index call todo⟩ order =
        some ({ rt with pathSupervisors := rt.pathSupervisors.set index later },
          ⟨pid, reason, metadata, .notifyPath index following todo⟩, tasks.map (.restart (some index))) := by
      simp only [step, if_neg steps.running, present, stepped, Option.map_some]
    exact .back order taken (ih _ (List.getElem?_set_self inside))

theorem completes_paths (rt : Runtime) (todo : List Nat) : Completes rt ⟨pid, reason, metadata, .paths todo⟩ := by
  induction todo generalizing rt with
  | nil => exact .back [] rfl (completes_deallocate pid reason metadata rt)
  | cons index todo ih =>
    have skip : step rt ⟨pid, reason, metadata, .paths (index :: todo)⟩ [] =
        some (rt, ⟨pid, reason, metadata, .paths todo⟩, []) →
        Completes rt ⟨pid, reason, metadata, .paths (index :: todo)⟩ :=
      fun skipped => .back [] skipped (ih rt)
    cases present : rt.pathSupervisors[index]? with
    | none =>
      apply skip
      simp only [step, present]
    | some s =>
      by_cases child : s.containsChild pid = true
      · have taken : step rt ⟨pid, reason, metadata, .paths (index :: todo)⟩ [] =
            some (rt, ⟨pid, reason, metadata, .notifyPath index (.new pid) todo⟩, []) := by
          simp only [step, present, if_pos child]
        exact .back [] taken (completes_notifyPath pid reason metadata ih present (.new pid))
      · apply skip
        simp only [step, present, if_neg child]

theorem completes_notify (rt : Runtime) (call : Notify) : Completes rt ⟨pid, reason, metadata, .notify call⟩ := by
  apply Notify.backwards (Q := fun s call => ∀ rt, rt.supervisor = s →
    Completes rt ⟨pid, reason, metadata, .notify call⟩) _ _ rt.supervisor call rt rfl
  · intro s own rt _
    have taken : step rt ⟨pid, reason, metadata, .notify ⟨own, .returned⟩⟩ [] =
        some (rt, ⟨pid, reason, metadata, .paths (List.range rt.pathSupervisors.length)⟩, []) := by
      simp only [step, if_true]
    exact .back [] taken (completes_paths pid reason metadata rt _)
  · intro s later call following tasks steps ih rt same
    obtain ⟨order, stepped⟩ := Notify.step_of_steps steps
    have taken : step rt ⟨pid, reason, metadata, .notify call⟩ order = some ({ rt with supervisor := later },
        ⟨pid, reason, metadata, .notify following⟩, tasks.map (.restart none)) := by
      simp only [step, if_neg steps.running, same, stepped, Option.map_some]
    exact .back order taken (ih _ rfl)

end Cleanup

/-- The path supervisor that a clean-up is notifying is one of the first `count`. -/
def Cleanup.Placed (count : Nat) (ending : Cleanup) : Prop :=
  match ending.stage with
  | .notifyPath index _ _ => index < count
  | _ => True

theorem Cleanup.Placed.completes {rt : Runtime} {ending : Cleanup} (placed : ending.Placed rt.pathSupervisors.length) :
    ending.Completes rt := by
  obtain ⟨pid, reason, metadata, stage⟩ := ending
  cases stage with
  | closeMailbox => exact .back [] rfl (completes_notify pid reason metadata _ _)
  | notify call => exact completes_notify pid reason metadata rt call
  | paths todo => exact completes_paths pid reason metadata rt todo
  | notifyPath index call todo =>
    have inside : index < rt.pathSupervisors.length := placed
    exact completes_notifyPath pid reason metadata (fun rt => completes_paths pid reason metadata rt todo)
      (List.getElem?_eq_getElem inside) call
  | deallocate => exact completes_deallocate pid reason metadata rt
  | takeLinks => exact .back [] rfl (completes_retain pid reason metadata _ _ _)
  | retain linked peers => exact completes_retain pid reason metadata rt linked peers
  | send todo => exact completes_send pid reason metadata rt todo
  | done => exact fun others => ⟨[], _, rfl, _, List.mem_cons_self, rfl⟩

theorem Cleanup.Placed.step {rt later : Runtime} {ending next : Cleanup} {order : List Pid} {new : List Worker}
    (placed : ending.Placed rt.pathSupervisors.length) (stepped : ending.step rt order = some (later, next, new)) :
    later.pathSupervisors.length = rt.pathSupervisors.length ∧ next.Placed rt.pathSupervisors.length := by
  obtain ⟨stage, rfl, steps⟩ := steps_of_step stepped
  obtain ⟨pid, reason, metadata, before⟩ := ending
  cases steps with
  | entered present child => exact ⟨rfl, (List.getElem?_eq_some_iff.mp present).1⟩
  | pathNotifying present steps => exact ⟨List.length_set, placed⟩
  | sent =>
    refine ⟨?_, trivial⟩
    unfold Runtime.send
    split <;> rfl
  | _ => exact ⟨rfl, trivial⟩

end Myrmidon
