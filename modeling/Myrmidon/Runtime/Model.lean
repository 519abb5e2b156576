import Myrmidon.Mailbox.Model
import Myrmidon.Supervisor.Model
import Myrmidon.Transition.Interleaving

namespace Myrmidon

open Slab Transition

/-- The tables of a runtime. A mailbox is one of `actors`; `mailboxes` has the
    senders, by the number of the mailbox they feed. -/
structure Runtime where
  slab : SlabAllocator
  mailboxes : AList fun _ : Pid => Nat
  actors : List Mailbox
  supervisor : Supervisor
  pathSupervisors : List Supervisor

namespace Runtime

def send (rt : Runtime) (pid : Pid) (message : Message) : Except Message Unit × Runtime :=
  match (rt.mailboxes.lookup pid).bind fun id => (rt.actors[id]?).map fun mailbox => (id, mailbox) with
  | none => (.error message, rt)
  | some (id, mailbox) =>
    let (result, mailbox) := mailbox.send message
    (result, { rt with actors := rt.actors.set id mailbox })

end Runtime

inductive CleanupStage where
  | closeMailbox
  | notify (call : Notify)
  | paths (todo : List Nat)
  | notifyPath (index : Nat) (call : Notify) (todo : List Nat)
  | deallocate
  | takeLinks
  | retain (linked peers : List Pid)
  | send (todo : List Pid)
  | done
  deriving DecidableEq

/-- The end of the task that `spawn_actor` starts, after the actor has exited. -/
structure Cleanup where
  pid : Pid
  reason : ExitReason
  metadata : Option String
  stage : CleanupStage
  deriving DecidableEq

inductive Worker where
  | cleanup (cleanup : Cleanup)
  | restart (owner : Option Nat) (task : Task)
  deriving DecidableEq

namespace Cleanup

def new (pid : Pid) (reason : ExitReason) (metadata : Option String) : Cleanup :=
  ⟨pid, reason, metadata, .closeMailbox⟩

def message (cleanup : Cleanup) : Message :=
  .system (.exit ⟨cleanup.pid, cleanup.reason, cleanup.metadata⟩)

def step (rt : Runtime) (cleanup : Cleanup) (order : List Pid) : Option (Runtime × Cleanup × List Worker) :=
  let pid := cleanup.pid
  match cleanup.stage with
  | .closeMailbox =>
    some ({ rt with mailboxes := rt.mailboxes.erase pid }, { cleanup with stage := .notify (.new pid) }, [])
  | .notify call =>
    if call.stage = .returned then
      some (rt, { cleanup with stage := .paths (List.range rt.pathSupervisors.length) }, [])
    else
      (call.step rt.supervisor order).map fun (supervisor, call, tasks) =>
        ({ rt with supervisor }, { cleanup with stage := .notify call }, tasks.map (.restart none))
  | .paths [] => some (rt, { cleanup with stage := .deallocate }, [])
  | .paths (index :: todo) =>
    match rt.pathSupervisors[index]? with
    | none => some (rt, { cleanup with stage := .paths todo }, [])
    | some supervisor =>
      if supervisor.containsChild pid then
        some (rt, { cleanup with stage := .notifyPath index (.new pid) todo }, [])
      else some (rt, { cleanup with stage := .paths todo }, [])
  | .notifyPath index call todo =>
    if call.stage = .returned then some (rt, { cleanup with stage := .paths todo }, [])
    else
      match rt.pathSupervisors[index]? with
      | none => none
      | some supervisor =>
        (call.step supervisor order).map fun (supervisor, call, tasks) =>
          ({ rt with pathSupervisors := rt.pathSupervisors.set index supervisor },
            { cleanup with stage := .notifyPath index call todo }, tasks.map (.restart (some index)))
  | .deallocate =>
    some ({ rt with slab := (rt.slab.deallocate pid).2 }, { cleanup with stage := .takeLinks }, [])
  | .takeLinks =>
    let (linked, supervisor) := rt.supervisor.takeLinks pid
    some ({ rt with supervisor }, { cleanup with stage := .retain linked linked }, [])
  | .retain linked [] => some (rt, { cleanup with stage := .send linked }, [])
  | .retain linked (peer :: peers) =>
    some ({ rt with supervisor := rt.supervisor.forget peer pid }, { cleanup with stage := .retain linked peers }, [])
  | .send [] => some (rt, { cleanup with stage := .done }, [])
  | .send (peer :: todo) =>
    some ((rt.send peer cleanup.message).2, { cleanup with stage := .send todo }, [])
  | .done => none

/-- Everything one step of the clean-up can do, by the stages before and after it. -/
inductive Steps (rt : Runtime) (ending : Cleanup) : CleanupStage → Runtime → CleanupStage → List Worker → Prop where
  | closed : Steps rt ending .closeMailbox { rt with mailboxes := rt.mailboxes.erase ending.pid }
      (.notify (.new ending.pid)) []
  | notified {call : Notify} (ended : call.stage = .returned) :
      Steps rt ending (.notify call) rt (.paths (List.range rt.pathSupervisors.length)) []
  | notifying {call next : Notify} {later : Supervisor} {tasks : List Task}
      (steps : call.Steps rt.supervisor later next tasks) :
      Steps rt ending (.notify call) { rt with supervisor := later } (.notify next) (tasks.map (.restart none))
  | pathsDone : Steps rt ending (.paths []) rt .deallocate []
  | skipped {index : Nat} {todo : List Nat}
      (foreign : ∀ s, rt.pathSupervisors[index]? = some s → s.containsChild ending.pid = false) :
      Steps rt ending (.paths (index :: todo)) rt (.paths todo) []
  | entered {index : Nat} {todo : List Nat} {s : Supervisor} (present : rt.pathSupervisors[index]? = some s)
      (child : s.containsChild ending.pid = true) :
      Steps rt ending (.paths (index :: todo)) rt (.notifyPath index (.new ending.pid) todo) []
  | pathNotified {index : Nat} {call : Notify} {todo : List Nat} (ended : call.stage = .returned) :
      Steps rt ending (.notifyPath index call todo) rt (.paths todo) []
  | pathNotifying {index : Nat} {call next : Notify} {todo : List Nat} {s later : Supervisor} {tasks : List Task}
      (present : rt.pathSupervisors[index]? = some s) (steps : call.Steps s later next tasks) :
      Steps rt ending (.notifyPath index call todo)
        { rt with pathSupervisors := rt.pathSupervisors.set index later } (.notifyPath index next todo)
        (tasks.map (.restart (some index)))
  | deallocated : Steps rt ending .deallocate { rt with slab := (rt.slab.deallocate ending.pid).2 } .takeLinks []
  | took : Steps rt ending .takeLinks { rt with supervisor := (rt.supervisor.takeLinks ending.pid).2 }
      (.retain (rt.supervisor.takeLinks ending.pid).1 (rt.supervisor.takeLinks ending.pid).1) []
  | retained {linked peers : List Pid} {peer : Pid} :
      Steps rt ending (.retain linked (peer :: peers)) { rt with supervisor := rt.supervisor.forget peer ending.pid }
        (.retain linked peers) []
  | retainedAll {linked : List Pid} : Steps rt ending (.retain linked []) rt (.send linked) []
  | sent {todo : List Pid} {peer : Pid} :
      Steps rt ending (.send (peer :: todo)) (rt.send peer ending.message).2 (.send todo) []
  | sentAll : Steps rt ending (.send []) rt .done []

theorem steps_of_step {rt later : Runtime} {ending next : Cleanup} {order : List Pid} {new : List Worker}
    (stepped : ending.step rt order = some (later, next, new)) :
    ∃ stage, next = { ending with stage } ∧ Steps rt ending ending.stage later stage new := by
  obtain ⟨pid, reason, metadata, stage⟩ := ending
  cases stage with
  | closeMailbox =>
    cases stepped
    exact ⟨_, rfl, .closed⟩
  | notify call =>
    simp only [step] at stepped
    split at stepped
    · rename_i ended
      cases stepped
      exact ⟨_, rfl, .notified ended⟩
    · obtain ⟨_, done, same⟩ := Option.map_eq_some_iff.mp stepped
      cases same
      exact ⟨_, rfl, .notifying (Notify.steps_of_step done)⟩
  | paths todo =>
    cases todo with
    | nil =>
      cases stepped
      exact ⟨_, rfl, .pathsDone⟩
    | cons index todo =>
      simp only [step] at stepped
      split at stepped
      · rename_i absent
        cases stepped
        refine ⟨_, rfl, .skipped ?_⟩
        intro s present
        cases absent.symm.trans present
      · rename_i s present
        split at stepped
        · rename_i child
          cases stepped
          exact ⟨_, rfl, .entered present child⟩
        · rename_i other
          cases stepped
          refine ⟨_, rfl, .skipped ?_⟩
          intro s' same
          cases present.symm.trans same
          exact Bool.eq_false_iff.mpr other
  | notifyPath index call todo =>
    simp only [step] at stepped
    split at stepped
    · rename_i ended
      cases stepped
      exact ⟨_, rfl, .pathNotified ended⟩
    · split at stepped
      · cases stepped
      · rename_i s present
        obtain ⟨_, done, same⟩ := Option.map_eq_some_iff.mp stepped
        cases same
        exact ⟨_, rfl, .pathNotifying present (Notify.steps_of_step done)⟩
  | deallocate =>
    cases stepped
    exact ⟨_, rfl, .deallocated⟩
  | takeLinks =>
    cases stepped
    exact ⟨_, rfl, .took⟩
  | retain linked peers =>
    cases peers with
    | nil =>
      cases stepped
      exact ⟨_, rfl, .retainedAll⟩
    | cons peer peers =>
      cases stepped
      exact ⟨_, rfl, .retained⟩
  | send todo =>
    cases todo with
    | nil =>
      cases stepped
      exact ⟨_, rfl, .sentAll⟩
    | cons peer todo =>
      cases stepped
      exact ⟨_, rfl, .sent⟩
  | done => cases stepped

end Cleanup

def Worker.step (rt : Runtime) (worker : Worker) (result : Except String Pid) (order : List Pid) :
    Option (Runtime × Worker × List Worker) :=
  match worker with
  | .cleanup ending =>
    (ending.step rt order).map fun (rt, ending, workers) => (rt, .cleanup ending, workers)
  | .restart none task =>
    (task.step rt.supervisor result).map fun (supervisor, task) =>
      ({ rt with supervisor }, .restart none task, [])
  | .restart (some index) task =>
    match rt.pathSupervisors[index]? with
    | none => none
    | some supervisor =>
      (task.step supervisor result).map fun (supervisor, task) =>
        ({ rt with pathSupervisors := rt.pathSupervisors.set index supervisor }, .restart (some index) task, [])

/-- The clean-up of an exited actor, with the restart tasks that it spawns. A
    factory's result and the order of a map's iteration are given from outside. -/
def exitCleanup : Program Runtime Worker (Except String Pid × List Pid) Empty where
  starts _ := false
  step _ rt worker outside := worker.step rt outside.1 outside.2
  ambient _ operation := operation.elim

end Myrmidon
