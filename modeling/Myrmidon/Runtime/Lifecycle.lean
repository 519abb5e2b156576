import Myrmidon.Runtime.Model
import Myrmidon.Slab.Liveness
import Myrmidon.Supervisor.Tokens

namespace Myrmidon

open Slab Transition

namespace Runtime

def new (supervisor : Supervisor) (pathSupervisors : List Supervisor) : Runtime :=
  ⟨.new, ∅, [], supervisor, pathSupervisors⟩

def supervisorOf (rt : Runtime) : Option Nat → Option Supervisor
  | none => some rt.supervisor
  | some index => rt.pathSupervisors[index]?

def setSupervisor (rt : Runtime) (owner : Option Nat) (s : Supervisor) : Runtime :=
  match owner with
  | none => { rt with supervisor := s }
  | some index => { rt with pathSupervisors := rt.pathSupervisors.set index s }

/-- The sender in the table is the last one of its mailbox. -/
def stop (rt : Runtime) (pid : Pid) : Runtime :=
  match rt.mailboxes.lookup pid with
  | none => rt
  | some id =>
    { rt with mailboxes := rt.mailboxes.erase pid, actors := rt.actors.modify id Mailbox.dropSenders }

end Runtime

/-- A runtime with the record of every spawn, the newest first: the pid and the
    number of the actor's mailbox. -/
structure World where
  runtime : Runtime
  spawned : List (Pid × Nat)

namespace World

def newest (w : World) (pid : Pid) : Option Nat := (w.spawned.find? fun entry => entry.1 = pid).map Prod.snd

/-- Allocation and insertion are under the lock of the slab. -/
def spawnActor (w : World) : Option (Pid × Nat × World) :=
  match w.runtime.slab.allocate with
  | none => none
  | some (pid, slab) =>
    let id := w.runtime.actors.length
    let runtime := { w.runtime with
      slab, mailboxes := w.runtime.mailboxes.insert pid id, actors := w.runtime.actors ++ [.channel] }
    some (pid, id, ⟨runtime, (pid, id) :: w.spawned⟩)

def modifyMailbox (w : World) (id : Nat) (change : Mailbox → Mailbox) : World :=
  { w with runtime := { w.runtime with actors := w.runtime.actors.modify id change } }

def setSupervisor (w : World) (owner : Option Nat) (s : Supervisor) : World :=
  { w with runtime := w.runtime.setSupervisor owner s }

end World

/-- A call of `spawn_actor`, an actor with its mailbox, the task that cleans up
    after it, and a restart task of one of the supervisors. -/
inductive Life where
  | spawning
  | running (pid : Pid) (id : Nat)
  | ending (id : Nat) (cleanup : Cleanup)
  | restart (owner : Option Nat) (task : Task)
  deriving DecidableEq

def Life.ofWorker : Worker → Option Life
  | .cleanup _ => none
  | .restart owner task => some (.restart owner task)

/-- What an actor does next. -/
inductive Deed where
  | receive
  | exit (reason : ExitReason) (metadata : Option String)

/-- What a factory does: it spawns an actor and returns its pid, or it returns something else. -/
inductive Outcome where
  | spawned
  | returned (result : Except String Pid)

structure Fate where
  deed : Deed
  outcome : Outcome
  order : List Pid

inductive Operation where
  | stop (pid : Pid)
  | send (pid : Pid) (message : Message)
  | register (owner : Option Nat) (registration : Registration)
  | link (a b : Pid)

def Registration.apply (s : Supervisor) : Registration → Supervisor
  | .addChild pid spec => s.addChild pid spec
  | .watch pid => s.watch pid

namespace Life

def advance (w : World) (owner : Option Nat) (task : Task) (result : Except String Pid) (new : List Life) :
    Option (World × Life × List Life) :=
  match w.runtime.supervisorOf owner with
  | none => none
  | some s => (task.step s result).map fun (s, task) => (w.setSupervisor owner s, .restart owner task, new)

def callsFactory (task : Task) : Bool :=
  match task.stage, task.spec.factory with
  | .call, .foreign _ => true
  | _, _ => false

def step (w : World) (life : Life) (fate : Fate) : Option (World × Life × List Life) :=
  match life with
  | .spawning => w.spawnActor.map fun (pid, id, w) => (w, .running pid id, [])
  | .running pid id =>
    match fate.deed with
    | .receive => some (w.modifyMailbox id fun m => m.tryRecv.2, .running pid id, [])
    | .exit reason metadata =>
      some (w.modifyMailbox id .dropReceiver, .ending id (.new pid reason metadata), [])
  | .ending id cleanup =>
    (cleanup.step w.runtime fate.order).map fun (runtime, cleanup, workers) =>
      ({ w with runtime }, .ending id cleanup, workers.filterMap ofWorker)
  | .restart owner task =>
    match fate.outcome with
    | .returned result => advance w owner task result []
    | .spawned =>
      if callsFactory task then
        w.spawnActor.bind fun (pid, id, w) => advance w owner task (.ok pid) [.running pid id]
      else none

end Life

/-- The life cycles of any number of actors on one runtime. -/
def lifecycle : Program World Life Fate Operation where
  starts life := life = .spawning
  step _ w life fate := life.step w fate
  ambient w
    | .stop pid => some { w with runtime := w.runtime.stop pid }
    | .send pid message => some { w with runtime := (w.runtime.send pid message).2 }
    | .register owner registration =>
      (w.runtime.supervisorOf owner).map fun s => w.setSupervisor owner (registration.apply s)
    | .link a b => some (w.setSupervisor none (w.runtime.supervisor.link a b))

namespace Life

/-- Everything one step of a life cycle can do. -/
inductive Steps (w : World) : Life → World → Life → List Life → Prop where
  | spawned {pid : Pid} {id : Nat} {later : World} (spawn : w.spawnActor = some (pid, id, later)) :
      Steps w .spawning later (.running pid id) []
  | received {pid : Pid} {id : Nat} :
      Steps w (.running pid id) (w.modifyMailbox id fun m => m.tryRecv.2) (.running pid id) []
  | exited {pid : Pid} {id : Nat} {reason : ExitReason} {metadata : Option String} :
      Steps w (.running pid id) (w.modifyMailbox id .dropReceiver) (.ending id (.new pid reason metadata)) []
  | cleaned {id : Nat} {ending : Cleanup} {stage : CleanupStage} {runtime : Runtime} {workers : List Worker}
      (steps : ending.Steps w.runtime ending.stage runtime stage workers) :
      Steps w (.ending id ending) { w with runtime } (.ending id { ending with stage }) (workers.filterMap ofWorker)
  | restarted {owner : Option Nat} {restart next : Task} {s later : Supervisor} {result : Except String Pid}
      (present : w.runtime.supervisorOf owner = some s) (stepped : restart.step s result = some (later, next)) :
      Steps w (.restart owner restart) (w.setSupervisor owner later) (.restart owner next) []
  | respawned {owner : Option Nat} {restart next : Task} {s later : Supervisor} {middle : World} {pid : Pid} {id : Nat}
      (calls : callsFactory restart = true) (spawn : w.spawnActor = some (pid, id, middle))
      (present : middle.runtime.supervisorOf owner = some s) (stepped : restart.step s (.ok pid) = some (later, next)) :
      Steps w (.restart owner restart) (middle.setSupervisor owner later) (.restart owner next) [.running pid id]

theorem advance_eq_some {w later : World} {owner : Option Nat} {task : Task} {result : Except String Pid}
    {life : Life} {new others : List Life} (advanced : advance w owner task result new = some (later, life, others)) :
    ∃ s s' next, w.runtime.supervisorOf owner = some s ∧ task.step s result = some (s', next) ∧
      later = w.setSupervisor owner s' ∧ life = .restart owner next ∧ others = new := by
  unfold advance at advanced
  split at advanced
  · cases advanced
  · rename_i s present
    obtain ⟨⟨s', next⟩, stepped, same⟩ := Option.map_eq_some_iff.mp advanced
    cases same
    exact ⟨s, s', next, present, stepped, rfl, rfl, rfl⟩

theorem steps_of_step {index : Nat} {w later : World} {life next : Life} {new : List Life} {fate : Fate}
    (stepped : lifecycle.step index w life fate = some (later, next, new)) : life.Steps w later next new := by
  change life.step w fate = some (later, next, new) at stepped
  cases life with
  | spawning =>
    obtain ⟨⟨pid, id, w'⟩, spawn, same⟩ := Option.map_eq_some_iff.mp stepped
    cases same
    exact .spawned spawn
  | running pid id =>
    simp only [step] at stepped
    split at stepped
    · cases stepped
      exact .received
    · cases stepped
      exact .exited
  | ending id ending =>
    obtain ⟨⟨runtime, following, workers⟩, cleaned, same⟩ := Option.map_eq_some_iff.mp stepped
    cases same
    obtain ⟨stage, rfl, steps⟩ := Cleanup.steps_of_step cleaned
    exact .cleaned steps
  | restart owner task =>
    simp only [step] at stepped
    split at stepped
    · obtain ⟨s, s', next, present, taken, rfl, rfl, rfl⟩ := advance_eq_some stepped
      exact .restarted present taken
    · split at stepped
      · rename_i calls
        obtain ⟨⟨pid, id, middle⟩, spawn, advanced⟩ := Option.bind_eq_some_iff.mp stepped
        obtain ⟨s, s', next, present, taken, rfl, rfl, rfl⟩ := advance_eq_some advanced
        exact .respawned calls spawn present taken
      · cases stepped

end Life

end Myrmidon
