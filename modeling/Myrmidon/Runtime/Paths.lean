import Myrmidon.Runtime.Lifecycle
import Myrmidon.Runtime.Watching

namespace Myrmidon

open Slab Transition

/-- How a map spreads its keys over shards, each with a lock of its own. -/
structure Sharding where
  count : Nat
  shard : String → Nat
  shard_lt : ∀ path, shard path < count

/-- The supervisors of a runtime. `made` keeps every supervisor ever made for a
    path: iterations and restart tasks may have it when the path no longer does.
    `readers` counts the iterations in each shard of the table. -/
structure Hierarchy where
  supervisor : Supervisor
  made : List (String × Supervisor)
  paths : AList fun _ : String => Nat
  readers : Nat → Nat

namespace Hierarchy

def new : Hierarchy := ⟨.new, [], ∅, fun _ => 0⟩

/-- `none` is the global supervisor. -/
def get (h : Hierarchy) : Option Nat → Option Supervisor
  | none => some h.supervisor
  | some number => (h.made[number]?).map Prod.snd

def set (h : Hierarchy) (owner : Option Nat) (s : Supervisor) : Hierarchy :=
  match owner with
  | none => { h with supervisor := s }
  | some number => { h with made := h.made.modify number fun entry => (entry.1, s) }

def modify (h : Hierarchy) (owner : Option Nat) (change : Supervisor → Supervisor) : Hierarchy :=
  match h.get owner with
  | none => h
  | some s => h.set owner (change s)

/-- A path that has a supervisor keeps it. -/
def createPathSupervisor (h : Hierarchy) (path : String) : Hierarchy :=
  match h.paths.lookup path with
  | some _ => h
  | none => { h with made := h.made ++ [(path, .new)], paths := h.paths.insert path h.made.length }

def removePathSupervisor (h : Hierarchy) (path : String) : Hierarchy := { h with paths := h.paths.erase path }

def pathSupervisorWatch (h : Hierarchy) (path : String) (pid : Pid) : Hierarchy :=
  match h.paths.lookup path with
  | some number => h.modify (some number) fun entry => entry.watch pid
  | none => h.modify none fun supervisor => supervisor.watch pid

def pathSuperviseWithFactory (h : Hierarchy) (path : String) (pid : Pid) (spec : ChildSpec) : Hierarchy :=
  let h := h.createPathSupervisor path
  match h.paths.lookup path with
  | some number => h.modify (some number) fun entry => entry.addChild pid spec
  | none => h

def pathSupervisorChildren (h : Hierarchy) (path : String) : List Pid :=
  match (h.paths.lookup path).bind fun number => h.get (some number) with
  | some entry => entry.children.keys
  | none => []

def addReader (h : Hierarchy) (part : Nat) : Hierarchy :=
  { h with readers := Function.update h.readers part (h.readers part + 1) }

def dropReader (h : Hierarchy) (part : Nat) : Hierarchy :=
  { h with readers := Function.update h.readers part (h.readers part - 1) }

def keysIn (h : Hierarchy) (map : Sharding) (part : Nat) : List String :=
  h.paths.keys.filter fun path => map.shard path = part

end Hierarchy

inductive TellStage where
  | notify (call : Notify)
  | visit (part : Nat) (todo : List Nat)
  | notifyPath (part number : Nat) (call : Notify) (todo : List Nat)
  | told
  deriving DecidableEq

/-- What the clean-up after an exit does with the supervisors; `asked` are those
    of paths that it has asked for the pid. -/
structure Tell where
  pid : Pid
  asked : List Nat
  stage : TellStage
  deriving DecidableEq

/-- An exit that is being told, or a restart task of one of the supervisors. -/
inductive Aftermath where
  | telling (tell : Tell)
  | restart (owner : Option Nat) (task : Task)
  deriving DecidableEq

/-- The order in which a map is iterated, and what a factory returns. -/
structure Choice where
  children : List Pid
  paths : List String
  result : Except String Pid

/-- The iteration comes to a shard, or to its end. While it is in a shard, that is
    locked for reading, so its entries stay what they are. -/
def Hierarchy.enter (h : Hierarchy) (map : Sharding) (part : Nat) (order : List String) :
    Option (Hierarchy × TellStage) :=
  if part < map.count then
    if order.Perm (h.keysIn map part) then some (h.addReader part, .visit part (order.filterMap h.paths.lookup))
    else none
  else some (h, .told)

namespace Tell

def new (pid : Pid) : Tell := ⟨pid, [], .notify (.new pid)⟩

def step (map : Sharding) (h : Hierarchy) (tell : Tell) (choice : Choice) :
    Option (Hierarchy × Tell × List Aftermath) :=
  match tell.stage with
  | .notify call =>
    if call.stage = .returned then
      (h.enter map 0 choice.paths).map fun (h, stage) => (h, { tell with stage }, [])
    else
      (call.step h.supervisor choice.children).map fun (s, call, tasks) =>
        (h.set none s, { tell with stage := .notify call }, tasks.map (.restart none))
  | .visit part [] =>
    ((h.dropReader part).enter map (part + 1) choice.paths).map fun (h, stage) => (h, { tell with stage }, [])
  | .visit part (number :: todo) =>
    (h.get (some number)).map fun s =>
      let stage := if s.containsChild tell.pid then .notifyPath part number (.new tell.pid) todo else .visit part todo
      (h, { tell with asked := tell.asked ++ [number], stage }, [])
  | .notifyPath part number call todo =>
    if call.stage = .returned then some (h, { tell with stage := .visit part todo }, [])
    else
      (h.get (some number)).bind fun s =>
        (call.step s choice.children).map fun (s, call, tasks) =>
          (h.set (some number) s, { tell with stage := .notifyPath part number call todo },
            tasks.map (.restart (some number)))
  | .told => none

end Tell

def Aftermath.step (map : Sharding) (h : Hierarchy) (choice : Choice) :
    Aftermath → Option (Hierarchy × Aftermath × List Aftermath)
  | .telling tell => (tell.step map h choice).map fun (h, tell, new) => (h, .telling tell, new)
  | .restart owner task =>
    (h.get owner).bind fun s =>
      (task.step s choice.result).map fun (s, task) => (h.set owner s, .restart owner task, [])

inductive PathOperation where
  | create (path : String)
  | remove (path : String)
  | watch (path : String) (pid : Pid)
  | supervise (path : String) (pid : Pid) (spec : ChildSpec)
  | register (registration : Registration)

/-- An operation that changes the table waits for the iterations in the shard. -/
def PathOperation.apply (map : Sharding) (h : Hierarchy) : PathOperation → Option Hierarchy
  | .create path => if h.readers (map.shard path) = 0 then some (h.createPathSupervisor path) else none
  | .remove path => if h.readers (map.shard path) = 0 then some (h.removePathSupervisor path) else none
  | .watch path pid => some (h.pathSupervisorWatch path pid)
  | .supervise path pid spec =>
    if h.readers (map.shard path) = 0 then some (h.pathSuperviseWithFactory path pid spec) else none
  | .register registration => some (h.modify none registration.apply)

/-- Any number of exits and restarts under the supervisors of a runtime, with
    whoever makes, removes and fills those of paths. -/
def pathTable (map : Sharding) : Program Hierarchy Aftermath Choice PathOperation where
  starts
    | .telling tell => tell = .new tell.pid
    | .restart _ _ => false
  step _ h thread choice := thread.step map h choice
  ambient h operation := operation.apply map h

/-- What entering a shard does. -/
inductive Hierarchy.Enters (h : Hierarchy) (map : Sharding) (part : Nat) : Hierarchy → TellStage → Prop where
  | shard {order : List String} (inside : part < map.count) (whole : order.Perm (h.keysIn map part)) :
      Enters h map part (h.addReader part) (.visit part (order.filterMap h.paths.lookup))
  | past (outside : map.count ≤ part) : Enters h map part h .told

theorem Hierarchy.enters_of_enter {h later : Hierarchy} {map : Sharding} {part : Nat} {order : List String}
    {stage : TellStage} (entered : h.enter map part order = some (later, stage)) : h.Enters map part later stage := by
  unfold enter at entered
  split at entered
  · rename_i inside
    split at entered
    · rename_i whole
      cases entered
      exact .shard inside whole
    · cases entered
  · rename_i outside
    cases entered
    exact .past (Nat.not_lt.mp outside)

/-- Everything one step of telling an exit can do. -/
inductive Tell.Steps (map : Sharding) (h : Hierarchy) (tell : Tell) : Hierarchy → Tell → List Aftermath → Prop where
  | notified {call next : Notify} {s : Supervisor} {tasks : List Task} (stage : tell.stage = .notify call)
      (steps : call.Steps h.supervisor s next tasks) :
      Steps map h tell (h.set none s) { tell with stage := .notify next } (tasks.map (.restart none))
  | began {call : Notify} {later : Hierarchy} {next : TellStage} (stage : tell.stage = .notify call)
      (ended : call.stage = .returned) (enters : h.Enters map 0 later next) :
      Steps map h tell later { tell with stage := next } []
  | moved {part : Nat} {later : Hierarchy} {next : TellStage} (stage : tell.stage = .visit part [])
      (enters : (h.dropReader part).Enters map (part + 1) later next) :
      Steps map h tell later { tell with stage := next } []
  | asked {part number : Nat} {todo : List Nat} {s : Supervisor} (stage : tell.stage = .visit part (number :: todo))
      (present : h.get (some number) = some s) (foreign : s.containsChild tell.pid = false) :
      Steps map h tell h { tell with asked := tell.asked ++ [number], stage := .visit part todo } []
  | found {part number : Nat} {todo : List Nat} {s : Supervisor} (stage : tell.stage = .visit part (number :: todo))
      (present : h.get (some number) = some s) (child : s.containsChild tell.pid = true) :
      Steps map h tell h
        { tell with asked := tell.asked ++ [number], stage := .notifyPath part number (.new tell.pid) todo } []
  | pathNotified {part number : Nat} {call next : Notify} {todo : List Nat} {s later : Supervisor} {tasks : List Task}
      (stage : tell.stage = .notifyPath part number call todo) (present : h.get (some number) = some s)
      (steps : call.Steps s later next tasks) :
      Steps map h tell (h.set (some number) later) { tell with stage := .notifyPath part number next todo }
        (tasks.map (.restart (some number)))
  | returned {part number : Nat} {call : Notify} {todo : List Nat}
      (stage : tell.stage = .notifyPath part number call todo) (ended : call.stage = .returned) :
      Steps map h tell h { tell with stage := .visit part todo } []

theorem Tell.steps_of_step {map : Sharding} {h later : Hierarchy} {tell next : Tell} {choice : Choice}
    {new : List Aftermath} (stepped : tell.step map h choice = some (later, next, new)) :
    tell.Steps map h later next new := by
  obtain ⟨pid, asked, stage⟩ := tell
  cases stage with
  | notify call =>
    simp only [step] at stepped
    split at stepped
    · rename_i ended
      obtain ⟨⟨_, _⟩, entered, same⟩ := Option.map_eq_some_iff.mp stepped
      cases same
      exact .began rfl ended (Hierarchy.enters_of_enter entered)
    · obtain ⟨⟨_, _, _⟩, advanced, same⟩ := Option.map_eq_some_iff.mp stepped
      cases same
      exact .notified rfl (Notify.steps_of_step advanced)
  | visit part todo =>
    cases todo with
    | nil =>
      obtain ⟨⟨_, _⟩, entered, same⟩ := Option.map_eq_some_iff.mp stepped
      cases same
      exact .moved rfl (Hierarchy.enters_of_enter entered)
    | cons number todo =>
      obtain ⟨s, present, same⟩ := Option.map_eq_some_iff.mp stepped
      cases child : s.containsChild pid with
      | true =>
        simp only [child, if_true] at same
        cases same
        exact .found rfl present child
      | false =>
        simp only [child, Bool.false_eq_true, if_false] at same
        cases same
        exact .asked rfl present child
  | notifyPath part number call todo =>
    simp only [step] at stepped
    split at stepped
    · rename_i ended
      cases stepped
      exact .returned rfl ended
    · obtain ⟨s, present, advanced⟩ := Option.bind_eq_some_iff.mp stepped
      obtain ⟨⟨_, _, _⟩, notified, same⟩ := Option.map_eq_some_iff.mp advanced
      cases same
      exact .pathNotified rfl present (Notify.steps_of_step notified)
  | told => cases stepped

/-- Everything one step of a thread can do. -/
inductive Aftermath.Steps (map : Sharding) (h : Hierarchy) :
    Aftermath → Hierarchy → Aftermath → List Aftermath → Prop where
  | told {tell next : Tell} {later : Hierarchy} {new : List Aftermath} (steps : tell.Steps map h later next new) :
      Steps map h (.telling tell) later (.telling next) new
  | restarted {owner : Option Nat} {task next : Task} {s later : Supervisor} (present : h.get owner = some s)
      (steps : task.Steps s later next) : Steps map h (.restart owner task) (h.set owner later) (.restart owner next) []

theorem Aftermath.steps_of_step {map : Sharding} {index : Nat} {h later : Hierarchy} {thread next : Aftermath}
    {choice : Choice} {new : List Aftermath}
    (stepped : (pathTable map).step index h thread choice = some (later, next, new)) :
    thread.Steps map h later next new := by
  cases thread with
  | telling tell =>
    obtain ⟨⟨_, _, _⟩, told, same⟩ := Option.map_eq_some_iff.mp stepped
    cases same
    exact .told (Tell.steps_of_step told)
  | restart owner task =>
    obtain ⟨s, present, advanced⟩ := Option.bind_eq_some_iff.mp stepped
    obtain ⟨⟨_, _⟩, restarted, same⟩ := Option.map_eq_some_iff.mp advanced
    cases same
    exact .restarted present (Task.steps_of_step restarted)

end Myrmidon
