import Mathlib.Data.Finset.Basic
import Mathlib.Data.List.AList
import Myrmidon.Slab.Allocator

namespace Myrmidon

inductive RestartStrategy where
  | restartOne
  | restartAll
  deriving DecidableEq

/-- `watch` installs a factory that returns the watched pid; what any other
    factory returns is decided outside. -/
inductive Factory where
  | same (pid : Pid)
  | foreign (id : Nat)
  deriving DecidableEq

def Factory.call : Factory → Except String Pid → Except String Pid
  | .same pid, _ => .ok pid
  | .foreign _, result => result

structure ChildSpec where
  factory : Factory
  strategy : RestartStrategy
  deriving DecidableEq

/-- The shared tables of a supervisor; `registered` keeps every insertion into `children`. -/
structure Supervisor where
  children : AList fun _ : Pid => ChildSpec
  errors : List String
  links : AList fun _ : Pid => List Pid
  restarting : Finset Pid
  registered : List Pid

namespace Supervisor

def new : Supervisor := ⟨∅, [], ∅, ∅, []⟩

def addChild (s : Supervisor) (pid : Pid) (spec : ChildSpec) : Supervisor :=
  { s with children := s.children.insert pid spec, registered := pid :: s.registered }

def watch (s : Supervisor) (pid : Pid) : Supervisor := s.addChild pid ⟨.same pid, .restartOne⟩

def containsChild (s : Supervisor) (pid : Pid) : Bool := (s.children.lookup pid).isSome

def dropChild (s : Supervisor) (pid : Pid) : Supervisor := { s with children := s.children.erase pid }

def flag (s : Supervisor) (pid : Pid) : Supervisor := { s with restarting := insert pid s.restarting }

def unflag (s : Supervisor) (pid : Pid) : Supervisor := { s with restarting := s.restarting.erase pid }

def pushError (s : Supervisor) (error : String) : Supervisor := { s with errors := s.errors ++ [error] }

/-- `links.remove`: the peers of `pid`, which are no longer in the table. -/
def takeLinks (s : Supervisor) (pid : Pid) : List Pid × Supervisor :=
  ((s.links.lookup pid).getD [], { s with links := s.links.erase pid })

/-- `links.get_mut(peer)`, and `retain` of every entry but `pid`. -/
def forget (s : Supervisor) (peer pid : Pid) : Supervisor :=
  match s.links.lookup peer with
  | none => s
  | some pids => { s with links := s.links.insert peer (pids.filter (· ≠ pid)) }

@[simp] theorem forget_children (s : Supervisor) (peer pid : Pid) : (s.forget peer pid).children = s.children := by
  unfold forget
  split <;> rfl

@[simp] theorem forget_restarting (s : Supervisor) (peer pid : Pid) :
    (s.forget peer pid).restarting = s.restarting := by
  unfold forget
  split <;> rfl

@[simp] theorem forget_registered (s : Supervisor) (peer pid : Pid) :
    (s.forget peer pid).registered = s.registered := by
  unfold forget
  split <;> rfl

def pushLink (s : Supervisor) (a b : Pid) : Supervisor :=
  { s with links := s.links.insert a ((s.links.lookup a).getD [] ++ [b]) }

def link (s : Supervisor) (a b : Pid) : Supervisor := (s.pushLink a b).pushLink b a

end Supervisor

inductive NotifyStage where
  | flag
  | lookup
  | unflag
  | snapshot
  | flagGroup (done todo : List (Pid × ChildSpec))
  | spawnGroup (todo : List (Pid × ChildSpec))
  | spawnOne (spec : ChildSpec)
  | returned
  deriving DecidableEq

structure Notify where
  pid : Pid
  stage : NotifyStage
  deriving DecidableEq

/-- Where a restart task is. The paths after a success and after the last
    failure share their end. -/
inductive TaskStage where
  | call
  | insertNew (pid : Pid)
  | pushError (error : String)
  | backoff
  | removeOld
  | removeLinks
  | retain (peers : List Pid)
  | clearFlag
  | finished
  deriving DecidableEq

/-- A restart task; `replacement` is what its factory returned. -/
structure Task where
  orig : Pid
  spec : ChildSpec
  attempts : Nat
  backoffMs : Nat
  replacement : Option Pid
  stage : TaskStage
  deriving DecidableEq

namespace Task

def maxAttempts : Nat := 3

def new (orig : Pid) (spec : ChildSpec) : Task := ⟨orig, spec, 0, 100, none, .call⟩

/-- One step of a restart task; both strategies run the same loop. -/
def step (s : Supervisor) (task : Task) (result : Except String Pid) : Option (Supervisor × Task) :=
  match task.stage with
  | .call =>
    match task.spec.factory.call result with
    | .ok pid =>
      some (s, { task with attempts := task.attempts + 1, replacement := some pid, stage := .insertNew pid })
    | .error error => some (s, { task with attempts := task.attempts + 1, stage := .pushError error })
  | .insertNew pid => some (s.addChild pid task.spec, { task with stage := .removeOld })
  | .pushError error =>
    some (s.pushError error,
      { task with stage := if maxAttempts ≤ task.attempts then .removeOld else .backoff })
  | .backoff => some (s, { task with backoffMs := min (task.backoffMs * 2) (2^64 - 1), stage := .call })
  | .removeOld => some (s.dropChild task.orig, { task with stage := .removeLinks })
  | .removeLinks =>
    let (peers, s) := s.takeLinks task.orig
    some (s, { task with stage := .retain peers })
  | .retain [] => some (s, { task with stage := .clearFlag })
  | .retain (peer :: peers) => some (s.forget peer task.orig, { task with stage := .retain peers })
  | .clearFlag => some (s.unflag task.orig, { task with stage := .finished })
  | .finished => none

/-- Everything one step of a restart task can do. -/
inductive Steps (s : Supervisor) (task : Task) : Supervisor → Task → Prop where
  | answered {pid : Pid} {result : Except String Pid} (stage : task.stage = .call)
      (answer : task.spec.factory.call result = .ok pid) :
      Steps s task s { task with attempts := task.attempts + 1, replacement := some pid, stage := .insertNew pid }
  | refused {error : String} (stage : task.stage = .call) :
      Steps s task s { task with attempts := task.attempts + 1, stage := .pushError error }
  | inserted {pid : Pid} (stage : task.stage = .insertNew pid) :
      Steps s task (s.addChild pid task.spec) { task with stage := .removeOld }
  | gaveUp {error : String} (stage : task.stage = .pushError error) (last : maxAttempts ≤ task.attempts) :
      Steps s task (s.pushError error) { task with stage := .removeOld }
  | failed {error : String} (stage : task.stage = .pushError error) (more : ¬ maxAttempts ≤ task.attempts) :
      Steps s task (s.pushError error) { task with stage := .backoff }
  | waited (stage : task.stage = .backoff) :
      Steps s task s { task with backoffMs := min (task.backoffMs * 2) (2^64 - 1), stage := .call }
  | removed (stage : task.stage = .removeOld) : Steps s task (s.dropChild task.orig) { task with stage := .removeLinks }
  | tookLinks (stage : task.stage = .removeLinks) :
      Steps s task (s.takeLinks task.orig).2 { task with stage := .retain (s.takeLinks task.orig).1 }
  | forgot {peer : Pid} {peers : List Pid} (stage : task.stage = .retain (peer :: peers)) :
      Steps s task (s.forget peer task.orig) { task with stage := .retain peers }
  | forgotAll (stage : task.stage = .retain []) : Steps s task s { task with stage := .clearFlag }
  | cleared (stage : task.stage = .clearFlag) : Steps s task (s.unflag task.orig) { task with stage := .finished }

theorem steps_of_step {s later : Supervisor} {task next : Task} {result : Except String Pid}
    (stepped : task.step s result = some (later, next)) : Steps s task later next := by
  obtain ⟨orig, spec, attempts, backoffMs, replacement, stage⟩ := task
  cases stage with
  | call =>
    simp only [step] at stepped
    split at stepped
    · rename_i pid answer
      cases stepped
      exact .answered rfl answer
    · cases stepped
      exact .refused rfl
  | insertNew pid =>
    cases stepped
    exact .inserted rfl
  | pushError error =>
    cases stepped
    dsimp only
    split
    · rename_i last
      exact .gaveUp rfl last
    · rename_i more
      exact .failed rfl more
  | backoff =>
    cases stepped
    exact .waited rfl
  | removeOld =>
    cases stepped
    exact .removed rfl
  | removeLinks =>
    cases stepped
    exact .tookLinks rfl
  | retain peers =>
    cases peers with
    | nil =>
      cases stepped
      exact .forgotAll rfl
    | cons peer peers =>
      cases stepped
      exact .forgot rfl
  | clearFlag =>
    cases stepped
    exact .cleared rfl
  | finished => cases stepped

end Task

namespace Notify

def new (pid : Pid) : Notify := ⟨pid, .flag⟩

def snapshot (s : Supervisor) (order : List Pid) : List (Pid × ChildSpec) :=
  order.filterMap fun pid => (s.children.lookup pid).map fun spec => (pid, spec)

/-- One step of `notify_exit`, with the restart tasks it spawns. `order` is the
    order of the map's iteration. -/
def step (s : Supervisor) (call : Notify) (order : List Pid) : Option (Supervisor × Notify × List Task) :=
  match call.stage with
  | .flag =>
    if call.pid ∈ s.restarting then some (s, { call with stage := .returned }, [])
    else some (s.flag call.pid, { call with stage := .lookup }, [])
  | .lookup =>
    match s.children.lookup call.pid with
    | none => some (s, { call with stage := .unflag }, [])
    | some spec =>
      match spec.strategy with
      | .restartAll => some (s, { call with stage := .snapshot }, [])
      | .restartOne => some (s, { call with stage := .spawnOne spec }, [])
  | .unflag => some (s.unflag call.pid, { call with stage := .returned }, [])
  | .snapshot =>
    if order.Perm s.children.keys then some (s, { call with stage := .flagGroup [] (snapshot s order) }, [])
    else none
  | .flagGroup done [] => some (s, { call with stage := .spawnGroup done }, [])
  | .flagGroup done (child :: todo) =>
    -- The result of the insertion is ignored here.
    some (s.flag child.1, { call with stage := .flagGroup (done ++ [child]) todo }, [])
  | .spawnGroup [] => some (s, { call with stage := .returned }, [])
  | .spawnGroup (child :: todo) =>
    some (s, { call with stage := .spawnGroup todo }, [Task.new child.1 child.2])
  | .spawnOne spec => some (s, { call with stage := .returned }, [Task.new call.pid spec])
  | .returned => none

/-- Everything one step of `notify_exit` can do. -/
inductive Steps (s : Supervisor) : Notify → Supervisor → Notify → List Task → Prop where
  | ignored {own : Pid} (busy : own ∈ s.restarting) : Steps s ⟨own, .flag⟩ s ⟨own, .returned⟩ []
  | flagged {own : Pid} (free : own ∉ s.restarting) : Steps s ⟨own, .flag⟩ (s.flag own) ⟨own, .lookup⟩ []
  | unknown {own : Pid} (absent : s.children.lookup own = none) : Steps s ⟨own, .lookup⟩ s ⟨own, .unflag⟩ []
  | foundAll {own : Pid} {spec : ChildSpec} (found : s.children.lookup own = some spec)
      (all : spec.strategy = .restartAll) : Steps s ⟨own, .lookup⟩ s ⟨own, .snapshot⟩ []
  | foundOne {own : Pid} {spec : ChildSpec} (found : s.children.lookup own = some spec)
      (one : spec.strategy = .restartOne) : Steps s ⟨own, .lookup⟩ s ⟨own, .spawnOne spec⟩ []
  | unflagged {own : Pid} : Steps s ⟨own, .unflag⟩ (s.unflag own) ⟨own, .returned⟩ []
  | read {own : Pid} {order : List Pid} (whole : order.Perm s.children.keys) :
      Steps s ⟨own, .snapshot⟩ s ⟨own, .flagGroup [] (snapshot s order)⟩ []
  | claimed {own : Pid} {done todo : List (Pid × ChildSpec)} {child : Pid × ChildSpec} :
      Steps s ⟨own, .flagGroup done (child :: todo)⟩ (s.flag child.1) ⟨own, .flagGroup (done ++ [child]) todo⟩ []
  | marked {own : Pid} {done : List (Pid × ChildSpec)} :
      Steps s ⟨own, .flagGroup done []⟩ s ⟨own, .spawnGroup done⟩ []
  | spawned {own : Pid} {todo : List (Pid × ChildSpec)} {child : Pid × ChildSpec} :
      Steps s ⟨own, .spawnGroup (child :: todo)⟩ s ⟨own, .spawnGroup todo⟩ [Task.new child.1 child.2]
  | spawnedAll {own : Pid} : Steps s ⟨own, .spawnGroup []⟩ s ⟨own, .returned⟩ []
  | spawnedOne {own : Pid} {spec : ChildSpec} :
      Steps s ⟨own, .spawnOne spec⟩ s ⟨own, .returned⟩ [Task.new own spec]

theorem steps_of_step {s later : Supervisor} {call next : Notify} {tasks : List Task} {order : List Pid}
    (stepped : call.step s order = some (later, next, tasks)) : Steps s call later next tasks := by
  obtain ⟨own, stage⟩ := call
  cases stage with
  | flag =>
    simp only [step] at stepped
    split at stepped
    · rename_i busy
      cases stepped
      exact .ignored busy
    · rename_i free
      cases stepped
      exact .flagged free
  | lookup =>
    simp only [step] at stepped
    split at stepped
    · rename_i absent
      cases stepped
      exact .unknown absent
    · rename_i spec found
      split at stepped
      · rename_i all
        cases stepped
        exact .foundAll found all
      · rename_i one
        cases stepped
        exact .foundOne found one
  | unflag =>
    cases stepped
    exact .unflagged
  | snapshot =>
    simp only [step] at stepped
    split at stepped
    · rename_i whole
      cases stepped
      exact .read whole
    · cases stepped
  | flagGroup done todo =>
    cases todo with
    | nil =>
      cases stepped
      exact .marked
    | cons child todo =>
      cases stepped
      exact .claimed
  | spawnGroup todo =>
    cases todo with
    | nil =>
      cases stepped
      exact .spawnedAll
    | cons child todo =>
      cases stepped
      exact .spawned
  | spawnOne spec =>
    cases stepped
    exact .spawnedOne
  | returned => cases stepped

end Notify

inductive RemovalStage where
  | dropChild
  | unflag
  | removeLinks
  | retain (peers : List Pid)
  | returned
  deriving DecidableEq

/-- `remove_child` also cleans up the links of the pid, `unwatch` does not. -/
structure Removal where
  pid : Pid
  links : Bool
  stage : RemovalStage
  deriving DecidableEq

namespace Removal

def removeChild (pid : Pid) : Removal := ⟨pid, true, .dropChild⟩

def unwatch (pid : Pid) : Removal := ⟨pid, false, .dropChild⟩

def step (s : Supervisor) (removal : Removal) : Option (Supervisor × Removal) :=
  match removal.stage with
  | .dropChild => some (s.dropChild removal.pid, { removal with stage := .unflag })
  | .unflag =>
    some (s.unflag removal.pid, { removal with stage := if removal.links then .removeLinks else .returned })
  | .removeLinks =>
    let (peers, s) := s.takeLinks removal.pid
    some (s, { removal with stage := .retain peers })
  | .retain [] => some (s, { removal with stage := .returned })
  | .retain (peer :: peers) => some (s.forget peer removal.pid, { removal with stage := .retain peers })
  | .returned => none

inductive Steps (s : Supervisor) (removal : Removal) : Supervisor → Removal → Prop where
  | dropped (stage : removal.stage = .dropChild) :
      Steps s removal (s.dropChild removal.pid) { removal with stage := .unflag }
  | cleared (stage : removal.stage = .unflag) :
      Steps s removal (s.unflag removal.pid)
        { removal with stage := if removal.links then .removeLinks else .returned }
  | tookLinks (stage : removal.stage = .removeLinks) :
      Steps s removal (s.takeLinks removal.pid).2 { removal with stage := .retain (s.takeLinks removal.pid).1 }
  | forgot {peer : Pid} {peers : List Pid} (stage : removal.stage = .retain (peer :: peers)) :
      Steps s removal (s.forget peer removal.pid) { removal with stage := .retain peers }
  | forgotAll (stage : removal.stage = .retain []) : Steps s removal s { removal with stage := .returned }

theorem steps_of_step {s later : Supervisor} {removal next : Removal}
    (stepped : removal.step s = some (later, next)) : Steps s removal later next := by
  obtain ⟨pid, links, stage⟩ := removal
  cases stage with
  | dropChild =>
    cases stepped
    exact .dropped rfl
  | unflag =>
    cases stepped
    exact .cleared rfl
  | removeLinks =>
    cases stepped
    exact .tookLinks rfl
  | retain peers =>
    cases peers with
    | nil =>
      cases stepped
      exact .forgotAll rfl
    | cons peer peers =>
      cases stepped
      exact .forgot rfl
  | returned => cases stepped

end Removal

end Myrmidon
